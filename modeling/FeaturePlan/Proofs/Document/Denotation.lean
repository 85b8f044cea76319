import FeaturePlan.Document.Relocation
import FeaturePlan.Document.Tree
import FeaturePlan.Proofs.Document.Legal

/-! # Trees that stand for parts of a document

What a tree stands for, places aside. Each part of a document is described by the trees from which
it can be told, so that parts which stand side by side do not disturb each other. -/

namespace FeaturePlan

def nowhere (_ : Location) : Location :=
  ⟨1, 1⟩

/-- The step with the category that its keyword has by itself. -/
def Step.plain (d : Dialect) (s : Step) : Step :=
  { s with kind := d.stepKind s.keyword }

namespace Tree

def rule? : Tree → Option Rule
  | leaf _ _ => none
  | node rule _ => some rule

/-! ## Trees side by side -/

variable {rule : Rule} {b : Block} {ts more : List Tree}

theorem parts?_append (rule : Rule) (ts more : List Tree) :
    parts? rule (ts ++ more) = (parts? rule ts).or (parts? rule more) :=
  List.findSome?_append

theorem parts?_eq_none (h : ∀ t ∈ ts, t.rule? ≠ some rule) : parts? rule ts = none := by
  refine List.findSome?_eq_none_iff.mpr fun t ht => ?_
  cases t with
  | leaf token comments => rfl
  | node r parts =>
      have hr : r ≠ rule := fun hr => h _ ht (by rw [rule?, hr])
      simp [hr]

theorem parts?_append_left (h : ∀ t ∈ ts, t.rule? ≠ some rule) :
    parts? rule (ts ++ more) = parts? rule more := by
  rw [parts?_append, parts?_eq_none h, Option.none_or]

theorem parts?_append_right (h : ∀ t ∈ more, t.rule? ≠ some rule) :
    parts? rule (ts ++ more) = parts? rule ts := by
  rw [parts?_append, parts?_eq_none h, Option.or_none]

@[simp] theorem parts?_node (rule : Rule) (parts more : List Tree) :
    parts? rule (node rule parts :: more) = some parts := by
  simp [parts?]

theorem title?_append (b : Block) (ts more : List Tree) :
    title? b (ts ++ more) = (title? b ts).or (title? b more) :=
  List.findSome?_append

theorem title?_eq_none (h : ∀ t ∈ ts, t.rule? ≠ none) : title? b ts = none := by
  refine List.findSome?_eq_none_iff.mpr fun t ht => ?_
  cases t with
  | leaf token comments => exact absurd rfl (h _ ht)
  | node r parts => rfl

theorem title?_append_right (h : ∀ t ∈ more, t.rule? ≠ none) :
    title? b (ts ++ more) = title? b ts := by
  rw [title?_append, title?_eq_none h, Option.or_none]

theorem title?_append_left (h : ∀ t ∈ ts, t.rule? ≠ none) :
    title? b (ts ++ more) = title? b more := by
  rw [title?_append, title?_eq_none h, Option.none_or]

theorem step?_eq_none {t : Tree} (h : t.rule? ≠ some .step) : step? t = none := by
  cases t with
  | leaf token comments => rfl
  | node r parts => cases r <;> first | rfl | exact absurd rfl h

theorem examples?_eq_none {t : Tree} (h : t.rule? ≠ some .examplesDefinition) :
    examples? t = none := by
  cases t with
  | leaf token comments => rfl
  | node r parts => cases r <;> first | rfl | exact absurd rfl h

theorem filterMap_step?_eq_nil (h : ∀ t ∈ ts, t.rule? ≠ some .step) : ts.filterMap step? = [] :=
  List.filterMap_eq_nil_iff.mpr fun t ht => step?_eq_none (h t ht)

theorem filterMap_examples?_eq_nil (h : ∀ t ∈ ts, t.rule? ≠ some .examplesDefinition) :
    ts.filterMap examples? = [] :=
  List.filterMap_eq_nil_iff.mpr fun t ht => examples?_eq_none (h t ht)

/-! ## Tables -/

def HoldRows (rs : List TableRow) (ts : List Tree) : Prop :=
  (rows ts).map (TableRow.relocate nowhere) = rs.map (TableRow.relocate nowhere)

theorem rows_append (ts more : List Tree) : rows (ts ++ more) = rows ts ++ rows more :=
  List.filterMap_append

theorem HoldRows.append {rs more' : List TableRow} (h : HoldRows rs ts)
    (h' : HoldRows more' more) : HoldRows (rs ++ more') (ts ++ more) := by
  rw [HoldRows, rows_append, List.map_append, List.map_append, h, h']

theorem holdRows_leaf {r : TableRow} {place : Location} {d : Dialect} {cells : List Span}
    (h : cells.map (·.text) = r.values) : HoldRows [r] [.leaf ⟨place, d, .row cells⟩ []] := by
  have hc : (cells.map fun c => (⟨⟨1, 1⟩, c.text⟩ : TableCell)) =
      r.cells.map fun c => ⟨⟨1, 1⟩, c.value⟩ := by
    calc _ = (cells.map (·.text)).map fun v => (⟨⟨1, 1⟩, v⟩ : TableCell) := by simp
      _ = _ := by rw [h, TableRow.values]; simp
  simp [HoldRows, rows, TableRow.relocate, nowhere, Function.comp_def, hc]

theorem HoldRows.unevenRow? {rs : List TableRow} (h : HoldRows rs ts)
    (hr : TableRow.AreLegal rs) : unevenRow? ts = none := by
  have hw : ∀ r : TableRow, (r.relocate nowhere).cells.length = r.cells.length := by
    simp [TableRow.relocate]
  have hl : (rows ts).map (·.cells.length) = rs.map (·.cells.length) := by
    have hm := congrArg (List.map fun r : TableRow => r.cells.length) h
    simpa [Function.comp_def, hw] using hm
  rw [Tree.unevenRow?]
  cases hts : rows ts with
  | nil => rfl
  | cons first rest =>
      rw [hts] at hl
      obtain ⟨r₀, rs', rfl, h₀, hrest⟩ := List.map_eq_cons_iff.mp hl.symm
      have heven : rest.find? (fun row => decide (row.cells.length ≠ first.cells.length)) =
          none := by
        rw [List.find?_eq_none]
        intro row hrow
        have hm : row.cells.length ∈ rs'.map (·.cells.length) :=
          hrest ▸ List.mem_map_of_mem hrow
        obtain ⟨r, hr', hlen⟩ := List.mem_map.mp hm
        have hfirst := hr.1 r (List.mem_cons_of_mem r₀ hr') r₀ rfl
        simp [← hlen, hfirst, h₀]
      simp only [heven, Option.map_none]

/-! ## Steps -/

def HoldArgument (argument : Option StepArgument) (ts : List Tree) : Prop :=
  (argument? ts).map (StepArgument.relocate nowhere) =
    argument.map (StepArgument.relocate nowhere)

theorem holdArgument_none : HoldArgument none [] :=
  rfl

theorem holdArgument_table {table : DataTable} (hne : table.rows ≠ [])
    (h : HoldRows table.rows ts) : HoldArgument (some (.table table)) [.node .dataTable ts] := by
  obtain ⟨first, rest, hrows⟩ : ∃ first rest, rows ts = first :: rest := by
    cases hts : rows ts with
    | nil =>
        have hnil : table.rows = [] := by simpa [HoldRows, hts] using h.symm
        exact absurd hnil hne
    | cons first rest => exact ⟨first, rest, rfl⟩
  have ht : dataTable? [.node .dataTable ts] = some ⟨first.place, rows ts⟩ := by
    simp [dataTable?, hrows]
  rw [HoldArgument, argument?, ht]
  have hmap : (rows ts).map (TableRow.relocate nowhere) =
      table.rows.map (TableRow.relocate nowhere) := h
  simp [StepArgument.relocate, nowhere, hmap]

theorem freeLines_append (ts more : List Tree) :
    freeLines (ts ++ more) = freeLines ts ++ freeLines more :=
  List.filterMap_append

/-- A doc string has the free text between its first and its last line. -/
theorem argument?_docString {t t' : Token} {m : Delimiter} {type : String}
    (ht : t.content = .separator m type) (ht' : t'.kind = .separator) (w w' : List Comment)
    (contents : List Tree) :
    argument? [.node .docString (.leaf t w :: contents ++ [.leaf t' w'])] =
      some (.docString ⟨t.place, m, if type = "" then none else some type,
        Text.joinLines (freeLines contents)⟩) := by
  have hlines : freeLines (.leaf t w :: contents ++ [.leaf t' w']) = freeLines contents := by
    obtain ⟨place, d, content⟩ := t
    obtain ⟨place', d', content'⟩ := t'
    subst ht
    cases content' <;> simp_all [freeLines, Token.kind, Content.kind]
  have hdoc : docString? [.node .docString (.leaf t w :: contents ++ [.leaf t' w'])] =
      some ⟨t.place, m, if type = "" then none else some type,
        Text.joinLines (freeLines contents)⟩ := by
    simp only [docString?, parts?_node, Option.bind_eq_bind, Option.bind_some, hlines]
    simp [ht]
  have htable : dataTable? [.node .docString (.leaf t w :: contents ++ [.leaf t' w'])] = none := by
    simp [dataTable?, parts?]
  rw [argument?, hdoc, htable]
  rfl

theorem holdArgument_docString {s : DocString} (hs : s.IsLegal) {t t' : Token} {w w' : List Comment}
    (ht : t.content = .separator s.delimiter (s.contentType.getD ""))
    (ht' : t'.kind = .separator) {contents : List Tree}
    (hc : freeLines contents = (textLines s.content).map String.ofList) :
    HoldArgument (some (.docString s))
      [.node .docString (.leaf t w :: contents ++ [.leaf t' w'])] := by
  have htype : (if s.contentType.getD "" = "" then none else some (s.contentType.getD "")) =
      s.contentType := by
    cases htype : s.contentType with
    | none => rfl
    | some type => simp [(hs.1 type htype).1]
  have hjoin : Text.joinLines (freeLines contents) = s.content := by
    rw [hc]
    exact Text.joinLines_splitOn s.content
  rw [HoldArgument, argument?_docString ht ht', htype, hjoin]
  simp [StepArgument.relocate, nowhere]

structure HoldSteps (d : Dialect) (steps : List Step) (ts : List Tree) : Prop where
  rules : ∀ t ∈ ts, t.rule? = some .step
  steps : (ts.filterMap step?).map (Step.relocate nowhere) =
    steps.map fun s => (s.plain d).relocate nowhere

theorem holdSteps_nil (d : Dialect) : HoldSteps d [] [] :=
  ⟨by simp, rfl⟩

theorem HoldSteps.append {d : Dialect} {steps others : List Step} (h : HoldSteps d steps ts)
    (h' : HoldSteps d others more) : HoldSteps d (steps ++ others) (ts ++ more) where
  rules := List.forall_mem_append.mpr ⟨h.rules, h'.rules⟩
  steps := by rw [List.filterMap_append, List.map_append, List.map_append, h.steps, h'.steps]

theorem holdSteps_step {d : Dialect} {s : Step} {place : Location} {w : List Comment}
    (hw : w.map (Comment.relocate nowhere) = s.comments.map (Comment.relocate nowhere))
    (h : HoldArgument s.argument ts) :
    HoldSteps d [s] [.node .step (.leaf ⟨place, d, .step s.keyword s.text⟩ w :: ts)] where
  rules := by simp [rule?]
  steps := by
    have ha : argument? (.leaf ⟨place, d, .step s.keyword s.text⟩ w :: ts) = argument? ts := rfl
    have h' : (argument? ts).map (StepArgument.relocate nowhere) =
        s.argument.map (StepArgument.relocate nowhere) := h
    simp [step?, ha, Step.relocate, Step.plain, hw, h', nowhere]

/-- What leaves the categories of steps alone can as well be done before these are resolved. -/
theorem map_resolveKinds {g : Step → Step} (hg : ∀ s kind, g { s with kind } = { g s with kind })
    (last : Option StepKind) (steps : List Step) :
    (resolveKinds last steps).map g = resolveKinds last (steps.map g) := by
  induction steps generalizing last with
  | nil => rfl
  | cons s steps ih =>
      have hkind := congrArg Step.kind (hg s s.kind)
      have hk : (g s).kind = s.kind := hkind
      simp only [resolveKinds, List.map_cons, hk, ih, hg s (StepKind.resolve last s.kind).1]

theorem map_relocate_resolveKinds (f : Location → Location) (last : Option StepKind)
    (steps : List Step) :
    (resolveKinds last steps).map (Step.relocate f) =
      resolveKinds last (steps.map (Step.relocate f)) :=
  map_resolveKinds (fun _ _ => rfl) last steps

theorem resolveKinds_plain {d : Dialect} {last : Option StepKind} {steps : List Step}
    (h : steps.map (·.kind) =
      StepKind.resolveAll last (steps.map fun s => d.stepKind s.keyword)) :
    resolveKinds last (steps.map fun s => (s.plain d).relocate nowhere) =
      steps.map (Step.relocate nowhere) := by
  induction steps generalizing last with
  | nil => rfl
  | cons s steps ih =>
      simp only [List.map_cons, StepKind.resolveAll, List.cons.injEq] at h
      have hk : ((s.plain d).relocate nowhere).kind = d.stepKind s.keyword := rfl
      simp only [List.map_cons, resolveKinds, hk, ih h.2, ← h.1]
      rfl

theorem HoldSteps.steps_eq {d : Dialect} {steps : List Step} (h : HoldSteps d steps ts)
    (hl : Step.AreLegal d steps) (before after : List Tree)
    (hb : ∀ t ∈ before, t.rule? ≠ some .step) (ha : ∀ t ∈ after, t.rule? ≠ some .step) :
    (Tree.steps (before ++ ts ++ after)).map (Step.relocate nowhere) =
      steps.map (Step.relocate nowhere) := by
  rw [Tree.steps, List.filterMap_append, List.filterMap_append, filterMap_step?_eq_nil hb,
    filterMap_step?_eq_nil ha, List.nil_append, List.append_nil, map_relocate_resolveKinds,
    h.steps, resolveKinds_plain hl.2]

/-! ## Headings -/

def HoldDescription (text : Option String) (ts : List Tree) : Prop :=
  match text with
  | none => ts = []
  | some text => ∃ leaves, ts = [.node .description leaves] ∧
      freeLines leaves = (textLines text).map String.ofList

theorem HoldDescription.rules {text : Option String} (h : HoldDescription text ts) :
    ∀ t ∈ ts, t.rule? = some .description := by
  cases text with
  | none => simp [show ts = [] from h]
  | some text =>
      obtain ⟨leaves, rfl, -⟩ := h
      simp [rule?]

/-- Nothing is left out at the end of a text whose last line can be seen. -/
theorem withoutBlankEnd_of_getLast? {ls : List String}
    (h : ∀ l ∈ ls.getLast?, ¬Text.isInvisible l.toList) : withoutBlankEnd ls = ls := by
  rcases List.eq_nil_or_concat ls with rfl | ⟨ls, l, rfl⟩
  · rfl
  · have hl : Text.trim l.toList ≠ [] := h l (by simp)
    simp [withoutBlankEnd, hl]

theorem HoldDescription.description?_eq {d : Dialect} {text : Option String}
    (h : HoldDescription text ts) (hl : ∀ s ∈ text, d.IsDescription s) :
    description? ts = text := by
  cases text with
  | none => simp [show ts = [] from h, description?, parts?]
  | some text =>
      obtain ⟨leaves, rfl, hlines⟩ := h
      have hlast := (hl text rfl).2.2
      have hend : withoutBlankEnd (freeLines leaves) = freeLines leaves := by
        refine withoutBlankEnd_of_getLast? ?_
        rw [hlines]
        simpa using hlast
      rw [description?, parts?_node, Option.map_some, hend, hlines]
      exact congrArg some (Text.joinLines_splitOn text)

/-- The trees are the title of a block and the text below it. -/
structure HoldHeading (d : Dialect) (b : Block) (h : Heading) (comments : List Comment)
    (ts : List Tree) : Prop where
  rules : ∀ t ∈ ts, t.rule? = none ∨ t.rule? = some .description
  heading : ∃ token title w, title? b ts = some (token, title, w) ∧ token.dialect = d ∧
    ({ title with description := description? ts } : Heading).relocate nowhere =
      h.relocate nowhere ∧
    w.map (Comment.relocate nowhere) = comments.map (Comment.relocate nowhere)

theorem holdHeading_title {d : Dialect} {b : Block} {h : Heading} (hl : h.IsLegal d b)
    {place : Location} {w comments : List Comment}
    (hw : w.map (Comment.relocate nowhere) = comments.map (Comment.relocate nowhere))
    (hd : HoldDescription h.description ts) :
    HoldHeading d b h comments (.leaf ⟨place, d, .title b h.keyword h.name⟩ w :: ts) where
  rules := by
    intro t ht
    rcases List.mem_cons.mp ht with rfl | ht
    · exact .inl rfl
    · exact .inr (hd.rules t ht)
  heading := by
    have hdesc : description? (.leaf ⟨place, d, .title b h.keyword h.name⟩ w :: ts) =
        h.description := hd.description?_eq hl.2.2
    refine ⟨⟨place, d, .title b h.keyword h.name⟩, ⟨place, h.keyword, h.name, none⟩, w, ?_, rfl,
      ?_, hw⟩
    · simp [title?]
    · rw [hdesc]
      rfl

theorem HoldHeading.append {d : Dialect} {b : Block} {h : Heading} {comments : List Comment}
    (hh : HoldHeading d b h comments ts) (more : List Tree)
    (hm : ∀ t ∈ more, t.rule? ≠ none ∧ t.rule? ≠ some .description) :
    ∃ heading w, heading? b (ts ++ more) = some (heading, w) ∧
      heading.relocate nowhere = h.relocate nowhere ∧
      w.map (Comment.relocate nowhere) = comments.map (Comment.relocate nowhere) := by
  obtain ⟨token, title, w, ht, -, heq, hw⟩ := hh.heading
  have hdesc : description? (ts ++ more) = description? ts := by
    rw [description?, parts?_append_right fun t ht => (hm t ht).2]
    rfl
  refine ⟨{ title with description := description? ts }, w, ?_, heq, hw⟩
  rw [heading?, title?_append_right fun t ht => (hm t ht).1, ht, hdesc]
  rfl

/-! ## Tags -/

structure HoldTags (tags : List Tag) (ts : List Tree) : Prop where
  rules : ∀ t ∈ ts, t.rule? = some .tags
  tags : (Tree.tags ts).map (Tag.relocate nowhere) = tags.map (Tag.relocate nowhere)

theorem holdTags_nil : HoldTags [] [] :=
  ⟨by simp, rfl⟩

theorem tags_node_append (leaves more : List Tree) :
    Tree.tags [.node .tags (leaves ++ more)] =
      Tree.tags [.node .tags leaves] ++ Tree.tags [.node .tags more] := by
  simp [Tree.tags]

theorem HoldTags.concat {tags : List Tag} {leaves : List Tree}
    (h : HoldTags tags [.node .tags leaves]) {t : Tag} {place : Location} {d : Dialect}
    {column : Nat} : HoldTags (tags ++ [t])
      [.node .tags (leaves ++ [.leaf ⟨place, d, .tags [⟨column, t.name⟩]⟩ []])] where
  rules := by simp [rule?]
  tags := by
    rw [tags_node_append, List.map_append, List.map_append, h.tags]
    simp [Tree.tags, Tag.relocate, nowhere]

theorem HoldTags.append {tags : List Tag} (h : HoldTags tags ts) (more : List Tree)
    (hm : ∀ t ∈ more, t.rule? ≠ some .tags) :
    (Tree.tags (ts ++ more)).map (Tag.relocate nowhere) = tags.map (Tag.relocate nowhere) := by
  rw [← h.tags, Tree.tags, parts?_append_right hm]
  rfl

theorem HoldTags.parts?_append {tags : List Tag} (h : HoldTags tags ts) (more : List Tree)
    (hr : rule ≠ .tags) : parts? rule (ts ++ more) = parts? rule more :=
  parts?_append_left fun t ht => by simp [h.rules t ht, hr.symm]

/-! ## Blocks of examples -/

def HoldTable (rs : List TableRow) (ts : List Tree) : Prop :=
  rs = [] ∧ ts = [] ∨ ∃ leaves, ts = [.node .examplesTable leaves] ∧ HoldRows rs leaves

theorem HoldTable.rules {rs : List TableRow} (h : HoldTable rs ts) :
    ∀ t ∈ ts, t.rule? = some .examplesTable := by
  rcases h with ⟨-, rfl⟩ | ⟨leaves, rfl, -⟩ <;> simp [rule?]

structure HoldExamples (es : List Examples) (ts : List Tree) : Prop where
  rules : ∀ t ∈ ts, t.rule? = some .examplesDefinition
  examples : (ts.filterMap examples?).map (Examples.relocate nowhere) =
    es.map (Examples.relocate nowhere)

theorem HoldExamples.append {es others : List Examples} (h : HoldExamples es ts)
    (h' : HoldExamples others more) : HoldExamples (es ++ others) (ts ++ more) where
  rules := List.forall_mem_append.mpr ⟨h.rules, h'.rules⟩
  examples := by
    rw [List.filterMap_append, List.map_append, List.map_append, h.examples, h'.examples]

theorem holdExamples_definition {d : Dialect} {e : Examples} (hl : e.IsLegal d)
    {comments : List Comment} {tparts hparts rparts : List Tree} (ht : HoldTags e.tags tparts)
    (hh : HoldHeading d .examples e.toHeading comments hparts) (hr : HoldTable e.rows rparts) :
    HoldExamples [e]
      [.node .examplesDefinition (tparts ++ [.node .examples (hparts ++ rparts)])] where
  rules := by simp [rule?]
  examples := by
    obtain ⟨heading, w, hheading, heq, -⟩ := hh.append rparts fun t ht => by
      simp [hr.rules t ht]
    have hinner : parts? .examples (tparts ++ [.node .examples (hparts ++ rparts)]) =
        some (hparts ++ rparts) := by
      rw [ht.parts?_append _ (by simp), parts?_node]
    have htable : (rows ((parts? .examplesTable (hparts ++ rparts)).getD [])).map
        (TableRow.relocate nowhere) = e.rows.map (TableRow.relocate nowhere) := by
      rw [parts?_append_left fun t htt => by rcases hh.rules t htt with h | h <;> simp [h]]
      rcases hr with ⟨hnil, rfl⟩ | ⟨leaves, rfl, hrows⟩
      · simp [parts?, rows, hnil]
      · exact hrows
    have htags := ht.append [.node .examples (hparts ++ rparts)] (by simp [rule?])
    have hex : examples? (.node .examplesDefinition
        (tparts ++ [.node .examples (hparts ++ rparts)])) =
        some ⟨heading, Tree.tags (tparts ++ [.node .examples (hparts ++ rparts)]),
          (rows ((parts? .examplesTable (hparts ++ rparts)).getD [])).head?,
          (rows ((parts? .examplesTable (hparts ++ rparts)).getD [])).tail⟩ := by
      simp [examples?, hinner, hheading]
    have hhead : (e.rows.map (TableRow.relocate nowhere)).head? =
          e.header.map (TableRow.relocate nowhere) ∧
        (e.rows.map (TableRow.relocate nowhere)).tail = e.body.map (TableRow.relocate nowhere) := by
      cases hheader : e.header with
      | none => simp [Examples.rows, hheader, hl.2.2.1 hheader]
      | some header => simp [Examples.rows, hheader]
    rw [← htable, List.head?_map, ← List.map_tail] at hhead
    simp [hex, Examples.relocate, heq, htags, hhead.1, hhead.2]

/-! ## Children -/

def HoldChildren (cs : List Child) (ts : List Tree) : Prop :=
  (ts.filterMap child?).map (Child.relocate nowhere) = cs.map (Child.relocate nowhere)

theorem HoldChildren.append {cs others : List Child} (h : HoldChildren cs ts)
    (h' : HoldChildren others more) : HoldChildren (cs ++ others) (ts ++ more) := by
  rw [HoldChildren, List.filterMap_append, List.map_append, List.map_append, h, h']

variable {d : Dialect} {hparts sparts tparts eparts : List Tree}

theorem HoldHeading.rule?_ne {h : Heading} {comments : List Comment}
    (hh : HoldHeading d b h comments hparts) (hr : rule ≠ .description) :
    ∀ t ∈ hparts, t.rule? ≠ some rule := by
  intro t ht
  rcases hh.rules t ht with h | h
  · simp [h]
  · simp [h, hr.symm]

theorem holdChildren_background {c : Background} (hl : c.IsLegal d)
    (hh : HoldHeading d .background c.toHeading c.comments hparts)
    (hs : HoldSteps d c.steps sparts) :
    HoldChildren [.background c] [.node .background (hparts ++ sparts)] := by
  obtain ⟨heading, w, hheading, heq, hw⟩ := hh.append sparts fun t ht => by
    simp [hs.rules t ht]
  have hsteps := hs.steps_eq hl.2.1 hparts []
    (hh.rule?_ne (by simp)) (by simp)
  rw [List.append_nil] at hsteps
  simp [HoldChildren, child?, hheading, Child.relocate, Background.relocate, heq, hw, hsteps]

theorem holdChildren_scenario {c : Scenario} (hl : c.IsLegal d) (ht : HoldTags c.tags tparts)
    (hh : HoldHeading d .scenario c.toHeading c.comments hparts)
    (hs : HoldSteps d c.steps sparts) :
    HoldChildren [.scenario c]
      [.node .scenarioDefinition (tparts ++ [.node .scenario (hparts ++ sparts)])] := by
  obtain ⟨heading, w, hheading, heq, hw⟩ := hh.append sparts fun t ht => by
    simp [hs.rules t ht]
  have hsteps := hs.steps_eq hl.2.2.1 hparts []
    (hh.rule?_ne (by simp)) (by simp)
  rw [List.append_nil] at hsteps
  have hinner : parts? .scenario (tparts ++ [.node .scenario (hparts ++ sparts)]) =
      some (hparts ++ sparts) := by
    rw [ht.parts?_append _ (by simp), parts?_node]
  have htags := ht.append [.node .scenario (hparts ++ sparts)] (by simp [rule?])
  simp [HoldChildren, child?, hinner, hheading, Child.relocate, Scenario.relocate, heq, hw, hsteps,
    htags]

theorem holdChildren_outline {c : Outline} (hl : c.IsLegal d) (ht : HoldTags c.tags tparts)
    (hh : HoldHeading d .outline c.toHeading c.comments hparts) (hs : HoldSteps d c.steps sparts)
    (he : HoldExamples c.examples eparts) :
    HoldChildren [.outline c] [.node .scenarioDefinition
      (tparts ++ [.node .scenarioOutline (hparts ++ sparts ++ eparts)])] := by
  obtain ⟨heading, w, hheading, heq, hw⟩ := hh.append (sparts ++ eparts) fun t ht => by
    rcases List.mem_append.mp ht with ht | ht
    · simp [hs.rules t ht]
    · simp [he.rules t ht]
  rw [← List.append_assoc] at hheading
  have hsteps := hs.steps_eq hl.2.2.1 hparts eparts
    (hh.rule?_ne (by simp)) (fun t ht => by simp [he.rules t ht])
  have hexamples : ((hparts ++ sparts ++ eparts).filterMap examples?).map
      (Examples.relocate nowhere) = c.examples.map (Examples.relocate nowhere) := by
    rw [List.filterMap_append, List.filterMap_append,
      filterMap_examples?_eq_nil (hh.rule?_ne (by simp)),
      filterMap_examples?_eq_nil fun t ht => by simp [hs.rules t ht]]
    exact he.examples
  have hinner : parts? .scenarioOutline
      (tparts ++ [.node .scenarioOutline (hparts ++ sparts ++ eparts)]) =
      some (hparts ++ sparts ++ eparts) := by
    rw [ht.parts?_append _ (by simp), parts?_node]
  have hother : parts? .scenario
      (tparts ++ [.node .scenarioOutline (hparts ++ sparts ++ eparts)]) = none := by
    rw [ht.parts?_append _ (by simp)]
    simp [parts?]
  have htags := ht.append [.node .scenarioOutline (hparts ++ sparts ++ eparts)]
    (by simp [rule?])
  have hchild : child? (.node .scenarioDefinition
      (tparts ++ [.node .scenarioOutline (hparts ++ sparts ++ eparts)])) =
      some (.outline ⟨heading, Tree.tags (tparts ++
          [.node .scenarioOutline (hparts ++ sparts ++ eparts)]),
        Tree.steps (hparts ++ sparts ++ eparts),
        (hparts ++ sparts ++ eparts).filterMap examples?, w⟩) := by
    simp only [child?, hother, hinner, Option.bind_eq_bind, Option.bind_some, hheading]
    rfl
  rw [HoldChildren, List.filterMap_cons, hchild]
  simp only [List.filterMap_nil, List.map_cons, List.map_nil, Child.relocate, Outline.relocate, heq,
    hw, hsteps, hexamples, htags]

/-! ## Documents -/

/-- The document of a feature is told from its trees, below the line that names the language. -/
theorem document_feature {f : Feature} {t : Token} {cparts : List Tree}
    (hcode : d.code = f.language) (hlanguage : t.kind = .language) (ht : HoldTags f.tags tparts)
    (hh : HoldHeading d .feature f.toHeading f.comments hparts)
    (hc : HoldChildren f.children cparts) :
    (document [.node .document [.node .feature
      (.node .featureHeader (.leaf t [] :: (tparts ++ hparts)) :: cparts)]]).SameText ⟨some f⟩ := by
  obtain ⟨token, title, w, htitle, hdialect, heq, hw⟩ := hh.heading
  have htitle' : title? .feature (.leaf t [] :: (tparts ++ hparts)) = some (token, title, w) := by
    have hskip : title? .feature (.leaf t [] :: (tparts ++ hparts)) =
        title? .feature (tparts ++ hparts) := by
      obtain ⟨place, dialect, content⟩ := t
      cases content <;> first | rfl | simp [Token.kind, Content.kind] at hlanguage
    rw [hskip, title?_append_left fun t htt => by simp [ht.rules t htt], htitle]
  have hdesc : description? (.leaf t [] :: (tparts ++ hparts)) = description? hparts := by
    have hskip : description? (.leaf t [] :: (tparts ++ hparts)) =
        description? (tparts ++ hparts) := rfl
    rw [hskip, description?, ht.parts?_append _ (by simp)]
    rfl
  have htags : (Tree.tags (.leaf t [] :: (tparts ++ hparts))).map (Tag.relocate nowhere) =
      f.tags.map (Tag.relocate nowhere) := ht.append hparts (hh.rule?_ne (by simp))
  have hfeature : feature? (.node .featureHeader (.leaf t [] :: (tparts ++ hparts)) :: cparts) =
      some ⟨{ title with description := description? hparts },
        Tree.tags (.leaf t [] :: (tparts ++ hparts)), d.code, cparts.filterMap child?, w⟩ := by
    simp only [feature?, parts?_node, Option.bind_eq_bind, Option.bind_some, htitle', hdesc,
      hdialect]
    rfl
  have hchildren : (cparts.filterMap child?).map (Child.relocate nowhere) =
      f.children.map (Child.relocate nowhere) := hc
  have hrelocate : (⟨{ title with description := description? hparts },
      Tree.tags (.leaf t [] :: (tparts ++ hparts)), d.code, cparts.filterMap child?, w⟩ :
        Feature).relocate nowhere = f.relocate nowhere := by
    simp only [Feature.relocate, heq, htags, hchildren, hcode, hw]
  have hdoc : document [.node .document [.node .feature
      (.node .featureHeader (.leaf t [] :: (tparts ++ hparts)) :: cparts)]] =
      ⟨feature? (.node .featureHeader (.leaf t [] :: (tparts ++ hparts)) :: cparts)⟩ := by
    simp [document]
  rw [hdoc, hfeature]
  exact congrArg (fun g => (⟨some g⟩ : Document)) hrelocate

end Tree

end FeaturePlan
