import FeaturePlan.Proofs.Document.Contents
import FeaturePlan.Proofs.Document.SourceOrder
import FeaturePlan.Proofs.Document.Subtrees

/-! # Tables are rectangular

The rows below a step or below examples make one table, whatever blank lines and comments stand
between them. If one of them differs in width from the first, the table is refused, and all of it is
left out of the document; the step or the examples stay. -/

namespace FeaturePlan

open Production

/-! ## Rows -/

namespace TableRow

variable {rows : List TableRow} {row : TableRow}

def AreEven (rows : List TableRow) : Prop :=
  ∀ r ∈ rows, ∀ s ∈ rows, r.cells.length = s.cells.length

instance (rows : List TableRow) : Decidable (AreEven rows) :=
  inferInstanceAs (Decidable (∀ r ∈ rows, _))

/-- The row is the first whose width is not that of the row above all others. -/
def IsFirstUneven (rows : List TableRow) (row : TableRow) : Prop :=
  ∃ first before after, rows = first :: (before ++ row :: after) ∧
    (∀ r ∈ before, r.cells.length = first.cells.length) ∧
    row.cells.length ≠ first.cells.length

/-- The first row that is not as wide as the row above all others. -/
def firstUneven? : List TableRow → Option TableRow
  | [] => none
  | first :: rest => rest.find? fun row => decide (row.cells.length ≠ first.cells.length)

theorem firstUneven?_eq_some_iff : firstUneven? rows = some row ↔ IsFirstUneven rows row := by
  cases rows with
  | nil => simp [firstUneven?, IsFirstUneven]
  | cons first rest =>
      simp only [firstUneven?, IsFirstUneven, List.find?_eq_some_iff_append, List.cons.injEq,
        decide_eq_true_eq, Bool.not_eq_true', decide_eq_false_iff_not, not_not]
      constructor
      · rintro ⟨hrow, before, after, hrest, hbefore⟩
        exact ⟨first, before, after, ⟨rfl, hrest⟩, hbefore, hrow⟩
      · rintro ⟨_, before, after, ⟨rfl, hrest⟩, hbefore, hrow⟩
        exact ⟨hrow, before, after, hrest, hbefore⟩

theorem firstUneven?_eq_none_iff : firstUneven? rows = none ↔ AreEven rows := by
  cases rows with
  | nil => simp [firstUneven?, AreEven]
  | cons first rest =>
      simp only [firstUneven?, List.find?_eq_none, decide_eq_true_eq, not_not]
      constructor
      · intro h
        have hfirst : ∀ r ∈ first :: rest, r.cells.length = first.cells.length :=
          List.forall_mem_cons.mpr ⟨rfl, h⟩
        exact fun r hr s hs => (hfirst r hr).trans (hfirst s hs).symm
      · exact fun h r hr => h r (List.mem_cons_of_mem _ hr) first List.mem_cons_self

end TableRow

theorem Tree.unevenRow?_eq (ts : List Tree) :
    unevenRow? ts = (TableRow.firstUneven? (rows ts)).map TableRow.place := by
  rw [unevenRow?]
  cases rows ts <;> rfl

/-! ## Constructs and their tables -/

namespace Construct

def kept (c : Construct) : Construct :=
  if TableRow.AreEven c.rows then c else { c with rows := [] }

def refusedAt? (c : Construct) : Option Location :=
  (TableRow.firstUneven? c.rows).map TableRow.place

theorem areEven_kept (c : Construct) : TableRow.AreEven c.kept.rows := by
  rw [kept]
  split
  · assumption
  · simp [TableRow.AreEven]

end Construct

namespace Tree

variable {cut : Bool} {ts us parts : List Tree} {t : Token} {comments : List Comment}
  {p : Production} {rows : List TableRow}

/-- The trees hold the rows of a table, and nothing else that is told. -/
structure Bears (ts : List Tree) (rows : List TableRow) : Prop where
  entries : entries ts = rows.map .row
  kept : Tree.entries (pruneAll ts) = (if TableRow.AreEven rows then rows else []).map .row
  uneven : unevenAll ts = ((TableRow.firstUneven? rows).map TableRow.place).toList

theorem bears_nil : Bears [] [] :=
  ⟨rfl, rfl, rfl⟩

theorem Bears.append (h : Bears ts []) (h' : Bears us rows) : Bears (ts ++ us) rows where
  entries := by rw [entries_append, h.entries, h'.entries]; rfl
  kept := by rw [pruneAll_append, entries_append, h.kept, h'.kept]; simp
  uneven := by rw [unevenAll_append, h.uneven, h'.uneven]; rfl

theorem unevenAll_eq_nil (h : p.Forms cut ts) (hp : p.isSilent) : unevenAll ts = [] := by
  induction h with
  | line _ | eof | refused _ | nothing | none | cut => rfl
  | @rule cut r parts _ ih =>
      simp only [isSilent, List.mem_cons, List.not_mem_nil, or_false, decide_eq_true_eq] at hp
      rcases hp with rfl | rfl <;>
        simpa [unevenAll, Tree.uneven, refusal?, Assembly.isTable] using ih rfl
  | seq _ _ ihp ihq =>
      simp only [isSilent, Bool.and_eq_true] at hp
      rw [unevenAll_append, ihp hp.1, ihq hp.2, List.append_nil]
  | left _ ih | first _ ih =>
      simp only [isSilent, Bool.and_eq_true] at hp
      exact ih hp.1
  | right _ ih =>
      simp only [isSilent, Bool.and_eq_true] at hp
      exact ih hp.2
  | more _ _ ihp ihq => rw [unevenAll_append, ihp hp, ihq hp, List.append_nil]
  | again _ ih => exact ih hp

theorem bears_of_isSilent (h : p.Forms cut ts) (hp : p.isSilent) : Bears ts [] where
  entries := h.entries_eq_nil hp
  kept := by rw [h.pruneAll.entries_eq_nil hp]; rfl
  uneven := unevenAll_eq_nil h hp

/-- A table bears its rows, and is refused at the first that differs in width. -/
theorem bears_table {r : Rule} (hr : Assembly.isTable r) (h : r.production.Forms cut parts) :
    Bears [node r parts] (Tree.rows parts) := by
  have hleaves := forms_table hr h
  have hentries : entries parts = (Tree.rows parts).map .row := entries_rows hleaves
  have hkept : entries (pruneAll parts) = (Tree.rows parts).map .row := by
    rw [entries_rows (forms_table hr h.pruneAll), rows_pruneAll]
  have hinner : unevenAll parts = [] :=
    unevenAll_of_leaves fun t ht => (hleaves t ht).imp fun _ h => h.imp fun _ h => h.1
  have hrefusal : refusal? r parts =
      (TableRow.firstUneven? (Tree.rows parts)).map TableRow.place := by
    rw [refusal?, if_pos hr, unevenRow?_eq]
  refine ⟨by simp [hentries], ?_, by simp [unevenAll, Tree.uneven, hinner, hrefusal]⟩
  rw [pruneAll, isRefused, hrefusal]
  by_cases heven : TableRow.AreEven (Tree.rows parts)
  · simp [TableRow.firstUneven?_eq_none_iff.mpr heven, heven, prune, pruneAll, hkept]
  · have hsome : TableRow.firstUneven? (Tree.rows parts) ≠ none :=
      mt TableRow.firstUneven?_eq_none_iff.mp heven
    simp [Option.isSome_iff_ne_none, hsome, heven, pruneAll]

theorem bears_argument
    (h : (Production.optional (either (.rule .dataTable) (.rule .docString))).Forms cut ts) :
    ∃ rows, Bears ts rows := by
  rcases forms_optional h with rfl | h
  · exact ⟨[], bears_nil⟩
  rcases forms_either h with h | h
  · rcases forms_rule h with ⟨rfl, -⟩ | ⟨parts, rfl, hparts⟩
    · exact ⟨[], bears_nil⟩
    · exact ⟨_, bears_table rfl hparts⟩
  · exact ⟨[], bears_of_isSilent h rfl⟩

theorem bears_examplesTable (h : (Production.optional (.rule .examplesTable)).Forms cut ts) :
    ∃ rows, Bears ts rows := by
  rcases forms_optional h with rfl | h
  · exact ⟨[], bears_nil⟩
  rcases forms_rule h with ⟨rfl, -⟩ | ⟨parts, rfl, hparts⟩
  · exact ⟨[], bears_nil⟩
  · exact ⟨_, bears_table rfl hparts⟩

/-! ## What trees tell -/

/-- The entries of the trees are those of constructs, with tags for a further one behind them. The
constructs keep their tables as far as these are even. -/
def Tells (ts : List Tree) : Prop :=
  ∃ (cs : List Construct) (further : List Tag),
    entries ts = cs.flatMap Construct.entries ++ further.map .tag ∧
    entries (pruneAll ts) = (cs.map Construct.kept).flatMap Construct.entries ++
      further.map .tag ∧
    unevenAll ts = cs.filterMap Construct.refusedAt?

theorem Bears.tells (h : Bears ts []) : Tells ts :=
  ⟨[], [], h.entries, h.kept, h.uneven⟩

/-- Tags belong to the construct below them, also when that stands in other trees. -/
theorem Tells.append (h : Tells ts) (h' : Tells us) : Tells (ts ++ us) := by
  obtain ⟨cs, further, hentries, hkept, huneven⟩ := h
  obtain ⟨ds, further', hentries', hkept', huneven'⟩ := h'
  -- If the trees behind have no construct, the tags are still waiting at their end.
  cases ds with
  | nil =>
      refine ⟨cs, further ++ further', ?_, ?_, ?_⟩
      · simp [hentries, hentries']
      · simp [hkept, hkept']
      · simp [huneven, huneven']
  | cons c ds =>
      let d : Construct := { c with tags := further ++ c.tags }
      have hd : d.entries = further.map .tag ++ c.entries := by
        simp [d, Construct.entries]
      have hdk : d.kept.entries = further.map .tag ++ c.kept.entries := by
        simp only [Construct.kept, d]
        split <;> simp [Construct.entries]
      refine ⟨cs ++ d :: ds, further', ?_, ?_, ?_⟩
      · simp [hentries, hentries', hd]
      · simp [hkept, hkept', hdk]
      · simp [huneven, huneven', Construct.refusedAt?, d, List.filterMap_cons]

theorem tells_of_start {kind : TokenKind} (ht : t.entries = [.start kind t.place])
    (h : Bears ts rows) : Tells (leaf t comments :: ts) := by
  refine ⟨[⟨kind, t.place, [], rows⟩], [], ?_, ?_, ?_⟩
  · simp [ht, h.entries, Construct.entries]
  · have hkept : pruneAll (leaf t comments :: ts) = leaf t comments :: pruneAll ts := rfl
    rw [hkept, entries_leaf_cons, ht, h.kept]
    by_cases heven : TableRow.AreEven rows <;>
      simp [Construct.kept, heven, Construct.entries]
  · have huneven : unevenAll (leaf t comments :: ts) = unevenAll ts := rfl
    rw [huneven, h.uneven]
    cases hr : (TableRow.firstUneven? rows).map TableRow.place <;>
      simp [Construct.refusedAt?, hr]

theorem tells_step (h : Rule.step.production.Forms cut parts) : Tells parts := by
  rcases forms_led h (by simp) with ⟨rfl, -⟩ | ⟨t, comments, rest, rfl, ht, hrest⟩
  · exact bears_nil.tells
  · obtain ⟨rows, hrows⟩ := bears_argument (forms_single hrest)
    exact tells_of_start (Token.entries_of_step ht) hrows

theorem tells_examples (h : Rule.examples.production.Forms cut parts) : Tells parts := by
  rcases forms_led h (by simp) with ⟨rfl, -⟩ | ⟨t, comments, rest, rfl, ht, hrest⟩
  · exact bears_nil.tells
  · obtain ⟨below, table, rfl, hbelow, htable⟩ := forms_split hrest
    obtain ⟨rows, hrows⟩ := bears_examplesTable (forms_single htable)
    exact tells_of_start (Token.entries_of_title ht)
      ((bears_of_isSilent hbelow rfl).append hrows)

theorem tells_line (hk : t.kind ≠ .row) (comments : List Comment) : Tells [leaf t comments] := by
  have hbears : t.entries = [] → Tells [leaf t comments] := fun h =>
    Bears.tells ⟨by simp [h], by simp [pruneAll, isRefused, prune, h], rfl⟩
  obtain ⟨place, d, content⟩ := t
  cases content with
  | title block keyword name | step keyword text => exact tells_of_start rfl bears_nil
  | tags spans =>
      refine ⟨[], spans.map fun s => ⟨⟨place.line, s.column⟩, s.text⟩, ?_, ?_, rfl⟩ <;>
        simp [entries, pruneAll, isRefused, prune, tokensAll, tokens, Token.entries]
  | row cells => exact absurd rfl hk
  | _ => exact hbears rfl

end Tree

/-- Rows and tables, which belong to what stands above them. -/
def Production.hasRows : Production → Bool
  | line kind => kind = .row
  | rule r => Assembly.isTable r
  | nothing => false
  | seq p q | either p q => p.hasRows || q.hasRows
  | many p => p.hasRows

open FeaturePlan.Tree in
theorem Production.Forms.tells {cut : Bool} {p : Production} {ts : List Tree}
    (h : p.Forms cut ts) (hp : p.hasRows = false) : Tells ts := by
  induction h with
  | line hk => exact tells_line (by simpa [hasRows, hk] using hp) _
  | eof | refused _ | nothing | none | cut => exact bears_nil.tells
  | seq _ _ ihp ihq =>
      simp only [hasRows, Bool.or_eq_false_iff] at hp
      exact (ihp hp.1).append (ihq hp.2)
  | left _ ih | first _ ih =>
      simp only [hasRows, Bool.or_eq_false_iff] at hp
      exact ih hp.1
  | right _ ih =>
      simp only [hasRows, Bool.or_eq_false_iff] at hp
      exact ih hp.2
  | more _ _ ihp ihq => exact (ihp hp).append (ihq hp)
  | again _ ih => exact ih hp
  | @rule cut r parts hforms ih =>
      -- The rows of a step, or of examples, belong to its line, so these two are taken whole.
      have hinner : Tells parts := by
        cases r with
        | step => exact tells_step hforms
        | examples => exact tells_examples hforms
        | dataTable | examplesTable => cases hp
        | _ => exact ih rfl
      have hr : Assembly.isTable r = false := hp
      obtain ⟨cs, further, hentries, hkept, huneven⟩ := hinner
      refine ⟨cs, further, ?_, ?_, ?_⟩
      · simpa using hentries
      · simpa [Tree.pruneAll, isRefused, refusal?, hr, prune] using hkept
      · simpa [unevenAll, Tree.uneven, refusal?, hr] using huneven

/-! ## Documents -/

def Child.examples : Child → List Examples
  | outline o => o.examples
  | _ => []

def Document.examples (d : Document) : List Examples :=
  d.feature.toList.flatMap fun f => f.children.flatMap Child.examples

structure Document.IsRectangular (d : Document) : Prop where
  tables : ∀ s ∈ d.steps, ∀ t, s.argument = some (.table t) → TableRow.AreEven t.rows
  examples : ∀ e ∈ d.examples, ∀ row ∈ e.body,
    ∃ header, e.header = some header ∧ row.cells.length = header.cells.length

theorem Child.construct_mem_of_steps {c : Child} {s : Step} (h : s ∈ c.steps) :
    s.construct ∈ c.constructs := by
  have hs : s.construct ∈ c.steps.map Step.construct := List.mem_map_of_mem h
  cases c with
  | background b | scenario c => exact List.mem_cons_of_mem _ hs
  | outline o => exact List.mem_cons_of_mem _ (List.mem_append_left _ hs)

theorem Child.construct_mem_of_examples {c : Child} {e : Examples} (h : e ∈ c.examples) :
    e.construct ∈ c.constructs := by
  cases c with
  | background b | scenario c => cases h
  | outline o => exact List.mem_append_right _ (List.mem_map_of_mem h)

theorem Document.construct_mem_of_child {d : Document} {f : Feature} {c : Child} {x : Construct}
    (hf : f ∈ d.feature) (hc : c ∈ f.children) (hx : x ∈ c.constructs) : x ∈ d.constructs :=
  List.mem_flatMap.mpr ⟨f, Option.mem_toList.mpr hf,
    List.mem_cons_of_mem _ (List.mem_flatMap.mpr ⟨c, hc, hx⟩)⟩

namespace Tree

theorem body_of_examples? {tree : Tree} {e : Examples} (h : examples? tree = some e)
    (hnone : e.header = none) : e.body = [] := by
  cases tree with
  | leaf t comments => cases h
  | node rule parts =>
      cases rule with
      | examplesDefinition =>
          obtain ⟨inner, -, h⟩ := Option.bind_eq_some_iff.mp h
          obtain ⟨⟨heading, comments⟩, -, h⟩ := Option.bind_eq_some_iff.mp h
          obtain rfl := Option.some.inj h
          rw [List.head?_eq_none_iff.mp hnone, List.tail_nil]
      | _ => cases h

theorem exists_examples?_of_child? {rule : Rule} {parts : List Tree} {c : Child} {e : Examples}
    (h : child? (node rule parts) = some c) (he : e ∈ c.examples) :
    ∃ tree, examples? tree = some e := by
  cases rule with
  | background =>
      obtain ⟨⟨heading, comments⟩, -, rfl⟩ := Option.map_eq_some_iff.mp h
      cases he
  | scenarioDefinition =>
      rw [child?] at h
      split at h
      · obtain ⟨⟨heading, comments⟩, -, rfl⟩ := Option.map_eq_some_iff.mp h
        cases he
      · obtain ⟨inner, -, h⟩ := Option.bind_eq_some_iff.mp h
        obtain ⟨⟨heading, comments⟩, -, h⟩ := Option.bind_eq_some_iff.mp h
        obtain rfl := Option.some.inj h
        obtain ⟨tree, -, htree⟩ := List.mem_filterMap.mp he
        exact ⟨tree, htree⟩
  | _ => cases h

theorem body_of_mem_examples {ts : List Tree} {e : Examples} (h : e ∈ (document ts).examples)
    (hnone : e.header = none) : e.body = [] := by
  obtain ⟨f, hf, h⟩ := List.mem_flatMap.mp h
  obtain ⟨c, hc, he⟩ := List.mem_flatMap.mp h
  obtain ⟨rule, parts, -, hchild⟩ := (exists_of_mem_feature (Option.mem_toList.mp hf)).2 c hc
  obtain ⟨tree, htree⟩ := exists_examples?_of_child? hchild he
  exact body_of_examples? htree hnone

end Tree

def Construct.untagged (c : Construct) : Construct :=
  { c with tags := [] }

namespace Diagnostics

open FeaturePlan.Tree Entry

theorem told_true_flatMap (cs : List Construct) :
    told true (cs.flatMap Construct.entries) =
      (cs.map Construct.untagged).flatMap Construct.entries := by
  induction cs with
  | nil => rfl
  | cons c cs ih =>
      have hc : told true c.entries = c.untagged.entries := by
        simp [told, Construct.entries, Construct.untagged, List.filter_map, Function.comp_def,
          isTag]
      rw [List.flatMap_cons, told_append, hc, ih]
      rfl

theorem gather_append_tags (cs : List Construct) (further : List Tag) :
    Construct.gather (cs.flatMap Construct.entries ++ further.map .tag) = cs := by
  simp [Construct.gather, Gathering.foldl_add_flatMap, Gathering.foldl_add_tags]

/-- Each construct that the lines tell of is in the document, but without its table if the rows of
that differ in width; and there is one error for each table that is left out. -/
theorem constructs_kept (d : Dialect) (text : String) :
    let told := Construct.gather
      (((eventsOf d text).filterMap Event.token?).flatMap Token.entries)
    (ofText d text).document.constructs.map Construct.untagged =
        told.map (Construct.untagged ∘ Construct.kept) ∧
      (ofText d text).errors.filter ParseError.isStructural =
        (told.filterMap Construct.refusedAt?).map .unevenRow := by
  intro told
  obtain ⟨cut, parts, hforms, hdocument, hlines, hrows, -⟩ := exists_tree_ofText d text
  obtain ⟨cs, further, hentries, hkept, huneven⟩ := hforms.tells rfl
  have htold : told = cs := by
    rw [← gather_append_tags cs further, ← hentries, hlines]
  rw [htold]
  constructor
  · have hall := accounts_document hforms.pruneAll.begin
    rw [Accounts, entries_node_cons, entries_nil, List.append_nil, hkept, told_append, told_tags,
      List.append_nil, told_true_flatMap, told_true_flatMap, ← hdocument] at hall
    have hgathered := congrArg Construct.gather hall
    rwa [Construct.gather_flatMap, Construct.gather_flatMap, List.map_map] at hgathered
  · have hplaces : ∀ es : List ParseError, es.filter ParseError.isStructural =
        ((es.filter ParseError.isStructural).map ParseError.place).map .unevenRow := by
      intro es
      rw [List.map_map]
      refine (List.map_id _).symm.trans (List.map_congr_left fun e he => ?_)
      cases e with
      | unevenRow place => rfl
      | _ => cases (List.mem_filter.mp he).2
    rw [hplaces, hrows, huneven]

theorem areEven_of_mem_constructs {d : Dialect} {text : String} {c : Construct}
    (h : c ∈ (ofText d text).document.constructs) : TableRow.AreEven c.rows := by
  have hmem : c.untagged ∈ (ofText d text).document.constructs.map Construct.untagged :=
    List.mem_map_of_mem h
  rw [(constructs_kept d text).1] at hmem
  obtain ⟨told, -, hc⟩ := List.mem_map.mp hmem
  have hrows : told.kept.untagged.rows = c.untagged.rows := congrArg Construct.rows hc
  exact (show told.kept.rows = c.rows from hrows) ▸ told.areEven_kept

theorem isRectangular_ofText (d : Dialect) (text : String) :
    (ofText d text).document.IsRectangular where
  tables s hs t ht := by
    obtain ⟨f, hf, h⟩ := List.mem_flatMap.mp hs
    obtain ⟨c, hc, hs⟩ := List.mem_flatMap.mp h
    have heven := areEven_of_mem_constructs (Document.construct_mem_of_child
      (Option.mem_toList.mp hf) hc (Child.construct_mem_of_steps hs))
    simpa [Step.construct, ht, StepArgument.rows] using heven
  examples e he row hrow := by
    obtain ⟨f, hf, h⟩ := List.mem_flatMap.mp he
    obtain ⟨c, hc, hec⟩ := List.mem_flatMap.mp h
    have heven : TableRow.AreEven (e.header.toList ++ e.body) :=
      areEven_of_mem_constructs (Document.construct_mem_of_child (Option.mem_toList.mp hf) hc
        (Child.construct_mem_of_examples hec))
    cases hheader : e.header with
    | none =>
        obtain ⟨-, parts, -, hdocument, -⟩ := exists_tree_ofText d text
        rw [Tree.body_of_mem_examples (hdocument ▸ he) hheader] at hrow
        cases hrow
    | some header =>
        exact ⟨header, rfl, heven row (List.mem_append_right _ hrow) header (by simp [hheader])⟩

end Diagnostics

end FeaturePlan
