import FeaturePlan.Proofs.Document.Constructs
import FeaturePlan.Proofs.Document.Shape

/-! # What a document keeps of its lines

Every rule turns its parts into constructs that have the entries of its lines. Where the end of a
text cuts a rule off, its tags may be left without a construct that they belong to; nothing that
was started is lost. -/

namespace FeaturePlan

open Production

/-! ## Entries of lines -/

namespace Token

variable {t : Token} {b : Block}

theorem entries_of_title (h : t.kind = .title b) : t.entries = [.start (.title b) t.place] := by
  obtain ⟨place, d, content⟩ := t
  cases content <;> simp_all [kind, Content.kind, entries]

theorem entries_of_step (h : t.kind = .step) : t.entries = [.start .step t.place] := by
  obtain ⟨place, d, content⟩ := t
  cases content <;> simp_all [kind, Content.kind, entries]

end Token

namespace Tree

def entries (ts : List Tree) : List Entry :=
  (tokensAll ts).flatMap Token.entries

variable {cut : Bool} {ts us : List Tree} {t : Token} {comments : List Comment} {rule : Rule}
  {parts : List Tree} {b : Block}

@[simp] theorem entries_nil : entries [] = [] :=
  rfl

@[simp] theorem entries_append (ts us : List Tree) :
    entries (ts ++ us) = entries ts ++ entries us := by
  simp [entries]

@[simp] theorem entries_leaf_cons (t : Token) (comments : List Comment) (ts : List Tree) :
    entries (leaf t comments :: ts) = t.entries ++ entries ts := by
  simp [entries, tokensAll, tokens]

@[simp] theorem entries_node_cons (rule : Rule) (parts ts : List Tree) :
    entries (node rule parts :: ts) = entries parts ++ entries ts := by
  simp [entries, tokensAll, tokens]

theorem entries_rows (h : ∀ t ∈ ts, ∃ token comments, t = leaf token comments ∧ token.kind = .row) :
    entries ts = (rows ts).map .row := by
  induction ts with
  | nil => rfl
  | cons t ts ih =>
      obtain ⟨⟨place, d, content⟩, comments, rfl, hk⟩ := h t List.mem_cons_self
      cases content with
      | row cells =>
          have hrest := ih fun t ht => h t (List.mem_cons_of_mem _ ht)
          rw [entries_leaf_cons, hrest]
          rfl
      | _ => simp [Token.kind, Content.kind] at hk

theorem entries_tags
    (h : ∀ t ∈ ts, ∃ token comments, t = leaf token comments ∧ token.kind = .tags) :
    entries ts = (tags [node .tags ts]).map .tag := by
  induction ts with
  | nil => rfl
  | cons t ts ih =>
      obtain ⟨⟨place, d, content⟩, comments, rfl, hk⟩ := h t List.mem_cons_self
      cases content with
      | tags spans =>
          have hrest := ih fun t ht => h t (List.mem_cons_of_mem _ ht)
          rw [entries_leaf_cons, hrest]
          simp [Token.entries, tags, spanPlace, Function.comp_def]
      | _ => simp [Token.kind, Content.kind] at hk

end Tree

/-! ## Productions without entries -/

namespace Production

/-- Descriptions, doc strings, and lines of the classes that these hold. -/
def isSilent : Production → Bool
  | line kind => kind ∈ [.other, .separator, .language, .eof]
  | rule r => r ∈ [.description, .docString]
  | nothing => true
  | seq p q | either p q => p.isSilent && q.isSilent
  | many p => p.isSilent

theorem Forms.entries_eq_nil {cut : Bool} {p : Production} {ts : List Tree} (h : p.Forms cut ts)
    (hp : p.isSilent) : Tree.entries ts = [] := by
  induction h with
  | @line cut kind t comments hk =>
      obtain ⟨place, d, content⟩ := t
      subst hk
      cases content <;> simp_all [isSilent, Token.kind, Content.kind, Token.entries]
  | eof | refused _ | nothing | none | cut => rfl
  | @rule cut r parts _ ih =>
      have hr : r.production.isSilent := by
        simp only [isSilent, List.mem_cons, List.not_mem_nil, or_false, decide_eq_true_eq] at hp
        rcases hp with rfl | rfl <;> rfl
      simpa using ih hr
  | seq _ _ ihp ihq =>
      simp only [isSilent, Bool.and_eq_true] at hp
      rw [Tree.entries_append, ihp hp.1, ihq hp.2, List.append_nil]
  | left _ ih | first _ ih =>
      simp only [isSilent, Bool.and_eq_true] at hp
      exact ih hp.1
  | right _ ih =>
      simp only [isSilent, Bool.and_eq_true] at hp
      exact ih hp.2
  | more _ _ ihp ihq => rw [Tree.entries_append, ihp hp, ihq hp, List.append_nil]
  | again _ ih => exact ih hp

/-! ## Parts side by side -/

variable {cut : Bool} {q : Production} {kind : TokenKind} {b : Block} {ts : List Tree}

theorem forms_led (h : (seq (line kind) q).Forms cut ts) (hk : kind ≠ .eof) :
    ts = [] ∧ cut ∨ ∃ t comments rest, ts = .leaf t comments :: rest ∧ t.kind = kind ∧
      q.Forms cut rest := by
  rcases forms_seq h with ⟨us, vs, rfl, hline, hq⟩ | ⟨rfl, hline⟩
  · rcases forms_line hline with ⟨-, hcut⟩ | ⟨t, comments, rfl, ht⟩
    · simp [hk] at hcut
    · exact .inr ⟨t, comments, vs, rfl, ht, hq⟩
  · rcases forms_line hline with ⟨rfl, -⟩ | ⟨t, comments, rfl, ht⟩
    · exact .inl ⟨rfl, rfl⟩
    · exact .inr ⟨t, comments, [], rfl, ht, .cut⟩

/-- A title, what describes it, and what else the block holds. -/
theorem forms_titled
    (h : (seq (line (.title b)) (seq (Production.optional (.rule .description)) q)).Forms cut ts) :
    ts = [] ∧ cut ∨ ∃ t comments below rest, ts = .leaf t comments :: (below ++ rest) ∧
      t.kind = .title b ∧ (∀ u ∈ below, u.rule? = some .description) ∧
      Tree.entries below = [] ∧ q.Forms cut rest := by
  rcases forms_led h (by simp) with hnil | ⟨t, comments, rest, rfl, ht, hrest⟩
  · exact .inl hnil
  obtain ⟨below, rest, rfl, hbelow, hq⟩ := forms_split hrest
  refine .inr ⟨t, comments, below, rest, rfl, ht, fun u hu => ?_, hbelow.entries_eq_nil rfl, hq⟩
  rcases forms_optional hbelow with rfl | hbelow
  · cases hu
  · rcases forms_rule hbelow with ⟨rfl, -⟩ | ⟨parts, rfl, -⟩
    · cases hu
    · rw [List.mem_singleton.mp hu, Tree.rule?]

theorem forms_tagged (h : (seq (Production.optional (.rule .tags)) q).Forms cut ts) :
    ∃ above rest, ts = above ++ rest ∧ (∀ u ∈ above, u.rule? = some .tags) ∧
      Tree.entries above = (Tree.tags above).map .tag ∧ q.Forms cut rest := by
  obtain ⟨above, rest, rfl, habove, hq⟩ := forms_split h
  rcases forms_optional habove with rfl | habove
  · exact ⟨[], rest, rfl, by simp, rfl, hq⟩
  rcases forms_rule habove with ⟨rfl, -⟩ | ⟨parts, rfl, hparts⟩
  · exact ⟨[], rest, rfl, by simp, rfl, hq⟩
  · refine ⟨_, rest, rfl, by simp [Tree.rule?], ?_, hq⟩
    rw [← Tree.entries_tags (forms_lines (forms_several hparts))]
    simp

end Production

/-! ## Constructs that account for their trees -/

def Entry.isTag : Entry → Bool
  | tag _ => true
  | _ => false

/-- What has to be told of a text: all entries, or all but tags. -/
def Entry.told (cut : Bool) (es : List Entry) : List Entry :=
  es.filter fun e => !cut || !e.isTag

namespace Tree

open Entry

variable {cut : Bool} {ts us parts : List Tree} {cs ds : List Construct} {t : Token}
  {comments : List Comment} {b : Block}

@[simp] theorem told_append (cut : Bool) (es fs : List Entry) :
    told cut (es ++ fs) = told cut es ++ told cut fs :=
  List.filter_append ..

theorem told_tags (tags : List Tag) : told true (tags.map .tag) = [] := by
  simp [told, isTag]

def Accounts (cut : Bool) (cs : List Construct) (ts : List Tree) : Prop :=
  told cut (cs.flatMap Construct.entries) = told cut (entries ts)

theorem Accounts.append (h : Accounts cut cs ts) (h' : Accounts cut ds us) :
    Accounts cut (cs ++ ds) (ts ++ us) := by
  rw [Accounts, List.flatMap_append, told_append, h, h', entries_append, told_append]

theorem accounts_of_forall {f : Tree → List Construct} (h : ∀ t ∈ ts, Accounts cut (f t) [t]) :
    Accounts cut (ts.flatMap f) ts := by
  induction ts with
  | nil => rfl
  | cons t ts ih =>
      exact (h t List.mem_cons_self).append (ih fun t ht => h t (List.mem_cons_of_mem _ ht))

theorem accounts_node {rule : Rule} :
    Accounts cut cs [node rule parts] ↔ Accounts cut cs parts := by
  simp [Accounts]

/-! ## Steps -/

theorem entries_argument {rest : List Tree}
    (h : (Production.optional (either (.rule .dataTable) (.rule .docString))).Forms cut rest) :
    entries rest = (((argument? rest).map StepArgument.rows).getD []).map .row := by
  rcases forms_optional h with rfl | h
  · rfl
  rcases forms_either h with h | h
  · rcases forms_rule h with ⟨rfl, -⟩ | ⟨parts, rfl, hparts⟩
    · rfl
    have hdoc : docString? [node .dataTable parts] = none := rfl
    have hrows := entries_rows (forms_table rfl hparts)
    rw [entries_node_cons, hrows, entries_nil, List.append_nil, argument?, hdoc]
    cases hr : rows parts with
    | nil => simp [dataTable?, hr]
    | cons first more => simp [dataTable?, hr, StepArgument.rows]
  · have htable : dataTable? rest = none := by
      rcases forms_rule h with ⟨rfl, -⟩ | ⟨parts, rfl, -⟩ <;> rfl
    rw [h.entries_eq_nil rfl, argument?, htable]
    cases docString? rest <;> rfl

theorem accounts_step (h : Rule.step.production.Forms cut parts) :
    Accounts cut ((step? (node .step parts)).toList.map Step.construct) [node .step parts] := by
  rcases forms_led h (by simp) with ⟨rfl, -⟩ | ⟨t, comments, rest, rfl, ht, hrest⟩
  · rfl
  have hstep : ∃ s, step? (node .step (leaf t comments :: rest)) = some s ∧
      s.place = t.place ∧ s.argument = argument? rest := by
    obtain ⟨place, d, content⟩ := t
    cases content with
    | step keyword text => exact ⟨_, rfl, rfl, rfl⟩
    | _ => simp [Token.kind, Content.kind] at ht
  obtain ⟨s, hs, hplace, hargument⟩ := hstep
  rw [Accounts, hs]
  simp [Step.construct, Construct.entries, hplace, hargument, Token.entries_of_step ht,
    entries_argument (forms_single hrest)]

theorem map_construct_resolveKinds (last : Option StepKind) (steps : List Step) :
    (resolveKinds last steps).map Step.construct = steps.map Step.construct := by
  induction steps generalizing last with
  | nil => rfl
  | cons s steps ih =>
      simp only [resolveKinds, List.map_cons, ih]
      rfl

theorem accounts_steps (h : (many (.rule .step)).Forms cut ts) :
    Accounts cut ((steps ts).map Step.construct) ts := by
  have hmap : (steps ts).map Step.construct =
      ts.flatMap fun t => (step? t).toList.map Step.construct := by
    rw [steps, map_construct_resolveKinds, List.map_filterMap, List.filterMap_eq_flatMap_toList]
    exact List.flatMap_congr fun t _ => Option.toList_map
  rw [hmap]
  refine accounts_of_forall fun t ht => ?_
  obtain ⟨parts, rfl, hparts⟩ := forms_rules h t ht
  exact accounts_step hparts

/-! ## Blocks -/

theorem accounts_construct {c : Construct} (h : entries ts = c.entries) : Accounts cut [c] ts := by
  simp [Accounts, h]

theorem title?_leaf (ht : t.kind = .title b) (comments : List Comment) (more : List Tree) :
    ∃ h, title? b (leaf t comments :: more) = some (t, h, comments) ∧ h.place = t.place := by
  obtain ⟨place, d, content⟩ := t
  cases content with
  | title b' keyword name =>
      obtain rfl : b' = b := TokenKind.title.inj ht
      exact ⟨⟨place, keyword, name, none⟩, by simp [title?], rfl⟩
  | _ => simp [Token.kind, Content.kind] at ht

/-- A block has a title, unless the text is cut off before it. -/
theorem forms_block {q : Production}
    (h : (seq (.line (.title b))
      (seq (Production.optional (.rule .description)) q)).Forms cut parts) :
    parts = [] ∧ cut ∨ ∃ above rest t title comments, parts = above ++ rest ∧
      title? b parts = some (t, title, comments) ∧
      (∀ u ∈ above, u.rule? = none ∨ u.rule? = some .description) ∧
      entries above = [.start (.title b) title.place] ∧ q.Forms cut rest := by
  rcases forms_titled h with hnil | ⟨t, comments, below, rest, rfl, ht, hbelow, hsilent, hq⟩
  · exact .inl hnil
  obtain ⟨title, htitle, hplace⟩ := title?_leaf ht comments (below ++ rest)
  refine .inr ⟨leaf t comments :: below, rest, t, title, comments, rfl, htitle, ?_, ?_, hq⟩
  · exact List.forall_mem_cons.mpr ⟨.inl rfl, fun u hu => .inr (hbelow u hu)⟩
  · rw [entries_leaf_cons, Token.entries_of_title ht, hsilent, hplace]
    rfl

theorem steps_append_left {above : List Tree}
    (h : ∀ t ∈ above, t.rule? = none ∨ t.rule? = some .description) :
    steps (above ++ ts) = steps ts := by
  have hnone : above.filterMap step? = [] := filterMap_step?_eq_nil fun t ht => by
    rcases h t ht with h | h <;> simp [h]
  rw [steps, List.filterMap_append, hnone, List.nil_append, steps]

theorem steps_append_right {below : List Tree} (h : ∀ t ∈ below, t.rule? ≠ some .step) :
    steps (ts ++ below) = steps ts := by
  rw [steps, List.filterMap_append, filterMap_step?_eq_nil h, List.append_nil, steps]

theorem accounts_background (h : Rule.background.production.Forms cut parts) :
    Accounts cut ((child? (node .background parts)).toList.flatMap Child.constructs)
      [node .background parts] := by
  rw [accounts_node]
  rcases forms_block h with
    ⟨rfl, -⟩ | ⟨above, rest, t, title, comments, rfl, htitle, habove, hentries, hq⟩
  · rfl
  have hsteps : steps (above ++ rest) = steps rest := steps_append_left habove
  simp only [child?, heading?, htitle, Option.map_some, Option.toList_some, List.flatMap_cons,
    List.flatMap_nil, List.append_nil, Child.constructs, hsteps]
  exact (accounts_construct hentries).append (accounts_steps (forms_single hq))

/-! ## Tags -/

theorem accounts_tags (hcut : cut) {tags : List Tag} (h : entries ts = tags.map .tag) :
    Accounts cut [] ts := by
  subst hcut
  rw [Accounts, h, told_tags]
  rfl

theorem accounts_append_node {rule : Rule} :
    Accounts cut cs (ts ++ [node rule parts]) ↔ Accounts cut cs (ts ++ parts) := by
  simp [Accounts]

theorem tags_append {above : List Tree} (h : ∀ t ∈ ts, t.rule? ≠ some .tags) :
    tags (above ++ ts) = tags above := by
  rw [tags, parts?_append_right h, tags]

theorem parts?_tags {above : List Tree} (h : ∀ t ∈ above, t.rule? = some .tags) {rule : Rule}
    (hr : rule ≠ .tags) : parts? rule above = none :=
  parts?_eq_none fun t ht => by simp [h t ht, hr.symm]

theorem parts?_of_tags {above : List Tree} (h : ∀ t ∈ above, t.rule? = some .tags) {rule : Rule}
    (hr : rule ≠ .tags) : parts? rule (above ++ ts) = parts? rule ts :=
  parts?_append_left fun t ht => by simp [h t ht, hr.symm]

theorem entries_table (h : (Production.optional (.rule .examplesTable)).Forms cut ts) :
    entries ts = (rows ((parts? .examplesTable ts).getD [])).map .row ∧
      ∀ t ∈ ts, t.rule? = some .examplesTable := by
  rcases forms_optional h with rfl | h
  · exact ⟨rfl, by simp⟩
  rcases forms_rule h with ⟨rfl, -⟩ | ⟨parts, rfl, hparts⟩
  · exact ⟨rfl, by simp⟩
  · rw [entries_node_cons, entries_rows (forms_table rfl hparts)]
    simp [rule?]

theorem accounts_examples (h : Rule.examplesDefinition.production.Forms cut parts) :
    Accounts cut ((examples? (node .examplesDefinition parts)).toList.map Examples.construct)
      [node .examplesDefinition parts] := by
  rw [accounts_node]
  obtain ⟨above, rest, rfl, habove, htags, hrest⟩ := forms_tagged h
  have hparts : ∀ ts, parts? .examples (above ++ ts) = parts? .examples ts := fun ts =>
    parts?_of_tags habove (by simp)
  rcases forms_rule_of_not_isTable (forms_single hrest) rfl with ⟨rfl, hcut⟩ | ⟨inner, rfl, hinner⟩
  · have hnone : examples? (node .examplesDefinition above) = none := by
      simp [examples?, parts?_tags habove]
    rw [List.append_nil, hnone]
    exact accounts_tags hcut htags
  rcases forms_block hinner with
    ⟨rfl, hcut⟩ | ⟨head, table, t, title, comments, rfl, htitle, hhead, hentries, hq⟩
  · have hnone : examples? (node .examplesDefinition (above ++ [node .examples []])) = none := by
      simp [examples?, hparts, heading?, title?]
    rw [hnone]
    exact accounts_tags hcut (by simpa using htags)
  obtain ⟨htable, hrules⟩ := entries_table (forms_single hq)
  have hother : ∀ t ∈ head, t.rule? ≠ some .examplesTable := fun t ht => by
    rcases hhead t ht with h | h <;> simp [h]
  have hown : tags (above ++ [node .examples (head ++ table)]) = tags above :=
    tags_append (by simp [rule?])
  have hsome : examples? (node .examplesDefinition (above ++ [node .examples (head ++ table)])) =
      some ⟨{ title with description := description? (head ++ table) }, tags above,
        (rows ((parts? .examplesTable table).getD [])).head?,
        (rows ((parts? .examplesTable table).getD [])).tail⟩ := by
    simp [examples?, hparts, heading?, htitle, parts?_append_left hother, hown]
  rw [hsome, accounts_append_node]
  refine accounts_construct ?_
  have hrows : ∀ rs : List TableRow, rs.head?.toList ++ rs.tail = rs := by
    intro rs
    cases rs <;> rfl
  simp [Construct.entries, Examples.construct, Examples.rows, hrows, hentries, htags, htable]

/-! ## Definitions -/

theorem accounts_scenario {above inner : List Tree} (habove : ∀ t ∈ above, t.rule? = some .tags)
    (htags : entries above = (tags above).map .tag)
    (h : Rule.scenario.production.Forms cut inner) :
    Accounts cut
      ((child? (node .scenarioDefinition (above ++ [node .scenario inner]))).toList.flatMap
        Child.constructs)
      (above ++ [node .scenario inner]) := by
  have hparts : parts? .scenario (above ++ [node .scenario inner]) = some inner := by
    rw [parts?_of_tags habove (by simp), parts?_node]
  rcases forms_block h with
    ⟨rfl, hcut⟩ | ⟨head, rest, t, title, comments, rfl, htitle, hhead, hentries, hq⟩
  · simp only [child?, hparts]
    exact accounts_tags hcut (by simpa using htags)
  have hsteps : steps (head ++ rest) = steps rest := steps_append_left hhead
  have hown : tags (above ++ [node .scenario (head ++ rest)]) = tags above :=
    tags_append (by simp [rule?])
  simp only [child?, hparts, heading?, htitle, Option.map_some, Option.toList_some,
    List.flatMap_cons, List.flatMap_nil, List.append_nil, Child.constructs, hsteps, hown]
  rw [accounts_append_node, ← List.append_assoc]
  refine (accounts_construct ?_).append (accounts_steps (forms_single hq))
  simp [Construct.entries, htags, hentries]

theorem accounts_outline {above inner : List Tree} (habove : ∀ t ∈ above, t.rule? = some .tags)
    (htags : entries above = (tags above).map .tag)
    (h : Rule.scenarioOutline.production.Forms cut inner) :
    Accounts cut ((child? (node .scenarioDefinition
      (above ++ [node .scenarioOutline inner]))).toList.flatMap Child.constructs)
      (above ++ [node .scenarioOutline inner]) := by
  have hother : parts? .scenario (above ++ [node .scenarioOutline inner]) = none := by
    rw [parts?_of_tags habove (by simp)]
    simp [parts?]
  have hparts : parts? .scenarioOutline (above ++ [node .scenarioOutline inner]) = some inner := by
    rw [parts?_of_tags habove (by simp), parts?_node]
  rcases forms_block h with
    ⟨rfl, hcut⟩ | ⟨head, rest, t, title, comments, rfl, htitle, hhead, hentries, hq⟩
  · have hnone :
        child? (node .scenarioDefinition (above ++ [node .scenarioOutline []])) = none := by
      simp [child?, hother, hparts, heading?, title?]
    rw [hnone]
    exact accounts_tags hcut (by simpa using htags)
  obtain ⟨stepparts, blocks, rfl, hsteps, hblocks⟩ := forms_split hq
  have hdefinitions := forms_rules (forms_several (forms_single hblocks))
  have hstepparts := forms_rules hsteps
  have hown :
      tags (above ++ [node .scenarioOutline (head ++ (stepparts ++ blocks))]) = tags above :=
    tags_append (by simp [rule?])
  have hs : steps (head ++ (stepparts ++ blocks)) = steps stepparts := by
    rw [steps_append_left hhead]
    refine steps_append_right fun t ht => ?_
    obtain ⟨parts, rfl, -⟩ := hdefinitions t ht
    simp [rule?]
  have he : (head ++ (stepparts ++ blocks)).filterMap examples? = blocks.filterMap examples? := by
    have hhead' : head.filterMap examples? = [] := filterMap_examples?_eq_nil fun t ht => by
      rcases hhead t ht with h | h <;> simp [h]
    have hstepparts' : stepparts.filterMap examples? = [] :=
      filterMap_examples?_eq_nil fun t ht => by
        obtain ⟨parts, rfl, -⟩ := hstepparts t ht
        simp [rule?]
    simp [hhead', hstepparts']
  have hsome : child? (node .scenarioDefinition
      (above ++ [node .scenarioOutline (head ++ (stepparts ++ blocks))])) =
      some (.outline ⟨{ title with description := description? (head ++ (stepparts ++ blocks)) },
        tags above, steps stepparts, blocks.filterMap examples?, comments⟩) := by
    simp [child?, hother, hparts, heading?, htitle, hown, hs, he]
  have hexamples : Accounts cut ((blocks.filterMap examples?).map Examples.construct) blocks := by
    rw [List.map_filterMap, List.filterMap_eq_flatMap_toList]
    refine accounts_of_forall fun t ht => ?_
    obtain ⟨parts, rfl, hparts⟩ := hdefinitions t ht
    rw [Option.toList_map]
    exact accounts_examples hparts
  have hhead : Accounts cut [⟨.title .outline, title.place, tags above, []⟩] (above ++ head) :=
    accounts_construct (by simp [Construct.entries, htags, hentries])
  rw [hsome, accounts_append_node, ← List.append_assoc]
  simpa [Child.constructs] using hhead.append ((accounts_steps hsteps).append hexamples)

theorem accounts_definition (h : Rule.scenarioDefinition.production.Forms cut parts) :
    Accounts cut ((child? (node .scenarioDefinition parts)).toList.flatMap Child.constructs)
      [node .scenarioDefinition parts] := by
  rw [accounts_node]
  obtain ⟨above, rest, rfl, habove, htags, hrest⟩ := forms_tagged h
  have hcases : rest = [] ∧ cut ∨
      (∃ inner, rest = [node .scenario inner] ∧ Rule.scenario.production.Forms cut inner) ∨
      ∃ inner, rest = [node .scenarioOutline inner] ∧
        Rule.scenarioOutline.production.Forms cut inner := by
    rcases forms_either (forms_single hrest) with h | h
    · exact (forms_rule_of_not_isTable h rfl).imp_right .inl
    · exact (forms_rule_of_not_isTable h rfl).imp_right .inr
  rcases hcases with ⟨rfl, hcut⟩ | ⟨inner, rfl, hinner⟩ | ⟨inner, rfl, hinner⟩
  · have hnone : child? (node .scenarioDefinition above) = none := by
      simp [child?, parts?_tags habove]
    rw [List.append_nil, hnone]
    exact accounts_tags hcut htags
  · exact accounts_scenario habove htags hinner
  · exact accounts_outline habove htags hinner

/-! ## Features and documents -/

theorem accounts_children {rest : List Tree}
    (h : (inOrder [Production.optional (.rule .background),
      many (.rule .scenarioDefinition)]).Forms cut rest) :
    Accounts cut ((rest.filterMap child?).flatMap Child.constructs) rest := by
  obtain ⟨first, definitions, rfl, hfirst, hdefinitions⟩ := forms_split h
  rw [List.filterMap_eq_flatMap_toList, List.flatMap_assoc]
  refine accounts_of_forall fun t ht => ?_
  rcases List.mem_append.mp ht with ht | ht
  · rcases forms_optional hfirst with rfl | hfirst
    · cases ht
    rcases forms_rule hfirst with ⟨rfl, -⟩ | ⟨parts, rfl, hparts⟩
    · cases ht
    · obtain rfl := List.mem_singleton.mp ht
      exact accounts_background hparts
  · obtain ⟨parts, rfl, hparts⟩ := forms_rules (forms_single hdefinitions) t ht
    exact accounts_definition hparts

/-- What stands in a header above its title, and the title with what describes it. -/
theorem forms_header {header : List Tree} (h : Rule.featureHeader.production.Forms cut header) :
    title? .feature header = none ∧ cut ∧ Accounts cut [] header ∨
      ∃ t title comments, title? .feature header = some (t, title, comments) ∧
        entries header = (tags header).map .tag ++ [.start (.title .feature) title.place] := by
  obtain ⟨language, rest, rfl, hlanguage, hrest⟩ := forms_split h
  obtain ⟨above, rest, rfl, habove, htags, hrest⟩ := forms_tagged hrest
  have hsilent := hlanguage.entries_eq_nil rfl
  have hlines : (∀ ts, title? .feature (language ++ ts) = title? .feature ts) ∧
      ∀ ts, tags (language ++ ts) = tags ts := by
    rcases forms_optional hlanguage with rfl | hlanguage
    · exact ⟨fun _ => rfl, fun _ => rfl⟩
    rcases forms_line hlanguage with ⟨rfl, -⟩ | ⟨⟨place, d, content⟩, comments, rfl, hk⟩
    · exact ⟨fun _ => rfl, fun _ => rfl⟩
    · cases content <;>
        first | exact ⟨fun _ => rfl, fun _ => rfl⟩ | simp [Token.kind, Content.kind] at hk
  have hskip : title? .feature (above ++ rest) = title? .feature rest :=
    title?_append_left fun t ht => by simp [habove t ht]
  rcases forms_block hrest with
    ⟨rfl, hcut⟩ | ⟨head, below, t, title, comments, rfl, htitle, hhead, hentries, hq⟩
  · refine .inl ⟨?_, hcut, ?_⟩
    · rw [hlines.1, hskip]
      rfl
    · have hentries : entries (language ++ (above ++ [])) = (tags above).map .tag := by
        simp [hsilent, htags]
      exact accounts_tags hcut hentries
  · obtain rfl : below = [] := forms_nothing hq
    have hown : tags (above ++ (head ++ [])) = tags above := tags_append fun t ht => by
      rw [List.append_nil] at ht
      rcases hhead t ht with h | h <;> simp [h]
    refine .inr ⟨t, title, comments, ?_, ?_⟩
    · rw [hlines.1, hskip, htitle]
    · rw [hlines.2, hown]
      simp [hsilent, htags, hentries]

theorem accounts_feature (h : Rule.feature.production.Forms cut parts) :
    Accounts cut ((feature? parts).toList.flatMap Feature.constructs) parts := by
  have hheader : parts = [] ∨ ∃ header rest, parts = node .featureHeader header :: rest ∧
      (∃ cut', Rule.featureHeader.production.Forms cut' header ∧ (cut' → cut ∧ rest = [])) ∧
      (inOrder [Production.optional (.rule .background),
        many (.rule .scenarioDefinition)]).Forms cut rest := by
    rcases forms_seq h with ⟨us, rest, rfl, hus, hrest⟩ | ⟨rfl, hus⟩
    · rcases forms_rule_of_not_isTable hus rfl with ⟨-, hcut⟩ | ⟨header, rfl, hheader⟩
      · cases hcut
      · exact .inr ⟨header, rest, rfl, ⟨false, hheader, by simp⟩, hrest⟩
    · rcases forms_rule_of_not_isTable hus rfl with ⟨rfl, -⟩ | ⟨header, rfl, hheader⟩
      · exact .inl rfl
      · exact .inr ⟨header, [], rfl, ⟨true, hheader, by simp⟩, .cut⟩
  rcases hheader with rfl | ⟨header, rest, rfl, ⟨cut', hforms, hcut⟩, hrest⟩
  · rfl
  rcases forms_header hforms with ⟨hnone, rfl, habove⟩ | ⟨t, title, comments, htitle, hentries⟩
  · obtain ⟨rfl, rfl⟩ := hcut rfl
    have hfeature : feature? [node .featureHeader header] = none := by
      simp [feature?, hnone]
    rw [hfeature]
    exact accounts_node.mpr habove
  · have hchildren :
        (node .featureHeader header :: rest).filterMap child? = rest.filterMap child? :=
      List.filterMap_cons_none rfl
    have hsome : feature? (node .featureHeader header :: rest) =
        some ⟨{ title with description := description? header }, tags header, t.dialect.code,
          rest.filterMap child?, comments⟩ := by
      simp [feature?, htitle, hchildren]
    rw [hsome]
    have hhead : Accounts cut [⟨.title .feature, title.place, tags header, []⟩]
        [node .featureHeader header] :=
      accounts_construct (by simp [Construct.entries, hentries])
    simpa [Feature.constructs] using hhead.append (accounts_children hrest)

/-- The constructs of a document account for the lines from which it was assembled. -/
theorem accounts_document (h : Rule.document.production.Forms cut parts) :
    Accounts cut (document [node .document parts]).constructs [node .document parts] := by
  rw [accounts_node]
  obtain ⟨us, last, rfl, hus, hlast⟩ := forms_split h
  have hlast := forms_line (forms_single hlast)
  have hsilent : entries last = [] ∧ parts? .feature last = none := by
    rcases hlast with ⟨rfl, -⟩ | ⟨⟨place, d, content⟩, comments, rfl, hk⟩
    · exact ⟨rfl, rfl⟩
    · cases content <;> first | exact ⟨rfl, rfl⟩ | simp [Token.kind, Content.kind] at hk
  have hdocument : (document [node .document (us ++ last)]).constructs =
      (((parts? .feature us).bind feature?).toList.flatMap Feature.constructs) := by
    simp [document, Document.constructs, parts?_append, hsilent.2]
  have hall : Accounts cut (((parts? .feature us).bind feature?).toList.flatMap Feature.constructs)
      us := by
    rcases forms_optional hus with rfl | hus
    · rfl
    rcases forms_rule hus with ⟨rfl, -⟩ | ⟨parts, rfl, hparts⟩
    · rfl
    · rw [parts?_node]
      exact accounts_node.mpr (accounts_feature hparts)
  rw [hdocument, Accounts, entries_append, hsilent.1, List.append_nil]
  exact hall

/-! ## Refused tables -/

/-- A table that is refused takes nothing away that starts a construct. -/
theorem starts_pruneAll {p : Production} (h : p.Forms cut ts) :
    (entries (pruneAll ts)).filterMap start? = (entries ts).filterMap start? := by
  induction h with
  | line _ | eof | refused _ | nothing | none | cut => rfl
  | seq _ _ ihp ihq | more _ _ ihp ihq =>
      rw [pruneAll_append, entries_append, entries_append, List.filterMap_append,
        List.filterMap_append, ihp, ihq]
  | left _ ih | right _ ih | first _ ih | again _ ih => exact ih
  | @rule cut r parts hforms ih =>
      rw [pruneAll]
      split
      · rename_i hrefused
        have hr : Assembly.isTable r := by
          by_contra hr
          simp [isRefused, refusal?, hr] at hrefused
        rw [entries_node_cons, entries_rows (forms_table hr hforms)]
        simp [pruneAll, List.filterMap_map, Function.comp_def, start?]
      · simpa [prune, pruneAll] using ih

mutual

theorem prune_eq_self : ∀ t : Tree, t.uneven = [] → t.prune = t ∧ t.isRefused = false
  | leaf _ _ => fun _ => ⟨rfl, rfl⟩
  | node r parts => fun h => by
      obtain ⟨hparts, hrule⟩ := List.append_eq_nil_iff.mp h
      refine ⟨?_, ?_⟩
      · rw [prune, pruneAll_eq_self parts hparts]
      · rw [isRefused, Option.toList_eq_nil_iff.mp hrule]
        rfl

theorem pruneAll_eq_self : ∀ ts : List Tree, unevenAll ts = [] → pruneAll ts = ts
  | [] => fun _ => rfl
  | t :: ts => fun h => by
      obtain ⟨ht, hts⟩ := List.append_eq_nil_iff.mp h
      obtain ⟨hprune, hrefused⟩ := prune_eq_self t ht
      simp [pruneAll, hrefused, hprune, pruneAll_eq_self ts hts]

end

end Tree

/-! ## Documents of a text -/

def Event.token? : Event → Option Token
  | .token t => some t
  | _ => none

theorem Delivery.filterMap_token?_run_collect {σ : Type _} {b : Builder σ} (events : List Event)
    (s : σ) (es : List ParseError) :
    (run b Sink.collect events s es).events.filterMap Event.token? =
      events.filterMap Event.token? := by
  induction events generalizing s es with
  | nil => rfl
  | cons event rest ih =>
      cases event with
      | opened rule => exact ih _ es
      | error e => exact ih s _
      | token t => exact congrArg (t :: ·) (ih _ es)
      | closed rule =>
          simp only [run]
          rcases b.closed rule s with ⟨s, _ | e⟩
          · exact ih s es
          · exact ih s _

theorem flatMap_entries_heldToken? (events : List Event) :
    (events.filterMap Assembly.heldToken?).flatMap Token.entries =
      (events.filterMap Event.token?).flatMap Token.entries := by
  induction events with
  | nil => rfl
  | cons e events ih =>
      cases e with
      | opened rule | closed rule | error e => exact ih
      | token t =>
          by_cases h : Assembly.holds t
          · simpa [Assembly.heldToken?, Event.token?, h] using ih
          · have hnone : t.entries = [] := by
              obtain ⟨place, d, content⟩ := t
              cases content <;> first | rfl | simp [Assembly.holds, Token.kind, Content.kind] at h
            simpa [Assembly.heldToken?, Event.token?, h, hnone] using ih

theorem Findings.mem_errors_of_mem {f : Findings} {events : List Event} {e : ParseError}
    (h : e ∈ f.errors ∨ .error e ∈ events) : e ∈ (f.after events).errors := by
  induction events generalizing f with
  | nil => exact h.resolve_right List.not_mem_nil
  | cons event events ih =>
      refine ih ?_
      rcases h with h | h
      · cases event with
        | opened rule | token t => exact .inl h
        | closed rule | error e => exact .inl (List.mem_append_left _ h)
      · rcases List.mem_cons.mp h with rfl | h
        · exact .inl (List.mem_append_right _ (List.mem_singleton.mpr rfl))
        · exact .inr h

namespace Diagnostics

open FeaturePlan.Tree Entry

theorem filterMap_start?_told (cut : Bool) (es : List Entry) :
    (told cut es).filterMap start? = es.filterMap start? := by
  rw [told, List.filterMap_filter]
  congr 1
  funext e
  cases e <;> cases cut <;> rfl

/-- The document of a text is made of the tree that the text grows into, without the tables that are
refused. The tree is whole if there are no errors. -/
theorem exists_tree_ofText (d : Dialect) (text : String) :
    ∃ cut parts, Rule.document.production.Forms cut parts ∧
      (ofText d text).document = Tree.document [.node .document (pruneAll parts)] ∧
      entries parts = ((eventsOf d text).filterMap Event.token?).flatMap Token.entries ∧
      ((ofText d text).errors.filter ParseError.isStructural).map ParseError.place =
        unevenAll parts ∧
      ((ofText d text).isClean → cut = false) := by
  obtain ⟨cut, parts, w, hgrown, hforms, hcut, hsyn⟩ := Assembly.growAll_eventsOf d text
  have hcontent : (Assembly.empty.growAll (eventsOf d text)).content = [.node .document parts] := by
    rw [hgrown]
    rfl
  have hassembly : (Findings.empty.after (eventsOf d text)).assembly =
      (Assembly.empty.growAll (eventsOf d text)).prune := Assembly.assembly_after _ .empty []
  refine ⟨cut, parts, hforms, ?_, ?_, ?_, fun hclean => ?_⟩
  · rw [hgrown] at hassembly
    rw [ofText_eq]
    exact congrArg Assembly.document hassembly
  · have htokens := Assembly.tokens_growAll (eventsOf d text) .empty
    rw [hcontent, show tokensAll Assembly.empty.content = [] from rfl, List.nil_append] at htokens
    rw [← flatMap_entries_heldToken?, ← htokens]
    simp [entries, tokensAll, tokens]
  · have hrows := Assembly.unevenRows_after_empty hsyn
    rw [hcontent] at hrows
    rw [ofText_eq]
    exact hrows.trans (by simp [unevenAll, uneven, refusal?, Assembly.isTable])
  · refine Bool.eq_false_iff.mpr fun hc => ?_
    obtain ⟨place, expected, hend⟩ := hcut hc
    have hfound := Findings.mem_errors_of_mem (f := .empty) (.inr hend)
    have hnone : (Findings.empty.after (eventsOf d text)).errors = [] := by
      simpa [isClean, ofText_eq] using hclean
    rw [hnone] at hfound
    cases hfound

/-- The constructs of a document are those that its lines start, and without errors they have all
that the lines tell of them. -/
theorem accounts_ofText (d : Dialect) (text : String) :
    let lines := (eventsOf d text).filterMap Event.token?
    ((ofText d text).document.constructs.flatMap Construct.entries).filterMap start? =
        (lines.flatMap Token.entries).filterMap start? ∧
      ((ofText d text).isClean →
        (ofText d text).document.constructs.flatMap Construct.entries =
          lines.flatMap Token.entries) := by
  intro lines
  obtain ⟨cut, parts, hforms, hdocument, hlines, hrows, hcut⟩ := exists_tree_ofText d text
  rw [hdocument, ← hlines]
  constructor
  · have hpruned := congrArg (List.filterMap start?) (accounts_document hforms.pruneAll.begin)
    rwa [filterMap_start?_told, filterMap_start?_told, entries_node_cons, entries_nil,
      List.append_nil, starts_pruneAll hforms] at hpruned
  · intro hclean
    obtain rfl := hcut hclean
    have hnone : (ofText d text).errors = [] := by simpa [isClean] using hclean
    have heven : unevenAll parts = [] := by rw [← hrows, hnone]; rfl
    have hall := accounts_document hforms.pruneAll
    simpa [Accounts, told, pruneAll_eq_self parts heven] using hall

/-- The features, backgrounds, scenarios, outlines, steps and blocks of examples of a document are
those that its lines start, whatever the errors of the text, and a document has no feature only if
no line starts one. Without errors it has all tags and all rows of its lines as well, each at the
construct to which its line belongs. -/
theorem constructs_eq (d : Dialect) (text : String) :
    let found := ofText d text
    let delivery := deliver d text Assembly.builder Sink.collect .empty []
    let lines := delivery.events.filterMap Event.token?
    (found.document.constructs.map fun c => (c.kind, c.place)) =
        (lines.filter Token.starts).map (fun t => (t.kind, t.place)) ∧
      (found.document.feature = none ↔ ∀ t ∈ lines, t.kind ≠ .title .feature) ∧
      (found.isClean →
        found.document.constructs.flatMap Construct.entries = lines.flatMap Token.entries ∧
        found.document.constructs = Construct.gather (lines.flatMap Token.entries)) := by
  intro found delivery lines
  have hlines : lines = (eventsOf d text).filterMap Event.token? := by
    rw [← Delivery.filterMap_token?_run_collect (b := Assembly.builder) _ .empty [],
      ← deliver_eq_run]
  obtain ⟨hstarts, hclean⟩ := accounts_ofText d text
  rw [← hlines] at hstarts hclean
  have hpairs : (found.document.constructs.map fun c => (c.kind, c.place)) =
      (lines.filter Token.starts).map fun t => (t.kind, t.place) := by
    rwa [Construct.filterMap_start?_flatMap, Token.filterMap_start?_flatMap] at hstarts
  refine ⟨hpairs, ?_, fun h => ⟨hclean h, ?_⟩⟩
  · have hkinds : (∀ c ∈ found.document.constructs, c.kind ≠ .title .feature) ↔
        ∀ t ∈ lines.filter Token.starts, t.kind ≠ .title .feature := by
      rw [← List.forall_mem_map (f := fun c : Construct => (c.kind, c.place))
        (P := fun p => p.1 ≠ .title .feature), hpairs, List.forall_mem_map]
    rw [Document.feature_eq_none_iff, hkinds]
    refine ⟨fun h t ht hk => h t (List.mem_filter.mpr ⟨ht, ?_⟩) hk, fun h t ht => ?_⟩
    · rw [Token.starts, hk]
    · exact h t (List.mem_of_mem_filter ht)
  · rw [← hclean h, Construct.gather_flatMap]

/-- Tags above a feature and above examples, and tables below a step and below examples. -/
theorem constructs_eq_outline :
    let text := "@a @b\nFeature: F\nScenario Outline: O\nGiven <c>\n| x |\n@d\nExamples:\n" ++
      "| c |\n| e |\n"
    let found := ofText .english text
    let delivery := deliver .english text Assembly.builder Sink.collect .empty []
    let lines := delivery.events.filterMap Event.token?
    found.isClean ∧ found.document.constructs.length = 4 ∧
      found.document.constructs = Construct.gather (lines.flatMap Token.entries) := by
  intro text found delivery lines
  have hclean : found.isClean := by decide +kernel
  exact ⟨hclean, by decide +kernel, ((constructs_eq .english text).2.2 hclean).2⟩

end Diagnostics

end FeaturePlan
