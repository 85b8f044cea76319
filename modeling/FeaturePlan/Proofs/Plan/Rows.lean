import FeaturePlan.Proofs.Plan.Compiled
import FeaturePlan.Proofs.Plan.Expansion
import FeaturePlan.Proofs.Plan.Frame
import FeaturePlan.Proofs.Plan.Replacement

/-! # Outlines are merged row by row

The scenarios of a defining outline are merged with those that its own examples make of the
implementing outline: each row is filled into the steps of both. The examples of the implementing
outline decide nothing. -/

namespace FeaturePlan

/-! ## Rows -/

namespace Node

/-- The scenario of one row of examples: the background of an outline, and its steps with the values
of the row. -/
def rowScenario (outline : Node) (t : Template Node) (row : ExamplesTable × List String) : Node :=
  ⟨{ outline.toLabel with kind := .scenario },
    t.background ++ t.steps.map (concrete ⟨row.1.header, row.2⟩), none⟩

theorem mem_of_mem_rowsOf {examples : List ExamplesTable} {row : ExamplesTable × List String}
    (h : row ∈ rowsOf examples) : row.1 ∈ examples := by
  obtain ⟨block, hblock, hrow⟩ := List.mem_flatMap.mp h
  obtain ⟨values, -, rfl⟩ := List.mem_map.mp hrow
  exact hblock

/-- The tags of a row's scenario are those of the outline and of its block. -/
theorem mem_tags_scenarioFor {outline : Node} {t : Template Node} {number : Nat}
    {block : ExamplesTable} {values : List String} {tag : String}
    (h : tag ∈ (outline.scenarioFor t number block values).tags) :
    tag ∈ outline.tags ∨ tag ∈ block.tags := by
  simp only [scenarioFor, mem_withTags, List.not_mem_nil, false_or, List.mem_append] at h
  exact h.imp_left List.mem_of_mem_filter

@[simp] theorem withExamples_toLabel (n : Node) (examples : List ExamplesTable) :
    (n.withExamples examples).toLabel = n.toLabel := by
  simp only [withExamples]
  split <;> rfl

def Untagged (ns : List Node) : Prop :=
  ∀ m ∈ walkAll ns, m.tags = []

theorem untagged_iff {ns : List Node} :
    Untagged ns ↔ ∀ n ∈ ns, n.tags = [] ∧ Untagged n.children := by
  constructor
  · intro h n hn
    have hwalk (m : Node) (hm : m ∈ n.walk) : m.tags = [] :=
      h m (mem_walkAll.mpr ⟨n, hn, hm⟩)
    rw [walk_eq] at hwalk
    exact ⟨hwalk n List.mem_cons_self, fun m hm => hwalk m (List.mem_cons_of_mem n hm)⟩
  · intro h m hm
    obtain ⟨n, hn, hm⟩ := mem_walkAll.mp hm
    rw [walk_eq] at hm
    rcases List.mem_cons.mp hm with rfl | hm
    · exact (h m hn).1
    · exact (h n hn).2 m hm

theorem untagged_append {ms ns : List Node} :
    Untagged (ms ++ ns) ↔ Untagged ms ∧ Untagged ns := by
  rw [untagged_iff, List.forall_mem_append, ← untagged_iff, ← untagged_iff]

theorem Untagged.subset {ms ns : List Node} (h : Untagged ns) (hsub : ∀ m ∈ ms, m ∈ ns) :
    Untagged ms :=
  untagged_iff.mpr fun m hm => untagged_iff.mp h m (hsub m hm)

/-- The steps of a compiled template have no tags, with the values of a row neither. -/
theorem IsExpanded.untagged {n : Node} {t : Template Node} (h : n.IsExpanded t)
    (row : ExamplesRow) : Untagged (t.background ++ t.steps.map (concrete row)) := by
  refine untagged_iff.mpr fun s hs => ?_
  rcases List.mem_append.mp hs with hs | hs
  · obtain ⟨-, htags, hchildren⟩ := h.background s hs
    exact ⟨htags, by simp [hchildren, Untagged, walkAll]⟩
  · obtain ⟨step, hstep, rfl⟩ := List.mem_map.mp hs
    obtain ⟨-, htags, hchildren⟩ := h.steps step hstep
    exact ⟨htags, by simp [concrete, hchildren, Untagged, walkAll]⟩

end Node

/-! ## Merging untagged steps -/

namespace Merge

open Node

theorem untagged_cons {n : Node} {ns : List Node} :
    Untagged (n :: ns) ↔ Untagged [n] ∧ Untagged ns := by
  rw [← untagged_append, List.singleton_append]

theorem untagged_virtual (name : String) : Untagged [Node.virtual name] := by
  simp [Untagged, walkAll, walk_eq, Node.virtual, Label.plain]

theorem untagged_attach {step : Node} {more : List Node} (hstep : Untagged [step])
    (hmore : Untagged more) : Untagged [attach step more] := by
  obtain ⟨htags, hchildren⟩ := untagged_iff.mp hstep step (by simp)
  exact untagged_iff.mpr (by simpa using ⟨htags, untagged_append.mpr ⟨hchildren, hmore⟩⟩)

theorem untagged_distribute {w : Arithmetic} {given steps served : List Node} {taken total : Nat}
    {runs : List Nat} (hgiven : Untagged given) (hsteps : Untagged steps)
    (h : distribute w given taken runs steps = some (served, total)) : Untagged served := by
  induction steps generalizing taken runs served with
  | nil =>
    obtain ⟨rfl, -⟩ := Prod.mk.inj (Option.some.inj h)
    exact hsteps
  | cons step steps ih =>
    obtain ⟨next, rest, -, hrest, rfl⟩ := distribute_cons.mp h
    obtain ⟨hstep, hsteps⟩ := untagged_cons.mp hsteps
    have hpiece : Untagged ((given.drop taken).take (runs.headD 0)) :=
      hgiven.subset fun m hm => List.mem_of_mem_drop (List.mem_of_mem_take hm)
    exact untagged_cons.mpr ⟨untagged_attach hstep hpiece, ih hsteps hrest⟩

theorem untagged_attachLast? {steps more children : List Node} (hsteps : Untagged steps)
    (hmore : Untagged more) (h : attachLast? steps more = some children) : Untagged children := by
  simp only [attachLast?] at h
  split at h
  · obtain rfl := Option.some.inj h
    exact hsteps
  · obtain ⟨last, hlast, rfl⟩ := Option.map_eq_some_iff.mp h
    have hmem : last ∈ steps := List.mem_of_getLast? hlast
    refine untagged_append.mpr ⟨hsteps.subset fun m hm => List.dropLast_subset steps hm, ?_⟩
    exact untagged_attach (hsteps.subset (by simpa using hmem)) hmore

theorem untagged_fillVoid {step : Node} (h : Untagged [step]) : Untagged [fillVoid step] := by
  simp only [fillVoid]
  split
  · exact untagged_attach h (untagged_virtual _)
  · exact h

theorem untagged_backgroundStep {steps : List Node} (h : Untagged steps) :
    Untagged (backgroundStep steps) := by
  simp only [backgroundStep]
  split
  · simp [Untagged, walkAll]
  · rename_i hne
    refine untagged_iff.mpr fun n hn => ?_
    obtain rfl := List.mem_singleton.mp hn
    exact ⟨rfl, h.subset fun m hm => List.mem_of_mem_filter hm⟩

theorem untagged_scenario {definition implementation : Node} (w : Arithmetic) (property : String)
    (hdefinition : Untagged definition.children)
    (himplementation : Untagged implementation.children) :
    Untagged (scenario w property definition implementation).node.children := by
  have hgiven : Untagged (own implementation.children) :=
    himplementation.subset fun m hm => List.mem_of_mem_filter hm
  have hsteps : Untagged (own definition.children) :=
    hdefinition.subset fun m hm => List.mem_of_mem_filter hm
  have hbackground : Untagged (background definition.children) :=
    hdefinition.subset fun m hm => List.mem_of_mem_filter hm
  simp only [scenario]
  split
  · simp [Untagged, walkAll]
  · rename_i runs log _
    split
    · simp [Untagged, walkAll]
    · rename_i served total hdistribute
      split
      · simp [Untagged, walkAll]
      · rename_i children hchildren
        have habove := untagged_append.mpr ⟨untagged_backgroundStep himplementation, hbackground⟩
        have hserved := untagged_distribute hgiven hsteps hdistribute
        have hleft := hgiven.subset fun m (hm : m ∈ (own implementation.children).drop total) =>
          List.mem_of_mem_drop hm
        have hall := untagged_attachLast? (untagged_append.mpr ⟨habove, hserved⟩) hleft hchildren
        refine untagged_iff.mpr fun n hn => ?_
        obtain ⟨step, hstep, rfl⟩ := List.mem_map.mp hn
        exact untagged_iff.mp (untagged_fillVoid (hall.subset (by simpa using hstep))) _ (by simp)

/-! ## Merging outlines -/

/-- A scenario is merged with the steps and the step map of an implementation, whatever else the
implementation says of itself. -/
theorem scenario_congr {implementation other : Node} (w : Arithmetic) (property : String)
    (definition : Node)
    (hchildren : implementation.children = other.children)
    (hproperties : implementation.properties = other.properties)
    (hsource : implementation.source = other.source) :
    scenario w property definition implementation = scenario w property definition other := by
  simp only [scenario, runsFor, Node.locator, hchildren, hproperties, hsource]

theorem scenario_scenarioFor (w : Arithmetic) (property : String)
    (definition implementation : Node) (t : Template Node) (number : Nat)
    (row : ExamplesTable × List String) :
    scenario w property definition (implementation.scenarioFor t number row.1 row.2) =
      scenario w property definition (implementation.rowScenario t row) :=
  scenario_congr w property definition rfl rfl rfl

section
variable {n : Node} {t : Template Node} (h : n.IsExpanded t) (row : ExamplesTable × List String)
include h

theorem background_rowScenario : background (n.rowScenario t row).children = t.background := by
  have hbackground : t.background.filter (·.background) = t.background :=
    List.filter_eq_self.mpr fun s hs => (h.background s hs).flag
  have hsteps : (t.steps.map (concrete ⟨row.1.header, row.2⟩)).filter (·.background) = [] := by
    simpa [List.filter_eq_nil_iff, concrete] using fun s hs => (h.steps s hs).flag
  rw [background, rowScenario, List.filter_append, hbackground, hsteps, List.append_nil]

theorem own_rowScenario :
    own (n.rowScenario t row).children = t.steps.map (concrete ⟨row.1.header, row.2⟩) := by
  have hbackground : t.background.filter (fun s => !s.background) = [] := by
    simpa [List.filter_eq_nil_iff] using fun s hs => (h.background s hs).flag
  have hsteps : (t.steps.map (concrete ⟨row.1.header, row.2⟩)).filter (fun s => !s.background) =
      t.steps.map (concrete ⟨row.1.header, row.2⟩) := by
    simpa [List.filter_eq_self, concrete] using fun s hs => (h.steps s hs).flag
  rw [own, rowScenario, List.filter_append, hbackground, hsteps, List.nil_append]

end

theorem length_pairwise (w : Arithmetic) (property : String)
    (definitions implementations : List Node) :
    (pairwise w property definitions implementations).1.length = definitions.length := by
  simpa using congrArg List.length (map_shell_pairwise w property definitions implementations)

/-- Where both sides have a scenario for a row, these two are merged. -/
theorem getElem?_pairwise {w : Arithmetic} {property : String}
    {definitions implementations : List Node}
    (hok : (pairwise w property definitions implementations).2.2 = none) {j : Nat} {d i : Node}
    (hd : definitions[j]? = some d) (hi : implementations[j]? = some i) :
    (scenario w property d i).error = none ∧
      (pairwise w property definitions implementations).1[j]? =
        some (scenario w property d i).node := by
  induction definitions generalizing implementations j with
  | nil => simp at hd
  | cons d' ds ih =>
    cases implementations with
    | nil => simp at hi
    | cons i' is =>
      simp only [pairwise] at hok ⊢
      split at hok
      · simp at hok
      · rename_i hmerge
        cases j with
        | zero =>
          obtain rfl : d' = d := by simpa using hd
          obtain rfl : i' = i := by simpa using hi
          simp [hmerge]
        | succ j => simpa [hmerge] using ih hok (by simpa using hd) (by simpa using hi)

section
variable {w : Arithmetic} {property : String} {definition implementation : Node}
  {t u : Template Node} (hdefinition : definition.IsExpanded t)
include hdefinition

theorem length_outline :
    (outline w property definition implementation).node.children.length =
      (rowsOf t.examples).length := by
  simp only [outline, length_pairwise, hdefinition.children, expand, length_scenariosFrom]

/-- The scenario of a row is merged with the row's scenario of the implementing outline. -/
theorem outline_row (himplementation : implementation.outline = some u)
    (hok : (outline w property definition implementation).error = none) {j : Nat}
    {row : ExamplesTable × List String} (hrow : (rowsOf t.examples)[j]? = some row) :
    (scenario w property (definition.scenarioFor t (j + 1) row.1 row.2)
        (implementation.rowScenario u row)).error = none ∧
      (outline w property definition implementation).node.children[j]? =
        some (scenario w property (definition.scenarioFor t (j + 1) row.1 row.2)
          (implementation.rowScenario u row)).node := by
  have hd : definition.children[j]? = some (definition.scenarioFor t (j + 1) row.1 row.2) := by
    rw [hdefinition.children, getElem?_expand, hrow]
    rfl
  have hi : (implementation.expand u t.examples)[j]? =
      some (implementation.scenarioFor u (j + 1) row.1 row.2) := by
    rw [getElem?_expand, hrow]
    rfl
  simp only [outline, hdefinition.outline, himplementation, Option.getD_some] at hok ⊢
  simpa only [scenario_scenarioFor] using getElem?_pairwise hok hd hi

/-- A merged outline has no tags but its own and those of its examples. -/
theorem hasTag_of_mem_outline (himplementation : implementation.IsExpanded u)
    (hok : (outline w property definition implementation).error = none) {tag : String}
    (htag : definition.hasTag tag = false) (hblocks : ∀ block ∈ t.examples, tag ∉ block.tags) :
    ∀ m ∈ (outline w property definition implementation).node.walk, m.hasTag tag = false := by
  intro m hm
  rw [walk_eq] at hm
  rcases List.mem_cons.mp hm with rfl | hm
  · exact htag
  · obtain ⟨s, hs, hm⟩ := mem_walkAll.mp hm
    obtain ⟨j, hj⟩ := List.mem_iff_getElem?.mp hs
    have hlt : j < (rowsOf t.examples).length :=
      (length_outline hdefinition).symm ▸ (List.getElem?_eq_some_iff.mp hj).1
    have hrow := List.getElem?_eq_getElem hlt
    obtain ⟨-, hmerged⟩ := outline_row hdefinition himplementation.outline hok hrow
    obtain rfl := Option.some.inj (hj.symm.trans hmerged)
    rw [walk_eq] at hm
    rcases List.mem_cons.mp hm with rfl | hm
    · rw [Node.hasTag, scenario_toLabel, List.contains_eq_mem, decide_eq_false_iff_not]
      intro hmem
      rcases mem_tags_scenarioFor hmem with hmem | hmem
      · simp [Node.hasTag, hmem] at htag
      · exact hblocks _ (mem_of_mem_rowsOf (List.getElem_mem hlt)) hmem
    · have huntagged : Untagged (scenario w property
          (definition.scenarioFor t (j + 1) (rowsOf t.examples)[j].1 (rowsOf t.examples)[j].2)
          (implementation.rowScenario u (rowsOf t.examples)[j])).node.children :=
        untagged_scenario w property (hdefinition.untagged _) (himplementation.untagged _)
      simp [Node.hasTag, huntagged m hm]

end

/-- The examples of the implementing outline decide nothing. -/
theorem outline_withExamples (w : Arithmetic) (property : String)
    (definition implementation : Node) (examples : List ExamplesTable) :
    outline w property definition (implementation.withExamples examples) =
      outline w property definition implementation := by
  simp only [outline]
  cases houtline : implementation.outline with
  | none => simp [withExamples, houtline]
  | some t =>
    have hexpand (blocks : List ExamplesTable) :
        (implementation.withExamples examples).expand { t with examples } blocks =
          implementation.expand t blocks := by
      refine expand_congr ?_ ?_ ?_ blocks
      · exact withExamples_toLabel implementation examples
      · rfl
      · rfl
    have hnew : (implementation.withExamples examples).outline = some { t with examples } := by
      simp [withExamples, houtline]
    simp only [hnew, Option.getD_some, hexpand]

end Merge

namespace Redefinition

variable {w : Arithmetic} {c : RedefinitionConfig} {features : List Node}

/-! ## Outlines of compiled features -/

/-- What is left of a child comes from a child of the same kind and tags. -/
theorem exists_of_mem_bearers_run (henabled : c.enabled = true)
    (herror : (run w c features).error = none) {kind : NodeKind} {tag : String} {n' : Node}
    (h : n' ∈ bearers (run w c features).features kind tag) :
    ∃ n ∈ bearers features kind tag, survivor? w c features n = some n' := by
  obtain ⟨⟨f', hf', hchild⟩, hkind, htag⟩ := mem_bearers.mp h
  rw [run_features henabled herror] at hf'
  obtain ⟨f, hf, hout⟩ := List.mem_filterMap.mp hf'
  rw [eq_of_outcome? hout] at hchild
  obtain ⟨n, hn, hsurvivor⟩ := List.mem_filterMap.mp hchild
  have hlabel := Node.toLabel_eq_of_shell_eq (survivor?_shell hsurvivor)
  refine ⟨n, mem_bearers.mpr ⟨⟨f, hf, hn⟩, ?_, ?_⟩, hsurvivor⟩
  · rw [← hlabel, hkind]
  · rw [Node.hasTag, ← hlabel]
    exact htag

/-- A child of a compiled feature that is left is found in the new plan. -/
theorem mem_bearers_run (henabled : c.enabled = true) (herror : (run w c features).error = none)
    (hcompiled : ∀ f ∈ features, f.IsCompiled) {kind : NodeKind} {tag : String} {n n' : Node}
    (hn : n ∈ bearers features kind tag) (h : survivor? w c features n = some n') :
    n' ∈ bearers (run w c features).features kind tag := by
  obtain ⟨⟨f, hf, hchild⟩, hkind, htag⟩ := mem_bearers.mp hn
  have hnot := (eq_of_survivor? h).1
  have hfeature : ¬f.hasTag c.implementationTag = true := by
    intro hf'
    have hmem := ((hcompiled f hf).isChild hchild).inherits c.implementationTag
      (by simpa [Node.hasTag] using hf')
    simp [Node.hasTag, hmem] at hnot
  cases hout : outcome? w c features f with
  | none =>
    rcases outcome?_eq_none.mp hout with hf' | hall
    · exact absurd hf' hfeature
    · simp [hall n hchild] at hnot
  | some f' =>
    have hlabel := Node.toLabel_eq_of_shell_eq (survivor?_shell h)
    refine mem_bearers.mpr ⟨⟨f', ?_, ?_⟩, ?_, ?_⟩
    · rw [run_features henabled herror]
      exact List.mem_filterMap.mpr ⟨f, hf, hout⟩
    · rw [eq_of_outcome? hout]
      exact List.mem_filterMap.mpr ⟨n, hchild, h⟩
    · rw [hlabel, hkind]
    · rw [Node.hasTag, hlabel]
      exact htag

/-- An outline of a compiled feature has a template, of which its scenarios are made. -/
theorem exists_isExpanded_of_mem_bearers (hcompiled : ∀ f ∈ features, f.IsCompiled) {tag : String}
    {n : Node} (hn : n ∈ bearers features .outline tag) : ∃ t, n.IsExpanded t := by
  obtain ⟨⟨f, hf, hchild⟩, hkind, -⟩ := mem_bearers.mp hn
  exact ((hcompiled f hf).isChild hchild).outline hkind

/-- A definition that is an implementation too is its own implementation, and no other's. -/
theorem hasTag_definition (hok : Mergeable w c features) {d i : Node}
    (hpair : (d, i) ∈ matched c features .outline) (hnot : i.hasTag c.definitionTag = false) :
    d.hasTag c.implementationTag = false := by
  obtain ⟨⟨hd, hi⟩, hsome, hid⟩ := mk_mem_matched.mp hpair
  obtain ⟨hchild, hkind, htag⟩ := mem_bearers.mp hd
  by_contra hboth
  have hd' : d ∈ bearers features .outline c.implementationTag :=
    mem_bearers.mpr ⟨hchild, hkind, by simpa using hboth⟩
  rw [hok.eq_of_id_eq (by simp) (by simp) hd' hi (hid ▸ hsome) hid, hnot] at htag
  contradiction

/-- What is left of a defining outline is the outline merged with the implementing one. -/
theorem survivor?_definition (henabled : c.enabled = true)
    (herror : (run w c features).error = none)
    {d i : Node} {t u : Template Node} (hpair : (d, i) ∈ matched c features .outline)
    (hnot : i.hasTag c.definitionTag = false) (hdt : d.IsExpanded t) (hiu : i.IsExpanded u)
    (hblocks : ∀ block ∈ t.examples, c.implementationTag ∉ block.tags) :
    (Merge.outline w c.stepMapProperty d i).error = none ∧
      survivor? w c features d = some (Merge.outline w c.stepMapProperty d i).node := by
  have hok := (run_succeeds_iff_mergeable henabled).mp herror
  obtain ⟨⟨hd, hi⟩, hsome, hid⟩ := mk_mem_matched.mp hpair
  obtain ⟨-, hdkind, hdtag⟩ := mem_bearers.mp hd
  have hdnot := hasTag_definition hok hpair hnot
  have hself : atMerging c d = d := atMerging_of_not_hasTag (by simp [hdnot])
  have hmerge : (Merge.outline w c.stepMapProperty d i).error = none := by
    have h := hok.merges .outline (by simp) (d, i) hpair
    rwa [mergeOf, if_pos rfl, outline_atMerging, hself] at h
  have htarget : IsTarget c d := ⟨.inr hdkind, hdtag, hsome⟩
  have himplementation : implementation? c features d = some i :=
    (implementation?_eq_some_iff hok htarget).mpr ⟨by rwa [hdkind], hid.symm⟩
  have hredefined : redefined w c features d = (Merge.outline w c.stepMapProperty d i).node := by
    simp only [redefined, if_pos htarget, himplementation, mergeOf, hdkind, if_true, hself,
      outline_atMerging]
  refine ⟨hmerge, ?_⟩
  have hprune := prune_eq_self c.implementationTag _
    (Merge.hasTag_of_mem_outline hdt hiu hmerge hdnot hblocks)
  simp [survivor?, hdnot, hredefined, hprune]

theorem unnoticed_withExamples {i : Node} (hkind : i.kind = .outline)
    (htag : i.hasTag c.implementationTag = true) (hnot : i.hasTag c.definitionTag = false)
    (examples : List ExamplesTable) :
    Unnoticed w c fun n => if n = i then i.withExamples examples else n where
  label n := by
    split
    · rename_i hni
      rw [hni, Node.withExamples_toLabel]
    · rfl
  kept n hn := by
    rw [if_neg]
    rintro rfl
    simp [htag, hnot] at hn
  merge d n := by
    split
    · rename_i hni
      subst hni
      simp only [mergeOf, hkind, if_true, outline_atMerging, Merge.outline_withExamples]
    · rfl

/-- A redefined outline is merged row by row with its own examples. Each of its scenarios is made by
a row of a block, and is merged with a scenario that has the background of the implementing outline
and its steps, filled with the values of the same row; the examples of the implementing outline can
be any others. -/
theorem outline_merged_row_by_row {w : Arithmetic} {c : RedefinitionConfig} {features : List Node}
    {d i : Node} (henabled : c.enabled = true) (hcompiled : ∀ f ∈ features, f.IsCompiled)
    (herror : (run w c features).error = none) (hpair : (d, i) ∈ matched c features .outline)
    (hnot : i.hasTag c.definitionTag = false)
    (hblocks : ∀ t ∈ d.outline, ∀ block ∈ t.examples, c.implementationTag ∉ block.tags) :
    (∃ t u, d.outline = some t ∧ i.outline = some u ∧
      ∃ d' ∈ bearers (run w c features).features .outline c.definitionTag,
        (∀ n ∈ bearers (run w c features).features .outline c.definitionTag,
          n.id = d.id → n = d') ∧
        d'.shell = d.shell ∧
        d.children.length = (t.examples.map fun e => e.rows.length).sum ∧
        d'.children.length = (t.examples.map fun e => e.rows.length).sum ∧
        ∀ (b r : Nat) (block : ExamplesTable) (values : List String),
          t.examples[b]? = some block → block.rows[r]? = some values →
          ∃ scenario filled merged,
            d.children[Node.rowsBefore t.examples b + r]? = some scenario ∧
            Node.IsRowScenario d t block values (Node.rowsBefore t.examples b + r + 1) scenario ∧
            List.Forall₂ (Node.IsFilled ⟨block.header, values⟩) u.steps filled ∧
            (u.background ++ filled).filter (fun s => s.background) = u.background ∧
            (u.background ++ filled).filter (fun s => !s.background) = filled ∧
            d'.children[Node.rowsBefore t.examples b + r]? = some merged ∧
            merged.shell = scenario.shell ∧
            let merge := Merge.scenario w c.stepMapProperty scenario
              ⟨{ i.toLabel with kind := .scenario }, u.background ++ filled, none⟩
            merge.error = none ∧ merged = merge.node) ∧
    ∀ (k : Compiler) (resource : String) (background : Option Background) (parent : Label)
      (o : Outline), k.outline resource background parent o = .ok i →
      ∀ examples : List Examples, ∃ i',
        k.outline resource background parent { o with examples } = .ok i' ∧
        ∀ a, node? features a = some i →
          (run w c (modify features a fun _ => i')).error = none ∧
          (run w c (modify features a fun _ => i')).features = (run w c features).features := by
  have hok := (run_succeeds_iff_mergeable henabled).mp herror
  obtain ⟨⟨hd, hi⟩, hsome, hid⟩ := mk_mem_matched.mp hpair
  obtain ⟨-, hikind, hitag⟩ := mem_bearers.mp hi
  constructor
  · obtain ⟨t, hdt⟩ := exists_isExpanded_of_mem_bearers hcompiled hd
    obtain ⟨u, hiu⟩ := exists_isExpanded_of_mem_bearers hcompiled hi
    obtain ⟨hmerge, hsurvivor⟩ := survivor?_definition henabled herror hpair hnot hdt hiu
      (hblocks t hdt.outline)
    refine ⟨t, u, hdt.outline, hiu.outline, (Merge.outline w c.stepMapProperty d i).node,
      mem_bearers_run henabled herror hcompiled hd hsurvivor, fun n hn hnid => ?_, rfl, ?_,
      (Merge.length_outline hdt).trans (Node.length_rowsOf t.examples),
      fun b r block values hblock hvalues => ?_⟩
    · obtain ⟨m, hm, hmsurvivor⟩ := exists_of_mem_bearers_run henabled herror hn
      have hmid : m.id = d.id := by
        rw [← Node.toLabel_eq_of_shell_eq (survivor?_shell hmsurvivor), hnid]
      rw [hok.eq_of_id_eq (by simp) (by simp) hm hd hsome hmid, hsurvivor] at hmsurvivor
      exact (Option.some.inj hmsurvivor).symm
    · rw [hdt.children, Node.expand, Node.length_scenariosFrom, Node.length_rowsOf]
    · have hrow := Node.getElem?_rowsOf_eq_some_iff.mpr ⟨b, r, hblock, hvalues, rfl⟩
      obtain ⟨herror, hchild⟩ := Merge.outline_row hdt hiu.outline hmerge hrow
      refine ⟨_, _, _, ?_, Node.isRowScenario_scenarioFor d t _ block values,
        Node.forall₂_isFilled_iff.mpr rfl, Merge.background_rowScenario hiu (block, values),
        Merge.own_rowScenario hiu (block, values), hchild, Merge.scenario_shell _ _ _ _, herror,
        rfl⟩
      rw [hdt.children, Node.getElem?_expand, hrow]
      rfl
  · intro k resource background parent o hi examples
    refine ⟨_, Compiler.outline_withExamples hi examples, fun a ha => ?_⟩
    rw [modify_eq_mapChildren hok ha hikind hitag (hid ▸ hsome) (by simp)]
    exact (unnoticed_withExamples hikind hitag hnot _).run_eq henabled herror

/-- Two rows of a definition, and an implementation with a background and a row of its own, for
which three other rows do as well. -/
theorem outline_merged_row_by_row_payments :
    let c := RedefinitionConfig.standard
    let k : Compiler := ⟨(· == "o"), none⟩
    let names (scenario : Node) : List (String × List String) :=
      scenario.children.map fun s => (s.name, s.children.map fun m => m.name)
    let heading (name : String) : Heading := ⟨⟨1, 1⟩, "", name, none⟩
    let tag (name : String) : Tag := ⟨⟨1, 1⟩, "@" ++ name⟩
    let row (value : String) : TableRow := ⟨⟨1, 1⟩, [⟨⟨1, 1⟩, value⟩]⟩
    let step (text : String) : Step := ⟨⟨1, 1⟩, "When", .when, text, none, []⟩
    let examples (values : List String) : Examples :=
      ⟨heading "", [], some (row "n"), values.map row⟩
    let outline (name text : String) (values : List String) : Outline :=
      ⟨heading "O", [tag "o", tag name], [step text], [examples values], []⟩
    let background : Background := ⟨heading "", [step "session"], []⟩
    let document (children : List Child) : Document := ⟨some ⟨heading "F", [], "en", children, []⟩⟩
    let definition := document [.outline (outline "definition" "pay <n>" ["10", "20"])]
    let implementation (values : List String) :=
      document [.background background, .outline (outline "implementation" "post <n>" values)]
    ∃ f g g' d' : Node,
      k.compile "r" definition = .ok (some f) ∧
      k.compile "r" (implementation ["99"]) = .ok (some g) ∧
      k.compile "r" (implementation ["1", "2", "3"]) = .ok (some g') ∧
      (run .checked c [f, g]).error = none ∧
      d' ∈ bearers (run .checked c [f, g]).features .outline c.definitionTag ∧
      d'.children.map names =
        [[("<background>", ["session"]), ("pay 10", ["post 10"])],
          [("<background>", ["session"]), ("pay 20", ["post 20"])]] ∧
      (run .checked c [f, g']).error = none ∧
      (run .checked c [f, g']).features = (run .checked c [f, g]).features := by
  intro c k names heading tag row step examples outline background document definition
    implementation
  let parent : Label := { Label.plain .feature "F" with
    language := "en"
    properties := Properties.empty.insert "language" "en"
    source := some ⟨"r", ⟨1, 1⟩⟩ }
  let node (b : Option Background) (o : Outline) : Node :=
    match k.outline "r" b parent o with
    | .ok n => n
    | .error _ => default
  let feature (n : Node) : Node := ⟨parent, [n], none⟩
  let d := node none (outline "definition" "pay <n>" ["10", "20"])
  let i := node (some background) (outline "implementation" "post <n>" ["99"])
  let i' := node (some background) (outline "implementation" "post <n>" ["1", "2", "3"])
  have hf : k.compile "r" definition = .ok (some (feature d)) := by decide +kernel
  have hg : k.compile "r" (implementation ["99"]) = .ok (some (feature i)) := by decide +kernel
  have hg' : k.compile "r" (implementation ["1", "2", "3"]) = .ok (some (feature i')) := by
    decide +kernel
  have hcompiled : ∀ f ∈ [feature d, feature i], f.IsCompiled := by
    simp only [List.forall_mem_cons, List.not_mem_nil, false_implies, implies_true, and_true]
    exact ⟨⟨k, "r", _, hf⟩, ⟨k, "r", _, hg⟩⟩
  have herror : (run .checked c [feature d, feature i]).error = none := by decide +kernel
  obtain ⟨⟨t, u, ht, hu, d', hd', -, -, -, hlength, hrows⟩, hexamples⟩ :=
    outline_merged_row_by_row (d := d) (i := i) rfl hcompiled herror (by decide +kernel)
      (by decide +kernel) (by decide +kernel)
  let block : ExamplesTable := ⟨[], ["n"], [["10"], ["20"]]⟩
  have hblock : t.examples[0]? = some block := by
    have hall : d.outline.map (fun t => t.examples[0]?) = some (some block) := by decide +kernel
    simpa [ht] using hall
  have hrow (r : Nat) (value : String) (hvalue : block.rows[r]? = some [value]) :
      d'.children[r]? = some (Merge.scenario .checked c.stepMapProperty
        (d.children[r]?.getD default) ⟨{ i.toLabel with kind := .scenario },
          (i.outline.getD default).background ++
            (i.outline.getD default).steps.map (Node.concrete ⟨block.header, [value]⟩),
          none⟩).node := by
    have hplace : Node.rowsBefore t.examples 0 + r = r := by simp [Node.rowsBefore]
    obtain ⟨scenario, filled, merged, hscenario, -, hfilled, -, -, hmerged, -, -, hnode⟩ :=
      hrows 0 r block [value] hblock hvalue
    rw [hplace] at hscenario hmerged
    rw [hmerged, hnode, hscenario, hu, Node.forall₂_isFilled_iff.mp hfilled]
    rfl
  have hchildren : d'.children.map names =
      [[("<background>", ["session"]), ("pay 10", ["post 10"])],
        [("<background>", ["session"]), ("pay 20", ["post 20"])]] := by
    have htwo : d'.children.length = 2 := by
      have hsum :
          d.outline.map (fun t => (t.examples.map fun e => e.rows.length).sum) = some 2 := by
        decide +kernel
      rw [ht] at hsum
      exact hlength.trans (Option.some.inj hsum)
    obtain ⟨first, second, hboth⟩ := List.length_eq_two.mp htwo
    have hfirst := hrow 0 "10" rfl
    have hsecond := hrow 1 "20" rfl
    rw [hboth] at hfirst hsecond ⊢
    rw [Option.some.inj hfirst, Option.some.inj hsecond]
    decide +kernel
  obtain ⟨j, hj, hsame⟩ :=
    hexamples k "r" (some background) parent (outline "implementation" "post <n>" ["99"])
      (by decide +kernel) [examples ["1", "2", "3"]]
  obtain rfl : i' = j := Except.ok.inj (Eq.trans (by decide +kernel) hj)
  obtain ⟨herror', hfeatures⟩ := hsame ⟨1, 0⟩ (by decide +kernel)
  exact ⟨feature d, feature i, feature i', d', hf, hg, hg', herror, hd', hchildren, herror',
    hfeatures⟩

end Redefinition

end FeaturePlan
