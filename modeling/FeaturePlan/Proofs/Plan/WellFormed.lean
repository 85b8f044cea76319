import FeaturePlan.Proofs.Plan.Compiled
import Mathlib.Data.List.Nodup

/-! # Compiled plans are well formed

The plan of a document mirrors it down to single steps: each scenario is a node whose children are
the steps of the background and its own, and each outline is a node whose children are made by the
rows of its examples. Whatever the depth, a node says where it was written, in which language, and
each of its tags once. -/

namespace FeaturePlan

/-! ## Lists of tags -/

theorem nodup_eraseDups : ∀ tags : List String, tags.eraseDups.Nodup
  | [] => by simp
  | tag :: tags => by
    rw [List.eraseDups_cons, List.nodup_cons]
    refine ⟨?_, nodup_eraseDups _⟩
    simp [List.mem_eraseDups]
termination_by tags => tags.length
decreasing_by
  have h := List.length_filter_le (fun t => !t == tag) tags
  simp only [List.length_cons]
  omega

theorem Tag.nodup_names (tags : List Tag) : (Tag.names tags).Nodup :=
  nodup_eraseDups _

namespace Node

/-- Tags that are no repeats are put behind those that are there, as far as these lack them. -/
theorem withTags_eq_append {tags more : List String} (h : more.Nodup) :
    withTags tags more = tags ++ more.filter fun tag => !tags.contains tag := by
  induction more generalizing tags with
  | nil => simp [withTags]
  | cons tag more ih =>
    obtain ⟨hnew, hmore⟩ := List.nodup_cons.mp h
    by_cases htag : tag ∈ tags
    · simp [withTags, htag, ih hmore]
    · have hrest : (more.filter fun t => !(tags ++ [tag]).contains t) =
          more.filter fun t => !tags.contains t := by
        refine List.filter_congr fun t ht => ?_
        have hne : t ≠ tag := fun h => hnew (h ▸ ht)
        simp [hne]
      rw [withTags, if_neg (by simpa using htag), ih hmore, hrest]
      simp [htag]

theorem nodup_withTags {tags more : List String} (h : tags.Nodup) : (withTags tags more).Nodup := by
  induction more generalizing tags with
  | nil => exact h
  | cons tag more ih =>
    rw [withTags]
    split
    · exact ih h
    · rename_i hnew
      refine ih (List.nodup_append.mpr ⟨h, by simp, ?_⟩)
      rintro a ha b hb rfl
      obtain rfl := List.mem_singleton.mp hb
      exact hnew (by simpa using ha)

end Node

/-! ## What nodes are made of -/

def Feature.backgroundSteps (f : Feature) : List Step :=
  (f.background?.map (·.steps)).getD []

def Child.tags : Child → List Tag
  | background _ => []
  | scenario s => s.tags
  | outline o => o.tags

/-- The tags of a child below those of its feature: the feature's, then its own that the feature
lacks. -/
def Child.tagsBelow (inherited : List String) (child : Child) : List String :=
  inherited ++ (Tag.names child.tags).filter fun tag => !inherited.contains tag

/-- A plan keeps scenarios and outlines, provided that the filter is true of all their tags. -/
def Compiler.keeps (c : Compiler) (inherited : List String) : Child → Bool
  | .background _ => false
  | child =>
    match c.filter with
    | none => true
    | some e => e.holds (child.tagsBelow inherited)

namespace Node

variable (resource : String) (f : Feature)

/-- The node of a step of the feature, with its texts changed. Nothing stands below it. -/
structure IsStepOf (background : Bool) (change : String → String) (s : Step) (n : Node) :
    Prop where
  kind : n.kind = .step
  noId : n.id = none
  name : n.name = change (Text.trimmed s.text)
  keyword : n.keyword = Text.trimmed s.keyword
  language : n.language = f.language
  tags : n.tags = []
  source : n.source = some ⟨resource, s.place⟩
  flag : n.background = background
  data : n.data = s.argument.map fun a => (Compiler.stepData a).mapText change
  children : n.children = []
  outline : n.outline = none

/-- The steps of a scenario: those of the background with a flag, then its own without one, whose
texts are changed. -/
def HoldsSteps (own : List Step) (change : String → String) (ns : List Node) : Prop :=
  ∃ before after, ns = before ++ after ∧
    List.Forall₂ (IsStepOf resource f true id) f.backgroundSteps before ∧
    List.Forall₂ (IsStepOf resource f false change) own after

structure IsScenarioOf (place : Location) (own : List Step) (change : String → String) (n : Node) :
    Prop where
  kind : n.kind = .scenario
  language : n.language = f.language
  tags : n.tags.Nodup
  source : n.source = some ⟨resource, place⟩
  children : HoldsSteps resource f own change n.children
  outline : n.outline = none

/-- The node of an outline, with one scenario for each row of its examples. -/
structure IsOutlineOf (o : Outline) (t : Template Node) (n : Node) : Prop where
  kind : n.kind = .outline
  language : n.language = f.language
  tags : n.tags.Nodup
  source : n.source = some ⟨resource, o.place⟩
  outline : n.outline = some t
  background : List.Forall₂ (IsStepOf resource f true id) f.backgroundSteps t.background
  steps : List.Forall₂ (IsStepOf resource f false id) o.steps t.steps
  examples : t.examples = o.examples.map Compiler.examplesTable
  children : n.children = n.expand t t.examples
  scenarios : List.Forall₂ (fun row m => m.IsScenarioOf resource f o.place o.steps
    (ExamplesRow.substitute ⟨row.1.header, row.2⟩)) (rowsOf t.examples) n.children

def IsMadeOf : Child → Node → Prop
  | .background _, _ => False
  | .scenario s, n => n.IsScenarioOf resource f s.place s.steps id
  | .outline o, n => ∃ t, n.IsOutlineOf resource f o t

/-- What holds of every node below a feature, and of the feature itself. -/
structure IsSound (n : Node) : Prop where
  source : ∃ place, n.source = some ⟨resource, place⟩
  language : n.language = f.language
  tags : n.tags.Nodup
  outline : n.outline.isSome ↔ n.kind = .outline
  expanded : ∀ t, n.outline = some t → n.children = n.expand t t.examples ∧
    (∀ m ∈ n.children, m.kind = .scenario) ∧ ∀ block ∈ t.examples, block.tags.Nodup
  scenario : n.kind = .scenario → ∃ own change, HoldsSteps resource f own change n.children
  step : n.kind = .step → n.id = none ∧ n.tags = [] ∧ n.children = []

/-- The nodes of a tree, with the steps in the templates of its outlines. -/
def everyNode (n : Node) : List Node :=
  n.walk.flatMap fun m => m :: m.outline.toList.flatMap fun t => t.background ++ t.steps

/-- The feature's node mirrors the part of the feature that is kept, and all nodes are sound. -/
structure WellFormed (c : Compiler) (root : Node) : Prop where
  kind : root.kind = .feature
  tags : root.tags = Tag.names f.tags
  source : root.source = some ⟨resource, f.place⟩
  children : List.Forall₂ (fun child n => n.IsMadeOf resource f child ∧
    n.tags = child.tagsBelow root.tags) (f.children.filter (c.keeps root.tags)) root.children
  everyNode : ∀ n ∈ root.everyNode, n.IsSound resource f

end Node

namespace Node

variable {resource : String} {f : Feature} {n : Node} {t : Template Node} {P : Node → Prop}

/-! ## All nodes of a tree -/

theorem exists_of_forall₂ {α β : Type} {R : α → β → Prop} {as : List α} {bs : List β}
    (h : List.Forall₂ R as bs) {b : β} (hb : b ∈ bs) : ∃ a ∈ as, R a b := by
  induction h with
  | nil => cases hb
  | cons hr _ ih =>
    rcases List.mem_cons.mp hb with rfl | hb
    · exact ⟨_, List.mem_cons_self, hr⟩
    · obtain ⟨a, ha, h⟩ := ih hb
      exact ⟨a, List.mem_cons_of_mem _ ha, h⟩

theorem forall_everyNode_iff :
    (∀ m ∈ n.everyNode, P m) ↔
      P n ∧ (∀ t, n.outline = some t → ∀ m ∈ t.background ++ t.steps, P m) ∧
        ∀ k ∈ n.children, ∀ m ∈ k.everyNode, P m := by
  have hchildren : (∀ k ∈ n.children, ∀ m ∈ k.everyNode, P m) ↔
      ∀ m ∈ (walkAll n.children).flatMap
        fun m => m :: m.outline.toList.flatMap fun t => t.background ++ t.steps, P m := by
    simp only [everyNode, List.mem_flatMap, mem_walkAll]
    grind
  rw [everyNode, walk_eq, List.flatMap_cons, List.forall_mem_append, List.forall_mem_cons,
    hchildren, and_assoc]
  simp only [List.mem_flatMap, Option.mem_toList]
  grind

/-- A node without children and without a template is all there is of it. -/
theorem forall_everyNode_of_leaf (hchildren : n.children = []) (houtline : n.outline = none)
    (h : P n) : ∀ m ∈ n.everyNode, P m :=
  forall_everyNode_iff.mpr ⟨h, by simp [houtline], by simp [hchildren]⟩

theorem IsStepOf.isSound {background : Bool} {change : String → String} {s : Step}
    (h : n.IsStepOf resource f background change s) : n.IsSound resource f where
  source := ⟨_, h.source⟩
  language := h.language
  tags := by simp [h.tags]
  outline := by simp [h.outline, h.kind]
  expanded t ht := by simp [h.outline] at ht
  scenario hk := by simp [h.kind] at hk
  step _ := ⟨h.noId, h.tags, h.children⟩

theorem HoldsSteps.exists_isStepOf {own : List Step} {change : String → String} {ns : List Node}
    (h : HoldsSteps resource f own change ns) {m : Node} (hm : m ∈ ns) :
    ∃ background change s, m.IsStepOf resource f background change s := by
  obtain ⟨before, after, rfl, hbefore, hafter⟩ := h
  rcases List.mem_append.mp hm with hm | hm
  · obtain ⟨s, -, hs⟩ := exists_of_forall₂ hbefore hm
    exact ⟨_, _, s, hs⟩
  · obtain ⟨s, -, hs⟩ := exists_of_forall₂ hafter hm
    exact ⟨_, _, s, hs⟩

theorem IsScenarioOf.isSound {place : Location} {own : List Step} {change : String → String}
    (h : n.IsScenarioOf resource f place own change) : ∀ m ∈ n.everyNode, m.IsSound resource f := by
  refine forall_everyNode_iff.mpr ⟨?_, by simp [h.outline], fun k hk => ?_⟩
  · exact {
      source := ⟨_, h.source⟩
      language := h.language
      tags := h.tags
      outline := by simp [h.outline, h.kind]
      expanded := fun t ht => by simp [h.outline] at ht
      scenario := fun _ => ⟨own, change, h.children⟩
      step := fun hk => by simp [h.kind] at hk }
  · obtain ⟨background, change, s, hs⟩ := h.children.exists_isStepOf hk
    exact forall_everyNode_of_leaf hs.children hs.outline hs.isSound

theorem IsOutlineOf.isSound {o : Outline} (h : n.IsOutlineOf resource f o t) :
    ∀ m ∈ n.everyNode, m.IsSound resource f := by
  have hscenario {m : Node} (hm : m ∈ n.children) :
      ∃ place own change, m.IsScenarioOf resource f place own change := by
    obtain ⟨row, -, hm⟩ := exists_of_forall₂ h.scenarios hm
    exact ⟨_, _, _, hm⟩
  refine forall_everyNode_iff.mpr ⟨?_, fun u hu m hm => ?_, fun k hk => ?_⟩
  · exact {
      source := ⟨_, h.source⟩
      language := h.language
      tags := h.tags
      outline := by simp [h.outline, h.kind]
      expanded := fun u hu => by
        obtain rfl : t = u := Option.some.inj (h.outline.symm.trans hu)
        refine ⟨h.children, fun m hm => ?_, fun block hblock => ?_⟩
        · obtain ⟨place, own, change, hm⟩ := hscenario hm
          exact hm.kind
        · rw [h.examples] at hblock
          obtain ⟨e, -, rfl⟩ := List.mem_map.mp hblock
          exact Tag.nodup_names e.tags
      scenario := fun hk => by simp [h.kind] at hk
      step := fun hk => by simp [h.kind] at hk }
  · obtain rfl : t = u := Option.some.inj (h.outline.symm.trans hu)
    have hsteps : HoldsSteps resource f o.steps id (t.background ++ t.steps) :=
      ⟨_, _, rfl, h.background, h.steps⟩
    obtain ⟨background, change, s, hs⟩ := hsteps.exists_isStepOf hm
    exact hs.isSound
  · obtain ⟨place, own, change, hk⟩ := hscenario hk
    exact hk.isSound

/-! ## Compilation -/

variable {c : Compiler} {parent : Label}

theorem mapText_id (d : StepData) : d.mapText id = d := by
  cases d <;> simp [StepData.mapText]

theorem isStepOf_step (inherited : Properties) (s : Step) :
    (Compiler.step resource f.language inherited s).IsStepOf resource f false id s where
  kind := rfl
  noId := rfl
  name := rfl
  keyword := rfl
  language := rfl
  tags := rfl
  source := rfl
  flag := rfl
  data := by simp [Compiler.step, mapText_id]
  children := rfl
  outline := rfl

theorem isStepOf_background (inherited : Properties) (s : Step) :
    IsStepOf resource f true id s
      { Compiler.step resource f.language inherited s with background := true } :=
  { isStepOf_step inherited s with flag := rfl }

theorem IsStepOf.concrete {s : Step} (h : n.IsStepOf resource f false id s) (row : ExamplesRow) :
    (n.concrete row).IsStepOf resource f false row.substitute s :=
  { h with
    name := congrArg row.substitute h.name
    data := by simp [Node.concrete, h.data, mapText_id, Function.comp_def] }

theorem forall₂_steps (hl : parent.language = f.language) (ss : List Step) :
    List.Forall₂ (IsStepOf resource f false id) ss (Compiler.steps resource parent ss) := by
  rw [Compiler.steps, hl, List.forall₂_map_right_iff]
  exact List.forall₂_same.mpr fun s _ => isStepOf_step _ s

theorem forall₂_backgroundSteps (hl : parent.language = f.language) :
    List.Forall₂ (IsStepOf resource f true id) f.backgroundSteps
      (Compiler.backgroundSteps resource parent f.background?) := by
  rw [Feature.backgroundSteps]
  cases f.background? with
  | none => exact .nil
  | some b =>
    simp only [Compiler.backgroundSteps, hl]
    rw [List.forall₂_map_right_iff]
    exact List.forall₂_same.mpr fun s _ => isStepOf_background _ s

theorem forall₂_concrete {ss : List Step} {ns : List Node}
    (h : List.Forall₂ (IsStepOf resource f false id) ss ns) (row : ExamplesRow) :
    List.Forall₂ (IsStepOf resource f false row.substitute) ss (ns.map (concrete row)) :=
  List.forall₂_map_right_iff.mpr (h.imp fun _ _ hs => hs.concrete row)

theorem forall₂_scenariosFrom {R : ExamplesTable × List String → Node → Prop}
    (h : ∀ number row, R row (n.scenarioFor t number row.1 row.2)) (number : Nat)
    (rows : List (ExamplesTable × List String)) :
    List.Forall₂ R rows (n.scenariosFrom t number rows) := by
  induction rows generalizing number with
  | nil => exact .nil
  | cons row rows ih => exact .cons (h number row) (ih (number + 1))

end Node

namespace Compiler

open Node

variable {c : Compiler} {resource : String} {f : Feature} {parent : Label}

theorem label_spec {kind : NodeKind} {e : Element} {language : String}
    {inherited : List String × Properties} {l : Label} (hi : inherited.1.Nodup)
    (h : c.label kind resource e language inherited = .ok l) :
    l.kind = kind ∧ l.language = language ∧ l.source = some ⟨resource, e.heading.place⟩ ∧
      l.tags.Nodup ∧
      l.tags = inherited.1 ++ (Tag.names e.tags).filter fun tag => !inherited.1.contains tag := by
  obtain ⟨id, -, hl⟩ := Except.exists_of_bind_eq_ok h
  obtain rfl := Except.ok.inj hl
  have hinherited : withTags [] inherited.1 = inherited.1 := by
    simp [withTags_eq_append hi]
  refine ⟨rfl, rfl, rfl, ?_, ?_⟩
  · exact nodup_withTags (by rwa [hinherited])
  · simp only [hinherited, withTags_eq_append (Tag.nodup_names e.tags)]

theorem featureLabel_spec {l : Label} (h : c.featureLabel resource f = .ok l) :
    l.kind = .feature ∧ l.language = f.language ∧ l.source = some ⟨resource, f.place⟩ ∧
      l.tags.Nodup ∧ l.tags = Tag.names f.tags := by
  obtain ⟨own, hown, hl⟩ := Except.exists_of_bind_eq_ok h
  obtain rfl := Except.ok.inj hl
  have hnone : ([], Properties.empty).1.Nodup := List.nodup_nil (α := String)
  simpa using label_spec hnone hown

theorem isMadeOf_scenario (hl : parent.language = f.language) (ht : parent.tags.Nodup)
    {s : Scenario} {n : Node} (h : c.scenario resource f.background? parent s = .ok n) :
    n.IsMadeOf resource f (.scenario s) ∧ n.tags = (Child.scenario s).tagsBelow parent.tags := by
  obtain ⟨l, hlabel, hn⟩ := Except.exists_of_bind_eq_ok h
  obtain rfl := Except.ok.inj hn
  obtain ⟨hkind, hlanguage, hsource, hnodup, htags⟩ := label_spec ht hlabel
  have hlanguage := hlanguage.trans hl
  exact ⟨{
    kind := hkind
    language := hlanguage
    tags := hnodup
    source := hsource
    children := ⟨_, _, rfl, forall₂_backgroundSteps hlanguage, forall₂_steps hlanguage s.steps⟩
    outline := rfl }, htags⟩

theorem isMadeOf_outline (hl : parent.language = f.language) (ht : parent.tags.Nodup)
    {o : Outline} {n : Node} (h : c.outline resource f.background? parent o = .ok n) :
    n.IsMadeOf resource f (.outline o) ∧ n.tags = (Child.outline o).tagsBelow parent.tags := by
  obtain ⟨l, hlabel, hn⟩ := Except.exists_of_bind_eq_ok h
  obtain rfl := Except.ok.inj hn
  obtain ⟨hkind, hlanguage, hsource, hnodup, htags⟩ := label_spec ht hlabel
  have hlanguage := hlanguage.trans hl
  have hbackground : List.Forall₂ _ _ (backgroundSteps resource l f.background?) :=
    forall₂_backgroundSteps hlanguage
  have hsteps : List.Forall₂ _ _ (steps resource l o.steps) := forall₂_steps hlanguage o.steps
  refine ⟨⟨_, {
    kind := hkind
    language := hlanguage
    tags := hnodup
    source := hsource
    outline := rfl
    background := hbackground
    steps := hsteps
    examples := rfl
    children := by
      refine expand_congr ?_ rfl rfl _
      rfl
    scenarios := ?_ }⟩, htags⟩
  refine forall₂_scenariosFrom (fun number row => ?_) 1 _
  exact {
    kind := rfl
    language := hlanguage
    tags := nodup_withTags .nil
    source := hsource
    children := ⟨_, _, rfl, hbackground, forall₂_concrete hsteps _⟩
    outline := rfl }

/-- The filter is asked about the tags that a node has below its feature. -/
theorem selects_eq_keeps {child : Child} {n : Node} (hm : n.IsMadeOf resource f child)
    (ht : n.tags = child.tagsBelow parent.tags) : c.selects n = c.keeps parent.tags child := by
  rw [selects, ht]
  cases child with
  | background b => exact hm.elim
  | scenario s | outline o => rfl

/-- What is selected on one side is kept on the other, and what is left out stands in neither. -/
theorem forall₂_filter_cons {α β : Type} {R : α → β → Prop} {keep : α → Bool} {selected : Bool}
    {a : α} {b : β} {as : List α} {bs : List β} (hr : R a b) (hk : selected = keep a)
    (h : List.Forall₂ R (as.filter keep) bs) :
    List.Forall₂ R ((a :: as).filter keep) (if selected then b :: bs else bs) := by
  rw [List.filter_cons, ← hk]
  split
  · exact .cons hr h
  · exact h

/-- What holds of each scenario and each outline that is compiled holds of all that are kept. -/
theorem forall₂_children_of {R : Child → Node → Prop} (hl : parent.language = f.language)
    (ht : parent.tags.Nodup)
    (hscenario : ∀ {s n}, c.scenario resource f.background? parent s = .ok n → R (.scenario s) n)
    (houtline : ∀ {o n}, c.outline resource f.background? parent o = .ok n → R (.outline o) n)
    {children : List Child} {ns : List Node}
    (h : c.children resource f.background? parent children = .ok ns) :
    List.Forall₂ R (children.filter (c.keeps parent.tags)) ns := by
  induction children generalizing ns with
  | nil =>
    obtain rfl := Except.ok.inj h
    exact .nil
  | cons child rest ih =>
    cases child with
    | background b => exact ih h
    | scenario s =>
      obtain ⟨m, hm, h⟩ := Except.exists_of_bind_eq_ok h
      obtain ⟨ms, hms, h⟩ := Except.exists_of_bind_eq_ok h
      obtain rfl := Except.ok.inj h
      obtain ⟨hmade, htags⟩ := isMadeOf_scenario hl ht hm
      exact forall₂_filter_cons (hscenario hm) (selects_eq_keeps hmade htags) (ih hms)
    | outline o =>
      obtain ⟨m, hm, h⟩ := Except.exists_of_bind_eq_ok h
      obtain ⟨ms, hms, h⟩ := Except.exists_of_bind_eq_ok h
      obtain rfl := Except.ok.inj h
      obtain ⟨hmade, htags⟩ := isMadeOf_outline hl ht hm
      exact forall₂_filter_cons (houtline hm) (selects_eq_keeps hmade htags) (ih hms)

theorem forall₂_children (hl : parent.language = f.language) (ht : parent.tags.Nodup)
    {children : List Child} {ns : List Node}
    (h : c.children resource f.background? parent children = .ok ns) :
    List.Forall₂ (fun child n => n.IsMadeOf resource f child ∧
      n.tags = child.tagsBelow parent.tags) (children.filter (c.keeps parent.tags)) ns :=
  forall₂_children_of hl ht (isMadeOf_scenario hl ht) (isMadeOf_outline hl ht) h

/-- What is compiled from a document is well formed, whatever the document and the filter. -/
theorem compile_wellFormed {d : Document} {root : Node}
    (h : c.compile resource d = .ok (some root)) :
    ∃ f, d.feature = some f ∧ root.WellFormed resource f c := by
  obtain ⟨f, hf, hfeature, -⟩ := compile_eq_ok_some_iff.mp h
  obtain ⟨l, hl, hn⟩ := Except.exists_of_bind_eq_ok hfeature
  obtain ⟨ns, hchildren, hn⟩ := Except.exists_of_bind_eq_ok hn
  obtain rfl := Except.ok.inj hn
  obtain ⟨hkind, hlanguage, hsource, hnodup, htags⟩ := featureLabel_spec hl
  have hmade := forall₂_children hlanguage hnodup hchildren
  refine ⟨f, hf, {
    kind := hkind
    tags := htags
    source := hsource
    children := hmade
    everyNode := forall_everyNode_iff.mpr ⟨?_, by simp, fun n hn => ?_⟩ }⟩
  · exact {
      source := ⟨_, hsource⟩
      language := hlanguage
      tags := hnodup
      outline := by simp [hkind]
      expanded := by simp
      scenario := by simp [hkind]
      step := by simp [hkind] }
  · obtain ⟨child, -, hn, -⟩ := exists_of_forall₂ hmade hn
    cases child with
    | background b => exact hn.elim
    | scenario s => exact IsScenarioOf.isSound hn
    | outline o =>
      obtain ⟨t, hn⟩ := hn
      exact hn.isSound

/-- A scenario that repeats a tag of its feature, and an outline with two rows in a tagged block,
below a background. -/
theorem compile_wellFormed_outline :
    let c : Compiler := ⟨(· == "id"), none⟩
    let heading (line : Nat) (name : String) : Heading := ⟨⟨line, 1⟩, "", name, none⟩
    let tag (name : String) : Tag := ⟨⟨1, 1⟩, "@" ++ name⟩
    let row (line : Nat) (value : String) : TableRow := ⟨⟨line, 1⟩, [⟨⟨line, 2⟩, value⟩]⟩
    let step (line : Nat) (text : String) : Step := ⟨⟨line, 1⟩, "When ", .when, text, none, []⟩
    let d : Document := ⟨some ⟨heading 1 "F", [tag "a"], "en",
      [.background ⟨heading 2 "", [step 3 "b"], []⟩,
        .scenario ⟨heading 4 "S", [tag "s", tag "a"], [step 5 "w"], []⟩,
        .outline ⟨heading 6 "O", [tag "id"], [step 7 "<x>"],
          [⟨heading 8 "", [tag "e", tag "e"], some (row 9 "x"), [row 10 "1", row 11 "2"]⟩], []⟩],
      []⟩⟩
    ∃ f root, c.compile "r" d = .ok (some root) ∧ d.feature = some f ∧ root.WellFormed "r" f c ∧
      root.children.map (fun n => (n.kind, n.tags, n.children.length)) =
        [(.scenario, ["a", "s"], 2), (.outline, ["a", "id"], 2)] := by
  intro c heading tag row step d
  let root := (c.compile "r" d).toOption.join.getD default
  have hroot : c.compile "r" d = .ok (some root) := by decide +kernel
  obtain ⟨f, hf, hsound⟩ := compile_wellFormed hroot
  exact ⟨f, root, hroot, hf, hsound, by decide +kernel⟩

end Compiler

end FeaturePlan
