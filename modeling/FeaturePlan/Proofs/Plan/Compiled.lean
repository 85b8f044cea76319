import FeaturePlan.Plan.Compiler

/-! # Compiled features

What the children of a feature have in common when they come from a document: they have the tags of
the feature, and an outline holds what its own template and examples make of it. -/

namespace FeaturePlan

theorem Except.exists_of_bind_eq_ok {ε α β : Type _} {x : Except ε α} {next : α → Except ε β}
    {b : β} (h : x >>= next = .ok b) : ∃ a, x = .ok a ∧ next a = .ok b := by
  cases x with
  | error e => simp [bind, Except.bind] at h
  | ok a => exact ⟨a, rfl, h⟩

/-! ## Expansion -/

namespace Node

theorem mem_withTags {tag : String} (tags more : List String) :
    tag ∈ withTags tags more ↔ tag ∈ tags ∨ tag ∈ more := by
  induction more generalizing tags with
  | nil => simp [withTags]
  | cons next more ih =>
    by_cases h : next ∈ tags
    · have hnext : tag = next → tag ∈ tags := by
        rintro rfl
        exact h
      simp only [withTags, List.contains_eq_mem, h, decide_true, if_true, ih, List.mem_cons]
      grind
    · simp [withTags, h, ih, or_assoc]

/-- What an outline is expanded to depends on what it says of itself, and on the steps and the
background of the template. -/
theorem expand_congr {m n : Node} {t u : Template Node} (h : m.toLabel = n.toLabel)
    (hsteps : t.steps = u.steps) (hbackground : t.background = u.background)
    (examples : List ExamplesTable) : m.expand t examples = n.expand u examples := by
  simp only [expand]
  generalize 1 = number
  induction rowsOf examples generalizing number with
  | nil => rfl
  | cons row rows ih =>
    simp [scenariosFrom, scenarioFor, sharedTags, h, hsteps, hbackground, ih]

/-- The outline with other examples, and with the scenarios that these make of it. -/
def withExamples (n : Node) (examples : List ExamplesTable) : Node :=
  match n.outline with
  | none => n
  | some t =>
    let t := { t with examples }
    { n with children := n.expand t examples, outline := some t }

/-- A step as it is compiled: it has no tags and nothing stands below it. -/
structure IsPlainStep (background : Bool) (s : Node) : Prop where
  flag : s.background = background
  tags : s.tags = []
  children : s.children = []

/-- The template of a compiled outline, of which its children are made. -/
structure IsExpanded (n : Node) (t : Template Node) : Prop where
  outline : n.outline = some t
  children : n.children = n.expand t t.examples
  steps : ∀ s ∈ t.steps, s.IsPlainStep false
  background : ∀ s ∈ t.background, s.IsPlainStep true

end Node

/-! ## Compilation -/

namespace Compiler

variable {c : Compiler} {resource : String}

theorem label_tags {kind : NodeKind} {e : Element} {language : String}
    {inherited : List String × Properties} {l : Label}
    (h : c.label kind resource e language inherited = .ok l) :
    l.kind = kind ∧ ∀ tag ∈ inherited.1, tag ∈ l.tags := by
  obtain ⟨id, -, hl⟩ := Except.exists_of_bind_eq_ok h
  obtain rfl := Except.ok.inj hl
  exact ⟨rfl, fun tag htag => by simp [Node.mem_withTags, htag]⟩

/-- The id of an element is the one of its tags that is an id. -/
theorem label_id {kind : NodeKind} {e : Element} {language : String}
    {inherited : List String × Properties} {l : Label}
    (h : c.label kind resource e language inherited = .ok l) (tag : String) :
    l.id = some tag ↔ tag ∈ Tag.names e.tags ∧ c.isId tag = true := by
  obtain ⟨id, hid, hl⟩ := Except.exists_of_bind_eq_ok h
  obtain rfl := Except.ok.inj hl
  change id = some tag ↔ _
  rw [← List.mem_filter]
  unfold Compiler.id at hid
  split at hid
  next hfilter =>
    obtain rfl := Except.ok.inj hid
    simp [hfilter]
  next found hfilter =>
    obtain rfl := Except.ok.inj hid
    simp [hfilter, eq_comm]
  next => cases hid

theorem isPlainStep_of_mem_steps {parent : Label} {ss : List Step} {s : Node}
    (h : s ∈ steps resource parent ss) : s.IsPlainStep false := by
  obtain ⟨s, -, rfl⟩ := List.mem_map.mp h
  exact ⟨rfl, rfl, rfl⟩

theorem isPlainStep_of_mem_backgroundSteps {parent : Label} {b : Option Background} {s : Node}
    (h : s ∈ backgroundSteps resource parent b) : s.IsPlainStep true := by
  cases b with
  | none => simp [backgroundSteps] at h
  | some b =>
    obtain ⟨s, -, rfl⟩ := List.mem_map.mp h
    exact ⟨rfl, rfl, rfl⟩

/-- An outline is compiled together with the scenarios that its examples make of it. -/
theorem exists_isExpanded {background : Option Background} {parent : Label} {o : Outline} {n : Node}
    (h : c.outline resource background parent o = .ok n) : ∃ t, n.IsExpanded t := by
  obtain ⟨l, -, hn⟩ := Except.exists_of_bind_eq_ok h
  obtain rfl := Except.ok.inj hn
  exact ⟨_, {
    outline := rfl
    children := by
      refine Node.expand_congr ?_ rfl rfl _
      rfl
    steps := fun s hs => isPlainStep_of_mem_steps hs
    background := fun s hs => isPlainStep_of_mem_backgroundSteps hs }⟩

/-- Compiling an outline with other examples changes nothing but these. -/
theorem outline_withExamples {background : Option Background} {parent : Label} {o : Outline}
    {n : Node} (h : c.outline resource background parent o = .ok n) (examples : List Examples) :
    c.outline resource background parent { o with examples } =
      .ok (n.withExamples (examples.map examplesTable)) := by
  obtain ⟨l, hl, hn⟩ := Except.exists_of_bind_eq_ok h
  obtain rfl := Except.ok.inj hn
  simp only [outline, hl, bind, Except.bind, pure, Except.pure, Node.withExamples]
  congr 2
  refine Node.expand_congr ?_ rfl rfl _
  rfl

structure IsChild (tags : List String) (n : Node) : Prop where
  inherits : ∀ tag ∈ tags, tag ∈ n.tags
  outline : n.kind = .outline → ∃ t, n.IsExpanded t

theorem isChild_scenario {background : Option Background} {parent : Label} {s : Scenario} {n : Node}
    (h : c.scenario resource background parent s = .ok n) : IsChild parent.tags n := by
  obtain ⟨l, hl, hn⟩ := Except.exists_of_bind_eq_ok h
  obtain rfl := Except.ok.inj hn
  obtain ⟨hkind, htags⟩ := label_tags hl
  exact ⟨htags, fun houtline => by simp [hkind] at houtline⟩

theorem isChild_outline {background : Option Background} {parent : Label} {o : Outline} {n : Node}
    (h : c.outline resource background parent o = .ok n) : IsChild parent.tags n := by
  refine ⟨?_, fun _ => exists_isExpanded h⟩
  obtain ⟨l, hl, hn⟩ := Except.exists_of_bind_eq_ok h
  obtain rfl := Except.ok.inj hn
  exact (label_tags hl).2

theorem isChild_of_mem_children {background : Option Background} {parent : Label}
    {children : List Child} {ns : List Node}
    (h : c.children resource background parent children = .ok ns) {n : Node} (hn : n ∈ ns) :
    IsChild parent.tags n := by
  -- The filter keeps a node or leaves it out, but does not change it.
  have hkept {m : Node} {ms : List Node} (hm : IsChild parent.tags m)
      (hms : n ∈ ms → IsChild parent.tags n) (hn : n ∈ if c.selects m then m :: ms else ms) :
      IsChild parent.tags n := by
    split at hn
    · rcases List.mem_cons.mp hn with rfl | hn
      · exact hm
      · exact hms hn
    · exact hms hn
  induction children generalizing ns with
  | nil =>
    obtain rfl := Except.ok.inj h
    simp at hn
  | cons child rest ih =>
    cases child with
    | background b => exact ih h hn
    | scenario s =>
      obtain ⟨m, hm, h⟩ := Except.exists_of_bind_eq_ok h
      obtain ⟨ms, hms, h⟩ := Except.exists_of_bind_eq_ok h
      obtain rfl := Except.ok.inj h
      exact hkept (isChild_scenario hm) (ih hms) hn
    | outline o =>
      obtain ⟨m, hm, h⟩ := Except.exists_of_bind_eq_ok h
      obtain ⟨ms, hms, h⟩ := Except.exists_of_bind_eq_ok h
      obtain rfl := Except.ok.inj h
      exact hkept (isChild_outline hm) (ih hms) hn

def nonLeaf? (n : Node) : Option Node :=
  if n.isLeaf then none else some n

theorem nonLeaf?_eq_some_iff {m n : Node} : nonLeaf? m = some n ↔ m.children ≠ [] ∧ m = n := by
  cases h : m.children <;> simp [nonLeaf?, Node.isLeaf, h]

theorem compile_eq (c : Compiler) (resource : String) (d : Document) :
    c.compile resource d =
      match d.feature with
      | none => .ok none
      | some f => (c.feature resource f).map nonLeaf? := by
  simp only [compile, compileLogged]
  cases d.feature with
  | none => rfl
  | some f =>
    simp only
    cases c.feature resource f with
    | error e => rfl
    | ok n => cases hn : n.isLeaf <;> simp [nonLeaf?, hn, Except.map]

theorem compile_eq_ok_some_iff {d : Document} {n : Node} :
    c.compile resource d = .ok (some n) ↔
      ∃ f, d.feature = some f ∧ c.feature resource f = .ok n ∧ n.children ≠ [] := by
  rw [compile_eq]
  cases d.feature with
  | none => simp
  | some f =>
    simp only [Option.some.injEq, exists_eq_left']
    cases c.feature resource f with
    | error e => simp [Except.map]
    | ok m =>
      simp only [Except.map, Except.ok.injEq, nonLeaf?_eq_some_iff]
      exact ⟨fun ⟨hne, h⟩ => ⟨h, h ▸ hne⟩, fun ⟨h, hne⟩ => ⟨h ▸ hne, h⟩⟩

end Compiler

def Node.IsCompiled (f : Node) : Prop :=
  ∃ (c : Compiler) (resource : String) (d : Document), c.compile resource d = .ok (some f)

theorem Node.IsCompiled.isChild {f n : Node} (hf : f.IsCompiled) (hn : n ∈ f.children) :
    Compiler.IsChild f.tags n := by
  obtain ⟨c, resource, d, h⟩ := hf
  obtain ⟨feature, -, hfeature, -⟩ := Compiler.compile_eq_ok_some_iff.mp h
  obtain ⟨l, -, hm⟩ := Except.exists_of_bind_eq_ok hfeature
  obtain ⟨children, hchildren, hm⟩ := Except.exists_of_bind_eq_ok hm
  obtain rfl := Except.ok.inj hm
  exact Compiler.isChild_of_mem_children hchildren hn

end FeaturePlan
