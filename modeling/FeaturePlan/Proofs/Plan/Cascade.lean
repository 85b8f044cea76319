import FeaturePlan.Proofs.Plan.WellFormed

/-! # Properties cascade

A node has the value that the nearest declaration gives to a key: one in its own comments, else one
above it. The language of a feature counts as a declaration as well, which comes before those in the
comments of the feature. -/

namespace FeaturePlan

/-! ## Maps -/

namespace Properties

theorem lookup_place (key value k : String) (entries : List (String × String)) :
    (place key value entries).lookup k = if k = key then some value else entries.lookup k := by
  induction entries with
  | nil => by_cases h : k = key <;> simp [place, h, List.lookup_cons, beq_eq_false_iff_ne.mpr]
  | cons entry rest ih =>
    obtain ⟨k', v⟩ := entry
    unfold place
    split
    · by_cases h : k = key
      · simp [h]
      · simp [List.lookup_cons, beq_eq_false_iff_ne.mpr h, h]
    · split
      · rename_i hsame
        subst hsame
        by_cases h : k = key
        · simp [h]
        · simp [List.lookup_cons, beq_eq_false_iff_ne.mpr h, h]
      · rename_i hother
        by_cases h : k = k'
        · subst h
          simp [Ne.symm hother]
        · simp [List.lookup_cons, beq_eq_false_iff_ne.mpr h, ih]

/-- A value that is put in is found under its key, and under no other. -/
theorem get?_insert (p : Properties) (key value k : String) :
    (p.insert key value).get? k = if k = key then some value else p.get? k :=
  lookup_place key value k p.entries

end Properties

/-! ## Declarations -/

/-- The value that comments declare for a key; of several the last counts. -/
def Declaration.last? (comments : List Comment) (key : String) : Option String :=
  comments.reverse.findSome? fun c =>
    (ofComment? c.text).bind fun entry => if entry.1 = key then some entry.2 else none

theorem Properties.get?_declaredIn (p : Properties) (comments : List Comment) (key : String) :
    (p.declaredIn comments).get? key = (Declaration.last? comments key).or (p.get? key) := by
  induction comments generalizing p with
  | nil => rfl
  | cons c rest ih =>
    have hfirst : (p.declaredIn [c]).get? key =
        ((Declaration.ofComment? c.text).bind fun entry =>
          if entry.1 = key then some entry.2 else none).or (p.get? key) := by
      cases h : Declaration.ofComment? c.text with
      | none => simp [declaredIn, h]
      | some entry =>
        simp only [declaredIn, List.foldl_cons, List.foldl_nil, h, get?_insert, Option.bind_some]
        by_cases hkey : key = entry.1
        · simp [hkey]
        · simp [hkey, Ne.symm hkey]
    have hsplit : p.declaredIn (c :: rest) = (p.declaredIn [c]).declaredIn rest := rfl
    rw [hsplit, ih, hfirst, ← Option.or_assoc]
    simp [Declaration.last?, List.findSome?_append]

def Feature.declared (f : Feature) : List (String → Option String) :=
  [fun key => if key = Compiler.languageKey then some f.language else none,
    Declaration.last? f.comments]

/-- What the comments of a feature's background declare for its steps. -/
def Feature.backgroundDeclared (f : Feature) : String → Option String :=
  Declaration.last? ((f.background?.map fun b => b.comments).getD [])

namespace Node

/-- The properties of a node are the nearest of some declarations, the nearest first. A key that
none of them declares is missing. -/
def Inherits (n : Node) (declared : List (String → Option String)) : Prop :=
  ∀ key, n.properties.get? key = declared.findSome? fun declare => declare key

variable (resource : String) (f : Feature)

structure StepCascades (above : List (String → Option String)) (s : Step) (n : Node) : Prop where
  source : n.source = some ⟨resource, s.place⟩
  properties : n.Inherits (Declaration.last? s.comments :: above)
  children : n.children = []
  outline : n.outline = none

/-- The steps of the background and those of a scenario or an outline, with what its comments
declare. Those of the background are below the comments of the background as well. -/
def StepsCascade (own : String → Option String) (ss : List Step) (before after : List Node) :
    Prop :=
  List.Forall₂ (StepCascades resource (f.backgroundDeclared :: own :: f.declared))
    f.backgroundSteps before ∧
  List.Forall₂ (StepCascades resource (own :: f.declared)) ss after

/-- The node of a scenario that is written at a place, with its comments. -/
structure ScenarioCascades (place : Location) (comments : List Comment) (ss : List Step)
    (n : Node) : Prop where
  source : n.source = some ⟨resource, place⟩
  properties : n.Inherits (Declaration.last? comments :: f.declared)
  children : ∃ before after, n.children = before ++ after ∧
    StepsCascade resource f (Declaration.last? comments) ss before after
  outline : n.outline = none

/-- The node of an outline, with the steps of its template and the scenarios that its examples make
of it. -/
structure OutlineCascades (o : Outline) (t : Template Node) (n : Node) : Prop where
  source : n.source = some ⟨resource, o.place⟩
  properties : n.Inherits (Declaration.last? o.comments :: f.declared)
  outline : n.outline = some t
  template : StepsCascade resource f (Declaration.last? o.comments) o.steps t.background t.steps
  children : ∀ m ∈ n.children, m.ScenarioCascades resource f o.place o.comments o.steps

def ChildCascades : Child → Node → Prop
  | .background _, _ => False
  | .scenario s, n => n.ScenarioCascades resource f s.place s.comments s.steps
  | .outline o, n => ∃ t, n.OutlineCascades resource f o t

end Node

/-! ## Compilation -/

namespace Compiler

open Node

variable {c : Compiler} {resource : String} {f : Feature} {parent : Label}

theorem label_properties {kind : NodeKind} {e : Element} {language : String}
    {inherited : List String × Properties} {l : Label}
    (h : c.label kind resource e language inherited = .ok l) :
    l.source = some ⟨resource, e.heading.place⟩ ∧
      l.properties = inherited.2.declaredIn e.comments := by
  obtain ⟨id, -, hl⟩ := Except.exists_of_bind_eq_ok h
  obtain rfl := Except.ok.inj hl
  exact ⟨rfl, rfl⟩

theorem findSome?_declaredIn {p : Properties} {declared : List (String → Option String)}
    (h : ∀ key, p.get? key = declared.findSome? fun declare => declare key)
    (comments : List Comment) (key : String) :
    (p.declaredIn comments).get? key =
      (Declaration.last? comments :: declared).findSome? fun declare => declare key := by
  rw [Properties.get?_declaredIn, h, List.findSome?_cons]
  cases Declaration.last? comments key <;> rfl

variable {declared : List (String → Option String)}

theorem stepCascades_step {language : String} {inherited : Properties}
    (h : ∀ key, inherited.get? key = declared.findSome? fun declare => declare key) (s : Step) :
    StepCascades resource declared s (step resource language inherited s) where
  source := rfl
  properties := findSome?_declaredIn h s.comments
  children := rfl
  outline := rfl

theorem stepsCascade {l : Label} {own : String → Option String}
    (h : ∀ key, l.properties.get? key =
      (own :: f.declared).findSome? fun declare => declare key) (ss : List Step) :
    StepsCascade resource f own ss (backgroundSteps resource l f.background?)
      (steps resource l ss) := by
  constructor
  · rw [Feature.backgroundSteps, Feature.backgroundDeclared]
    cases f.background? with
    | none => exact .nil
    | some b =>
      simp only [backgroundSteps]
      rw [List.forall₂_map_right_iff]
      refine List.forall₂_same.mpr fun s _ => ?_
      have hstep : StepCascades resource (Declaration.last? b.comments :: own :: f.declared) s
          (step resource l.language (l.properties.declaredIn b.comments) s) :=
        stepCascades_step (findSome?_declaredIn h b.comments) s
      exact { hstep with }
  · rw [steps, List.forall₂_map_right_iff]
    exact List.forall₂_same.mpr fun s _ => stepCascades_step h s

/-- Filling in the values of a row leaves the properties of steps alone. -/
theorem stepsCascade_concrete {own : String → Option String} {ss : List Step}
    {before after : List Node} (h : StepsCascade resource f own ss before after)
    (row : ExamplesRow) : StepsCascade resource f own ss before (after.map (concrete row)) := by
  refine ⟨h.1, List.forall₂_map_right_iff.mpr (h.2.imp fun s m hm => ?_)⟩
  exact { hm with }

theorem scenarioCascades
    (hp : ∀ key, parent.properties.get? key = f.declared.findSome? fun declare => declare key)
    {s : Scenario} {n : Node} (h : c.scenario resource f.background? parent s = .ok n) :
    n.ChildCascades resource f (.scenario s) := by
  obtain ⟨l, hlabel, hn⟩ := Except.exists_of_bind_eq_ok h
  obtain rfl := Except.ok.inj hn
  obtain ⟨hsource, hproperties⟩ := label_properties hlabel
  have hl := findSome?_declaredIn hp s.comments
  rw [← hproperties] at hl
  exact {
    source := hsource
    properties := hl
    children := ⟨_, _, rfl, stepsCascade hl s.steps⟩
    outline := rfl }

theorem outlineCascades
    (hp : ∀ key, parent.properties.get? key = f.declared.findSome? fun declare => declare key)
    {o : Outline} {n : Node} (h : c.outline resource f.background? parent o = .ok n) :
    n.ChildCascades resource f (.outline o) := by
  obtain ⟨l, hlabel, hn⟩ := Except.exists_of_bind_eq_ok h
  obtain rfl := Except.ok.inj hn
  obtain ⟨hsource, hproperties⟩ := label_properties hlabel
  have hl := findSome?_declaredIn hp o.comments
  rw [← hproperties] at hl
  have hsteps : StepsCascade resource f (Declaration.last? o.comments) o.steps
      (backgroundSteps resource l f.background?) (steps resource l o.steps) :=
    stepsCascade hl o.steps
  refine ⟨_, {
    source := hsource
    properties := hl
    outline := rfl
    template := hsteps
    children := fun m hm => ?_ }⟩
  let t : Template Node := ⟨steps resource l o.steps, o.examples.map examplesTable,
    backgroundSteps resource l f.background?⟩
  have hrow (number : Nat) (row : ExamplesTable × List String) :
      (scenarioFor ⟨l, [], none⟩ t number row.1 row.2).ScenarioCascades resource f o.place
        o.comments o.steps := {
    source := hsource
    properties := hl
    children := ⟨_, _, rfl, stepsCascade_concrete hsteps _⟩
    outline := rfl }
  have hrows : List.Forall₂ _ (rowsOf t.examples) (expand ⟨l, [], none⟩ t t.examples) :=
    forall₂_scenariosFrom hrow 1 _
  obtain ⟨row, -, hm⟩ := exists_of_forall₂ hrows hm
  exact hm

/-- Every node of a compiled feature has the properties that are declared nearest to it: its own
comments come first, then those of the background for the steps of the background, those of the
scenario or outline, the language of the feature and the comments of the feature. No comment of a
feature changes the language that the feature itself has. -/
theorem compile_cascades {d : Document} {root : Node}
    (h : c.compile resource d = .ok (some root)) :
    ∃ f, d.feature = some f ∧ root.source = some ⟨resource, f.place⟩ ∧ root.outline = none ∧
      root.Inherits f.declared ∧ root.properties.get? languageKey = some f.language ∧
      List.Forall₂ (fun child n => n.ChildCascades resource f child)
        (f.children.filter (c.keeps root.tags)) root.children := by
  obtain ⟨f, hf, hfeature, -⟩ := compile_eq_ok_some_iff.mp h
  obtain ⟨l, hl, hn⟩ := Except.exists_of_bind_eq_ok hfeature
  obtain ⟨ns, hchildren, hn⟩ := Except.exists_of_bind_eq_ok hn
  obtain rfl := Except.ok.inj hn
  obtain ⟨-, hlanguage, hsource, hnodup, -⟩ := featureLabel_spec hl
  obtain ⟨own, hown, hl⟩ := Except.exists_of_bind_eq_ok hl
  obtain rfl := Except.ok.inj hl
  have hp : ∀ key, (own.properties.insert languageKey f.language).get? key =
      f.declared.findSome? fun declare => declare key := by
    intro key
    rw [Properties.get?_insert, (label_properties hown).2, Properties.get?_declaredIn]
    by_cases hkey : key = languageKey
    · simp [Feature.declared, hkey]
    · cases hlast : Declaration.last? f.comments key <;>
        simp [Feature.declared, hkey, hlast, Properties.get?, Properties.empty]
  refine ⟨f, hf, hsource, rfl, hp, ?_, ?_⟩
  · exact (Properties.get?_insert own.properties _ _ _).trans (if_pos rfl)
  · exact forall₂_children_of hlanguage hnodup (scenarioCascades hp) (outlineCascades hp) hchildren

/-- A feature whose comment names another language, a background and an outline with comments of
their own, and steps with and without. -/
theorem compile_cascades_outline :
    let c : Compiler := ⟨fun _ => false, none⟩
    let heading (name : String) : Heading := ⟨⟨1, 1⟩, "", name, none⟩
    let owner (name : String) : Comment := ⟨⟨1, 1⟩, "# owner: " ++ name⟩
    let row (value : String) : TableRow := ⟨⟨1, 1⟩, [⟨⟨1, 2⟩, value⟩]⟩
    let step (text : String) (comments : List Comment) : Step :=
      ⟨⟨1, 1⟩, "When ", .when, text, none, comments⟩
    let d : Document := ⟨some ⟨heading "F", [], "en",
      [.background ⟨heading "", [step "b" []], [owner "background"]⟩,
        .outline ⟨heading "O", [], [step "<x>" [], step "y" [owner "old", owner "step"]],
          [⟨heading "", [], some (row "x"), [row "1"]⟩], [owner "outline"]⟩],
      [owner "feature", ⟨⟨1, 1⟩, "# language: fr"⟩]⟩⟩
    ∃ f root, c.compile "r" d = .ok (some root) ∧ d.feature = some f ∧
      root.properties.get? languageKey = some "en" ∧
      List.Forall₂ (fun child n => n.ChildCascades "r" f child)
        (f.children.filter (c.keeps root.tags)) root.children ∧
      root.everyNode.map (fun n => n.properties.get? "owner") =
        [some "feature", some "outline", some "background", some "outline", some "step",
          some "outline", some "background", some "outline", some "step"] := by
  intro c heading owner row step d
  let root := (c.compile "r" d).toOption.join.getD default
  have hroot : c.compile "r" d = .ok (some root) := by decide +kernel
  obtain ⟨f, hf, -, -, -, hlanguage, hchildren⟩ := compile_cascades hroot
  obtain rfl := Option.some.inj hf
  exact ⟨_, root, hroot, rfl, hlanguage, hchildren, by decide +kernel⟩

end Compiler

end FeaturePlan
