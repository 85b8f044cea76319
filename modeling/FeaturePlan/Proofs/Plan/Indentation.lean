import FeaturePlan.Plan.Relocation
import FeaturePlan.Proofs.Document.Indentation
import FeaturePlan.Proofs.Plan.Compiled

/-! # Plans of indented texts

The indentation of a text has no meaning for its plan. What is compiled from a text that is indented
as a whole is what is compiled from the text, with every source further to the right. -/

namespace FeaturePlan

/-! ## Nodes at other places -/

namespace Node

variable (f : Location → Location)

@[simp] theorem relocateAll_eq_map (ns : List Node) : relocateAll f ns = ns.map (relocate f) := by
  induction ns with
  | nil => rfl
  | cons n ns ih => rw [relocateAll, ih, List.map_cons]

theorem relocate_eq (l : Label) (children : List Node) (outline : Option (Template Node)) :
    relocate f ⟨l, children, outline⟩ =
      ⟨l.relocate f, children.map (relocate f), relocateOutline f outline⟩ := by
  rw [relocate, relocateAll_eq_map]

theorem relocate_concrete (row : ExamplesRow) (step : Node) :
    (step.concrete row).relocate f = (step.relocate f).concrete row := by
  obtain ⟨l, children, outline⟩ := step
  simp only [concrete, relocate_eq]
  rfl

/-- The scenarios of an outline do not depend on its place, but they have it. -/
theorem map_relocate_scenariosFrom (l : Label) (steps background : List Node)
    (examples : List ExamplesTable) (number : Nat) (rows : List (ExamplesTable × List String)) :
    (scenariosFrom ⟨l, [], none⟩ ⟨steps, examples, background⟩ number rows).map (relocate f) =
      scenariosFrom ⟨l.relocate f, [], none⟩
        ⟨steps.map (relocate f), examples, background.map (relocate f)⟩ number rows := by
  induction rows generalizing number with
  | nil => rfl
  | cons row rows ih =>
    obtain ⟨block, values⟩ := row
    have hsteps : (steps.map (concrete ⟨block.header, values⟩)).map (relocate f) =
        (steps.map (relocate f)).map (concrete ⟨block.header, values⟩) := by
      simp [relocate_concrete]
    rw [scenariosFrom, scenariosFrom, List.map_cons, ih]
    congr 1
    simp only [scenarioFor, relocate_eq, List.map_append, hsteps]
    rfl

end Node

variable (k : Nat)

/-! ## What the compiler makes of comments and descriptions -/

theorem Properties.declaredIn_indentBy (p : Properties) (comments : List Comment) :
    p.declaredIn (comments.map (Comment.indentBy k)) = p.declaredIn comments := by
  have hdeclared (c : Comment) :
      Declaration.ofComment? (c.indentBy k).text = Declaration.ofComment? c.text := by
    simp only [Declaration.ofComment?, Comment.indentBy, String.toList_ofList,
      Text.trim_spaces_append]
  simp only [declaredIn, List.foldl_map, hdeclared]

theorem Tag.names_relocate (f : Location → Location) (tags : List Tag) :
    names (tags.map (relocate f)) = names tags := by
  simp only [names, List.map_map]
  rfl

namespace Compiler

theorem descriptionLines_of_trimmedLines {d d' : Option String}
    (h : d'.map Text.trimmedLines = d.map Text.trimmedLines) :
    descriptionLines d' = descriptionLines d := by
  have hlines (d : Option String) :
      descriptionLines d = ((d.map Text.trimmedLines).getD []).map String.ofList := by
    cases d <;> simp [descriptionLines, Text.trimmedLines]
  rw [hlines, hlines, h]

/-- Both compilations fail alike, each at its own place, or both succeed, with results that are
related. -/
inductive Agree (resource : String) {α β : Type} (R : α → β → Prop) :
    Except PlanError α → Except PlanError β → Prop where
  | ok {a : α} {b : β} : R a b → Agree resource R (.ok a) (.ok b)
  | ambiguousId {name : String} {place : Location} {tags : List String} :
      Agree resource R (.error (.ambiguousId name (Source.text ⟨resource, place⟩) tags))
        (.error (.ambiguousId name (Source.text ⟨resource, place.indentBy k⟩) tags))

variable {k} {resource : String}

theorem Agree.bind {α α' β β' : Type} {R : α → α' → Prop} {S : β → β' → Prop}
    {x : Except PlanError α} {x' : Except PlanError α'} {f : α → Except PlanError β}
    {f' : α' → Except PlanError β'} (h : Agree k resource R x x')
    (hf : ∀ a a', R a a' → Agree k resource S (f a) (f' a')) :
    Agree k resource S (x >>= f) (x' >>= f') := by
  cases h with
  | ok hr => exact hf _ _ hr
  | ambiguousId => exact .ambiguousId

variable (c : Compiler)

/-! ## Labels and steps -/

theorem agree_id (tags : List String) (name : String) (place : Location) :
    Agree k resource Eq (c.id tags name ⟨resource, place⟩)
      (c.id tags name ⟨resource, place.indentBy k⟩) := by
  simp only [id]
  split
  · exact .ok rfl
  · exact .ok rfl
  · exact .ambiguousId

theorem agree_label (kind : NodeKind) {e e' : Element} (hh : e.heading.IsIndented k e'.heading)
    (ht : e'.tags = e.tags.map (Tag.relocate (Location.indentBy k)))
    (hc : e'.comments = e.comments.map (Comment.indentBy k)) (language : String)
    (inherited : List String × Properties) :
    Agree k resource (fun l l' => l' = l.relocate (Location.indentBy k))
      (c.label kind resource e language inherited)
      (c.label kind resource e' language inherited) := by
  simp only [label, hh.place, hh.keyword, hh.name, ht, hc, Tag.names_relocate,
    Properties.declaredIn_indentBy, descriptionLines_of_trimmedLines hh.description]
  refine (c.agree_id _ _ _).bind fun id id' hid => ?_
  obtain rfl := hid
  exact .ok rfl

theorem stepData_relocate (f : Location → Location) (a : StepArgument) :
    stepData (a.relocate f) = stepData a := by
  cases a with
  | docString s => rfl
  | table t => simp [StepArgument.relocate, stepData, TableRow.relocate, Function.comp_def]

theorem step_indentBy (language : String) (p : Properties) (s : Step) :
    step resource language p (s.indentBy k) =
      (step resource language p s).relocate (Location.indentBy k) := by
  simp only [step, Node.relocate_eq, Step.indentBy, Properties.declaredIn_indentBy]
  simp only [Step.relocate, Option.map_map, Function.comp_def, stepData_relocate]
  rfl

theorem steps_indentBy (l : Label) (ss : List Step) :
    steps resource (l.relocate (Location.indentBy k)) (ss.map (Step.indentBy k)) =
      (steps resource l ss).map (Node.relocate (Location.indentBy k)) := by
  simp only [steps, List.map_map]
  exact List.map_congr_left fun s _ => step_indentBy l.language l.properties s

theorem backgroundSteps_indentBy (l : Label) {b b' : Option Background}
    (h : Option.Rel (Background.IsIndented k) b b') :
    backgroundSteps resource (l.relocate (Location.indentBy k)) b' =
      (backgroundSteps resource l b).map (Node.relocate (Location.indentBy k)) := by
  cases h with
  | none => rfl
  | some h =>
    simp only [backgroundSteps, h.steps, h.comments, Properties.declaredIn_indentBy, List.map_map]
    refine List.map_congr_left fun s _ => ?_
    simp only [Function.comp_apply, step_indentBy]
    rfl

theorem examplesTable_of_isIndented {e e' : Examples} (h : e.IsIndented k e') :
    examplesTable e' = examplesTable e := by
  have hvalues (r : TableRow) :
      (r.relocate (Location.indentBy k)).values = r.values := by
    simp [TableRow.relocate, TableRow.values, Function.comp_def]
  simp only [examplesTable, h.tags, h.header, h.body, Tag.names_relocate, List.map_map,
    Function.comp_def, hvalues]
  cases e.header with
  | none => rfl
  | some row => simp only [Option.map_some, hvalues]

/-! ## Children -/

theorem agree_scenario {b b' : Option Background} (hb : Option.Rel (Background.IsIndented k) b b')
    (parent : Label) {s s' : Scenario} (h : s.IsIndented k s') :
    Agree k resource (fun n n' => n' = n.relocate (Location.indentBy k))
      (c.scenario resource b parent s)
      (c.scenario resource b' (parent.relocate (Location.indentBy k)) s') := by
  refine (c.agree_label .scenario (e := ⟨s.toHeading, s.tags, s.comments⟩) h.heading h.tags
    h.comments parent.language (parent.tags, parent.properties)).bind ?_
  rintro l _ rfl
  refine .ok ?_
  rw [Node.relocate_eq, List.map_append, ← backgroundSteps_indentBy l hb, ← steps_indentBy,
    h.steps]
  rfl

theorem agree_outline {b b' : Option Background} (hb : Option.Rel (Background.IsIndented k) b b')
    (parent : Label) {o o' : Outline} (h : o.IsIndented k o') :
    Agree k resource (fun n n' => n' = n.relocate (Location.indentBy k))
      (c.outline resource b parent o)
      (c.outline resource b' (parent.relocate (Location.indentBy k)) o') := by
  have hexamples : o'.examples.map examplesTable = o.examples.map examplesTable := by
    rw [← List.forall₂_eq_eq_eq, List.forall₂_map_left_iff, List.forall₂_map_right_iff]
    exact h.examples.flip.imp fun _ _ he => examplesTable_of_isIndented he
  refine (c.agree_label .outline (e := ⟨o.toHeading, o.tags, o.comments⟩) h.heading h.tags
    h.comments parent.language (parent.tags, parent.properties)).bind ?_
  rintro l _ rfl
  refine .ok ?_
  simp only [Node.relocate_eq, Node.relocateOutline, Node.relocateAll_eq_map,
    ← backgroundSteps_indentBy l hb, ← steps_indentBy, h.steps, hexamples, Node.expand,
    Node.map_relocate_scenariosFrom]

/-- The filter only looks at tags, which are the same at any place. -/
theorem selects_relocate (f : Location → Location) (n : Node) :
    c.selects (n.relocate f) = c.selects n := by
  obtain ⟨l, children, outline⟩ := n
  rw [Node.relocate_eq]
  rfl

theorem agree_children {b b' : Option Background} (hb : Option.Rel (Background.IsIndented k) b b')
    (parent : Label) {children children' : List Child}
    (h : List.Forall₂ (Child.IsIndented k) children children') :
    Agree k resource (fun ns ns' => ns' = ns.map (Node.relocate (Location.indentBy k)))
      (c.children resource b parent children)
      (c.children resource b' (parent.relocate (Location.indentBy k)) children') := by
  induction h with
  | nil => exact .ok rfl
  | @cons child child' rest rest' hchild hrest ih =>
    have hkept (n : Node) : Agree k resource
        (fun ns ns' => ns' = ns.map (Node.relocate (Location.indentBy k)))
        (do
          let ns ← c.children resource b parent rest
          return if c.selects n then n :: ns else ns)
        (do
          let ns ← c.children resource b' (parent.relocate (Location.indentBy k)) rest'
          return if c.selects (n.relocate (Location.indentBy k)) then
            n.relocate (Location.indentBy k) :: ns else ns) := by
      refine ih.bind ?_
      rintro ns _ rfl
      refine .ok ?_
      rw [selects_relocate]
      split <;> rfl
    cases hchild with
    | background _ => exact ih
    | scenario hs =>
      refine (c.agree_scenario hb parent hs).bind ?_
      rintro n _ rfl
      exact hkept n
    | outline ho =>
      refine (c.agree_outline hb parent ho).bind ?_
      rintro n _ rfl
      exact hkept n

theorem rel_background? {f f' : Feature} (h : f.IsIndented k f') :
    Option.Rel (Background.IsIndented k) f.background? f'.background? := by
  have hchildren := h.children
  simp only [Feature.background?]
  generalize f.children = children, f'.children = children' at hchildren ⊢
  induction hchildren with
  | nil => exact .none
  | cons hchild hrest ih =>
    cases hchild with
    | background hb => exact .some hb
    | scenario hs => exact ih
    | outline ho => exact ih

theorem agree_feature {f f' : Feature} (h : f.IsIndented k f') :
    Agree k resource (fun n n' => n' = n.relocate (Location.indentBy k))
      (c.feature resource f) (c.feature resource f') := by
  have hlabel : Agree k resource (fun l l' => l' = l.relocate (Location.indentBy k))
      (c.featureLabel resource f) (c.featureLabel resource f') := by
    simp only [featureLabel, h.language]
    refine (c.agree_label .feature (e := ⟨f.toHeading, f.tags, f.comments⟩) h.heading h.tags
      h.comments f.language ([], .empty)).bind ?_
    rintro l _ rfl
    exact .ok rfl
  refine hlabel.bind ?_
  rintro l _ rfl
  refine (c.agree_children (rel_background? h) l h.children).bind ?_
  rintro ns _ rfl
  refine .ok ?_
  rw [Node.relocate_eq]
  rfl

/-- Documents that differ in their indentation only have plans that differ in their columns only. -/
theorem agree_compile {d d' : Document} (h : d.IsIndented k d') :
    Agree k resource (fun plan plan' => plan' = plan.map (Node.relocate (Location.indentBy k)))
      (c.compile resource d) (c.compile resource d') := by
  obtain ⟨f⟩ := d
  obtain ⟨f'⟩ := d'
  rw [compile_eq, compile_eq]
  cases h with
  | none => exact .ok rfl
  | @some f f' h =>
    have hfeature : Agree k resource _ (c.feature resource f) (c.feature resource f') :=
      c.agree_feature h
    have hleaf (n : Node) : nonLeaf? (n.relocate (Location.indentBy k)) =
        (nonLeaf? n).map (Node.relocate (Location.indentBy k)) := by
      obtain ⟨l, _ | ⟨child, children⟩, outline⟩ := n <;> rw [Node.relocate_eq]
      · rfl
      · simp [nonLeaf?, Node.isLeaf, Node.relocate_eq]
    simp only
    generalize c.feature resource f = x, c.feature resource f' = x' at hfeature ⊢
    cases hfeature with
    | ok hn =>
      subst hn
      exact .ok (hleaf _)
    | ambiguousId => exact .ambiguousId

/-- Spaces in front of every line of a text change nothing but columns, by as many as there are
spaces: neither the error for which the text is refused, nor its line, nor the plan. -/
theorem compile_indented (d : Dialect) (resource text : String) (k : Nat) :
    match Document.parse d text with
    | .error e => Document.parse d (Text.indented k text) = .error (e.indentBy k)
    | .ok document => ∃ document', Document.parse d (Text.indented k text) = .ok document' ∧
        Agree k resource (fun plan plan' => plan' = plan.map (Node.relocate (Location.indentBy k)))
          (c.compile resource document) (c.compile resource document') := by
  have hparse := Document.parse_indented k d text
  cases hdocument : Document.parse d text with
  | error e => simpa [hdocument] using hparse
  | ok document =>
    rw [hdocument] at hparse
    obtain ⟨document', hdocument', hindented⟩ := hparse
    exact ⟨document', hdocument', c.agree_compile hindented⟩

end Compiler

end FeaturePlan
