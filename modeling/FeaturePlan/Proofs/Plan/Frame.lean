import FeaturePlan.Proofs.Plan.Independence

/-! # What a redefinition leaves alone

Definitions with an id get new children, implementations leave the plan, and nothing else
changes. -/

namespace FeaturePlan

/-! ## Outlines keep their scenarios -/

namespace Merge

/-- Scenarios of an outline keep everything but their steps, merged or not. -/
theorem map_shell_pairwise (w : Arithmetic) (property : String)
    (definitions implementations : List Node) :
    (pairwise w property definitions implementations).1.map Node.shell =
      definitions.map Node.shell := by
  induction definitions generalizing implementations with
  | nil => simp [pairwise]
  | cons d ds ih =>
    cases implementations with
    | nil => simp [pairwise]
    | cons i is =>
      simp only [pairwise]
      split
      · simp [scenario_shell]
      · simp [scenario_shell, ih]

end Merge

namespace Redefinition

section
variable {w : Arithmetic} {c : RedefinitionConfig} {features : List Node}

theorem map_shell_pruneAll (tag : String) (ns : List Node) :
    (pruneAll tag ns).map Node.shell =
      (ns.map Node.shell).filter fun n => !n.hasTag tag := by
  induction ns with
  | nil => rfl
  | cons n ns ih =>
    have hroot : n.shell.hasTag tag = n.hasTag tag := rfl
    have hprune : (prune tag n).shell = n.shell := by
      rw [prune_eq]
      rfl
    by_cases h : n.hasTag tag = true
    · simp [pruneAll, h, hroot, ih]
    · simp [pruneAll, h, hroot, hprune, ih]

theorem map_shell_redefined_outline {n : Node} (hkind : n.kind = .outline)
    (htag : n.hasTag c.implementationTag = false) (features : List Node) :
    (redefined w c features n).children.map Node.shell = n.children.map Node.shell := by
  have hself : atMerging c n = n := atMerging_of_not_hasTag (by simp [htag])
  simp only [redefined, hself, mergeOf, hkind, if_true]
  split
  · exact Merge.map_shell_pairwise _ _ _ _
  · rfl

/-! ## What is left -/

theorem survivor?_eq_none {n : Node} :
    survivor? w c features n = none ↔ n.hasTag c.implementationTag = true := by
  simp [survivor?]

theorem eq_of_survivor? {n n' : Node} (h : survivor? w c features n = some n') :
    n.hasTag c.implementationTag = false ∧
      n' = prune c.implementationTag (redefined w c features n) := by
  simp only [survivor?, Option.ite_none_left_eq_some, Option.some.injEq] at h
  exact ⟨by simpa using h.1, h.2.symm⟩

theorem survivor?_shell {n n' : Node} (h : survivor? w c features n = some n') :
    n'.shell = n.shell := by
  obtain ⟨-, rfl⟩ := eq_of_survivor? h
  rw [prune_eq]
  exact redefined_shell n

theorem survivor?_outline {n n' : Node} (hkind : n.kind = .outline)
    (h : survivor? w c features n = some n') :
    n'.children.map Node.shell =
      (n.children.map Node.shell).filter fun s => !s.hasTag c.implementationTag := by
  obtain ⟨htag, rfl⟩ := eq_of_survivor? h
  have hshells := map_shell_redefined_outline (w := w) (c := c) hkind htag
  rw [prune_eq, ← hshells features]
  exact map_shell_pruneAll _ _

theorem outcome?_eq_none {f : Node} :
    outcome? w c features f = none ↔
      f.hasTag c.implementationTag = true ∨
        ∀ n ∈ f.children, n.hasTag c.implementationTag = true := by
  cases hf : f.hasTag c.implementationTag <;> simp [outcome?, survivor?_eq_none, hf]

theorem eq_of_outcome? {f f' : Node} (h : outcome? w c features f = some f') :
    f' = { f with children := f.children.filterMap (survivor? w c features) } := by
  simp only [outcome?, Option.ite_none_left_eq_some, Option.some.injEq] at h
  exact h.2.symm

theorem hasTag_of_mem_removeTagged {tag : String} {n : Node}
    (h : n ∈ Node.walkAll (removeTagged tag features)) : n.hasTag tag = false := by
  obtain ⟨f, hf, hn⟩ := Node.mem_walkAll.mp h
  exact hasTag_of_mem_pruneAll tag features n
    (Node.mem_walkAll.mpr ⟨f, List.mem_of_mem_filter hf, hn⟩)

theorem children_ne_nil_of_mem_removeTagged {tag : String} {f : Node}
    (h : f ∈ removeTagged tag features) : f.children ≠ [] := by
  simpa [Node.isLeaf] using (List.mem_filter.mp h).2

end

/-- A redefinition changes only what it is meant to change. What is left of a feature is the
feature, with what is left of its children, in the same order; a child that is neither a target nor
a place of implementations is left as it is; and whatever else is left, scenarios of an outline
included, keeps everything but its children. -/
theorem run_changes_only {w : Arithmetic} {c : RedefinitionConfig} {features : List Node}
    (henabled : c.enabled = true) (herror : (run w c features).error = none) :
    (∀ n ∈ Node.walkAll (run w c features).features, n.hasTag c.implementationTag = false) ∧
    (∀ f ∈ (run w c features).features, f.children ≠ []) ∧
    (∃ outcome survivor : Node → Option Node,
      (run w c features).features = features.filterMap outcome ∧
      (∀ f, outcome f = none ↔
        f.hasTag c.implementationTag = true ∨
          ∀ n ∈ f.children, n.hasTag c.implementationTag = true) ∧
      (∀ f f', outcome f = some f' →
        f' = { f with children := f.children.filterMap survivor }) ∧
      (∀ n, survivor n = none ↔ n.hasTag c.implementationTag = true) ∧
      (∀ n, ¬IsTarget c n → (∀ m ∈ n.walk, m.hasTag c.implementationTag = false) →
        survivor n = some n) ∧
      (∀ n n', survivor n = some n' → n'.shell = n.shell) ∧
      (∀ n n', n.kind = .outline → survivor n = some n' →
        n'.children.map Node.shell =
          (n.children.map Node.shell).filter fun s => !s.hasTag c.implementationTag)) ∧
    ((∀ f ∈ features, ∀ n ∈ f.children, ¬IsTarget c n) →
      (∀ n ∈ Node.walkAll features, n.hasTag c.implementationTag = false) →
      (run w c features).features = features.filter fun f => !f.isLeaf) := by
  refine ⟨fun n hn => ?_, fun f hf => ?_, ?_, fun htargets htags => ?_⟩
  · rw [run_removes henabled herror] at hn
    exact hasTag_of_mem_removeTagged hn
  · rw [run_removes henabled herror] at hf
    exact children_ne_nil_of_mem_removeTagged hf
  · exact ⟨outcome? w c features, survivor? w c features, run_features henabled herror,
      fun f => outcome?_eq_none, fun f f' => eq_of_outcome?, fun n => survivor?_eq_none,
      fun n => survivor?_eq_self, fun n n' => survivor?_shell, fun n n' => survivor?_outline⟩
  · rw [run_features henabled herror, ← List.filterMap_eq_filter]
    refine List.filterMap_congr fun f hf => ?_
    rw [outcome?_eq_self (htargets f hf) fun n hn => htags n (Node.mem_walkAll.mpr ⟨f, hf, hn⟩)]
    cases hleaf : f.isLeaf <;> simp [Option.guard, hleaf]

/-- A definition is merged, its implementation leaves with its feature, and the scenario next to the
definition is left as it is. -/
theorem run_changes_only_definition :
    let c := RedefinitionConfig.standard
    let step (name : String) : Node := ⟨.plain .step name, [], none⟩
    let scenario (tag : String) (steps : List Node) : Node :=
      ⟨{ Label.plain .scenario "s" with id := some "s", tags := [tag] }, steps, none⟩
    let feature (children : List Node) : Node := ⟨.plain .feature "F", children, none⟩
    let definition := scenario c.definitionTag [step "a"]
    let other := scenario "other" [step "d"]
    let features := [feature [definition, other], feature [scenario c.implementationTag [step "b"]]]
    (run .checked c features).error = none ∧
      ∃ merged : Node, merged.shell = definition.shell ∧
        (run .checked c features).features = [feature [merged, other]] := by
  intro c step scenario feature definition other features
  have herror : (run .checked c features).error = none := by decide +kernel
  obtain ⟨-, -, ⟨outcome, survivor, hfeatures, hlost, hleft, hremoved, hsame, hshell, -⟩, -⟩ :=
    run_changes_only (c := c) rfl herror
  have hother : survivor other = some other := hsame other (by decide +kernel) (by decide +kernel)
  cases hmerged : survivor definition with
  | none => exact absurd ((hremoved definition).mp hmerged) (by decide +kernel)
  | some merged =>
    refine ⟨herror, merged, hshell definition merged hmerged, ?_⟩
    have hsecond : outcome (feature [scenario c.implementationTag [step "b"]]) = none :=
      (hlost _).mpr (by decide +kernel)
    cases hfirst : outcome (feature [definition, other]) with
    | none => exact absurd ((hlost _).mp hfirst) (by decide +kernel)
    | some f =>
      have hf : f = feature [merged, other] := by
        rw [hleft _ _ hfirst]
        simp [feature, hmerged, hother]
      rw [hfeatures]
      simp only [features, List.filterMap_cons, List.filterMap_nil, hfirst, hsecond, hf]

end Redefinition

end FeaturePlan
