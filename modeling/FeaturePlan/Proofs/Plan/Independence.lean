import FeaturePlan.Proofs.Plan.Outcome
import Mathlib.Data.List.Perm.Basic

/-! # What a redefinition does not depend on

Whether a plan can be redefined, and what becomes of each feature, depends on the nodes that are
definitions or implementations, but neither on their order nor on the features around them. -/

namespace FeaturePlan.Redefinition

variable {w : Arithmetic} {c : RedefinitionConfig}

/-! ## Plans with the same definitions and implementations -/

/-- Two plans hold the same definitions and implementations, in whatever order. -/
def SameBearers (c : RedefinitionConfig) (plan features : List Node) : Prop :=
  ∀ kind, ∀ tag ∈ [c.definitionTag, c.implementationTag],
    (bearers plan kind tag).Perm (bearers features kind tag)

theorem SameBearers.symm {plan features : List Node} (h : SameBearers c plan features) :
    SameBearers c features plan :=
  fun kind tag htag => (h kind tag htag).symm

section
variable {plan features : List Node} (hsame : SameBearers c plan features)
include hsame

theorem SameBearers.mem_definitions {kind : NodeKind} {n : Node} :
    n ∈ bearers plan kind c.definitionTag ↔ n ∈ bearers features kind c.definitionTag :=
  (hsame kind c.definitionTag (by simp)).mem_iff

theorem SameBearers.mem_implementations {kind : NodeKind} {n : Node} :
    n ∈ bearers plan kind c.implementationTag ↔ n ∈ bearers features kind c.implementationTag :=
  (hsame kind c.implementationTag (by simp)).mem_iff

theorem Mergeable.of_sameBearers (h : Mergeable w c features) : Mergeable w c plan where
  unique kind hkind tag htag :=
    ((hsame kind tag htag).filterMap _).nodup_iff.mpr (h.unique kind hkind tag htag)
  implemented kind hkind d hd hsome := by
    obtain ⟨i, hi, hid⟩ := h.implemented kind hkind d (hsame.mem_definitions.mp hd) hsome
    exact ⟨i, hsame.mem_implementations.mpr hi, hid⟩
  merges kind hkind p hp := by
    obtain ⟨⟨hd, hi⟩, hid⟩ := mem_matched.mp hp
    exact h.merges kind hkind p (mem_matched.mpr
      ⟨⟨hsame.mem_definitions.mp hd, hsame.mem_implementations.mp hi⟩, hid⟩)

theorem redefined_congr (h : Mergeable w c features) (n : Node) :
    redefined w c plan n = redefined w c features n := by
  by_cases hn : IsTarget c n
  · have hplan := h.of_sameBearers hsame
    have hfind : implementation? c plan n = implementation? c features n := by
      refine Option.ext fun i => ?_
      rw [implementation?_eq_some_iff hplan hn, implementation?_eq_some_iff h hn,
        hsame.mem_implementations]
    simp only [redefined, hfind]
  · simp [redefined, hn]

theorem outcome?_congr (h : Mergeable w c features) :
    outcome? w c plan = outcome? w c features := by
  have hsurvivor : survivor? w c plan = survivor? w c features := by
    funext n
    simp only [survivor?, redefined_congr hsame h]
  funext f
  simp only [outcome?, hsurvivor]

end

/-! ## Order and unrelated features -/

theorem bearers_append (features extra : List Node) (kind : NodeKind) (tag : String) :
    bearers (features ++ extra) kind tag = bearers features kind tag ++ bearers extra kind tag := by
  simp [bearers]

theorem bearers_perm {plan features : List Node} (h : plan.Perm features) (kind : NodeKind)
    (tag : String) : (bearers plan kind tag).Perm (bearers features kind tag) :=
  (h.flatMap_right _).filter _

def Unrelated (c : RedefinitionConfig) (nodes : List Node) : Prop :=
  ∀ n ∈ Node.walkAll nodes, n.hasTag c.definitionTag = false ∧ n.hasTag c.implementationTag = false

instance (nodes : List Node) : Decidable (Unrelated c nodes) :=
  inferInstanceAs (Decidable (∀ _ ∈ _, _))

theorem Unrelated.bearers_eq_nil {extra : List Node} (h : Unrelated c extra) {kind : NodeKind}
    {tag : String} (htag : tag ∈ [c.definitionTag, c.implementationTag]) :
    bearers extra kind tag = [] := by
  refine List.eq_nil_iff_forall_not_mem.mpr fun n hn => ?_
  obtain ⟨⟨f, hf, hchild⟩, -, hhas⟩ := mem_bearers.mp hn
  have hwalk : n ∈ f.walk := Node.mem_walk_of_mem_children hchild (Node.mem_walk_self n)
  obtain ⟨hd, hi⟩ := h n (Node.mem_walkAll.mpr ⟨f, hf, hwalk⟩)
  rcases List.mem_pair.mp htag with rfl | rfl
  · simp [hd] at hhas
  · simp [hi] at hhas

theorem survivor?_eq_self {features : List Node} {n : Node} (htarget : ¬IsTarget c n)
    (h : ∀ m ∈ n.walk, m.hasTag c.implementationTag = false) :
    survivor? w c features n = some n := by
  have hroot := h n (Node.mem_walk_self n)
  have hredefined : redefined w c features n = n := by
    simp [redefined, htarget, atMerging_of_not_hasTag, hroot]
  simp [survivor?, hroot, hredefined, prune_eq_self _ n h]

/-- A feature without targets and implementations is lost only if it has no children. -/
theorem outcome?_eq_self {features : List Node} {f : Node}
    (htargets : ∀ n ∈ f.children, ¬IsTarget c n)
    (htags : ∀ n ∈ f.walk, n.hasTag c.implementationTag = false) :
    outcome? w c features f = if f.isLeaf then none else some f := by
  have hchildren : f.children.filterMap (survivor? w c features) = f.children := by
    refine (List.filterMap_congr fun n hn => ?_).trans List.filterMap_some
    exact survivor?_eq_self (htargets n hn) fun m hm =>
      htags m (Node.mem_walk_of_mem_children hn hm)
  simp only [outcome?, hchildren, htags f (Node.mem_walk_self f), Bool.false_or]
  cases f
  rfl

theorem Unrelated.outcome?_eq {features extra : List Node} (h : Unrelated c extra) {f : Node}
    (hf : f ∈ extra) : outcome? w c features f = if f.isLeaf then none else some f := by
  have hwalk (m : Node) (hm : m ∈ f.walk) := h m (Node.mem_walkAll.mpr ⟨f, hf, hm⟩)
  refine outcome?_eq_self (fun n hn htarget => ?_) fun m hm => (hwalk m hm).2
  simpa [(hwalk n (Node.mem_walk_of_mem_children hn (Node.mem_walk_self n))).1] using htarget.2.1

/-- The order of the features in a plan decides nothing but the order of what is left of them, and
features without the tags decide nothing at all, wherever they stand: a plan made of the same
features and of unrelated ones, in any order, is redefined if and only if the plan without them is,
and what becomes of a feature is the same. -/
theorem run_perm_append_unrelated (henabled : c.enabled = true) (features extra : List Node)
    (hextra : Unrelated c extra) :
    ∃ outcome : Node → Option Node,
      (∀ f f', outcome f = some f' → f'.shell = f.shell) ∧
      (∀ f ∈ extra, outcome f = if f.isLeaf then none else some f) ∧
      ∀ plan, plan.Perm (features ++ extra) →
        ((run w c plan).error = none ↔ (run w c features).error = none) ∧
        ((run w c features).error = none →
          (run w c features).features = features.filterMap outcome ∧
          (run w c plan).features = plan.filterMap outcome) := by
  refine ⟨outcome? w c features, fun f f' hf => ?_, fun f hf => hextra.outcome?_eq hf,
    fun plan hplan => ?_⟩
  · simp only [outcome?, Option.ite_none_left_eq_some, Option.some.injEq] at hf
    rw [← hf.2]
    rfl
  · have hsame : SameBearers c plan features := by
      intro kind tag htag
      have hperm := bearers_perm hplan kind tag
      rwa [bearers_append, hextra.bearers_eq_nil htag, List.append_nil] at hperm
    have herror : (run w c plan).error = none ↔ (run w c features).error = none := by
      rw [run_succeeds_iff_mergeable henabled, run_succeeds_iff_mergeable henabled]
      exact ⟨(·.of_sameBearers hsame.symm), (·.of_sameBearers hsame)⟩
    refine ⟨herror, fun hok => ⟨run_features henabled hok, ?_⟩⟩
    rw [run_features henabled (herror.mpr hok),
      outcome?_congr hsame ((run_succeeds_iff_mergeable henabled).mp hok)]

/-- The implementation comes before the definition, and a feature without the tags before both. -/
theorem run_perm_append_unrelated_reversed :
    let c := RedefinitionConfig.standard
    let step (name : String) : Node := ⟨.plain .step name, [], none⟩
    let scenario (tag : String) (steps : List Node) : Node :=
      ⟨{ Label.plain .scenario "s" with id := some "s", tags := [tag] }, steps, none⟩
    let feature (children : List Node) : Node := ⟨.plain .feature "F", children, none⟩
    let definition := feature [scenario c.definitionTag [step "a"]]
    let implementation := feature [scenario c.implementationTag [step "b", step "c"]]
    let other := feature [scenario "other" [step "d"]]
    Unrelated c [other] ∧
      [other, implementation, definition].Perm ([definition, implementation] ++ [other]) ∧
      (run .checked c [other, implementation, definition]).error = none ∧
      ∃ outcome : Node → Option Node, outcome other = some other ∧
        (run .checked c [definition, implementation]).features =
          [definition, implementation].filterMap outcome ∧
        (run .checked c [other, implementation, definition]).features =
          [other, implementation, definition].filterMap outcome := by
  intro c step scenario feature definition implementation other
  have hextra : Unrelated c [other] := by decide +kernel
  have hperm : [other, implementation, definition].Perm
      ([definition, implementation] ++ [other]) :=
    List.reverse_perm [definition, implementation, other]
  obtain ⟨outcome, -, hother, hplan⟩ :=
    run_perm_append_unrelated (c := c) rfl [definition, implementation] [other] hextra
  obtain ⟨herror, hfeatures⟩ := hplan _ hperm
  have hok : (run .checked c [definition, implementation]).error = none := by decide +kernel
  exact ⟨hextra, hperm, herror.mpr hok, outcome, hother other (by simp), hfeatures hok⟩

end FeaturePlan.Redefinition
