import FeaturePlan.Proofs.Plan.Faults
import Mathlib.Data.List.Basic

/-! # The outcome of a redefinition

A redefinition that goes through does to each child of a feature what that child and its
implementation ask for, wherever in the plan the two stand. So the new plan can be written down
feature by feature. -/

namespace FeaturePlan

namespace Redefinition

/-! ## Plans child by child -/

def mapChildren (g : Node → Node) (fs : List Node) : List Node :=
  fs.map fun f => { f with children := f.children.map g }

/-- A plan that differs from another one in the children of its features only, each changed in the
same way. -/
theorem eq_mapChildren {fs gs : List Node} {g : Node → Node} (hbare : bare gs = bare fs)
    (hlabels : labels gs = labels fs)
    (h : ∀ a n, node? fs a = some n → node? gs a = some (g n)) :
    gs = mapChildren g fs := by
  refine List.ext_getElem? fun i => ?_
  have hbare := congrArg (·[i]?) hbare
  have hlabels := congrArg (·[i]?) hlabels
  simp only [bare, labels, mapChildren, List.getElem?_map] at hbare hlabels ⊢
  cases hf : fs[i]? with
  | none => simpa [hf] using hbare
  | some f =>
    cases hg : gs[i]? with
    | none => simp [hf, hg] at hbare
    | some f' =>
      simp only [hf, hg, Option.map_some, Option.some.injEq] at hbare hlabels ⊢
      have hchildren : f'.children = f.children.map g := by
        refine List.ext_getElem? fun j => ?_
        have hlabel := congrArg (·[j]?) hlabels
        simp only [List.getElem?_map] at hlabel ⊢
        cases hn : f.children[j]? with
        | none => simpa [hn] using hlabel
        | some n => simpa [node?, hg] using h ⟨i, j⟩ n (by simp [node?, hf, hn])
      obtain ⟨label, children, outline⟩ := f
      obtain ⟨label', children', outline'⟩ := f'
      simp only [Node.shell, Node.mk.injEq] at hbare hchildren ⊢
      exact ⟨hbare.1, hchildren, hbare.2.2⟩

/-! ## Removal -/

theorem prune_eq (tag : String) (n : Node) :
    prune tag n = { n with children := pruneAll tag n.children } := by
  cases n
  rfl

theorem pruneAll_eq_filterMap (tag : String) (ns : List Node) :
    pruneAll tag ns = ns.filterMap fun n => if n.hasTag tag then none else some (prune tag n) := by
  induction ns with
  | nil => rfl
  | cons n ns ih =>
    by_cases h : n.hasTag tag = true <;> simp [pruneAll, h, ih]

mutual

theorem prune_eq_self (tag : String) :
    ∀ n : Node, (∀ m ∈ n.walk, m.hasTag tag = false) → prune tag n = n
  | ⟨label, children, outline⟩ => fun h => by
      rw [prune, pruneAll_eq_self tag children fun m hm => h m ?_]
      rw [Node.walk_eq]
      exact List.mem_cons_of_mem _ hm

theorem pruneAll_eq_self (tag : String) :
    ∀ ns : List Node, (∀ m ∈ Node.walkAll ns, m.hasTag tag = false) → pruneAll tag ns = ns
  | [] => fun _ => rfl
  | n :: ns => fun h => by
      simp only [Node.walkAll, List.mem_append] at h
      have hroot : n.hasTag tag = false := h n (.inl (by simp [Node.walk_eq]))
      rw [pruneAll, if_neg (by simp [hroot]), prune_eq_self tag n fun m hm => h m (.inl hm),
        pruneAll_eq_self tag ns fun m hm => h m (.inr hm)]

end

mutual

/-- Below the root of a tree that was pruned no node has the tag. -/
theorem hasTag_of_mem_prune (tag : String) :
    ∀ (n : Node), n.hasTag tag = false → ∀ m ∈ (prune tag n).walk, m.hasTag tag = false
  | ⟨label, children, outline⟩ => fun h m hm => by
      rw [prune, Node.walk_eq] at hm
      rcases List.mem_cons.mp hm with rfl | hm
      · exact h
      · exact hasTag_of_mem_pruneAll tag children m hm

theorem hasTag_of_mem_pruneAll (tag : String) :
    ∀ (ns : List Node), ∀ m ∈ Node.walkAll (pruneAll tag ns), m.hasTag tag = false
  | [] => fun m hm => by simp [pruneAll, Node.walkAll] at hm
  | n :: ns => fun m hm => by
      by_cases h : n.hasTag tag = true
      · rw [pruneAll, if_pos h] at hm
        exact hasTag_of_mem_pruneAll tag ns m hm
      · rw [pruneAll, if_neg h, Node.walkAll] at hm
        rcases List.mem_append.mp hm with hm | hm
        · exact hasTag_of_mem_prune tag n (by simpa using h) m hm
        · exact hasTag_of_mem_pruneAll tag ns m hm

end

/-! ## What becomes of a node -/

section
variable (w : Arithmetic) (c : RedefinitionConfig) (features : List Node)

def mergeOf (kind : NodeKind) : Node → Node → Merge :=
  if kind = .outline then Merge.outline w c.stepMapProperty else Merge.scenario w c.stepMapProperty

/-- A child of a feature that is merged with its implementation: a definition with an id. -/
def IsTarget (n : Node) : Prop :=
  (n.kind = .scenario ∨ n.kind = .outline) ∧ n.hasTag c.definitionTag = true ∧
    n.id.isSome = true

instance (n : Node) : Decidable (IsTarget c n) :=
  inferInstanceAs (Decidable (_ ∧ _))

def implementation? (d : Node) : Option Node :=
  (bearers features d.kind c.implementationTag).find? fun i => decide (i.id = d.id)

def redefined (n : Node) : Node :=
  match if IsTarget c n then implementation? c features n else none with
  | some i => (mergeOf w c n.kind (atMerging c n) (atMerging c i)).node
  | none => atMerging c n

/-- What is left of a child of a feature: nothing, if it is an implementation. -/
def survivor? (n : Node) : Option Node :=
  if n.hasTag c.implementationTag then none
  else some (prune c.implementationTag (redefined w c features n))

/-- What is left of a feature: nothing, if it is an implementation or none of its children is
left. -/
def outcome? (f : Node) : Option Node :=
  let children := f.children.filterMap (survivor? w c features)
  if f.hasTag c.implementationTag || children.isEmpty then none else some { f with children }

end

section
variable {w : Arithmetic} {c : RedefinitionConfig} {features : List Node}

theorem mergeOf_shell (kind : NodeKind) (d i : Node) :
    (mergeOf w c kind d i).node.shell = d.shell := by
  simp only [mergeOf]
  split
  · rfl
  · exact Merge.scenario_shell _ _ d i

/-- A child of a feature keeps everything but its own children. -/
theorem redefined_shell (n : Node) : (redefined w c features n).shell = n.shell := by
  simp only [redefined]
  split
  · exact (mergeOf_shell _ _ _).trans (atMerging_shell n)
  · exact atMerging_shell n

@[simp] theorem redefined_toLabel (n : Node) : (redefined w c features n).toLabel = n.toLabel :=
  Node.toLabel_eq_of_shell_eq (redefined_shell n)

@[simp] theorem redefined_hasTag (n : Node) (tag : String) :
    (redefined w c features n).hasTag tag = n.hasTag tag := by
  simp [Node.hasTag]

theorem pruneAll_map_redefined (ns : List Node) :
    pruneAll c.implementationTag (ns.map (redefined w c features)) =
      ns.filterMap (survivor? w c features) := by
  rw [pruneAll_eq_filterMap, List.filterMap_map]
  congr 1
  funext n
  simp [survivor?]

end

/-! ## Success -/

section
variable {w : Arithmetic} {c : RedefinitionConfig} {features : List Node}

/-- A plan that can be redefined, whichever tags its nodes have. -/
structure Mergeable (w : Arithmetic) (c : RedefinitionConfig) (features : List Node) : Prop where
  /-- No id comes twice among the nodes of one kind and tag. -/
  unique : ∀ kind ∈ [NodeKind.scenario, .outline],
    ∀ tag ∈ [c.definitionTag, c.implementationTag],
      ((bearers features kind tag).filterMap (·.id)).Nodup
  /-- Every definition with an id has an implementation. -/
  implemented : ∀ kind ∈ [NodeKind.scenario, .outline],
    ∀ d ∈ bearers features kind c.definitionTag, d.id.isSome = true →
      ∃ i ∈ bearers features kind c.implementationTag, i.id = d.id
  /-- Every definition can be merged with its implementation. -/
  merges : ∀ kind ∈ [NodeKind.scenario, .outline], ∀ p ∈ matched c features kind,
    (mergeOf w c kind (atMerging c p.1) (atMerging c p.2)).error = none

theorem run_succeeds_iff_mergeable (henabled : c.enabled = true) :
    (run w c features).error = none ↔ Mergeable w c features := by
  have hscenarios (hd) (hi) : (scenarioMerges w c features).error = none ↔ _ :=
    mergeKind_error (c := c) hd hi fun e he _ => node?_cleared he
  have houtlines (hd) (hi) : (outlineMerges w c features).error = none ↔ _ :=
    mergeKind_error (c := c) hd hi fun e he hkind => node?_scenarioMerges he hkind
  rw [run_error henabled]
  constructor
  · rintro ⟨hoi, hsi, hsd, hs, hod, ho⟩
    obtain ⟨hsimplemented, hsmerges⟩ := (hscenarios hsd hsi).mp hs
    obtain ⟨hoimplemented, homerges⟩ := (houtlines hod hoi).mp ho
    simp only [ids_carriers] at hoi hsi hsd hod
    exact {
      unique := by simp [hoi, hsi, hsd, hod]
      implemented := by simpa using ⟨hsimplemented, hoimplemented⟩
      merges := by
        have hboth := And.intro hsmerges homerges
        simpa [mergeOf] using hboth }
  · rintro ⟨hunique, himplemented, hmerges⟩
    simp only [← ids_carriers] at hunique
    have hsd := hunique .scenario (by simp) c.definitionTag (by simp)
    have hsi := hunique .scenario (by simp) c.implementationTag (by simp)
    have hod := hunique .outline (by simp) c.definitionTag (by simp)
    have hoi := hunique .outline (by simp) c.implementationTag (by simp)
    refine ⟨hoi, hsi, hsd, (hscenarios hsd hsi).mpr ?_, hod, (houtlines hod hoi).mpr ?_⟩
    · exact ⟨himplemented .scenario (by simp), hmerges .scenario (by simp)⟩
    · exact ⟨himplemented .outline (by simp), hmerges .outline (by simp)⟩

/-- Among the nodes of one kind and tag the id tells which node it is. -/
theorem Mergeable.eq_of_id_eq (h : Mergeable w c features) {kind : NodeKind} {tag : String}
    (hkind : kind ∈ [NodeKind.scenario, .outline])
    (htag : tag ∈ [c.definitionTag, c.implementationTag]) {m n : Node}
    (hm : m ∈ bearers features kind tag) (hn : n ∈ bearers features kind tag)
    (hsome : n.id.isSome = true) (hid : m.id = n.id) : m = n := by
  obtain ⟨id, hnid⟩ := Option.isSome_iff_exists.mp hsome
  exact id_unique (h.unique kind hkind tag htag) hm hn (hid.trans hnid) hnid

theorem implementation?_eq_some_iff (h : Mergeable w c features) {n i : Node} (hn : IsTarget c n) :
    implementation? c features n = some i ↔
      i ∈ bearers features n.kind c.implementationTag ∧ i.id = n.id := by
  obtain ⟨hkind, -, hsome⟩ := hn
  constructor
  · intro hfind
    exact ⟨List.mem_of_find?_eq_some hfind, by simpa using List.find?_some hfind⟩
  · rintro ⟨hi, hiid⟩
    cases hfind : implementation? c features n with
    | none => exact absurd hiid (by simpa using List.find?_eq_none.mp hfind i hi)
    | some i' =>
      have hid' : i'.id = n.id := by simpa using List.find?_some hfind
      rw [h.eq_of_id_eq (by simpa using hkind) (by simp) (List.mem_of_find?_eq_some hfind) hi
        (hiid ▸ hsome) (hid'.trans hiid.symm)]

theorem exists_implementation? (h : Mergeable w c features) {f n : Node} (hf : f ∈ features)
    (hchild : n ∈ f.children) (hn : IsTarget c n) :
    ∃ i, implementation? c features n = some i := by
  have hbearer : n ∈ bearers features n.kind c.definitionTag :=
    mem_bearers.mpr ⟨⟨f, hf, hchild⟩, rfl, hn.2.1⟩
  obtain ⟨i, hi, hid⟩ := h.implemented n.kind (by simpa using hn.1) n hbearer hn.2.2
  exact ⟨i, (implementation?_eq_some_iff h hn).mpr ⟨hi, hid⟩⟩

section
variable (henabled : c.enabled = true) (herror : (run w c features).error = none)
include henabled herror

/-- After the merges the plan holds every child of a feature as its outcome says. -/
theorem node?_outlineMerges {a : Address} {n : Node} (hn : (a, n) ∈ addressed 0 features) :
    node? (outlineMerges w c features).features a = some (redefined w c features n) := by
  have hmergeable := (run_succeeds_iff_mergeable henabled).mp herror
  obtain ⟨hoi, hsi, hsd, hscenarios, hod, houtlines⟩ := (run_error henabled).mp herror
  by_cases htarget : IsTarget c n
  · obtain ⟨f, hf, hchild⟩ : ∃ f ∈ features, n ∈ f.children := by
      have hmem := List.mem_map_of_mem (f := Prod.snd) hn
      rw [map_snd_addressed] at hmem
      exact List.mem_flatMap.mp hmem
    obtain ⟨i, hi⟩ := exists_implementation? hmergeable hf hchild htarget
    obtain ⟨hbearer, hid⟩ := (implementation?_eq_some_iff hmergeable htarget).mp hi
    obtain ⟨hkind | hkind, htag, hsome⟩ := htarget
    · rw [hkind] at hbearer
      rw [outlineMerges, node?_mergeKind_of_not hn (by simp [hkind]), scenarioMerges,
        node?_mergeKind hsd hsi (fun e he _ => node?_cleared he) hscenarios hn hkind htag hsome
          hbearer hid]
      simp [redefined, IsTarget, mergeOf, hkind, htag, hsome, hi]
    · rw [hkind] at hbearer
      rw [outlineMerges, node?_mergeKind hod hoi (fun e he hkind => node?_scenarioMerges he hkind)
        houtlines hn hkind htag hsome hbearer hid]
      simp [redefined, IsTarget, mergeOf, hkind, htag, hsome, hi]
  · have hnot (kind : NodeKind) (hkind : kind = .scenario ∨ kind = .outline) :
        ¬(n.kind = kind ∧ n.hasTag c.definitionTag = true ∧ n.id.isSome = true) := by
      rintro ⟨rfl, htag, hsome⟩
      exact htarget ⟨hkind, htag, hsome⟩
    rw [outlineMerges, node?_mergeKind_of_not hn (hnot .outline (.inr rfl)), scenarioMerges,
      node?_mergeKind_of_not hn (hnot .scenario (.inl rfl)), node?_cleared hn]
    simp [redefined, htarget]

theorem features_outlineMerges :
    (outlineMerges w c features).features = mapChildren (redefined w c features) features := by
  refine eq_mapChildren ?_ ?_ fun a n hn => ?_
  · exact (bare_mergeEach _ _ _).trans ((bare_mergeEach _ _ _).trans (bare_clear _ _))
  · exact (labels_mergeEach (fun _ _ => rfl) _ _ _).trans labels_scenarioMerges
  · exact node?_outlineMerges henabled herror (mem_addressed_iff.mpr hn)

theorem run_features :
    (run w c features).features = features.filterMap (outcome? w c features) := by
  rw [run_removes henabled herror, features_outlineMerges henabled herror, removeTagged,
    mapChildren, pruneAll_eq_filterMap, List.filterMap_map, List.filter_filterMap]
  congr 1
  funext f
  simp only [Function.comp_apply, prune_eq, pruneAll_map_redefined, outcome?, Node.hasTag]
  by_cases hf : c.implementationTag ∈ f.tags
  · simp [hf]
  · cases f.children.filterMap (survivor? w c features) <;> simp [hf, Node.isLeaf]

end

end

end Redefinition

end FeaturePlan
