import FeaturePlan.Proofs.Plan.Outcome

/-! # Replacing implementations

An implementation can be replaced by any other that merges in the same way: the new plan is the
same. -/

namespace FeaturePlan.Redefinition

variable {w : Arithmetic} {c : RedefinitionConfig} {features : List Node}

/-- A replacement of nodes that no merge notices: labels stay, all that is replaced are
implementations that are no definitions, and what is merged with them is the same. -/
structure Unnoticed (w : Arithmetic) (c : RedefinitionConfig) (replace : Node → Node) : Prop where
  label : ∀ n, (replace n).toLabel = n.toLabel
  kept : ∀ n, n.hasTag c.definitionTag = true ∨ n.hasTag c.implementationTag = false →
    replace n = n
  merge : ∀ d i,
    mergeOf w c i.kind d (atMerging c (replace i)) = mergeOf w c i.kind d (atMerging c i)

section
variable {replace : Node → Node} (h : Unnoticed w c replace)
include h

theorem Unnoticed.bearers_eq (kind : NodeKind) (tag : String) :
    bearers (mapChildren replace features) kind tag =
      (bearers features kind tag).map replace := by
  simp only [bearers, mapChildren, List.flatMap_map, ← List.map_flatMap, List.filter_map]
  congr 1
  refine List.filter_congr fun n _ => ?_
  simp [Node.hasTag, h.label]

theorem Unnoticed.ids_eq (kind : NodeKind) (tag : String) :
    (bearers (mapChildren replace features) kind tag).filterMap (·.id) =
      (bearers features kind tag).filterMap (·.id) := by
  rw [h.bearers_eq, List.filterMap_map]
  refine List.filterMap_congr fun n _ => ?_
  simp [h.label]

theorem Unnoticed.mergeable (hok : Mergeable w c features) :
    Mergeable w c (mapChildren replace features) where
  unique kind hkind tag htag := by
    rw [h.ids_eq]
    exact hok.unique kind hkind tag htag
  implemented kind hkind d hd hsome := by
    rw [h.bearers_eq] at hd ⊢
    obtain ⟨d, hd', rfl⟩ := List.mem_map.mp hd
    rw [h.label] at hsome ⊢
    obtain ⟨i, hi, hid⟩ := hok.implemented kind hkind d hd' hsome
    exact ⟨replace i, List.mem_map_of_mem hi, by rw [h.label, hid]⟩
  merges kind hkind p hp := by
    obtain ⟨d, i⟩ := p
    obtain ⟨⟨hd, hi⟩, hsome, hid⟩ := mk_mem_matched.mp hp
    rw [h.bearers_eq] at hd hi
    obtain ⟨d, hd', rfl⟩ := List.mem_map.mp hd
    obtain ⟨i, hi', rfl⟩ := List.mem_map.mp hi
    obtain ⟨-, -, htag⟩ := mem_bearers.mp hd'
    obtain ⟨-, rfl, -⟩ := mem_bearers.mp hi'
    rw [h.label, h.label] at hid
    rw [h.label] at hsome
    rw [h.kept d (.inl htag), h.merge]
    exact hok.merges i.kind hkind (d, i) (mk_mem_matched.mpr ⟨⟨hd', hi'⟩, hsome, hid⟩)

theorem Unnoticed.redefined_eq (hok : Mergeable w c features) {f n : Node} (hf : f ∈ features)
    (hn : n ∈ f.children) :
    redefined w c (mapChildren replace features) n = redefined w c features n := by
  by_cases htarget : IsTarget c n
  · obtain ⟨i, hi⟩ := exists_implementation? hok hf hn htarget
    obtain ⟨hbearer, hid⟩ := (implementation?_eq_some_iff hok htarget).mp hi
    have hreplaced : implementation? c (mapChildren replace features) n = some (replace i) := by
      refine (implementation?_eq_some_iff (h.mergeable hok) htarget).mpr ⟨?_, ?_⟩
      · rw [h.bearers_eq]
        exact List.mem_map_of_mem hbearer
      · rw [h.label, hid]
    have hmerge := h.merge (atMerging c n) i
    rw [(mem_bearers.mp hbearer).2.1] at hmerge
    simp only [redefined, if_pos htarget, hi, hreplaced, hmerge]
  · simp [redefined, htarget]

/-- What is left of a feature is the same when implementations are replaced unnoticed. -/
theorem Unnoticed.outcome?_eq (hok : Mergeable w c features) {f : Node} (hf : f ∈ features) :
    outcome? w c (mapChildren replace features) { f with children := f.children.map replace } =
      outcome? w c features f := by
  have hchildren : (f.children.map replace).filterMap
        (survivor? w c (mapChildren replace features)) =
      f.children.filterMap (survivor? w c features) := by
    rw [List.filterMap_map]
    refine List.filterMap_congr fun n hn => ?_
    cases htag : n.hasTag c.implementationTag with
    | true =>
      have hreplaced : (replace n).hasTag c.implementationTag = true := by
        rw [Node.hasTag, h.label]
        exact htag
      simp [survivor?, htag, hreplaced]
    | false =>
      simp [survivor?, htag, h.kept n (.inr htag), h.redefined_eq hok hf hn]
  simp only [outcome?, hchildren]
  rfl

theorem Unnoticed.run_eq (henabled : c.enabled = true) (herror : (run w c features).error = none) :
    (run w c (mapChildren replace features)).error = none ∧
      (run w c (mapChildren replace features)).features = (run w c features).features := by
  have hok := (run_succeeds_iff_mergeable henabled).mp herror
  have herror' : (run w c (mapChildren replace features)).error = none :=
    (run_succeeds_iff_mergeable henabled).mpr (h.mergeable hok)
  refine ⟨herror', ?_⟩
  rw [run_features henabled herror', run_features henabled herror]
  conv_lhs => rw [mapChildren, List.filterMap_map]
  exact List.filterMap_congr fun f hf => h.outcome?_eq hok hf

end

/-- Where ids are unique, an implementing outline stands at one address: what replaces it there
replaces it everywhere. -/
theorem modify_eq_mapChildren (hok : Mergeable w c features) {a : Address} {i i' : Node}
    (hi : node? features a = some i) (hkind : i.kind = .outline)
    (htag : i.hasTag c.implementationTag = true) (hsome : i.id.isSome = true)
    (hlabel : i'.toLabel = i.toLabel) :
    modify features a (fun _ => i') =
      mapChildren (fun n => if n = i then i' else n) features := by
  refine eq_mapChildren (bare_modify _ _ _) (labels_modify _ _ fun n hn => ?_) fun b n hn => ?_
  · rwa [Option.some.inj (hn.symm.trans hi)]
  · rw [node?_modify, hn]
    by_cases hab : a = b
    · subst hab
      obtain rfl := Option.some.inj (hi.symm.trans hn)
      simp
    · have hne : n ≠ i := by
        rintro rfl
        obtain ⟨id, hid⟩ := Option.isSome_iff_exists.mp hsome
        have hids : (ids (carriers features .outline c.implementationTag)).Nodup := by
          rw [ids_carriers]
          exact hok.unique .outline (by simp) c.implementationTag (by simp)
        have hcarrier {b : Address} (hb : node? features b = some n) :
            (b, n) ∈ carriers features .outline c.implementationTag :=
          mem_carriers.mpr ⟨mem_addressed_iff.mpr hb, hkind, htag⟩
        exact hab (Prod.mk.inj (id_unique hids (hcarrier hi) (hcarrier hn) hid hid)).1
      simp [hab, hne]

end FeaturePlan.Redefinition
