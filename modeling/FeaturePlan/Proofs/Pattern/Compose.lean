import FeaturePlan.Pattern.Compose
import FeaturePlan.Proofs.Pattern.Matches

/-! # Patterns put together from parts

Some patterns in a row match as they would one after the other, whatever becomes of their parts when
they are put together. Whatever is put together keeps the bounds of its repetitions in order. -/

namespace FeaturePlan.Pattern

variable {text : List Char} {p q : Pattern} {ps qs : List Pattern} {i j k : Nat}

/-! ## Rows -/

inductive MatchesRow (text : List Char) : List Pattern → Nat → Nat → Prop where
  | nil (i : Nat) : MatchesRow text [] i i
  | cons {p : Pattern} {ps : List Pattern} {i j k : Nat} :
      Matches text p i j → MatchesRow text ps j k → MatchesRow text (p :: ps) i k

@[simp] theorem matchesRow_nil_iff : MatchesRow text [] i j ↔ j = i := by
  constructor
  · rintro ⟨⟩
    rfl
  · rintro rfl
    exact .nil _

@[simp] theorem matchesRow_cons_iff :
    MatchesRow text (p :: ps) i k ↔ ∃ j, Matches text p i j ∧ MatchesRow text ps j k := by
  constructor
  · rintro ⟨⟩
    exact ⟨_, by assumption, by assumption⟩
  · rintro ⟨j, hp, hps⟩
    exact .cons hp hps

@[simp] theorem matchesRow_append_iff :
    MatchesRow text (ps ++ qs) i k ↔ ∃ j, MatchesRow text ps i j ∧ MatchesRow text qs j k := by
  induction ps generalizing i with
  | nil => simp
  | cons p ps ih =>
    simp only [List.cons_append, matchesRow_cons_iff, ih]
    grind

theorem matches_ofParts_iff : Matches text (ofParts ps) i j ↔ MatchesRow text ps i j := by
  induction ps generalizing i with
  | nil => simp [ofParts]
  | cons p ps ih =>
    cases ps with
    | nil => simp [ofParts]
    | cons q ps => simp only [ofParts, matches_seq_iff, ih, matchesRow_cons_iff]

theorem matchesRow_parts_iff : MatchesRow text p.parts i j ↔ Matches text p i j := by
  induction p generalizing i with
  | empty => simp [parts]
  | seq p q _ ihq => simp [parts, matches_seq_iff, ihq]
  | _ => simp [parts]

theorem matchesRow_flatMap_parts_iff :
    MatchesRow text (ps.flatMap parts) i j ↔ MatchesRow text ps i j := by
  induction ps generalizing i with
  | nil => simp
  | cons p ps ih => simp [matchesRow_parts_iff, ih]

theorem take_append_eq_iff {cs ds rest : List Char} :
    rest.take (cs ++ ds).length = cs ++ ds ↔
      rest.take cs.length = cs ∧ (rest.drop cs.length).take ds.length = ds := by
  simp only [eq_comm (b := cs ++ ds), eq_comm (b := cs), eq_comm (b := ds),
    ← List.prefix_iff_eq_take]
  constructor
  · rintro ⟨after, rfl⟩
    exact ⟨⟨ds ++ after, by simp⟩, ⟨after, by simp⟩⟩
  · rintro ⟨⟨rest, rfl⟩, hds⟩
    simpa using hds

/-- A text stands at a place when its first part stands there and its second part after it. -/
theorem matches_text_append_iff {cs ds : List Char} :
    Matches text (.text (cs ++ ds)) i k ↔
      ∃ j, Matches text (.text cs) i j ∧ Matches text (.text ds) j k := by
  rw [matches_text_iff, take_append_eq_iff, List.drop_drop, List.length_append]
  simp only [matches_text_iff]
  constructor
  · rintro ⟨⟨hcs, hds⟩, rfl⟩
    exact ⟨_, ⟨hcs, rfl⟩, hds, by omega⟩
  · rintro ⟨_, ⟨hcs, rfl⟩, hds, rfl⟩
    exact ⟨⟨hcs, hds⟩, by omega⟩

theorem matchesRow_joinTexts_iff : MatchesRow text (joinTexts ps) i j ↔ MatchesRow text ps i j := by
  fun_induction joinTexts ps generalizing i with
  | case1 => rfl
  | case2 cs ps ds qs hjoin ih =>
    simp only [matchesRow_cons_iff, ← ih, hjoin, matches_text_append_iff]
    grind
  | case3 cs ps hjoin ih => simp only [matchesRow_cons_iff, ih]
  | case4 p ps htext ih => simp only [matchesRow_cons_iff, ih]

theorem matches_concat_iff : Matches text (concat ps) i j ↔ MatchesRow text ps i j := by
  rw [concat, matches_ofParts_iff, matchesRow_joinTexts_iff, matchesRow_flatMap_parts_iff]

theorem before_ofIndex_iff (hi : i ≤ text.length) :
    (Place.ofIndex text i).before = none ↔ i = 0 := by
  by_cases hzero : i = 0
  · simp [Place.ofIndex, hzero]
  · have hlt : i - 1 < text.length := by omega
    simp [Place.ofIndex, hzero, hlt]

theorem matchesRow_textStart_iff (hi : i ≤ text.length) :
    MatchesRow text (.anchor .textStart :: ps) i j ↔ i = 0 ∧ MatchesRow text ps i j := by
  simp [Anchor.holds, before_ofIndex_iff hi, and_assoc]

theorem matchesRow_textEnd_iff (ps : List Pattern) (hi : i ≤ text.length) :
    MatchesRow text (ps ++ [.anchor .textEnd]) i j ↔ MatchesRow text ps i j ∧ j = text.length := by
  have hend (k : Nat) : (Place.ofIndex text k).after = none ↔ text.length ≤ k := by
    simp [Place.ofIndex]
  simp only [matchesRow_append_iff, matchesRow_cons_iff, matchesRow_nil_iff, matches_anchor_iff,
    Anchor.holds, decide_eq_true_eq, hend]
  constructor
  · rintro ⟨k, hrow, _, ⟨hk, rfl⟩, rfl⟩
    exact ⟨hrow, Nat.le_antisymm ((matches_concat_iff.mpr hrow).le_length hi) hk⟩
  · rintro ⟨hrow, rfl⟩
    exact ⟨_, hrow, _, ⟨Nat.le_refl _, rfl⟩, rfl⟩

/-! ## Bounds in order -/

theorem isOrdered_ofParts (h : ∀ p ∈ ps, p.IsOrdered) : (ofParts ps).IsOrdered := by
  fun_induction ofParts ps with
  | case1 => trivial
  | case2 p => simpa using h
  | case3 p ps hps ih =>
    obtain ⟨hp, hps⟩ := List.forall_mem_cons.mp h
    exact ⟨hp, ih hps⟩

theorem IsOrdered.parts (h : p.IsOrdered) : ∀ q ∈ p.parts, q.IsOrdered := by
  induction p with
  | empty => simp [Pattern.parts]
  | seq p q _ ihq => simpa [Pattern.parts, h.1] using ihq h.2
  | _ => simpa [Pattern.parts] using h

theorem isOrdered_joinTexts (h : ∀ p ∈ ps, p.IsOrdered) : ∀ p ∈ joinTexts ps, p.IsOrdered := by
  fun_induction joinTexts ps with
  | case1 => exact h
  | case2 cs ps ds qs hjoin ih =>
    have hrest := ih (List.forall_mem_cons.mp h).2
    rw [hjoin, List.forall_mem_cons] at hrest
    exact List.forall_mem_cons.mpr ⟨trivial, hrest.2⟩
  | case3 cs ps hjoin ih =>
    obtain ⟨hp, hps⟩ := List.forall_mem_cons.mp h
    exact List.forall_mem_cons.mpr ⟨hp, ih hps⟩
  | case4 p ps htext ih =>
    obtain ⟨hp, hps⟩ := List.forall_mem_cons.mp h
    exact List.forall_mem_cons.mpr ⟨hp, ih hps⟩

theorem isOrdered_concat (h : ∀ p ∈ ps, p.IsOrdered) : (concat ps).IsOrdered := by
  refine isOrdered_ofParts (isOrdered_joinTexts fun q hq => ?_)
  obtain ⟨p, hp, hq⟩ := List.mem_flatMap.mp hq
  exact (h p hp).parts q hq

theorem IsOrdered.branches (h : p.IsOrdered) : ∀ q ∈ p.branches, q.IsOrdered := by
  induction p with
  | alt p q _ ihq => simpa [Pattern.branches, h.1] using ihq h.2
  | _ => simpa [Pattern.branches] using h

theorem isOrdered_flatMap_branches (h : ∀ p ∈ ps, p.IsOrdered) :
    ∀ q ∈ ps.flatMap Pattern.branches, q.IsOrdered := by
  intro q hq
  obtain ⟨p, hp, hq⟩ := List.mem_flatMap.mp hq
  exact (h p hp).branches q hq

theorem isOrdered_ofBranches (h : ∀ p ∈ ps, p.IsOrdered) : (ofBranches ps).IsOrdered := by
  fun_induction ofBranches ps with
  | case1 => trivial
  | case2 p => simpa using h
  | case3 p ps hps ih =>
    obtain ⟨hp, hps⟩ := List.forall_mem_cons.mp h
    exact ⟨hp, ih hps⟩

theorem isOrdered_ofSet (s : CharSet) : (ofSet s).IsOrdered := by
  unfold ofSet
  split <;> trivial

theorem isOrdered_merge (h : ∀ p ∈ ps, p.IsOrdered) : (merge ps).IsOrdered := by
  unfold merge
  split
  · simpa using h
  · split
    · exact isOrdered_ofSet _
    · exact isOrdered_ofSet _
    · exact isOrdered_ofBranches h

theorem commonStart_subset (ps qs : List Pattern) : commonStart ps qs ⊆ ps := by
  fun_induction commonStart ps qs with
  | case1 ps q qs ih => exact List.cons_subset_cons q ih
  | case2 => exact List.nil_subset _
  | case3 => exact List.nil_subset _

theorem foldl_commonStart_subset (start : List Pattern) (ps : List Pattern) :
    ps.foldl (fun start p => commonStart start p.parts) start ⊆ start := by
  induction ps generalizing start with
  | nil => exact List.Subset.refl start
  | cons p ps ih => exact List.Subset.trans (ih _) (commonStart_subset start p.parts)

theorem isOrdered_sharedStart (h : ∀ p ∈ ps, p.IsOrdered) :
    ∀ p ∈ sharedStart ps, p.IsOrdered := by
  intro p hp
  unfold sharedStart at hp
  split at hp
  next first second rest =>
    split at hp
    · exact (h first List.mem_cons_self).parts p (foldl_commonStart_subset _ _ hp)
    · simp at hp
  next => simp at hp

theorem isOrdered_choice (h : ∀ p ∈ ps, p.IsOrdered) : (choice ps).IsOrdered := by
  have hps := isOrdered_flatMap_branches h
  unfold choice
  dsimp only
  split
  · exact isOrdered_merge hps
  · have hends : ∀ q ∈ (ps.flatMap Pattern.branches).map fun p =>
        concat (p.parts.drop (sharedStart (ps.flatMap Pattern.branches)).length), q.IsOrdered := by
      simp only [List.forall_mem_map]
      exact fun p hp => isOrdered_concat fun q hq => (hps p hp).parts q (List.mem_of_mem_drop hq)
    refine isOrdered_concat fun q hq => ?_
    rcases List.mem_append.mp hq with hq | hq
    · exact isOrdered_sharedStart hps q hq
    · obtain rfl := List.mem_singleton.mp hq
      exact isOrdered_merge (isOrdered_flatMap_branches hends)

theorem IsOrdered.times (h : p.IsOrdered) {least : Nat} {most : Option Nat}
    (hbounds : ∀ m ∈ most, least ≤ m) : (p.times least most).IsOrdered := by
  have hrepeated {least : Nat} {most : Option Nat} (hbounds : ∀ m ∈ most, least ≤ m) :
      (if most = some 0 then empty else if least = 1 ∧ most = some 1 then p
        else repeated p least most).IsOrdered := by
    split
    · trivial
    · split
      · exact h
      · exact ⟨hbounds, h⟩
  unfold Pattern.times
  by_cases hempty : p.longest = some 0
  · simp only [hempty, if_pos]
    refine hrepeated fun m hm => ?_
    obtain rfl := Option.some.inj hm
    cases most with
    | none => exact Nat.min_le_right least 1
    | some most =>
      have hle := hbounds most rfl
      simp only [Option.getD_some]
      omega
  · simp only [hempty, if_false]
    exact hrepeated hbounds

end FeaturePlan.Pattern
