import FeaturePlan.Plan.Merge
import FeaturePlan.Proofs.Text.Blank
import FeaturePlan.Proofs.Text.Count
import Mathlib.Data.List.Forall2

/-! # Step maps are read exactly

The text of a step map is cut at its hyphens. The number of entries is looked at before the entries
are, so that a map which is too long is refused even where it could not be read. Any other map is in
force if all of its entries are numbers; if one of them is not, there is a warning, and each step
takes one. -/

namespace FeaturePlan

/-! ## Entries -/

theorem Text.isBlank_of_isDigit {c : Char} (h : c.isDigit = true) : isBlank c = false := by
  obtain ⟨hlow, hhigh⟩ := Char.isDigit_iff_toNat.mp h
  have hzero : '0'.toNat = 48 := rfl
  have hnine : '9'.toNat = 57 := rfl
  simp only [isBlank, inRanges, blankRanges, List.any_cons, List.any_nil, Bool.or_false,
    Bool.or_eq_false_iff, Bool.and_eq_false_iff, decide_eq_false_iff_not]
  omega

namespace StepMap

/-- The entry stands for a number, and may have blanks around it. -/
def IsEntry (entry : List Char) (n : Nat) : Prop :=
  Text.IsCount (Text.trim entry) n

variable {entries : List (List Char)} {ns : List Nat} {f : Text.CountFault} {n : Nat}

theorem counts_cons (entry : List Char) (rest : List (List Char)) :
    counts (entry :: rest) =
      match Text.count (Text.trim entry) with
      | .error f => .error f
      | .ok n =>
        match counts rest with
        | .error f => .error f
        | .ok ns => .ok (n :: ns) := by
  rw [counts]
  cases Text.count (Text.trim entry) with
  | error f => rfl
  | ok n => cases counts rest <;> rfl

theorem counts_eq_ok_iff : counts entries = .ok ns ↔ List.Forall₂ IsEntry entries ns := by
  constructor
  · intro h
    induction entries generalizing ns with
    | nil =>
        obtain rfl := Except.ok.inj h
        exact .nil
    | cons entry rest ih =>
        rw [counts_cons] at h
        split at h
        · cases h
        · next n hentry =>
          split at h
          · cases h
          · next ns hrest =>
            obtain rfl := Except.ok.inj h
            exact .cons (Text.count_eq_ok_iff.mp hentry) (ih hrest)
  · intro h
    induction h with
    | nil => rfl
    | cons hentry _ ih => rw [counts_cons, Text.count_eq_ok_iff.mpr hentry, ih]

theorem lt_of_forall₂_isEntry (h : List.Forall₂ IsEntry entries ns) :
    ∀ n ∈ ns, n < Text.wordLimit := by
  induction h with
  | nil => exact List.forall_mem_nil _
  | cons hentry _ ih => exact List.forall_mem_cons.mpr ⟨hentry.lt, ih⟩

theorem counts_eq_error_iff : counts entries = .error f ↔
    ∃ above entry below, entries = above ++ entry :: below ∧ (∀ e ∈ above, ∃ n, IsEntry e n) ∧
      Text.count (Text.trim entry) = .error f := by
  constructor
  · intro h
    induction entries with
    | nil => cases h
    | cons entry rest ih =>
        rw [counts_cons] at h
        split at h
        · next f hentry =>
          obtain rfl := Except.error.inj h
          exact ⟨[], entry, rest, rfl, by simp, hentry⟩
        · next n hentry =>
          split at h
          · next f hrest =>
            obtain rfl := Except.error.inj h
            obtain ⟨above, bad, below, rfl, habove, hbad⟩ := ih hrest
            have hfirst : ∃ n, IsEntry entry n := ⟨n, Text.count_eq_ok_iff.mp hentry⟩
            exact ⟨entry :: above, bad, below, rfl, List.forall_mem_cons.mpr ⟨hfirst, habove⟩, hbad⟩
          · cases h
  · rintro ⟨above, bad, below, rfl, habove, hbad⟩
    induction above with
    | nil => rw [List.nil_append, counts_cons, hbad]
    | cons entry above ih =>
        obtain ⟨⟨n, hentry⟩, habove⟩ := List.forall_mem_cons.mp habove
        rw [List.cons_append, counts_cons, Text.count_eq_ok_iff.mpr hentry, ih habove]

/-- A number that fits into 64 bits is an entry as it is usually written. -/
theorem isEntry_toDigits (h : n < Text.wordLimit) : IsEntry (Nat.toDigits 10 n) n := by
  have hdigit : ∀ c ∈ Nat.toDigits 10 n, c.isDigit = true :=
    fun c hc => Nat.isDigit_of_mem_toDigits (by decide) (by decide) hc
  have hvisible : ∀ c ∈ Nat.toDigits 10 n, Text.isBlank c = false :=
    fun c hc => Text.isBlank_of_isDigit (hdigit c hc)
  have htrim : Text.trim (Nat.toDigits 10 n) = Nat.toDigits 10 n :=
    Text.trim_eq_self_iff.mpr ⟨fun c hc => hvisible c (List.mem_of_mem_head? hc),
      fun c hc => hvisible c (List.mem_of_mem_getLast? hc)⟩
  rw [IsEntry, htrim]
  exact .unsigned ⟨Nat.toDigits_ne_nil, hdigit, Nat.ofDigitChars_ten_toDigits⟩ h

/-! ## Texts -/

/-- Numbers with hyphens between them are told apart by the hyphens. -/
theorem splitOn_written (hne : ns ≠ []) :
    ("-".intercalate (ns.map toString)).toList.splitOn '-' = ns.map (Nat.toDigits 10) := by
  have hhyphen : ∀ entry ∈ ns.map (Nat.toDigits 10), '-' ∉ entry := by
    intro entry hentry hmem
    obtain ⟨n, -, rfl⟩ := List.mem_map.mp hentry
    have hdigit := Nat.isDigit_of_mem_toDigits (by decide) (by decide) hmem
    cases hdigit
  have hlists : (ns.map toString).map String.toList = ns.map (Nat.toDigits 10) := by
    rw [List.map_map]
    exact List.map_congr_left fun n _ => by
      rw [Function.comp_apply, Nat.toString_eq_repr, Nat.toList_repr]
  rw [String.toList_intercalate, hlists]
  exact List.splitOn_intercalate '-' hhyphen (by simpa using hne)

/-- What becomes of a step map for a number of steps, given its text if there is one. -/
inductive Yields (locator : String) (steps : Nat) :
    Option String → Except RedefinitionError (List Nat × List LogEvent) → Prop where
  /-- Without a map each step takes one. -/
  | missing : Yields locator steps none (.ok (List.replicate steps 1, []))
  | tooLong {raw : String} : steps < (raw.toList.splitOn '-').length →
      Yields locator steps (some raw) (.error (.badStepMap locator raw))
  /-- Steps beyond the end of a map take none. -/
  | runs {raw : String} {ns : List Nat} : (raw.toList.splitOn '-').length ≤ steps →
      List.Forall₂ IsEntry (raw.toList.splitOn '-') ns →
      Yields locator steps (some raw) (.ok (ns ++ List.replicate (steps - ns.length) 0, []))
  /-- The first entry that is no number decides what the warning says. -/
  | faulty {raw : String} {above below : List (List Char)} {entry : List Char}
      {f : Text.CountFault} : (raw.toList.splitOn '-').length ≤ steps →
      raw.toList.splitOn '-' = above ++ entry :: below → (∀ e ∈ above, ∃ n, IsEntry e n) →
      (∀ n, ¬IsEntry entry n) → Text.count (Text.trim entry) = .error f →
      Yields locator steps (some raw)
        (.ok (List.replicate steps 1, [.stepMapIgnored locator raw f.message]))

variable {locator : String} {steps : Nat} {text : Option String} {log : List LogEvent}

theorem Yields.length_eq (h : Yields locator steps text (.ok (ns, log))) : ns.length = steps := by
  cases h with
  | missing => exact List.length_replicate
  | faulty => exact List.length_replicate
  | runs hfits hentries =>
    have hlength := hentries.length_eq
    rw [List.length_append, List.length_replicate]
    omega

theorem Yields.log_eq (h : Yields locator steps text (.ok (ns, log))) :
    log = [] ∨ ∃ warning : LogEvent, warning.level = .warn ∧ log = [warning] := by
  cases h with
  | missing => exact .inl rfl
  | runs => exact .inl rfl
  | faulty => exact .inr ⟨_, rfl, rfl⟩

end StepMap

namespace Merge

variable {property : String} {implementation : Node} {steps : Nat} {runs : List Nat}
  {log : List LogEvent} {result : Except RedefinitionError (List Nat × List LogEvent)}

theorem yields_runsFor (property : String) (implementation : Node) (steps : Nat) :
    StepMap.Yields implementation.locator steps (implementation.properties.get? property)
      (runsFor property implementation steps) := by
  rw [runsFor]
  cases implementation.properties.get? property with
  | none => exact .missing
  | some raw =>
    by_cases hlong : steps < (raw.toList.splitOn '-').length
    · simp only [StepMap.read, hlong, if_true]
      exact .tooLong hlong
    · have hfits := Nat.le_of_not_lt hlong
      simp only [StepMap.read, hlong, if_false]
      cases hc : StepMap.counts (raw.toList.splitOn '-') with
      | ok ns => exact .runs hfits (StepMap.counts_eq_ok_iff.mp hc)
      | error f =>
        obtain ⟨above, entry, below, hsplit, habove, hentry⟩ := StepMap.counts_eq_error_iff.mp hc
        refine .faulty hfits hsplit habove (fun n hn => ?_) hentry
        rw [Text.count_eq_ok_iff.mpr hn] at hentry
        cases hentry

theorem runsFor_of_yields (h : StepMap.Yields implementation.locator steps
    (implementation.properties.get? property) result) :
    runsFor property implementation steps = result := by
  generalize hraw : implementation.properties.get? property = text at h
  rw [runsFor, hraw]
  cases h with
  | missing => rfl
  | tooLong hlong => simp only [StepMap.read, hlong, if_true]
  | runs hfits hns =>
    simp only [StepMap.read, Nat.not_lt_of_le hfits, if_false, StepMap.counts_eq_ok_iff.mpr hns]
    rfl
  | faulty hfits hsplit habove hnone hentry =>
    have hc := StepMap.counts_eq_error_iff.mpr ⟨_, _, _, hsplit, habove, hentry⟩
    simp only [StepMap.read, Nat.not_lt_of_le hfits, if_false, hc]
    rfl

/-- The rules for step maps say of each map what becomes of it. Numbers that are written with
hyphens between them are read back, and whatever map is in force has one entry for each step. -/
theorem runsFor_reads_exactly (property : String) (implementation : Node) (steps : Nat) :
    (∀ result, runsFor property implementation steps = result ↔
      StepMap.Yields implementation.locator steps (implementation.properties.get? property)
        result) ∧
    (∀ ns : List Nat, ns ≠ [] → ns.length ≤ steps → (∀ n ∈ ns, n < Text.wordLimit) →
      implementation.properties.get? property = some ("-".intercalate (ns.map toString)) →
      runsFor property implementation steps =
        .ok (ns ++ List.replicate (steps - ns.length) 0, [])) ∧
    ∀ runs log, runsFor property implementation steps = .ok (runs, log) → runs.length = steps ∧
      (log = [] ∨ ∃ warning : LogEvent, warning.level = .warn ∧ log = [warning]) := by
  refine ⟨fun result => ⟨?_, runsFor_of_yields⟩, fun ns hne hfits hlt hraw => ?_, ?_⟩
  · rintro rfl
    exact yields_runsFor property implementation steps
  · have hsplit := StepMap.splitOn_written hne
    apply runsFor_of_yields
    rw [hraw]
    refine .runs (by rwa [hsplit, List.length_map]) ?_
    rw [hsplit, List.forall₂_map_left_iff, List.forall₂_same]
    exact fun n hn => StepMap.isEntry_toDigits (hlt n hn)
  · intro runs log h
    have hyields := yields_runsFor property implementation steps
    rw [h] at hyields
    exact ⟨hyields.length_eq, hyields.log_eq⟩

/-- The largest number of 64 bits is read, whether with leading zeros, a sign and blanks or as it is
usually written. A map with an empty entry is passed over, unless it is too long. -/
theorem runsFor_reads_exactly_at_limit :
    let node (raw : String) : Node :=
      ⟨{ Label.plain .scenario "i" with properties := Properties.empty.insert "map" raw }, [], none⟩
    runsFor "map" (node " +0018446744073709551615 -7") 3 =
        .ok ([18446744073709551615, 7, 0], []) ∧
      runsFor "map" (node "18446744073709551615-0") 3 = .ok ([18446744073709551615, 0, 0], []) ∧
      runsFor "map" (node "1--2") 3 = .ok ([1, 1, 1],
        [.stepMapIgnored (node "").locator "1--2" Text.CountFault.empty.message]) ∧
      runsFor "map" (node "1--2") 2 = .error (.badStepMap (node "").locator "1--2") := by
  intro node
  have hlarge : Text.IsCount "+0018446744073709551615".toList 18446744073709551615 :=
    .signed ⟨by decide, List.all_eq_true.mp (by decide), by decide⟩ (by decide)
  have hdigit (n : Nat) (h : n < 10) : StepMap.IsEntry (Nat.toDigits 10 n) n :=
    StepMap.isEntry_toDigits (Nat.lt_trans h (by decide))
  have hempty (n : Nat) : ¬StepMap.IsEntry [] n := by
    intro h
    cases Text.count_eq_ok_iff.mpr h
  have hdoubled : ("1--2".toList.splitOn '-') = [['1']] ++ [] :: [['2']] := by decide +kernel
  refine ⟨((runsFor_reads_exactly "map" _ 3).1 _).mpr ?_,
    (runsFor_reads_exactly "map" _ 3).2.1 [18446744073709551615, 0] (by decide) (by decide)
      (by decide) (by decide +kernel),
    ((runsFor_reads_exactly "map" _ 3).1 _).mpr ?_, ((runsFor_reads_exactly "map" _ 2).1 _).mpr ?_⟩
  · have hentries : List.Forall₂ StepMap.IsEntry
        (" +0018446744073709551615 -7".toList.splitOn '-') [18446744073709551615, 7] :=
      .cons hlarge (.cons (hdigit 7 (by decide)) .nil)
    exact .runs (by decide +kernel) hentries
  · exact .faulty (by decide +kernel) hdoubled
      (List.forall_mem_cons.mpr ⟨⟨1, hdigit 1 (by decide)⟩, by simp⟩) hempty rfl
  · exact .tooLong (by decide +kernel)

end Merge
end FeaturePlan
