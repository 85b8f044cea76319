import FeaturePlan.Text.Count

/-! # Numbers as they are written

A number is read from the digits that stand for it, and from nothing else but those with a plus sign
in front of them. The limit is checked digit by digit; but since further digits never make a number
smaller, it is the whole number that has to be below the limit. -/

namespace FeaturePlan.Text

structure IsDecimal (digits : List Char) (n : Nat) : Prop where
  nonempty : digits ≠ []
  digit : ∀ c ∈ digits, c.isDigit = true
  value : Nat.ofDigitChars 10 digits 0 = n

/-- How a number of 64 bits may be written: in digits, with a plus sign in front or without. -/
inductive IsCount : List Char → Nat → Prop where
  | unsigned {digits : List Char} {n : Nat} : IsDecimal digits n → n < wordLimit → IsCount digits n
  | signed {digits : List Char} {n : Nat} : IsDecimal digits n → n < wordLimit →
      IsCount ('+' :: digits) n

variable {cs : List Char} {value n : Nat}

theorem IsCount.lt (h : IsCount cs n) : n < wordLimit := by
  cases h with
  | unsigned _ hlt | signed _ hlt => exact hlt

/-- A plus sign is no digit, so that digits can be told from digits with a sign. -/
theorem IsDecimal.head?_ne (h : IsDecimal cs n) : cs.head? ≠ some '+' := by
  intro hhead
  have hdigit := h.digit '+' (List.mem_of_mem_head? hhead)
  cases hdigit

theorem le_ofDigitChars (value : Nat) (cs : List Char) : value ≤ Nat.ofDigitChars 10 cs value := by
  induction cs generalizing value with
  | nil => exact Nat.le_refl value
  | cons c cs ih =>
      rw [Nat.ofDigitChars_cons]
      have hrest := ih (10 * value + (c.toNat - '0'.toNat))
      omega

/-- All of the text is digits, and the number that they make of the value so far is small enough. -/
theorem countFrom_eq_ok_iff (hvalue : value < wordLimit) : countFrom value cs = .ok n ↔
    (∀ c ∈ cs, c.isDigit = true) ∧ Nat.ofDigitChars 10 cs value = n ∧ n < wordLimit := by
  induction cs generalizing value with
  | nil =>
      rw [countFrom, Except.ok.injEq]
      constructor
      · intro h
        exact ⟨by simp, h, h ▸ hvalue⟩
      · exact fun h => h.2.1
  | cons c cs ih =>
      rw [countFrom, Nat.ofDigitChars_cons, List.forall_mem_cons]
      by_cases hdigit : c.isDigit = true
      · by_cases hnext : 10 * value + (c.toNat - '0'.toNat) < wordLimit
        · simp only [hdigit, hnext, if_true, ih hnext, true_and]
        · have hle := le_ofDigitChars (10 * value + (c.toNat - '0'.toNat)) cs
          simp only [hdigit, hnext, if_true, if_false]
          constructor
          · intro h
            cases h
          · rintro ⟨-, hn, hlt⟩
            omega
      · simp [hdigit]

/-- A text is read as a number if, and only if, it is that number as it may be written. -/
theorem count_eq_ok_iff : count cs = .ok n ↔ IsCount cs n := by
  have hzero : 0 < wordLimit := by decide
  constructor
  · intro h
    unfold count at h
    split at h
    · cases h
    · cases h
    · next digits hne =>
      obtain ⟨hdigit, hvalue, hlt⟩ := (countFrom_eq_ok_iff hzero).mp h
      exact .signed ⟨fun hnil => hne (hnil ▸ rfl), hdigit, hvalue⟩ hlt
    · next hnil hplus hsign =>
      obtain ⟨hdigit, hvalue, hlt⟩ := (countFrom_eq_ok_iff hzero).mp h
      exact .unsigned ⟨hnil, hdigit, hvalue⟩ hlt
  · intro h
    cases h with
    | unsigned hd hlt =>
      have hread := (countFrom_eq_ok_iff hzero).mpr ⟨hd.digit, hd.value, hlt⟩
      unfold count
      split
      · exact absurd rfl hd.nonempty
      · exact absurd rfl hd.head?_ne
      · exact absurd rfl hd.head?_ne
      · exact hread
    | @signed digits n hd hlt =>
      have hread := (countFrom_eq_ok_iff hzero).mpr ⟨hd.digit, hd.value, hlt⟩
      obtain ⟨c, rest, rfl⟩ := List.exists_cons_of_ne_nil hd.nonempty
      exact hread

end FeaturePlan.Text
