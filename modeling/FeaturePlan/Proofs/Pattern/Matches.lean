import FeaturePlan.Pattern.Matches

/-! # What patterns match

Matches of a pattern by the matches of its parts. A repetition is made of rounds, and rounds that
match the empty text can be added and left out as the bounds of the repetition allow. -/

namespace FeaturePlan.Pattern

variable {text : List Char} {p q : Pattern} {i j k : Nat}

@[simp] theorem matches_empty_iff : Matches text .empty i j ↔ j = i := by
  constructor
  · rintro ⟨⟩
    rfl
  · rintro rfl
    exact .empty _

@[simp] theorem matches_text_iff {cs : List Char} :
    Matches text (.text cs) i j ↔ (text.drop i).take cs.length = cs ∧ j = i + cs.length := by
  constructor
  · rintro ⟨⟩
    exact ⟨by assumption, rfl⟩
  · rintro ⟨h, rfl⟩
    exact .text h

@[simp] theorem matches_set_iff {s : CharSet} :
    Matches text (.set s) i j ↔ (∃ c, text[i]? = some c ∧ s.contains c = true) ∧ j = i + 1 := by
  constructor
  · rintro ⟨⟩
    exact ⟨⟨_, by assumption, by assumption⟩, rfl⟩
  · rintro ⟨⟨c, hc, hs⟩, rfl⟩
    exact .set hc hs

@[simp] theorem matches_anchor_iff {a : Anchor} :
    Matches text (.anchor a) i j ↔ a.holds (.ofIndex text i) = true ∧ j = i := by
  constructor
  · rintro ⟨⟩
    exact ⟨by assumption, rfl⟩
  · rintro ⟨h, rfl⟩
    exact .anchor h

@[simp] theorem matches_group_iff {n : Nat} :
    Matches text (.group n p) i j ↔ Matches text p i j := by
  constructor
  · rintro ⟨⟩
    assumption
  · exact .group

theorem matches_seq_iff :
    Matches text (.seq p q) i k ↔ ∃ j, Matches text p i j ∧ Matches text q j k := by
  constructor
  · rintro ⟨⟩
    exact ⟨_, by assumption, by assumption⟩
  · rintro ⟨j, hp, hq⟩
    exact .seq hp hq

theorem matches_alt_iff :
    Matches text (.alt p q) i j ↔ Matches text p i j ∨ Matches text q i j := by
  constructor
  · rintro (⟨⟩ | ⟨⟩)
    · exact .inl (by assumption)
    · exact .inr (by assumption)
  · rintro (h | h)
    · exact .left h
    · exact .right h

theorem Matches.le (h : Matches text p i j) : i ≤ j := by
  induction h with
  | round _ _ ihp ih | limitedRound _ _ ihp ih | seq _ _ ihp ih => exact Nat.le_trans ihp ih
  | group _ ih | left _ ih | right _ ih => exact ih
  | _ => omega

theorem Matches.le_length (h : Matches text p i j) (hi : i ≤ text.length) : j ≤ text.length := by
  induction h with
  | text h =>
    have hlength := congrArg List.length h
    simp only [List.length_take, List.length_drop] at hlength
    omega
  | set hc _ =>
    have hlt := (List.getElem?_eq_some_iff.mp hc).1
    omega
  | round _ _ ihp ih | limitedRound _ _ ihp ih | seq _ _ ihp ih => exact ih (ihp hi)
  | group _ ih | left _ ih | right _ ih => exact ih hi
  | _ => exact hi

/-! ## Rounds -/

inductive Rounds (text : List Char) (p : Pattern) : Nat → Nat → Nat → Prop where
  | none (i : Nat) : Rounds text p 0 i i
  | more {n i j k : Nat} : Matches text p i j → Rounds text p n j k → Rounds text p (n + 1) i k

theorem matches_repeated_iff {least : Nat} {most : Option Nat} :
    Matches text (.repeated p least most) i j ↔
      ∃ n, least ≤ n ∧ (∀ m ∈ most, n ≤ m) ∧ Rounds text p n i j := by
  constructor
  · intro h
    generalize hq : Pattern.repeated p least most = q at h
    induction h generalizing least most with
    | done i =>
      obtain ⟨rfl, rfl, rfl⟩ := Pattern.repeated.inj hq
      exact ⟨0, Nat.le_refl 0, fun m _ => Nat.zero_le m, .none i⟩
    | round hp _ _ ih =>
      obtain ⟨rfl, rfl, rfl⟩ := Pattern.repeated.inj hq
      obtain ⟨n, hleast, -, hrounds⟩ := ih rfl
      exact ⟨n + 1, by omega, by simp, .more hp hrounds⟩
    | limitedRound hp _ _ ih =>
      obtain ⟨rfl, rfl, rfl⟩ := Pattern.repeated.inj hq
      obtain ⟨n, hleast, hmost, hrounds⟩ := ih rfl
      have hle := hmost _ rfl
      exact ⟨n + 1, by omega, by simpa using hle, .more hp hrounds⟩
    | _ => cases hq
  · rintro ⟨n, hleast, hmost, hrounds⟩
    induction hrounds generalizing least most with
    | none i =>
      obtain rfl : least = 0 := by omega
      exact .done i
    | more hp _ ih =>
      cases most with
      | none => exact .round hp (ih (by omega) (by simp))
      | some most =>
        have hle := hmost _ rfl
        obtain _ | most := most
        · omega
        · exact .limitedRound hp (ih (by omega) (by simpa using hle))

theorem Rounds.le {n : Nat} (h : Rounds text p n i j) : i ≤ j := by
  induction h with
  | none => exact Nat.le_refl _
  | more hp _ ih => exact Nat.le_trans hp.le ih

/-- Rounds that match the empty text can be put in front of others. -/
theorem Rounds.pad {n : Nat} (hp : Matches text p i i) (h : Rounds text p n i j) (more : Nat) :
    Rounds text p (more + n) i j := by
  induction more with
  | zero => simpa using h
  | succ more ih =>
    have hcount : more + 1 + n = more + n + 1 := by omega
    exact hcount ▸ .more hp ih

/-- The first round that matches some characters, and the empty ones in front of it. -/
theorem Rounds.exists_first {n : Nat} (h : Rounds text p n i k) (hlt : i < k) :
    ∃ before j after, n = before + 1 + after ∧ (before ≠ 0 → Matches text p i i) ∧ i < j ∧
      Matches text p i j ∧ Rounds text p after j k := by
  induction h with
  | none => omega
  | @more n i j k hp hrounds ih =>
    rcases Nat.lt_or_eq_of_le hp.le with hj | rfl
    · exact ⟨0, j, n, by omega, by simp, hj, hp, hrounds⟩
    · obtain ⟨before, j, after, rfl, -, hj, hfirst, hafter⟩ := ih hlt
      exact ⟨before + 1, j, after, by omega, fun _ => hp, hj, hfirst, hafter⟩

def IsOrdered : Pattern → Prop
  | .empty | .text _ | .set _ | .anchor _ => True
  | .group _ p => p.IsOrdered
  | .repeated p least most => (∀ m ∈ most, least ≤ m) ∧ p.IsOrdered
  | .seq p q | .alt p q => p.IsOrdered ∧ q.IsOrdered

end FeaturePlan.Pattern
