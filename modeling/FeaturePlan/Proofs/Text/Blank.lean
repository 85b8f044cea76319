import FeaturePlan.Proofs.Text.Lines
import FeaturePlan.Text.Blank
import Mathlib.Data.List.TakeWhile

/-! # Text without blanks around it

Trimming takes away nothing from a text whose first and last characters can be seen, and nothing
but blanks from any other. -/

namespace FeaturePlan.Text

def startsVisibly (cs : List Char) : Prop :=
  ∃ c rest, cs = c :: rest ∧ isBlank c = false

/-- Nothing is left of the text when the blanks around it are taken away. -/
def isInvisible (cs : List Char) : Prop :=
  trim cs = []

theorem takeWhile_append_trimStart (cs : List Char) : cs.takeWhile isBlank ++ trimStart cs = cs :=
  List.takeWhile_append_dropWhile

theorem trimStart_of_startsVisibly {cs : List Char} (h : startsVisibly cs) : trimStart cs = cs := by
  obtain ⟨c, rest, rfl, hc⟩ := h
  simp [trimStart, hc]

theorem startsVisibly.append {cs : List Char} (h : startsVisibly cs) (more : List Char) :
    startsVisibly (cs ++ more) := by
  obtain ⟨c, rest, rfl, hc⟩ := h
  exact ⟨c, rest ++ more, rfl, hc⟩

/-- What is left after the blanks in front starts with a character that can be seen. -/
theorem startsVisibly_trimStart {cs : List Char} (h : trimStart cs ≠ []) :
    startsVisibly (trimStart cs) := by
  obtain ⟨c, rest, hr⟩ := List.exists_cons_of_ne_nil h
  refine ⟨c, rest, hr, ?_⟩
  have hc := List.head?_dropWhile_not isBlank cs
  rw [show cs.dropWhile isBlank = c :: rest from hr] at hc
  simpa using hc

theorem trimStart_append {before cs : List Char} (hbefore : ∀ c ∈ before, isBlank c = true)
    (hcs : startsVisibly cs) : trimStart (before ++ cs) = cs := by
  rw [trimStart, List.dropWhile_append_of_pos hbefore]
  exact trimStart_of_startsVisibly hcs

/-- Blanks in front of what can be seen end where it begins. -/
theorem blanks_append_inj {before before' cs cs' : List Char}
    (hbefore : ∀ c ∈ before, isBlank c = true) (hbefore' : ∀ c ∈ before', isBlank c = true)
    (hcs : startsVisibly cs) (hcs' : startsVisibly cs') (h : before ++ cs = before' ++ cs') :
    before = before' ∧ cs = cs' := by
  have hsame : cs = cs' := by
    rw [← trimStart_append hbefore hcs, h, trimStart_append hbefore' hcs']
  subst hsame
  exact ⟨List.append_cancel_right h, rfl⟩

/-! ## Trimming -/

theorem trim_cons_of_blank {c : Char} (hc : isBlank c = true) (cs : List Char) :
    trim (c :: cs) = trim cs := by
  simp [trim, trimStart, hc]

theorem trimEnd_of_getLast? {cs : List Char} (h : ∀ c ∈ cs.getLast?, isBlank c = false) :
    trimEnd cs = cs := by
  rcases List.eq_nil_or_concat cs with rfl | ⟨cs, c, rfl⟩
  · rfl
  · have hc : isBlank c = false := h c (by simp)
    simp [trimEnd, hc]

theorem getLast?_trim {cs : List Char} : ∀ c ∈ (trim cs).getLast?, isBlank c = false := by
  intro c hc
  have hd := List.head?_dropWhile_not isBlank (trimStart cs).reverse
  simp only [trim, trimEnd, List.getLast?_reverse] at hc
  rw [Option.mem_def.mp hc] at hd
  simpa using hd

theorem trim_isPrefix_trimStart (cs : List Char) : trim cs <+: trimStart cs := by
  rw [trim, trimEnd, ← List.reverse_suffix, List.reverse_reverse]
  exact List.dropWhile_suffix _

theorem exists_trim_append (cs : List Char) : ∃ behind, (∀ c ∈ behind, isBlank c = true) ∧
    cs = cs.takeWhile isBlank ++ trim cs ++ behind := by
  have hends : trim cs ++ ((trimStart cs).reverse.takeWhile isBlank).reverse = trimStart cs := by
    rw [trim, trimEnd, ← List.reverse_append, List.takeWhile_append_dropWhile, List.reverse_reverse]
  refine ⟨((trimStart cs).reverse.takeWhile isBlank).reverse,
    fun c hc => List.mem_takeWhile_imp (List.mem_reverse.mp hc), ?_⟩
  rw [List.append_assoc, hends, takeWhile_append_trimStart]

theorem head?_trim {cs : List Char} : ∀ c ∈ (trim cs).head?, isBlank c = false := by
  intro c hc
  by_cases hn : trimStart cs = []
  · simp [trim, hn, trimEnd] at hc
  · obtain ⟨d, rest, hr, hd⟩ := startsVisibly_trimStart hn
    obtain ⟨behind, hbehind⟩ := trim_isPrefix_trimStart cs
    have hhead : (trimStart cs).head? = some c := by
      rw [← hbehind, List.head?_append, hc]
      rfl
    rw [hr] at hhead
    exact Option.some.inj hhead ▸ hd

theorem trim_eq_self_iff {cs : List Char} : trim cs = cs ↔
    (∀ c ∈ cs.head?, isBlank c = false) ∧ ∀ c ∈ cs.getLast?, isBlank c = false := by
  constructor
  · intro h
    rw [← h]
    exact ⟨head?_trim, getLast?_trim⟩
  · rintro ⟨hf, hl⟩
    have hstart : trimStart cs = cs := by
      cases cs with
      | nil => rfl
      | cons c rest => exact trimStart_of_startsVisibly ⟨c, rest, rfl, hf c rfl⟩
    rw [trim, hstart, trimEnd_of_getLast? hl]

/-- Blanks in front of a trimmed text and behind it are taken away again. -/
theorem trim_pad {before cs behind : List Char} (hbefore : ∀ c ∈ before, isBlank c = true)
    (hbehind : ∀ c ∈ behind, isBlank c = true) (hcs : trim cs = cs) :
    trim (before ++ cs ++ behind) = cs := by
  have hend : trimEnd (cs ++ behind) = trimEnd cs := by
    rw [trimEnd, trimEnd, List.reverse_append,
      List.dropWhile_append_of_pos fun c hc => hbehind c (List.mem_reverse.mp hc)]
  cases cs with
  | nil =>
      rw [List.append_nil, trim, trimStart, List.dropWhile_append_of_pos hbefore,
        List.dropWhile_eq_nil_iff.mpr hbehind]
      rfl
  | cons c cs =>
      obtain ⟨hfirst, hlast⟩ := trim_eq_self_iff.mp hcs
      have hstarts : startsVisibly (c :: cs) := ⟨c, cs, rfl, hfirst c rfl⟩
      rw [List.append_assoc, trim, trimStart_append hbefore (hstarts.append behind), hend,
        trimEnd_of_getLast? hlast]

/-- The blanks in front of a text decide whether anything of it can be seen. -/
theorem isInvisible_iff {cs : List Char} : isInvisible cs ↔ trimStart cs = [] := by
  constructor
  · intro h
    by_cases hn : trimStart cs = []
    · exact hn
    obtain ⟨c, rest, hr, hc⟩ := startsVisibly_trimStart hn
    have hall : ∀ d ∈ c :: rest, isBlank d = true := by
      rw [isInvisible, trim, trimEnd, hr, List.reverse_eq_nil_iff, List.dropWhile_eq_nil_iff] at h
      intro d hd
      exact h d (by simpa [or_comm] using hd)
    simp [hc] at hall
  · intro h
    rw [isInvisible, trim, h]
    rfl

theorem isLine_of_trim {cs : List Char} (ht : trim cs = cs) (hn : '\n' ∉ cs) : IsLine cs := by
  refine ⟨hn, fun hl => ?_⟩
  rw [← ht] at hl
  exact absurd (getLast?_trim '\r' hl) (by decide)

end FeaturePlan.Text
