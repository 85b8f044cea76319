import FeaturePlan.Delimiter
import FeaturePlan.Proofs.Text.Blank

/-! # Lines of doc strings

A line of a doc string is written with its delimiters escaped. Reading takes the escapes away again
and never mistakes such a line for the end of the doc string. -/

namespace FeaturePlan

/-! ## Replacing -/

namespace Text

variable {target replacement : List Char}

theorem replaceFrom_eq_drop (skip : Nat) (cs : List Char) :
    replaceFrom target replacement skip cs = replace target replacement (cs.drop skip) := by
  induction skip generalizing cs with
  | zero => rfl
  | succ skip ih =>
      cases cs with
      | nil => simp [replaceFrom, replace]
      | cons c cs => simpa [replaceFrom] using ih cs

theorem replace_append (ht : target ≠ []) (cs : List Char) :
    replace target replacement (target ++ cs) = replacement ++ replace target replacement cs := by
  obtain ⟨c, ts, rfl⟩ := List.exists_cons_of_ne_nil ht
  have hs : (after? (c :: ts) (c :: (ts ++ cs))).isSome := by
    rw [after?_eq_some_iff.mpr (by simp : c :: (ts ++ cs) = (c :: ts) ++ cs)]
    rfl
  rw [List.cons_append, replace, replaceFrom, if_pos hs, replaceFrom_eq_drop]
  simp

theorem replace_cons {c : Char} {cs : List Char} (h : ¬target <+: c :: cs) :
    replace target replacement (c :: cs) = c :: replace target replacement cs := by
  have hs : ¬(after? target (c :: cs)).isSome := by
    rw [Option.isSome_iff_exists]
    rintro ⟨rest, hr⟩
    exact h ⟨rest, (after?_eq_some_iff.mp hr).symm⟩
  rw [replace, replaceFrom, if_neg hs, replace]

theorem isSome_after?_iff {cs : List Char} : (after? target cs).isSome ↔ target <+: cs := by
  rw [Option.isSome_iff_exists]
  exact exists_congr fun rest => after?_eq_some_iff.trans eq_comm

end Text

namespace Delimiter

variable (d : Delimiter)

theorem mark_ne_backslash : d.mark ≠ '\\' := by
  cases d <;> decide

theorem isBlank_mark : Text.isBlank d.mark = false := by
  cases d <;> decide

theorem escape_append (cs : List Char) : d.escape (d.chars ++ cs) = d.escapedChars ++ d.escape cs :=
  Text.replace_append (by simp [chars]) cs

theorem unescape_append (cs : List Char) :
    d.unescape (d.escapedChars ++ cs) = d.chars ++ d.unescape cs :=
  Text.replace_append (by simp [escapedChars]) cs

variable {d}

theorem escape_cons {c : Char} {cs : List Char} (h : ¬d.chars <+: c :: cs) :
    d.escape (c :: cs) = c :: d.escape cs :=
  Text.replace_cons h

theorem unescape_cons {c : Char} {cs : List Char} (h : ¬d.escapedChars <+: c :: cs) :
    d.unescape (c :: cs) = c :: d.unescape cs :=
  Text.replace_cons h

/-- Either a line starts with the delimiter, or its first character is not touched. -/
theorem escape_cases (cs : List Char) :
    (∃ rest, cs = d.chars ++ rest ∧ d.escape cs = d.escapedChars ++ d.escape rest) ∨
      (¬d.chars <+: cs ∧ (cs = [] ∧ d.escape cs = [] ∨
        ∃ c rest, cs = c :: rest ∧ d.escape cs = c :: d.escape rest)) := by
  by_cases h : d.chars <+: cs
  · obtain ⟨rest, rfl⟩ := h
    exact .inl ⟨rest, rfl, d.escape_append rest⟩
  · refine .inr ⟨h, ?_⟩
    cases cs with
    | nil => exact .inl ⟨rfl, rfl⟩
    | cons c rest => exact .inr ⟨c, rest, rfl, escape_cons h⟩

/-- Escaping goes through a line by whole delimiters and by characters that start none. -/
theorem escape_induction {motive : List Char → Prop} (nil : motive [])
    (delimiter : ∀ rest, motive rest → motive (d.chars ++ rest))
    (other : ∀ c rest, ¬d.chars <+: c :: rest → motive rest → motive (c :: rest))
    (cs : List Char) : motive cs := by
  induction hn : cs.length using Nat.strongRecOn generalizing cs with
  | ind n ih =>
      rcases escape_cases (d := d) cs with ⟨rest, rfl, -⟩ | ⟨hp, ⟨rfl, -⟩ | ⟨c, rest, rfl, -⟩⟩
      · have hl : rest.length < n := by
          simp only [chars, List.length_append, List.length_cons] at hn
          omega
        exact delimiter rest (ih rest.length hl rest rfl)
      · exact nil
      · exact other c rest hp (ih rest.length (by simp [← hn]) rest rfl)

/-! ## Lines that do not end the doc string -/

/-- A mark at the start of an escaped line was there before. -/
theorem of_escape_mark {cs more : List Char} (h : d.escape cs = d.mark :: more) :
    ∃ rest, cs = d.mark :: rest ∧ ¬d.chars <+: cs ∧ d.escape rest = more := by
  rcases escape_cases (d := d) cs with ⟨rest, -, he⟩ | ⟨hn, ⟨-, he⟩ | ⟨c, rest, rfl, he⟩⟩
  · rw [h] at he
    exact absurd (List.cons.inj he).1 d.mark_ne_backslash
  · simp [h] at he
  · rw [h] at he
    obtain ⟨rfl, rfl⟩ := List.cons.inj he
    exact ⟨rest, rfl, hn, rfl⟩

theorem not_prefix_escape (cs : List Char) : ¬d.chars <+: d.escape cs := by
  rintro ⟨more, hm⟩
  obtain ⟨c₁, rfl, hn, h₁⟩ := of_escape_mark hm.symm
  obtain ⟨c₂, rfl, -, h₂⟩ := of_escape_mark h₁
  obtain ⟨c₃, rfl, -, -⟩ := of_escape_mark h₂
  exact hn ⟨c₃, rfl⟩

theorem trimStart_escape (cs : List Char) :
    Text.trimStart (d.escape cs) = d.escape (Text.trimStart cs) := by
  induction cs with
  | nil => rfl
  | cons c cs ih =>
      by_cases hc : Text.isBlank c
      · have hn : ¬d.chars <+: c :: cs := by
          rintro ⟨more, hm⟩
          rw [← (List.cons.inj hm).1, isBlank_mark] at hc
          simp at hc
        have hl : Text.trimStart (c :: d.escape cs) = Text.trimStart (d.escape cs) := by
          simp [Text.trimStart, hc]
        have hr : Text.trimStart (c :: cs) = Text.trimStart cs := by
          simp [Text.trimStart, hc]
        rw [escape_cons hn, hl, ih, hr]
      · have hr : Text.trimStart (c :: cs) = c :: cs := by
          simp [Text.trimStart, hc]
        rw [hr]
        rcases escape_cases (d := d) (c :: cs) with
          ⟨rest, -, he⟩ | ⟨-, ⟨hnil, -⟩ | ⟨e, rest, he, h⟩⟩
        · have hb : Text.isBlank '\\' = false := by decide
          simp [he, escapedChars, Text.trimStart, hb]
        · simp at hnil
        · rw [h, ← (List.cons.inj he).1]
          simp [Text.trimStart, hc]

/-- However far it is indented, an escaped line is not the end of its doc string. -/
theorem not_prefix_trimStart_escape (cs : List Char) :
    ¬d.chars <+: Text.trimStart (d.escape cs) := by
  rw [trimStart_escape]
  exact not_prefix_escape _

/-! ## Lines that are read back -/

/-- A backslash behind a mark that is not touched was there before: it does not belong to a
delimiter, which would have begun with the mark. -/
theorem of_escape_backslash {cs more : List Char} (h : d.escape cs = '\\' :: more)
    (hn : ¬d.chars <+: d.mark :: cs) : ∃ rest, cs = '\\' :: rest ∧ d.escape rest = more := by
  rcases escape_cases (d := d) cs with ⟨rest, rfl, -⟩ | ⟨-, ⟨-, he⟩ | ⟨c, rest, rfl, he⟩⟩
  · exact absurd ⟨d.mark :: rest, rfl⟩ hn
  · simp [h] at he
  · rw [h] at he
    obtain ⟨rfl, rfl⟩ := List.cons.inj he
    exact ⟨rest, rfl, rfl⟩

/-- An escaped delimiter that starts with an untouched backslash was there before. -/
theorem prefix_of_prefix_escape {c : Char} {cs : List Char}
    (h : d.escapedChars <+: c :: d.escape cs) : d.escapedChars <+: c :: cs := by
  obtain ⟨more, hm⟩ := h
  obtain ⟨rfl, h₀⟩ := List.cons.inj hm
  obtain ⟨c₁, rfl, hn₁, h₁⟩ := of_escape_mark h₀.symm
  obtain ⟨c₂, rfl, h₂⟩ := of_escape_backslash h₁ hn₁
  obtain ⟨c₃, rfl, hn₃, h₃⟩ := of_escape_mark h₂
  obtain ⟨c₄, rfl, h₄⟩ := of_escape_backslash h₃ hn₃
  obtain ⟨c₅, rfl, -, -⟩ := of_escape_mark h₄
  exact ⟨c₅, rfl⟩

/-- A line without an escaped delimiter is read back as it was. -/
theorem unescape_escape (cs : List Char) (h : ¬d.escapedChars <:+: cs) :
    d.unescape (d.escape cs) = cs := by
  induction cs using escape_induction (d := d) with
  | nil => rfl
  | delimiter rest ih =>
      have hrest : ¬d.escapedChars <:+: rest := fun hi =>
        h (hi.trans (List.suffix_append d.chars rest).isInfix)
      rw [escape_append, unescape_append, ih hrest]
  | other c rest hn ih =>
      have hrest : ¬d.escapedChars <:+: rest := fun hi =>
        h (hi.trans (List.suffix_cons c rest).isInfix)
      have hp : ¬d.escapedChars <+: c :: d.escape rest := fun hp =>
        h (prefix_of_prefix_escape hp).isInfix
      rw [escape_cons hn, unescape_cons hp, ih hrest]

theorem getLast?_escape (cs : List Char) : (d.escape cs).getLast? = cs.getLast? := by
  induction cs using escape_induction (d := d) with
  | nil => rfl
  | delimiter rest ih =>
      rw [escape_append, List.getLast?_append, List.getLast?_append, ih]
      rfl
  | other c rest hn ih => rw [escape_cons hn, List.getLast?_cons, List.getLast?_cons, ih]

theorem mem_escape {c : Char} (cs : List Char) (h : c ∈ d.escape cs) :
    c ∈ cs ∨ c ∈ d.escapedChars := by
  induction cs using escape_induction (d := d) with
  | nil => exact .inl h
  | delimiter rest ih =>
      rw [escape_append, List.mem_append] at h
      rcases h with h | h
      · exact .inr h
      · exact (ih h).imp_left (List.mem_append_right d.chars)
  | other e rest hn ih =>
      rw [escape_cons hn, List.mem_cons] at h
      rcases h with rfl | h
      · exact .inl List.mem_cons_self
      · exact (ih h).imp_left (List.mem_cons_of_mem e)

theorem isLine_escape {cs : List Char} (h : Text.IsLine cs) : Text.IsLine (d.escape cs) := by
  constructor
  · intro hm
    rcases mem_escape cs hm with hc | he
    · exact h.noFeed hc
    · cases d <;> simp [escapedChars, mark] at he
  · rw [getLast?_escape]
    exact h.noReturn

end Delimiter

end FeaturePlan
