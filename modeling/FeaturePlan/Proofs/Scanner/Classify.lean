import FeaturePlan.Grammar.State
import FeaturePlan.Scanner

/-! # Classes of lines

A line that is read as one of a class is a line of that class, and classification finds the first
class of a list that a line belongs to. -/

namespace FeaturePlan

namespace Scanner

variable {s s' : Scanner} {t : Token} {kind : TokenKind}

theorem keep_eq_token {place : Location} {content : Option Content}
    (h : s.keep place content = .token t s') :
    content = some t.content ∧ s' = s ∧ t = ⟨place, s.dialect, t.content⟩ := by
  cases content with
  | none => simp [keep] at h
  | some c =>
      simp only [keep, Reading.token.injEq] at h
      obtain ⟨rfl, rfl⟩ := h
      exact ⟨rfl, rfl, rfl⟩

theorem kind_of_readLine {l : Line} (h : s.readLine l kind = .token t s') : t.kind = kind := by
  cases kind with
  | eof => simp [readLine] at h
  | language =>
      simp only [readLine, readLanguage] at h
      split at h
      · simp at h
      · split at h
        · simp at h
        · obtain ⟨rfl, -⟩ := Reading.token.inj h
          rfl
  | separator =>
      simp only [readLine, readSeparator] at h
      split at h
      · split at h
        · obtain ⟨rfl, -⟩ := Reading.token.inj h
          rfl
        · simp at h
      · split at h
        · simp at h
        · obtain ⟨rfl, -⟩ := Reading.token.inj h
          rfl
  | title block =>
      obtain ⟨hc, -⟩ := keep_eq_token h
      obtain ⟨keyword, -, hk⟩ := List.exists_of_findSome?_eq_some hc
      obtain ⟨name, -, hn⟩ := Option.map_eq_some_iff.mp hk
      rw [Token.kind, ← hn]
      rfl
  | step =>
      obtain ⟨hc, -⟩ := keep_eq_token h
      obtain ⟨keyword, -, hk⟩ := List.exists_of_findSome?_eq_some hc
      obtain ⟨text, -, hn⟩ := Option.map_eq_some_iff.mp hk
      rw [Token.kind, ← hn]
      rfl
  | tags | row =>
      obtain ⟨hc, -⟩ := keep_eq_token h
      obtain ⟨spans, -, hn⟩ := Option.map_eq_some_iff.mp hc
      rw [Token.kind, ← hn]
      rfl
  | empty | comment =>
      obtain ⟨hc, -⟩ := keep_eq_token h
      split at hc
      · rw [Token.kind, ← Option.some.inj hc]
        rfl
      · simp at hc
  | other =>
      obtain ⟨rfl, -⟩ := Reading.token.inj h
      rfl

theorem kind_of_read {item : Item} (h : s.read kind item = .token t s') : t.kind = kind := by
  cases item with
  | line l => exact kind_of_readLine h
  | eof place =>
      obtain ⟨hc, -⟩ := keep_eq_token h
      split at hc
      · subst kind
        rw [Token.kind, ← Option.some.inj hc]
        rfl
      · simp at hc

theorem kind_eq_eof {place : Location} (h : s.read kind (.eof place) = .token t s') :
    kind = .eof := by
  obtain ⟨hc, -⟩ := keep_eq_token h
  split at hc
  · assumption
  · simp at hc

theorem classify_eq_token {item : Item} {kinds : List TokenKind}
    (h : s.classify item kinds = .token t s') :
    t.kind ∈ kinds ∧ s.read t.kind item = .token t s' := by
  induction kinds with
  | nil => simp [classify] at h
  | cons kind kinds ih =>
      simp only [classify] at h
      split at h
      · exact (ih h).imp_left (List.mem_cons_of_mem kind)
      · have hk := kind_of_read h
        exact ⟨hk ▸ List.mem_cons_self, hk ▸ h⟩

/-- Only a line that names a language can name an unknown one. -/
theorem readLine_ne_unknownLanguage {l : Line} (hk : kind ≠ .language) (code : String)
    (place : Location) : s.readLine l kind ≠ .unknownLanguage code place := by
  cases kind with
  | language => exact absurd rfl hk
  | separator =>
      simp only [readLine, readSeparator]
      split <;> split <;> simp
  | eof | other => simp [readLine, keep]
  | _ =>
      simp only [readLine, keep]
      split <;> simp

/-- Only a line that names an unknown language is of no class for that reason. -/
theorem classify_eq_unknownLanguage {item : Item} {kinds : List TokenKind} {code : String}
    {place : Location} (h : s.classify item kinds = .unknownLanguage code place) :
    ∃ l, item = .line l ∧ s.readLanguage l = .unknownLanguage code place := by
  induction kinds with
  | nil => simp [classify] at h
  | cons kind kinds ih =>
      simp only [classify] at h
      split at h
      · exact ih h
      · cases item with
        | eof place =>
            simp only [read, keep] at h
            split at h <;> simp at h
        | line l =>
            by_cases hk : kind = .language
            · subst hk
              exact ⟨l, rfl, h⟩
            · exact absurd h (readLine_ne_unknownLanguage hk code place)

end Scanner

theorem State.mem_expected {s : State} {kind : TokenKind} : kind ∈ s.expected ↔ s.accepts kind := by
  have hm : kind ∈ TokenKind.inOrder := by
    cases kind with
    | title block => cases block <;> decide
    | _ => decide
  simp [expected, hm]

end FeaturePlan
