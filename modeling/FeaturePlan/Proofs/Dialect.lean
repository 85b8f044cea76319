import FeaturePlan.Proofs.Text.Lines
import FeaturePlan.Scanner

/-! # Keywords of the known dialects

What makes it possible to tell lines apart by the keywords that begin them: no keyword begins with
a sign that begins other lines, title keywords have a colon behind them and none inside, and
neither a title nor a step keyword can be taken for the other. -/

namespace FeaturePlan

/-! ## Order of the keywords -/

namespace Dialect

theorem mem_placeByLength {k keyword : String} {ks : List String} :
    k ∈ placeByLength keyword ks ↔ k = keyword ∨ k ∈ ks := by
  fun_induction placeByLength keyword ks with
  | case1 => simp
  | case2 l ks h => simp
  | case3 l ks h ih => simp [ih, or_left_comm]

theorem placeByLength_sorted {keyword : String} {ks : List String}
    (h : ks.Pairwise fun k l => l.length ≤ k.length) :
    (placeByLength keyword ks).Pairwise fun k l => l.length ≤ k.length := by
  fun_induction placeByLength keyword ks with
  | case1 => exact List.pairwise_singleton _ _
  | case2 k ks hk =>
      refine List.pairwise_cons.mpr ⟨?_, h⟩
      intro l hl
      rcases List.mem_cons.mp hl with rfl | hl
      · exact hk
      · exact Nat.le_trans (List.rel_of_pairwise_cons h hl) hk
  | case3 k ks hk ih =>
      refine List.pairwise_cons.mpr ⟨?_, ih h.tail⟩
      intro l hl
      rcases mem_placeByLength.mp hl with rfl | hl
      · omega
      · exact List.rel_of_pairwise_cons h hl

theorem longestFirst_sorted (ks : List String) :
    (longestFirst ks).Pairwise fun k l => l.length ≤ k.length := by
  induction ks with
  | nil => exact List.Pairwise.nil
  | cons k ks ih => exact placeByLength_sorted ih

end Dialect

/-! ## Keywords that can be told apart -/

/-- Decides a statement about every block. -/
instance Block.decidableForall (p : Block → Prop) [∀ b, Decidable (p b)] : Decidable (∀ b, p b) :=
  decidable_of_iff (p .feature ∧ p .background ∧ p .scenario ∧ p .outline ∧ p .examples) <| by
    constructor
    · rintro ⟨h₁, h₂, h₃, h₄, h₅⟩ b
      cases b <;> assumption
    · exact fun h => ⟨h _, h _, h _, h _, h _⟩

namespace Keyword

/-- The character begins no line but those that a keyword begins. -/
def isPlainChar (c : Char) : Bool :=
  !Text.isBlank c && c ≠ '#' && c ≠ '@' && c ≠ '|' && c ≠ '"' && c ≠ '\x60'

/-- The keyword has nothing in common with the signs that begin lines of other classes, and can
stand on a line. -/
structure IsPlain (k : List Char) : Prop where
  head : k.head?.any isPlainChar = true
  isLine : Text.IsLine k

instance (k : List Char) : Decidable (IsPlain k) :=
  decidable_of_iff (k.head?.any isPlainChar = true ∧ Text.IsLine k)
    ⟨fun h => ⟨h.1, h.2⟩, fun h => ⟨h.head, h.isLine⟩⟩

variable {k : List Char}

theorem IsPlain.exists_cons (h : IsPlain k) : ∃ c rest, k = c :: rest ∧ isPlainChar c = true := by
  cases k with
  | nil => simpa using h.head
  | cons c rest => exact ⟨c, rest, rfl, h.head⟩

theorem IsPlain.ne_nil (h : IsPlain k) : k ≠ [] := by
  rintro rfl
  simpa using h.head

end Keyword

namespace Dialect

def titles (d : Dialect) (b : Block) : List String :=
  (Scanner.start d).titles b

/-- Lines in the dialect can be told apart by their keywords. -/
structure Sound (d : Dialect) : Prop where
  titles_plain : ∀ b, ∀ k ∈ d.titles b, Keyword.IsPlain k.toList
  steps_plain : ∀ k ∈ d.steps, Keyword.IsPlain k.toList
  titles_colon : ∀ b, ∀ k ∈ d.titles b, ':' ∉ k.toList
  titles_apart : ∀ b c, ∀ k ∈ d.titles b, k ∈ d.titles c → b = c
  titles_steps : ∀ b, ∀ k ∈ d.titles b, ∀ l ∈ d.steps,
    ¬k.toList ++ [':'] <+: l.toList ∧ ¬l.toList <+: k.toList ++ [':']
  steps_sorted : d.steps.Pairwise fun k l => l.length ≤ k.length
  language : Line.language? ⟨1, ("# language: " ++ d.code).toList⟩ = some d.code
  code_isLine : Text.IsLine d.code.toList

theorem sound_of_mem_known {d : Dialect} (h : d ∈ known) : d.Sound where
  titles_plain :=
    have hall : ∀ e ∈ known, ∀ b, ∀ k ∈ e.titles b, Keyword.IsPlain k.toList := by
      decide +kernel
    hall d h
  steps_plain :=
    have hall : ∀ e ∈ known, ∀ k ∈ e.steps, Keyword.IsPlain k.toList := by
      decide +kernel
    hall d h
  titles_colon :=
    have hall : ∀ e ∈ known, ∀ b, ∀ k ∈ e.titles b, ':' ∉ k.toList := by
      decide +kernel
    hall d h
  titles_apart :=
    have hall : ∀ e ∈ known, ∀ b c, ∀ k ∈ e.titles b, k ∈ e.titles c → b = c := by
      decide +kernel
    hall d h
  titles_steps :=
    have hall : ∀ e ∈ known, ∀ b, ∀ k ∈ e.titles b, ∀ l ∈ e.steps,
        ¬k.toList ++ [':'] <+: l.toList ∧ ¬l.toList <+: k.toList ++ [':'] := by
      decide +kernel
    hall d h
  steps_sorted := by
    obtain ⟨k, -, rfl⟩ := List.mem_map.mp h
    exact longestFirst_sorted _
  language :=
    have hall : ∀ e ∈ known,
        Line.language? ⟨1, ("# language: " ++ e.code).toList⟩ = some e.code := by
      decide +kernel
    hall d h
  code_isLine :=
    have hall : ∀ e ∈ known, Text.IsLine e.code.toList := by decide +kernel
    hall d h

/-- A code leads to a dialect of that code whose keywords can be told apart. -/
theorem sound_of_find? {code : String} {d : Dialect} (h : find? code = some d) :
    d.Sound ∧ d.code = code := by
  refine ⟨sound_of_mem_known (List.mem_of_find?_eq_some h), ?_⟩
  simpa using List.find?_some h

end Dialect

end FeaturePlan
