import FeaturePlan.Text.Ranges

/-! Blank characters, trimming, and the runs of characters between blanks. A character is blank
exactly when it has the Unicode property White_Space. -/

namespace FeaturePlan.Text

/-- The property White_Space. -/
def blankRanges : List (Nat × Nat) :=
  [(0x9, 0xD), (0x20, 0x20), (0x85, 0x85), (0xA0, 0xA0), (0x1680, 0x1680), (0x2000, 0x200A),
    (0x2028, 0x2029), (0x202F, 0x202F), (0x205F, 0x205F), (0x3000, 0x3000)]

def isBlank (c : Char) : Bool :=
  inRanges blankRanges c

def trimStart (cs : List Char) : List Char :=
  cs.dropWhile isBlank

def trimEnd (cs : List Char) : List Char :=
  (cs.reverse.dropWhile isBlank).reverse

def trim (cs : List Char) : List Char :=
  trimEnd (trimStart cs)

def trimmed (s : String) : String :=
  .ofList (trim s.toList)

/-- The maximal runs of characters that are not blank, in order, each with the number of
characters before it when the text itself starts after `offset` characters. -/
def runs (offset : Nat) : List Char → List (Nat × List Char)
  | [] => []
  | c :: cs =>
    if isBlank c then runs (offset + 1) cs
    else
      match runs (offset + 1) cs with
      | [] => [(offset, [c])]
      | (start, run) :: rest =>
        if start = offset + 1 then (offset, c :: run) :: rest
        else (offset, [c]) :: (start, run) :: rest

def after? : (lead text : List Char) → Option (List Char)
  | [], text => some text
  | _ :: _, [] => none
  | k :: ks, c :: cs => if k = c then after? ks cs else none

theorem after?_eq_some_iff {lead text rest : List Char} :
    after? lead text = some rest ↔ text = lead ++ rest := by
  induction lead generalizing text with
  | nil => simp [after?, eq_comm]
  | cons k ks ih =>
    cases text with
    | nil => simp [after?]
    | cons c cs =>
      by_cases h : k = c
      · simp [after?, h, ih]
      · simp [after?, h, Ne.symm h]

end FeaturePlan.Text
