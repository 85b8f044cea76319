/-! Decimal numbers of 64 bits. -/

namespace FeaturePlan.Text

inductive CountFault where
  | empty | badDigit | tooLarge
deriving DecidableEq, Repr, Inhabited

def CountFault.message : CountFault → String
  | empty => "cannot parse integer from empty string"
  | badDigit => "invalid digit found in string"
  | tooLarge => "number too large to fit in target type"

/-- The first number that does not fit into 64 bits. -/
def wordLimit : Nat := 18446744073709551616

/-- Reads digits from left to right; the first that is none, or that makes the number too large,
decides the fault. -/
def countFrom (value : Nat) : List Char → Except CountFault Nat
  | [] => .ok value
  | c :: cs =>
    if c.isDigit then
      let next := 10 * value + (c.toNat - '0'.toNat)
      if next < wordLimit then countFrom next cs else .error .tooLarge
    else .error .badDigit

def count : List Char → Except CountFault Nat
  | [] => .error .empty
  | ['+'] => .error .badDigit
  | '+' :: cs => countFrom 0 cs
  | cs => countFrom 0 cs

end FeaturePlan.Text
