/-! A table by number, of which most places stay empty. -/

namespace FeaturePlan.Pattern

/-- The value for zero, and the tables for the halves of the even and the odd numbers above. -/
inductive Slots (α : Type) where
  | empty
  | node (zero : Option α) (even odd : Slots α)
deriving Inhabited

namespace Slots

def find? {α : Type} : Slots α → Nat → Option α
  | empty, _ => none
  | node zero even odd, n =>
    if n = 0 then zero
    else if n % 2 = 0 then even.find? (n / 2)
    else odd.find? (n / 2)

def put {α : Type} (value : α) : (bits : Nat) → Nat → Slots α → Slots α
  | 0, _, _ => node (some value) empty empty
  | bits + 1, n, slots =>
    let (zero, even, odd) := match slots with
      | empty => (none, empty, empty)
      | node zero even odd => (zero, even, odd)
    if n = 0 then node (some value) even odd
    else if n % 2 = 0 then node zero (put value bits (n / 2) even) odd
    else node zero even (put value bits (n / 2) odd)

end Slots

end FeaturePlan.Pattern
