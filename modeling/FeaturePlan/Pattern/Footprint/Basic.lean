/-! The room that the automaton of a pattern takes. Every state takes the same room, and what leads
from it to others may take some more. -/

namespace FeaturePlan.Pattern

/-- How many states have been made, and the bytes that lead from them to others. -/
structure Footprint where
  states : Nat
  extra : Nat
deriving DecidableEq, Repr, Inhabited

namespace Footprint

def zero : Footprint :=
  ⟨0, 0⟩

def bytes (f : Footprint) : Nat :=
  32 * f.states + f.extra

/-- The bytes that an automaton may take: ten mebibytes. -/
def maxBytes : Nat := 10485760

def add (states extra : Nat) (f : Footprint) : Option Footprint :=
  let f : Footprint := ⟨f.states + states, f.extra + extra⟩
  if f.bytes ≤ maxBytes then some f else none

def plus (f g : Footprint) : Footprint :=
  ⟨f.states + g.states, f.extra + g.extra⟩

def iterate (step : Footprint → Option Footprint) : Nat → Footprint → Option Footprint
  | 0, f => some f
  | count + 1, f => (step f).bind (iterate step count)

end Footprint

inductive Direction where
  | forward | backward
deriving DecidableEq, Repr, Inhabited

end FeaturePlan.Pattern
