import FeaturePlan.Text.Blank
import FeaturePlan.Text.Count

/-! Step maps: how many steps of an implementation each step of its definition takes. A map is
written as numbers with hyphens between them. -/

namespace FeaturePlan.StepMap

def ones (steps : Nat) : List Nat :=
  List.replicate steps 1

def counts : List (List Char) → Except Text.CountFault (List Nat)
  | [] => .ok []
  | entry :: rest => do
    let n ← Text.count (Text.trim entry)
    let ns ← counts rest
    return n :: ns

def padded (steps : Nat) (runs : List Nat) : List Nat :=
  runs ++ List.replicate (steps - runs.length) 0

inductive Reading where
  /-- There are more numbers than steps. -/
  | tooLong
  /-- One of the entries is no number. -/
  | faulty (f : Text.CountFault)
  | runs (ns : List Nat)
deriving DecidableEq, Repr, Inhabited

/-- Reads a step map. Its length is checked before its entries; steps beyond its end take none. -/
def read (raw : String) (steps : Nat) : Reading :=
  let entries := raw.toList.splitOn '-'
  if steps < entries.length then .tooLong
  else
    match counts entries with
    | .ok ns => .runs (padded steps ns)
    | .error f => .faulty f

end FeaturePlan.StepMap
