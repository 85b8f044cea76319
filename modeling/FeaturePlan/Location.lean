/-! Places in a source text. -/

namespace FeaturePlan

/-- A line and a column, both counted from 1; columns count characters. -/
structure Location where
  line : Nat
  column : Nat
deriving DecidableEq, Repr, Inhabited

def Location.text (l : Location) : String :=
  toString l.line ++ ":" ++ toString l.column

end FeaturePlan
