/-! Character classes given by ranges of code points. -/

namespace FeaturePlan.Text

def inRanges (ranges : List (Nat × Nat)) (c : Char) : Bool :=
  ranges.any fun (low, high) => low ≤ c.toNat && c.toNat ≤ high

end FeaturePlan.Text
