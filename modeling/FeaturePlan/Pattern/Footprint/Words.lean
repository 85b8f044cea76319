import FeaturePlan.Pattern.Footprint.Basic

/-! Alternatives that are texts make a tree, in which those with a common start share the states
for it. The order of the alternatives is kept: where one of them ends, those after it make
branches of their own. -/

namespace FeaturePlan.Pattern.Footprint

def runsOfWords : List (List UInt8) → List (List (List UInt8))
  | [] => []
  | [] :: words => runsOfWords words
  | word :: [] => [[word]]
  | word :: [] :: words => [word] :: runsOfWords words
  | word :: words =>
    match runsOfWords words with
    | run :: runs => (word :: run) :: runs
    | [] => [[word]]

/-- The room for a tree of words. No word is longer than `depth`. A place where nothing but an end
is left takes no room. A run takes a state for all its first bytes, and the place one that chooses
between the runs and the ends of words. -/
def ofWords : (depth : Nat) → List (List UInt8) → Footprint
  | 0, _ => .zero
  | depth + 1, words =>
    let runs := runsOfWords words
    if runs = [] then .zero
    else
      let ends := (if words.head? = some [] then 1 else 0) +
        ((words.dropWhile List.isEmpty).filter List.isEmpty).length
      let parts := runs.map fun run =>
        let firsts := (run.filterMap List.head?).eraseDups
        let below := firsts.map fun b =>
          ofWords depth ((run.filter fun word => word.head? = some b).map List.tail)
        below.foldl plus ⟨1, if firsts.length = 1 then 0 else 8 * firsts.length⟩
      parts.foldl plus ⟨1, 4 * (runs.length + ends)⟩

end FeaturePlan.Pattern.Footprint
