import FeaturePlan.Text.Blank

/-! Replacing the occurrences of one text inside another. -/

namespace FeaturePlan.Text

/-- Replaces the occurrences of `target` from left to right, after leaving out the first `skip`
characters. An occurrence starts where the one before it has ended. -/
def replaceFrom (target replacement : List Char) : Nat → List Char → List Char
  | _, [] => []
  | skip + 1, _ :: cs => replaceFrom target replacement skip cs
  | 0, c :: cs =>
    if (after? target (c :: cs)).isSome then
      replacement ++ replaceFrom target replacement (target.length - 1) cs
    else c :: replaceFrom target replacement 0 cs

/-- Replaces every occurrence of a text that is not empty, from left to right. -/
def replace (target replacement text : List Char) : List Char :=
  replaceFrom target replacement 0 text

end FeaturePlan.Text
