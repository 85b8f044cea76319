import FeaturePlan.StepKind

/-! Keyword tables and the dialects made from them. Where several keywords begin a line, the
longest must win, so a dialect holds each list with the longest keywords first. -/

namespace FeaturePlan

/-- The keywords of one language as its speakers list them. Step keywords end in the blank, or in
the apostrophe, that separates them from the step's text. -/
structure Keywords where
  code : String
  name : String
  feature : List String
  background : List String
  scenario : List String
  outline : List String
  examples : List String
  givens : List String
  whens : List String
  thens : List String
  ands : List String
  buts : List String
deriving DecidableEq, Repr, Inhabited

/-- The keywords of one language in the order in which they are tried. -/
structure Dialect where
  code : String
  name : String
  feature : List String
  background : List String
  scenario : List String
  outline : List String
  examples : List String
  givens : List String
  whens : List String
  thens : List String
  buts : List String
  steps : List String
deriving DecidableEq, Repr, Inhabited

namespace Dialect

/-- Puts a keyword in front of the first one that is no longer than it. -/
def placeByLength (keyword : String) : List String → List String
  | [] => [keyword]
  | k :: ks =>
    if k.length ≤ keyword.length then keyword :: k :: ks else k :: placeByLength keyword ks

/-- Longest first; keywords of one length keep their order. -/
def longestFirst : List String → List String
  | [] => []
  | k :: ks => placeByLength k (longestFirst ks)

/-- The keyword of steps written as a bulleted list, the same in every language. -/
def bullet : String := "* "

def ofKeywords (k : Keywords) : Dialect where
  code := k.code
  name := k.name
  feature := longestFirst k.feature
  background := longestFirst k.background
  scenario := longestFirst k.scenario
  outline := longestFirst k.outline
  examples := longestFirst k.examples
  givens := k.givens
  whens := k.whens
  thens := k.thens
  buts := k.buts
  steps := longestFirst (k.givens ++ k.whens ++ k.thens ++ k.ands ++ k.buts ++ [bullet]).eraseDups

/-- The category of a step keyword. A keyword of several lists takes the first of given, when,
then and but; bullets and keywords of none of these lists are conjunctions. -/
def stepKind (d : Dialect) (keyword : String) : StepKind :=
  if keyword ∈ d.givens then .given
  else if keyword ∈ d.whens then .when
  else if keyword ∈ d.thens then .then
  else if keyword ∈ d.buts then .but
  else .and

end Dialect

end FeaturePlan
