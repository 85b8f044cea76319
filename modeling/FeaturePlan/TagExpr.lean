/-! Boolean expressions over tags. Tag names are without their at sign. -/

namespace FeaturePlan

inductive TagExpr where
  | tag (name : String)
  | not (operand : TagExpr)
  | and (left right : TagExpr)
  | or (left right : TagExpr)
deriving DecidableEq, Repr, Inhabited

namespace TagExpr

/-- The expression is true of a collection of tags, in which order and repeats do not matter. -/
def holds (tags : List String) : TagExpr → Bool
  | tag name => tags.contains name
  | not e => !e.holds tags
  | and e f => e.holds tags && f.holds tags
  | or e f => e.holds tags || f.holds tags

end TagExpr

end FeaturePlan
