import FeaturePlan.Document

/-! The comments of a document in the order of its text: those of a block before those of its steps.
Blocks of examples have none. -/

namespace FeaturePlan

def Child.allComments : Child → List Comment
  | background b => b.comments ++ b.steps.flatMap (·.comments)
  | scenario s => s.comments ++ s.steps.flatMap (·.comments)
  | outline o => o.comments ++ o.steps.flatMap (·.comments)

def Document.allComments (d : Document) : List Comment :=
  d.feature.toList.flatMap fun f => f.comments ++ f.children.flatMap Child.allComments

end FeaturePlan
