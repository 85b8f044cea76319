/-! Categories of steps. A conjunction stands for the category of the step it continues. -/

namespace FeaturePlan

/-- The category of a step, whatever the language it is written in. -/
inductive StepKind where
  | given | when | then | and | but
deriving DecidableEq, Repr, Inhabited

namespace StepKind

def name : StepKind → String
  | given => "Given"
  | when => "When"
  | .then => "Then"
  | and => "And"
  | but => "But"

def isConjunction : StepKind → Bool
  | and | but => true
  | _ => false

/-- The category a step takes after the last primary category of its block, and what that last
primary category is from then on. A conjunction at the start of a block counts as `given`. -/
def resolve (last : Option StepKind) (kind : StepKind) : StepKind × Option StepKind :=
  if kind.isConjunction then (last.getD given, last) else (kind, some kind)

def resolveAll : Option StepKind → List StepKind → List StepKind
  | _, [] => []
  | last, kind :: kinds =>
    let (resolved, next) := resolve last kind
    resolved :: resolveAll next kinds

end StepKind

end FeaturePlan
