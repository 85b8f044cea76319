import FeaturePlan.Plan.Node

/-! Plan nodes whose sources are changed while everything else stays. -/

namespace FeaturePlan

def Label.relocate (f : Location → Location) (l : Label) : Label :=
  { l with source := l.source.map fun s => { s with place := f s.place } }

namespace Node

mutual

/-- A node with the place of every source changed, in outline templates as well. -/
def relocate (f : Location → Location) : Node → Node
  | ⟨label, children, outline⟩ =>
    ⟨label.relocate f, relocateAll f children, relocateOutline f outline⟩

def relocateAll (f : Location → Location) : List Node → List Node
  | [] => []
  | n :: ns => relocate f n :: relocateAll f ns

def relocateOutline (f : Location → Location) : Option (Template Node) → Option (Template Node)
  | none => none
  | some ⟨steps, examples, background⟩ =>
    some ⟨relocateAll f steps, examples, relocateAll f background⟩

end

end Node

end FeaturePlan
