import FeaturePlan.Plan.Node
import FeaturePlan.Plan.Placeholder

/-! The scenarios of an outline: one for each row of its examples. -/

namespace FeaturePlan.Node

def rowsOf (examples : List ExamplesTable) : List (ExamplesTable × List String) :=
  examples.flatMap fun block => block.rows.map fun row => (block, row)

def concrete (row : ExamplesRow) (step : Node) : Node :=
  { step with
    name := row.substitute step.name
    data := step.data.map (.mapText row.substitute) }

/-- The tags of an outline that its scenarios share: all but its id. -/
def sharedTags (outline : Node) : List String :=
  outline.tags.filter fun tag => decide (outline.id ≠ some tag)

def scenarioFor (outline : Node) (t : Template Node) (number : Nat) (block : ExamplesTable)
    (values : List String) : Node where
  kind := .scenario
  id := outline.id.map fun id => id ++ "_" ++ toString number
  name := outline.name ++ " [" ++ toString number ++ "]"
  keyword := outline.keyword
  language := outline.language
  description := outline.description
  tags := withTags [] (outline.sharedTags ++ block.tags)
  properties := outline.properties
  source := outline.source
  background := false
  data := none
  children := t.background ++ t.steps.map (concrete ⟨block.header, values⟩)
  outline := none

def scenariosFrom (outline : Node) (t : Template Node) :
    Nat → List (ExamplesTable × List String) → List Node
  | _, [] => []
  | number, (block, values) :: rest =>
    outline.scenarioFor t number block values :: outline.scenariosFrom t (number + 1) rest

/-- The scenarios of an outline for given examples; all rows are numbered together, from 1. -/
def expand (outline : Node) (t : Template Node) (examples : List ExamplesTable) : List Node :=
  outline.scenariosFrom t 1 (rowsOf examples)

end FeaturePlan.Node
