import FeaturePlan.Config
import FeaturePlan.ParseError
import FeaturePlan.TagExpr.Lexeme
import FeaturePlan.Text.Quoted

/-! Reasons for which there is no plan. -/

namespace FeaturePlan

/-- A node as messages show it: where it is written and what it is called. -/
structure NodeRef where
  locator : String
  name : String
deriving DecidableEq, Repr, Inhabited

inductive RedefinitionError where
  /-- Two nodes with one tag have one id. -/
  | duplicateId (id tag : String) (second first : NodeRef)
  /-- No implementation has the id of a definition. -/
  | missingImplementation (id : String) (definition : NodeRef)
  /-- No implementing outline has the id of a defining outline. -/
  | missingOutline (id : String) (definition : NodeRef)
  /-- A step map has more entries than the definition has steps. -/
  | badStepMap (locator stepMap : String)
  /-- There is nothing that the steps of an implementation could be attached to. -/
  | noSteps (definition : NodeRef)
deriving DecidableEq, Repr, Inhabited

inductive Failure (ε : Type) where
  | error (e : ε)
  | panic
deriving DecidableEq, Repr, Inhabited

inductive PlanError where
  | parse (resource : String) (e : ParseError)
  | redefinition (e : RedefinitionError)
  /-- More than one tag of an element is an id. -/
  | ambiguousId (name locator : String) (tags : List String)
  | badIdPattern (pattern : String)
  | badTagFilter (expression : String) (e : TagExpr.Error)
  | config (e : ConfigError)
deriving DecidableEq, Repr, Inhabited

namespace RedefinitionError

def message : RedefinitionError → String
  | duplicateId id tag second first =>
    "more than one " ++ tag ++ " node using the id '" ++ id ++ "'\n\t<" ++ second.locator ++
      ">::'" ++ second.name ++ "'\n\t<" ++ first.locator ++ ">::'" ++ first.name ++ "'"
  | missingImplementation id definition =>
    "problem in " ++ definition.locator ++ " '" ++ definition.name ++
      "'\n\tNo implementation scenario with id '" ++ id ++ "'"
  | missingOutline id definition =>
    "cannot redefine scenario outline <" ++ definition.locator ++ ">::'" ++ definition.name ++
      "'\n\tNo implementation scenario outline with id '" ++ id ++ "'"
  | badStepMap locator stepMap => "bad definition of step map in " ++ locator ++ " : " ++ stepMap
  | noSteps definition =>
    "definition scenario <" ++ definition.locator ++ ">::'" ++ definition.name ++
      "' has no steps to receive implementation steps"

end RedefinitionError

namespace PlanError

def message : PlanError → String
  | parse resource e => resource ++ ": " ++ e.message
  | redefinition e => e.message
  | ambiguousId name locator tags =>
    "more than one id tag found in element " ++ name ++ " (" ++ locator ++ "): " ++
      Text.quotedList tags
  | badIdPattern pattern => "invalid id tag pattern '" ++ pattern ++ "'"
  | badTagFilter expression e => "invalid tag filter '" ++ expression ++ "': " ++ e.message
  | config e => e.message

end PlanError

end FeaturePlan
