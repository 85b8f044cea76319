import FeaturePlan.Delimiter
import FeaturePlan.Location
import FeaturePlan.StepKind

/-! Feature documents. Every part keeps the place at which it stands in the source text. -/

namespace FeaturePlan

/-- A tag, with its at sign. -/
structure Tag where
  place : Location
  name : String
deriving DecidableEq, Repr, Inhabited

/-- A comment: the whole line as written. -/
structure Comment where
  place : Location
  text : String
deriving DecidableEq, Repr, Inhabited

structure TableCell where
  place : Location
  value : String
deriving DecidableEq, Repr, Inhabited

structure TableRow where
  place : Location
  cells : List TableCell
deriving DecidableEq, Repr, Inhabited

def TableRow.values (r : TableRow) : List String :=
  r.cells.map (·.value)

/-- A table below a step; it stands where its first row stands. -/
structure DataTable where
  place : Location
  rows : List TableRow
deriving DecidableEq, Repr, Inhabited

/-- Free text below a step; it stands where its first delimiter stands. -/
structure DocString where
  place : Location
  delimiter : Delimiter
  contentType : Option String
  content : String
deriving DecidableEq, Repr, Inhabited

inductive StepArgument where
  | table (t : DataTable)
  | docString (d : DocString)
deriving DecidableEq, Repr, Inhabited

/-- A step. The keyword keeps the blank at its end. -/
structure Step where
  place : Location
  keyword : String
  kind : StepKind
  text : String
  argument : Option StepArgument
  comments : List Comment
deriving DecidableEq, Repr, Inhabited

structure Heading where
  place : Location
  keyword : String
  name : String
  description : Option String
deriving DecidableEq, Repr, Inhabited

structure Background extends Heading where
  steps : List Step
  comments : List Comment
deriving DecidableEq, Repr, Inhabited

structure Scenario extends Heading where
  tags : List Tag
  steps : List Step
  comments : List Comment
deriving DecidableEq, Repr, Inhabited

/-- A block of examples; its header is the first row of its table, if it has one. -/
structure Examples extends Heading where
  tags : List Tag
  header : Option TableRow
  body : List TableRow
deriving DecidableEq, Repr, Inhabited

structure Outline extends Heading where
  tags : List Tag
  steps : List Step
  examples : List Examples
  comments : List Comment
deriving DecidableEq, Repr, Inhabited

inductive Child where
  | background (b : Background)
  | scenario (s : Scenario)
  | outline (o : Outline)
deriving DecidableEq, Repr, Inhabited

structure Feature extends Heading where
  tags : List Tag
  language : String
  children : List Child
  comments : List Comment
deriving DecidableEq, Repr, Inhabited

/-- The background of a feature: the first, should there be several. -/
def Feature.background? (f : Feature) : Option Background :=
  f.children.findSome? fun child =>
    match child with
    | .background b => some b
    | _ => none

/-- A document without a feature holds at most comments. -/
structure Document where
  feature : Option Feature
deriving DecidableEq, Repr, Inhabited

end FeaturePlan
