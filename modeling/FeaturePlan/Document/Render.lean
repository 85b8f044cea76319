import FeaturePlan.Document
import FeaturePlan.Table.Cell

/-! Documents written as text. No line is indented, tags have a line each, and the first line names
the language, so that the text can be read in whatever dialect one starts from. -/

namespace FeaturePlan

def textLines (text : String) : List (List Char) :=
  text.toList.splitOn '\n'

def Comment.lines (comments : List Comment) : List (List Char) :=
  comments.map fun c => c.text.toList

def Tag.lines (tags : List Tag) : List (List Char) :=
  tags.map fun t => t.name.toList

/-- A row: a bar, and each cell between blanks with a bar behind it. -/
def TableRow.line (r : TableRow) : List Char :=
  '|' :: r.cells.flatMap fun c => ' ' :: Cell.encode c.value.toList ++ [' ', '|']

def DocString.lines (d : DocString) : List (List Char) :=
  (d.delimiter.chars ++ (d.contentType.getD "").toList) ::
    (textLines d.content).map d.delimiter.escape ++ [d.delimiter.chars]

def StepArgument.lines : StepArgument → List (List Char)
  | table t => t.rows.map TableRow.line
  | docString d => d.lines

def Step.lines (s : Step) : List (List Char) :=
  Comment.lines s.comments ++ (s.keyword ++ s.text).toList ::
    s.argument.toList.flatMap StepArgument.lines

def Heading.lines (h : Heading) : List (List Char) :=
  (h.keyword ++ ": " ++ h.name).toList :: h.description.toList.flatMap textLines

def Examples.lines (e : Examples) : List (List Char) :=
  Tag.lines e.tags ++ e.toHeading.lines ++ (e.header.toList ++ e.body).map TableRow.line

def Child.lines : Child → List (List Char)
  | background b => Comment.lines b.comments ++ b.toHeading.lines ++ b.steps.flatMap Step.lines
  | scenario s =>
    Comment.lines s.comments ++ Tag.lines s.tags ++ s.toHeading.lines ++ s.steps.flatMap Step.lines
  | outline o =>
    Comment.lines o.comments ++ Tag.lines o.tags ++ o.toHeading.lines ++
      o.steps.flatMap Step.lines ++ o.examples.flatMap Examples.lines

def Feature.lines (f : Feature) : List (List Char) :=
  ("# language: " ++ f.language).toList ::
    Comment.lines f.comments ++ Tag.lines f.tags ++ f.toHeading.lines ++
      f.children.flatMap Child.lines

namespace Document

def lines (d : Document) : List (List Char) :=
  d.feature.toList.flatMap Feature.lines

/-- The text of a document. Every line ends in a line feed. -/
def render (d : Document) : String :=
  .ofList (d.lines.flatMap fun line => line ++ ['\n'])

end Document

end FeaturePlan
