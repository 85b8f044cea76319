import FeaturePlan.Delimiter
import FeaturePlan.Dialect
import FeaturePlan.Line

/-! Lines as the grammar sees them: classified, located, and reduced to what they say. -/

namespace FeaturePlan

inductive Block where
  | feature | background | scenario | outline | examples
deriving DecidableEq, Repr, Inhabited

/-- The classes of lines. The end of the text counts as a line of its own. -/
inductive TokenKind where
  | eof
  | empty
  | comment
  | tags
  | title (block : Block)
  | step
  | separator
  | row
  | language
  | other
deriving DecidableEq, Repr, Inhabited

namespace TokenKind

def name : TokenKind → String
  | eof => "#EOF"
  | empty => "#Empty"
  | comment => "#Comment"
  | tags => "#TagLine"
  | title .feature => "#FeatureLine"
  | title .background => "#BackgroundLine"
  | title .scenario => "#ScenarioLine"
  | title .outline => "#ScenarioOutlineLine"
  | title .examples => "#ExamplesLine"
  | step => "#StepLine"
  | separator => "#DocStringSeparator"
  | row => "#TableRow"
  | language => "#Language"
  | other => "#Other"

/-- The order in which the classes are tried on a line. Blank lines come first, a line that names
a language is more than a comment, and `other` takes whatever is left. -/
def inOrder : List TokenKind :=
  [eof, empty, language, comment, tags, title .feature, title .background, title .scenario,
    title .outline, title .examples, step, separator, row, other]

end TokenKind

/-- What a classified line says. The text of `other` is the line itself, and the content type of
a `separator` that ends a doc string is empty. -/
inductive Content where
  | eof
  | empty
  | comment (text : String)
  | tags (tags : List Span)
  | title (block : Block) (keyword name : String)
  | step (keyword text : String)
  | separator (delimiter : Delimiter) (contentType : String)
  | row (cells : List Span)
  | language (code : String)
  | other (text : String)
deriving DecidableEq, Repr, Inhabited

namespace Content

def kind : Content → TokenKind
  | eof => .eof
  | empty => .empty
  | comment _ => .comment
  | tags _ => .tags
  | title block _ _ => .title block
  | step _ _ => .step
  | separator _ _ => .separator
  | row _ => .row
  | language _ => .language
  | other _ => .other

def keyword? : Content → Option String
  | title _ keyword _ | step keyword _ => some keyword
  | separator delimiter _ => some delimiter.text
  | _ => none

def text : Content → String
  | comment text | step _ text | other text => text
  | title _ _ name => name
  | separator _ contentType => contentType
  | language code => code
  | _ => ""

def items : Content → List Span
  | tags items | row items => items
  | _ => []

end Content

/-- A classified line: where it starts, in which dialect it was read, and what it says. -/
structure Token where
  place : Location
  dialect : Dialect
  content : Content
deriving DecidableEq, Repr, Inhabited

def Token.kind (t : Token) : TokenKind :=
  t.content.kind

end FeaturePlan
