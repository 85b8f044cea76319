import FeaturePlan.Text.Replace

/-! The marks between which a doc string stands. -/

namespace FeaturePlan

/-- Three double quotes or three backticks. -/
inductive Delimiter where
  | quotes | backticks
deriving DecidableEq, Repr, Inhabited

namespace Delimiter

def mark : Delimiter → Char
  | quotes => '"'
  | backticks => '\x60'

def chars (d : Delimiter) : List Char :=
  [d.mark, d.mark, d.mark]

/-- The delimiter as it is written inside the text it delimits: a backslash before each mark. -/
def escapedChars (d : Delimiter) : List Char :=
  ['\\', d.mark, '\\', d.mark, '\\', d.mark]

def text (d : Delimiter) : String :=
  .ofList d.chars

def unescape (d : Delimiter) (line : List Char) : List Char :=
  Text.replace d.escapedChars d.chars line

def escape (d : Delimiter) (content : List Char) : List Char :=
  Text.replace d.chars d.escapedChars content

end Delimiter

end FeaturePlan
