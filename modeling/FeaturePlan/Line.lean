import FeaturePlan.Location
import FeaturePlan.Table.Cell

/-! Single lines of a source text, and what can be read off a line without knowing what stands
above it: its indentation, its title, its tags, its cells and the language it may name. -/

namespace FeaturePlan

structure Span where
  column : Nat
  text : String
deriving DecidableEq, Repr, Inhabited

structure Line where
  number : Nat
  raw : List Char
deriving DecidableEq, Repr, Inhabited

namespace Line

/-- Number of blanks in front of the line's first visible character. -/
def indent (l : Line) : Nat :=
  (l.raw.takeWhile Text.isBlank).length

def body (l : Line) : List Char :=
  Text.trimStart l.raw

def margin (l : Line) : Location :=
  ⟨l.number, 1⟩

def start (l : Line) : Location :=
  ⟨l.number, l.indent + 1⟩

def isBlank (l : Line) : Bool :=
  l.body.isEmpty

def visible (l : Line) : String :=
  .ofList (Text.trimEnd l.body)

def titleAfter? (l : Line) (keyword : String) : Option String := do
  let rest ← Text.after? keyword.toList l.body
  let title ← Text.after? [':'] rest
  return .ofList (Text.trim title)

def textAfter? (l : Line) (keyword : String) : Option String := do
  let rest ← Text.after? keyword.toList l.body
  return .ofList (Text.trim rest)

/-- The line without its first blanks, of which at most `count` are left out. -/
def unindented (l : Line) (count : Nat) : List Char :=
  l.raw.drop (min l.indent count)

def isTag : List Char → Bool
  | '@' :: _ :: _ => true
  | _ => false

/-- The words up to the first that starts a comment, provided each of them is a tag. -/
def leadingTags : List (Nat × List Char) → Option (List (Nat × List Char))
  | [] => some []
  | (start, word) :: rest =>
    if word.head? = some '#' then some []
    else if isTag word then (leadingTags rest).map ((start, word) :: ·)
    else none

/-- The tags of a line that starts with an at sign and holds nothing but tags, save for a comment
at its end. -/
def tags? (l : Line) : Option (List Span) :=
  if l.body.head? = some '@' then
    (leadingTags (Text.runs 0 l.body)).map fun words =>
      words.map fun (start, word) => ⟨l.indent + start + 1, .ofList word⟩
  else none

def cells? (l : Line) : Option (List Span) :=
  (Cell.ofRow l.body).map fun cells =>
    cells.map fun (start, value) => ⟨l.indent + start + 1, .ofList value⟩

def isCodeChar (c : Char) : Bool :=
  ('a' ≤ c && c ≤ 'z') || ('A' ≤ c && c ≤ 'Z') || c == '-' || c == '_'

/-- The code that a line such as `# language: en` names. Blanks may stand around each part. -/
def language? (l : Line) : Option String := do
  let rest ← Text.after? ['#'] l.body
  let rest ← Text.after? "language".toList (Text.trimStart rest)
  let rest ← Text.after? [':'] (Text.trimStart rest)
  let code := Text.trim rest
  if code ≠ [] ∧ code.all isCodeChar then some (.ofList code) else none

end Line

end FeaturePlan
