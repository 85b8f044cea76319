import FeaturePlan.Document
import FeaturePlan.Grammar.State
import FeaturePlan.Text.Lines

/-! The tree of rules and lines that the events of a text describe, and the document that a tree
stands for. -/

namespace FeaturePlan

/-- A line with the comments that belong to it, or a rule with its parts in order. -/
inductive Tree where
  | leaf (token : Token) (comments : List Comment)
  | node (rule : Rule) (parts : List Tree)
deriving Repr, Inhabited

namespace Tree

def parts? (rule : Rule) (ts : List Tree) : Option (List Tree) :=
  ts.findSome? fun t =>
    match t with
    | node r parts => if r = rule then some parts else none
    | leaf _ _ => none

def title? (block : Block) (ts : List Tree) : Option (Token × Heading × List Comment) :=
  ts.findSome? fun t =>
    match t with
    | leaf token comments =>
      match token.content with
      | .title b keyword name =>
        if b = block then some (token, ⟨token.place, keyword, name, none⟩, comments) else none
      | _ => none
    | node _ _ => none

def freeLines (ts : List Tree) : List String :=
  ts.filterMap fun t =>
    match t with
    | leaf ⟨_, _, .other text⟩ _ => some text
    | _ => none

/-- Cells and tags keep the line of the token and take the column of their first character. -/
def spanPlace (token : Token) (span : Span) : Location :=
  ⟨token.place.line, span.column⟩

def rows (ts : List Tree) : List TableRow :=
  ts.filterMap fun t =>
    match t with
    | leaf token _ =>
      match token.content with
      | .row cells => some ⟨token.place, cells.map fun c => ⟨spanPlace token c, c.text⟩⟩
      | _ => none
    | node _ _ => none

/-- The first row that is not as wide as the row before all others. -/
def unevenRow? (ts : List Tree) : Option Location :=
  match rows ts with
  | [] => none
  | first :: rest =>
    (rest.find? fun row => decide (row.cells.length ≠ first.cells.length)).map (·.place)

def tags (ts : List Tree) : List Tag :=
  ((parts? .tags ts).getD []).flatMap fun t =>
    match t with
    | leaf token _ =>
      match token.content with
      | .tags spans => spans.map fun s => ⟨spanPlace token s, s.text⟩
      | _ => []
    | node _ _ => []

def withoutBlankEnd (ls : List String) : List String :=
  (ls.reverse.dropWhile fun l => (Text.trim l.toList).isEmpty).reverse

/-- The lines of a description, without the blank lines at its end. -/
def description? (ts : List Tree) : Option String :=
  (parts? .description ts).map fun parts => Text.joinLines (withoutBlankEnd (freeLines parts))

def dataTable? (ts : List Tree) : Option DataTable := do
  let parts ← parts? .dataTable ts
  let first ← (rows parts).head?
  return ⟨first.place, rows parts⟩

/-- The doc string of a step. An empty content type is none. -/
def docString? (ts : List Tree) : Option DocString := do
  let parts ← parts? .docString ts
  parts.findSome? fun t =>
    match t with
    | leaf token _ =>
      match token.content with
      | .separator delimiter contentType =>
        some ⟨token.place, delimiter, if contentType = "" then none else some contentType,
          Text.joinLines (freeLines parts)⟩
      | _ => none
    | node _ _ => none

def argument? (ts : List Tree) : Option StepArgument :=
  ((dataTable? ts).map .table).or ((docString? ts).map .docString)

def step? : Tree → Option Step
  | node .step parts =>
    parts.findSome? fun t =>
      match t with
      | leaf token comments =>
        match token.content with
        | .step keyword text =>
          some ⟨token.place, keyword, token.dialect.stepKind keyword, text, argument? parts,
            comments⟩
        | _ => none
      | node _ _ => none
  | _ => none

/-- Gives each step of a block the category that it has after the steps before it. -/
def resolveKinds : Option StepKind → List Step → List Step
  | _, [] => []
  | last, s :: rest =>
    let (kind, next) := StepKind.resolve last s.kind
    { s with kind } :: resolveKinds next rest

def steps (ts : List Tree) : List Step :=
  resolveKinds none (ts.filterMap step?)

def heading? (block : Block) (ts : List Tree) : Option (Heading × List Comment) :=
  (title? block ts).map fun (_, heading, comments) =>
    ({ heading with description := description? ts }, comments)

def examples? : Tree → Option Examples
  | node .examplesDefinition parts => do
    let inner ← parts? .examples parts
    let (heading, _) ← heading? .examples inner
    let table := rows ((parts? .examplesTable inner).getD [])
    return ⟨heading, tags parts, table.head?, table.tail⟩
  | _ => none

def child? : Tree → Option Child
  | node .background parts =>
    (heading? .background parts).map fun (heading, comments) =>
      .background ⟨heading, steps parts, comments⟩
  | node .scenarioDefinition parts =>
    match parts? .scenario parts with
    | some inner =>
      (heading? .scenario inner).map fun (heading, comments) =>
        .scenario ⟨heading, tags parts, steps inner, comments⟩
    | none => do
      let inner ← parts? .scenarioOutline parts
      let (heading, comments) ← heading? .outline inner
      return .outline ⟨heading, tags parts, steps inner, inner.filterMap examples?, comments⟩
  | _ => none

/-- A feature. Without a title line there is none. -/
def feature? (parts : List Tree) : Option Feature := do
  let header ← parts? .featureHeader parts
  let (token, heading, comments) ← title? .feature header
  return ⟨{ heading with description := description? header }, tags header, token.dialect.code,
    parts.filterMap child?, comments⟩

def document (ts : List Tree) : Document :=
  ⟨(parts? .document ts).bind fun parts => (parts? .feature parts).bind feature?⟩

end Tree

end FeaturePlan
