import FeaturePlan.Grammar.State
import FeaturePlan.ParseError
import FeaturePlan.Scanner

/-! The events of a text: the rules that its lines open and close, the lines themselves, and the
errors. A line that may not stand where it stands leaves everything as it was, so that reading
goes on with the next line. -/

namespace FeaturePlan

inductive Event where
  | opened (rule : Rule)
  | closed (rule : Rule)
  | token (t : Token)
  | error (e : ParseError)
deriving DecidableEq, Repr, Inhabited

namespace Action

/-- The events of an action on a token, and the rules that are open afterwards. The innermost
rule comes first. -/
def perform (t : Token) : List Rule → Action → List Event × List Rule
  | rules, enter rule => ([.opened rule], rule :: rules)
  | rules, leaveTo rule =>
    ((rules.takeWhile fun r => decide (r ≠ rule)).map .closed,
      rules.dropWhile fun r => decide (r ≠ rule))
  | [], leave => ([], [])
  | rule :: rules, leave => ([.closed rule], rules)
  | rules, shift => ([.token t], rules)

def performAll (t : Token) : List Rule → List Action → List Event × List Rule
  | rules, [] => ([], rules)
  | rules, action :: actions =>
    let (events, rules) := perform t rules action
    let (rest, rules) := performAll t rules actions
    (events ++ rest, rules)

end Action

structure Cursor where
  state : State
  scanner : Scanner
  rules : List Rule
deriving DecidableEq, Repr, Inhabited

/-- What happens when one item is taken: its events, and the cursor behind it. -/
structure Stride where
  events : List Event
  cursor : Cursor
deriving DecidableEq, Repr, Inhabited

namespace Cursor

/-- The cursor before the first line, with nothing open but the document. -/
def start (d : Dialect) : Cursor :=
  ⟨.start, .start d, [.document]⟩

/-- An item of none of the expected classes. The end of the text closes whatever is open. -/
def reject (c : Cursor) : Item → Stride
  | .line l => ⟨[.error (.unexpectedLine l.start c.state.expected l.visible)], c⟩
  | .eof place =>
    ⟨.error (.unexpectedEnd place c.state.expected) :: c.rules.map .closed,
      { c with state := .done, rules := [] }⟩

/-- Takes one item. The items ahead matter only to tags below an examples block. -/
def consume (c : Cursor) (item : Item) (ahead : List Item) : Stride :=
  match c.scanner.classify item c.state.expected with
  | .unknownLanguage code place => ⟨[.error (.unknownLanguage code place)], c⟩
  | .refused => c.reject item
  | .token t scanner =>
    let examplesAhead := t.kind = .tags && c.state.block? = some .examples &&
      scanner.examplesFollow ahead
    match c.state.next examplesAhead t.kind with
    | none => { c with scanner }.reject item
    | some (actions, state) =>
      let (events, rules) := Action.performAll t c.rules actions
      ⟨events, ⟨state, scanner, rules⟩⟩

def strides : Cursor → List Item → List Stride
  | _, [] => []
  | c, item :: ahead =>
    let stride := c.consume item ahead
    stride :: stride.cursor.strides ahead

end Cursor

def stridesOf (d : Dialect) (text : String) : List Stride :=
  (Cursor.start d).strides (Item.ofText text)

def eventsOf (d : Dialect) (text : String) : List Event :=
  .opened .document :: (stridesOf d text).flatMap Stride.events

end FeaturePlan
