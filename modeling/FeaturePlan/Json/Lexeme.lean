import FeaturePlan.Json

/-! The symbols of a JSON text, found in one pass over its characters. -/

namespace FeaturePlan.Json

inductive Lexeme where
  | openArray | closeArray | openObject | closeObject | comma | colon
  | null
  | bool (b : Bool)
  | string (s : String)
deriving DecidableEq, Repr, Inhabited

/-- Where in a lexeme the text stands. The characters of a string that have been read are kept in
reverse. -/
inductive Lexing where
  | between
  /-- In a word of which some letters are still to come. -/
  | word (rest : List Char) (l : Lexeme)
  | string (read : List Char)
  /-- Behind a backslash. -/
  | escape (read : List Char)
  /-- In a code of hexadecimal digits of which some are still to come. -/
  | code (read : List Char) (value missing : Nat)
deriving DecidableEq, Repr, Inhabited

def isSpace (c : Char) : Bool :=
  c == ' ' || c == '\n' || c == '\r' || c == '\t'

def mark? : Char → Option Lexeme
  | '[' => some .openArray
  | ']' => some .closeArray
  | '\x7b' => some .openObject
  | '\x7d' => some .closeObject
  | ',' => some .comma
  | ':' => some .colon
  | _ => none

def escaped? : Char → Option Char
  | '"' => some '"'
  | '\\' => some '\\'
  | '/' => some '/'
  | 'b' => some '\x08'
  | 'f' => some '\x0c'
  | 'n' => some '\n'
  | 'r' => some '\r'
  | 't' => some '\t'
  | _ => none

def hexDigit? (c : Char) : Option Nat :=
  if '0' ≤ c ∧ c ≤ '9' then some (c.toNat - 48)
  else if 'a' ≤ c ∧ c ≤ 'f' then some (c.toNat - 87)
  else if 'A' ≤ c ∧ c ≤ 'F' then some (c.toNat - 55)
  else none

namespace Lexing

def begin? (c : Char) : Option (List Lexeme × Lexing) :=
  if isSpace c then some ([], between)
  else
    match c with
    | '"' => some ([], string [])
    | 'n' => some ([], word ['u', 'l', 'l'] .null)
    | 't' => some ([], word ['r', 'u', 'e'] (.bool true))
    | 'f' => some ([], word ['a', 'l', 's', 'e'] (.bool false))
    | _ => (mark? c).map fun l => ([l], between)

/-- Reads one character. Control characters must be escaped in strings, and a code must be that of
a character by itself: half of a surrogate pair is refused. -/
def step? : Lexing → Char → Option (List Lexeme × Lexing)
  | between, c => begin? c
  | word [] _, _ => none
  | word [k] l, c => if c = k then some ([l], between) else none
  | word (k :: ks) l, c => if c = k then some ([], word ks l) else none
  | string read, c =>
    if c = '"' then some ([.string (.ofList read.reverse)], between)
    else if c = '\\' then some ([], escape read)
    else if c.toNat < 32 then none
    else some ([], string (c :: read))
  | escape read, c =>
    if c = 'u' then some ([], code read 0 3)
    else (escaped? c).map fun d => ([], string (d :: read))
  | code read value missing, c => do
    let digit ← hexDigit? c
    let value := 16 * value + digit
    match missing with
    | missing + 1 => return ([], code read value missing)
    | 0 => if value.isValidChar then return ([], string (.ofNat value :: read)) else none

end Lexing

/-- The lexemes of the rest of a text. The text may not end inside a lexeme. -/
def lexemesFrom? : Lexing → List Char → Option (List Lexeme)
  | .between, [] => some []
  | _, [] => none
  | l, c :: cs => do
    let (found, l) ← l.step? c
    let rest ← lexemesFrom? l cs
    return found ++ rest

end FeaturePlan.Json
