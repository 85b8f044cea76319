import FeaturePlan.Text.Blank

/-! The symbols of tag expressions and the reasons for which a text is not one. Offsets count the
bytes of the UTF-8 encoding. -/

namespace FeaturePlan.TagExpr

inductive Operator where
  | and | or
deriving DecidableEq, Repr, Inhabited

def Operator.name : Operator → String
  | and => "and"
  | or => "or"

inductive Symbol where
  | tag (name : String)
  | operator (op : Operator)
  | not
  | opening
  | closing
deriving DecidableEq, Repr, Inhabited

def Symbol.shown : Symbol → String
  | tag name => "@" ++ name
  | operator op => "'" ++ op.name ++ "'"
  | not => "'not'"
  | opening => "'('"
  | closing => "')'"

inductive Fault where
  /-- An at sign without a name. -/
  | namelessTag
  /-- A word that is no operator. -/
  | unknownWord (word : String)
  /-- A character that starts no symbol. -/
  | unknownChar (c : Char)
  /-- A binary operator without a right operand. -/
  | noOperandAfter (op : Operator)
  /-- The end of the text where an operand must start. -/
  | noOperand
  /-- A symbol that starts no operand. -/
  | notAnOperand (s : Symbol)
  /-- A parenthesis that is not closed. -/
  | unclosed
  /-- A symbol after a whole expression. -/
  | extra (s : Symbol)
deriving DecidableEq, Repr, Inhabited

def Fault.message : Fault → String
  | namelessTag => "expected tag name after '@'"
  | unknownWord word => "unexpected identifier '" ++ word ++ "'"
  | unknownChar c => "unexpected character '" ++ c.toString ++ "'"
  | noOperandAfter op => "expected tag or '(' after '" ++ op.name ++ "'"
  | noOperand => "expected tag or '('"
  | notAnOperand s => "expected tag or '(' but found " ++ s.shown
  | unclosed => "missing ')'"
  | extra s => "unexpected token " ++ s.shown

structure Error where
  offset : Nat
  fault : Fault
deriving DecidableEq, Repr, Inhabited

def Error.message (e : Error) : String :=
  "invalid tag expression at byte " ++ toString e.offset ++ ": " ++ e.fault.message

structure Lexeme where
  offset : Nat
  symbol : Symbol
deriving DecidableEq, Repr, Inhabited

/-- The symbols of a text up to its end, or up to the first place that no symbol fits. -/
structure Scan where
  lexemes : List Lexeme
  ending : Except Error Nat
deriving Repr, Inhabited

def Scan.cons (l : Lexeme) (s : Scan) : Scan :=
  { s with lexemes := l :: s.lexemes }

def isTagChar (c : Char) : Bool :=
  !Text.isBlank c && c != '(' && c != ')'

def isLetter (c : Char) : Bool :=
  ('a' ≤ c && c ≤ 'z') || ('A' ≤ c && c ≤ 'Z')

/-- The symbol that a word stands for, in whatever case it is written. -/
def wordSymbol? (word : List Char) : Option Symbol :=
  let lower := word.map Char.toLower
  if lower = ['a', 'n', 'd'] then some (.operator .and)
  else if lower = ['o', 'r'] then some (.operator .or)
  else if lower = ['n', 'o', 't'] then some .not
  else none

def byteCount : List Char → Nat
  | [] => 0
  | c :: cs => c.utf8Size + byteCount cs

private theorem length_dropWhile_lt {p : Char → Bool} (c : Char) (cs : List Char) :
    (cs.dropWhile p).length < (c :: cs).length :=
  Nat.lt_succ_of_le (List.dropWhile_sublist p).length_le

/-- The symbols of a text that starts at a byte. Tag names and words extend as far as they can. -/
def scan (offset : Nat) (cs : List Char) : Scan :=
  match cs with
  | [] => ⟨[], .ok offset⟩
  | c :: rest =>
    if Text.isBlank c then scan (offset + c.utf8Size) rest
    else if c = '(' then (scan (offset + 1) rest).cons ⟨offset, .opening⟩
    else if c = ')' then (scan (offset + 1) rest).cons ⟨offset, .closing⟩
    else if c = '@' then
      let name := rest.takeWhile isTagChar
      if name = [] then ⟨[], .error ⟨offset + 1, .namelessTag⟩⟩
      else
        (scan (offset + 1 + byteCount name) (rest.dropWhile isTagChar)).cons
          ⟨offset, .tag (.ofList name)⟩
    else if isLetter c then
      let word := c :: rest.takeWhile isLetter
      match wordSymbol? word with
      | none => ⟨[], .error ⟨offset, .unknownWord (.ofList word)⟩⟩
      | some symbol =>
        (scan (offset + word.length) (rest.dropWhile isLetter)).cons ⟨offset, symbol⟩
    else ⟨[], .error ⟨offset, .unknownChar c⟩⟩
termination_by cs.length
decreasing_by
  · exact Nat.lt_succ_self _
  · exact Nat.lt_succ_self _
  · exact Nat.lt_succ_self _
  · exact length_dropWhile_lt c rest
  · exact length_dropWhile_lt c rest

end FeaturePlan.TagExpr
