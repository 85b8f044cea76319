import FeaturePlan.Pattern.Compose
import FeaturePlan.Pattern.Flags

/-! The smallest parts of patterns: single characters and what a backslash makes of them. -/

namespace FeaturePlan.Pattern

inductive Atom where
  | literal (c : Char)
  | set (s : CharSet)
  | anchor (a : Anchor)
deriving DecidableEq, Repr, Inhabited

/-- Marks that a backslash turns into literals: everything in ASCII but letters, digits and the
angle brackets. -/
def isEscapable (c : Char) : Bool :=
  c.toNat < 128 && !Text.inRanges NamedClass.alnum.ranges c && c != '<' && c != '>'

def isHexDigit (c : Char) : Bool :=
  Text.inRanges NamedClass.xdigit.ranges c

def charOfHex? (digits : List Char) : Option Char :=
  if digits = [] then none
  else
    let value := digits.foldl (fun n c =>
      16 * n + (if c.isDigit then c.toNat - 48 else c.toLower.toNat - 87)) 0
    if value.isValidChar then some (.ofNat value) else none

def hexEscape? (f : Flags) (width : Nat) (cs : List Char) : Option (Atom × List Char) :=
  match f.skip cs with
  | '\x7b' :: cs =>
    match f.takeWhile isHexDigit cs.length false cs with
    | (digits, '\x7d' :: rest) => (charOfHex? digits).map fun c => (.literal c, rest)
    | _ => none
  | cs =>
    let (digits, rest) := f.takeWhile isHexDigit width false cs
    if digits.length = width then (charOfHex? digits).map fun c => (.literal c, rest) else none

/-- The words for kinds of word edges are made of letters and hyphens. -/
def isEdgeLetter (c : Char) : Bool :=
  Text.inRanges NamedClass.alpha.ranges c || c == '-'

def edgeNamed? (word : List Char) : Option Anchor :=
  if word = "start".toList then some .wordStart
  else if word = "end".toList then some .wordEnd
  else if word = "start-half".toList then some .noWordBefore
  else if word = "end-half".toList then some .noWordAfter
  else none

/-- A word edge may be limited to one kind by a word in braces. Braces that do not start with a
letter or a hyphen are left to be read as a repetition. -/
def edgeEscape? (f : Flags) : List Char → Option (Atom × List Char)
  | '\x7b' :: cs =>
    match f.skip cs, f.takeWhile isEdgeLetter cs.length false cs with
    | [], _ => none
    | _, ([], _) => some (.anchor .wordEdge, '\x7b' :: cs)
    | _, (word, '\x7d' :: rest) => (edgeNamed? word).map fun a => (.anchor a, rest)
    | _, _ => none
  | cs => some (.anchor .wordEdge, cs)

/-- What a backslash and the characters after it stand for, with the rest. Digits would refer back
to a group, and the letters for properties of characters are left out. -/
def escape? (f : Flags) : List Char → Option (Atom × List Char)
  | [] => none
  | c :: cs =>
    match c with
    | 'd' => some (.set .digit, cs)
    | 'D' => some (.set (.compl .digit), cs)
    | 's' => some (.set .blank, cs)
    | 'S' => some (.set (.compl .blank), cs)
    | 'w' => some (.set .word, cs)
    | 'W' => some (.set (.compl .word), cs)
    | 'a' => some (.literal '\x07', cs)
    | 'f' => some (.literal '\x0c', cs)
    | 't' => some (.literal '\t', cs)
    | 'n' => some (.literal '\n', cs)
    | 'r' => some (.literal '\r', cs)
    | 'v' => some (.literal '\x0b', cs)
    | 'A' => some (.anchor .textStart, cs)
    | 'z' => some (.anchor .textEnd, cs)
    | 'b' => edgeEscape? f cs
    | 'B' => some (.anchor .noWordEdge, cs)
    | '<' => some (.anchor .wordStart, cs)
    | '>' => some (.anchor .wordEnd, cs)
    | 'x' => hexEscape? f 2 cs
    | 'u' => hexEscape? f 4 cs
    | 'U' => hexEscape? f 8 cs
    | c => if isEscapable c then some (.literal c, cs) else none

def Atom.pattern (f : Flags) : Atom → Pattern
  | literal c => if f.anyCase then .ofSet (.ofList (Text.caseVariants c)) else .text [c]
  | set s => .ofSet s
  | anchor a => .anchor a

def dot (f : Flags) : CharSet :=
  if f.dotAll then .all
  else if f.returns then .compl (.ofList ['\n', '\r'])
  else .compl (.char '\n')

end FeaturePlan.Pattern
