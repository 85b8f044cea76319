import FeaturePlan.Pattern.CharSet

/-! Regular expressions over the characters of a text, and the places between these characters. This
is an engine for a part of what such expressions can be: classes of characters by their properties
and expressions over bytes are left out, and what asks for them is refused. -/

namespace FeaturePlan

structure Pattern.Place where
  before : Option Char
  after : Option Char
deriving DecidableEq, Repr, Inhabited

/-- Conditions on a place. Where `returns` is set, a carriage return ends a line as well, with the
line feed after it, if there is one. -/
inductive Pattern.Anchor where
  | textStart
  | textEnd
  | lineStart (returns : Bool)
  | lineEnd (returns : Bool)
  | wordEdge
  | noWordEdge
  | wordStart
  | wordEnd
  | noWordBefore
  | noWordAfter
deriving DecidableEq, Repr, Inhabited

inductive Pattern where
  | empty
  /-- Characters one after the other. -/
  | text (cs : List Char)
  /-- One character of a set. -/
  | set (s : Pattern.CharSet)
  | anchor (a : Pattern.Anchor)
  /-- A part that is counted among the groups whose matches can be told. -/
  | group (number : Nat) (p : Pattern)
  /-- At least `least` times in a row, and at most `most` times if there is a limit. -/
  | repeated (p : Pattern) (least : Nat) (most : Option Nat)
  | seq (p q : Pattern)
  | alt (p q : Pattern)
deriving DecidableEq, Repr, Inhabited

namespace Pattern

def Place.wordBefore (i : Place) : Bool :=
  i.before.any Text.isWordChar

def Place.wordAfter (i : Place) : Bool :=
  i.after.any Text.isWordChar

def Anchor.holds (i : Place) : Anchor → Bool
  | textStart => i.before = none
  | textEnd => i.after = none
  | lineStart returns =>
    i.before = none || i.before = some '\n' ||
      (returns && i.before = some '\r' && i.after ≠ some '\n')
  | lineEnd returns =>
    i.after = none || (returns && i.after = some '\r') ||
      (i.after = some '\n' && !(returns && i.before = some '\r'))
  | wordEdge => i.wordBefore != i.wordAfter
  | noWordEdge => i.wordBefore == i.wordAfter
  | wordStart => !i.wordBefore && i.wordAfter
  | wordEnd => i.wordBefore && !i.wordAfter
  | noWordBefore => !i.wordBefore
  | noWordAfter => !i.wordAfter

end Pattern

end FeaturePlan
