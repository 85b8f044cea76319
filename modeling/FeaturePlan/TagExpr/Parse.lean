import FeaturePlan.TagExpr
import FeaturePlan.TagExpr.Lexeme

/-! Reading tag expressions: `not` binds tighter than `and`, `and` tighter than `or`, and both
binary operators group to the left. One pass over the symbols keeps, for each parenthesis that is
open, the operands that still wait for what is inside. -/

namespace FeaturePlan.TagExpr

/-- The operands to the left of the next one: the left operand of an `or`, that of an `and`
inside it, and the negations directly before. -/
structure Level where
  disjunct : Option TagExpr
  conjunct : Option TagExpr
  negations : Nat
deriving DecidableEq, Repr, Inhabited

namespace Level

def empty : Level :=
  ⟨none, none, 0⟩

def negate : Nat → TagExpr → TagExpr
  | 0, e => e
  | n + 1, e => .not (negate n e)

/-- An operand together with its negations and the operands of its `and`. -/
def conjoin (l : Level) (e : TagExpr) : TagExpr :=
  match l.conjunct with
  | none => negate l.negations e
  | some left => .and left (negate l.negations e)

def complete (l : Level) (e : TagExpr) : TagExpr :=
  match l.disjunct with
  | none => l.conjoin e
  | some left => .or left (l.conjoin e)

def extend (l : Level) (e : TagExpr) : Operator → Level
  | .and => ⟨l.disjunct, some (l.conjoin e), 0⟩
  | .or => ⟨some (l.complete e), none, 0⟩

end Level

/-- A level inside a parenthesis that starts at a byte, with the levels around it. -/
structure Nesting where
  level : Level
  outer : List (Nat × Level)
deriving DecidableEq, Repr, Inhabited

/-- The place in the grammar between two symbols: before an operand, possibly directly after a
binary operator, or after one. -/
inductive Place where
  | before (op : Option Operator)
  | after (operand : TagExpr)
deriving DecidableEq, Repr, Inhabited

/-- Takes the symbols one by one; `ending` is what follows the last of them. -/
def parseFrom (ending : Except Error Nat) :
    Nesting → Place → List Lexeme → Except Error TagExpr
  | _, .before op, [] => do
    let offset ← ending
    match op with
    | some op => .error ⟨offset, .noOperandAfter op⟩
    | none => .error ⟨offset, .noOperand⟩
  | n, .after e, [] => do
    let _ ← ending
    match n.outer with
    | [] => .ok (n.level.complete e)
    | (opening, _) :: _ => .error ⟨opening, .unclosed⟩
  | n, .before op, ⟨offset, symbol⟩ :: rest =>
    match symbol with
    | .tag name => parseFrom ending n (.after (.tag name)) rest
    | .not =>
      parseFrom ending { n with level.negations := n.level.negations + 1 } (.before none) rest
    | .opening =>
      parseFrom ending ⟨.empty, (offset, n.level) :: n.outer⟩ (.before none) rest
    | .operator _ | .closing =>
      match op with
      | some op => .error ⟨offset, .noOperandAfter op⟩
      | none => .error ⟨offset, .notAnOperand symbol⟩
  | n, .after e, ⟨offset, symbol⟩ :: rest =>
    match symbol, n.outer with
    | .operator op, _ =>
      parseFrom ending { n with level := n.level.extend e op } (.before (some op)) rest
    | .closing, (_, level) :: outer =>
      parseFrom ending ⟨level, outer⟩ (.after (n.level.complete e)) rest
    | _, (opening, _) :: _ => .error ⟨opening, .unclosed⟩
    | _, [] => .error ⟨offset, .extra symbol⟩

def parse (text : String) : Except Error TagExpr :=
  let s := scan 0 text.toList
  parseFrom s.ending ⟨.empty, []⟩ (.before none) s.lexemes

end FeaturePlan.TagExpr
