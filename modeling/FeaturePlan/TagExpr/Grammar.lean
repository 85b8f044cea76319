import FeaturePlan.TagExpr
import FeaturePlan.TagExpr.Lexeme

/-! The grammar of tag expressions: how symbols are spelled, and which rows of symbols stand for
which expression. Neither relation refers to the functions that read expressions. -/

namespace FeaturePlan.TagExpr

/-- The text spells the symbols, with blanks between them. A tag name ends where no further
character can belong to it, and a word ends where no further letter follows. -/
inductive Spelled : List Symbol → List Char → Prop where
  | nil : Spelled [] []
  | blank {c : Char} {ss : List Symbol} {cs : List Char} : Text.isBlank c = true →
      Spelled ss cs → Spelled ss (c :: cs)
  | opening {ss : List Symbol} {cs : List Char} : Spelled ss cs →
      Spelled (.opening :: ss) ('(' :: cs)
  | closing {ss : List Symbol} {cs : List Char} : Spelled ss cs →
      Spelled (.closing :: ss) (')' :: cs)
  | tag {name cs : List Char} {ss : List Symbol} : name ≠ [] →
      (∀ c ∈ name, isTagChar c = true) → (∀ c ∈ cs.head?, isTagChar c = false) →
      Spelled ss cs → Spelled (.tag (.ofList name) :: ss) ('@' :: name ++ cs)
  | word {word cs : List Char} {s : Symbol} {ss : List Symbol} : wordSymbol? word = some s →
      (∀ c ∈ cs.head?, isLetter c = false) → Spelled ss cs → Spelled (s :: ss) (word ++ cs)

inductive Phrase where
  | disjunction | conjunction | operand
deriving DecidableEq, Repr, Inhabited

/-- The symbols are a phrase of the kind, and the expression is what it says. Operands of `or` are
conjunctions and operands of `and` cannot hold either operator outside of parentheses; only the
left operand may be a phrase of the same kind. -/
inductive Derives : Phrase → List Symbol → TagExpr → Prop where
  | tag (name : String) : Derives .operand [.tag name] (.tag name)
  | not {ss : List Symbol} {e : TagExpr} : Derives .operand ss e →
      Derives .operand (.not :: ss) (.not e)
  | group {ss : List Symbol} {e : TagExpr} : Derives .disjunction ss e →
      Derives .operand (.opening :: ss ++ [.closing]) e
  | operand {ss : List Symbol} {e : TagExpr} : Derives .operand ss e →
      Derives .conjunction ss e
  | and {ss ts : List Symbol} {e f : TagExpr} : Derives .conjunction ss e →
      Derives .operand ts f → Derives .conjunction (ss ++ .operator .and :: ts) (.and e f)
  | conjunction {ss : List Symbol} {e : TagExpr} : Derives .conjunction ss e →
      Derives .disjunction ss e
  | or {ss ts : List Symbol} {e f : TagExpr} : Derives .disjunction ss e →
      Derives .conjunction ts f → Derives .disjunction (ss ++ .operator .or :: ts) (.or e f)

def IsViable (ss : List Symbol) : Prop :=
  ∃ ts e, Derives .disjunction (ss ++ ts) e

def Symbol.width : Symbol → Nat
  | .tag name => 1 + byteCount name.toList
  | .operator op => byteCount op.name.toList
  | .not => 3
  | .opening | .closing => 1

end FeaturePlan.TagExpr
