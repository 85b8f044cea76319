/-! Regular expressions are left to an engine. It is given a text and answers with a test, or
refuses the text; which expressions there are and what they match is a matter of its manual. -/

namespace FeaturePlan

/-- An engine for regular expressions. The test of an expression tells whether it matches some part
of a text. -/
structure RegexEngine where
  compile? : String → Option (String → Bool)

namespace RegexEngine

/-- An expression in a group that is not counted. -/
def grouped (e : String) : String :=
  "(?:" ++ e ++ ")"

/-- What a manual tells expressions by: whether a text is one, whether it is within the limits of
the engine, and which parts of a text it matches. A part is given by the numbers of characters
before its beginning and before its end. -/
structure Manual where
  IsExpression : String → Prop
  IsWithinLimits : String → Prop
  Matches : String → String → Nat → Nat → Prop

namespace Manual

/-- Only a comment takes in a closing parenthesis that no other one opens. -/
def EndsInComment (m : Manual) (e : String) : Prop :=
  m.IsExpression (e ++ ")")

/-- The expression matches a text from its first character to its last. -/
def MatchesAll (m : Manual) (e text : String) : Prop :=
  m.Matches e text 0 text.length

end Manual

/-- What the manual of an engine says of groups, anchors, comments and limits, and of tests. -/
structure IsDocumentedBy (engine : RegexEngine) (m : Manual) : Prop where
  /-- Expressions within the limits are accepted, and nothing else is. -/
  accepts : ∀ e, (∃ test, engine.compile? e = some test) ↔ m.IsExpression e ∧ m.IsWithinLimits e
  /-- A test looks for a match anywhere in a text. -/
  searches : ∀ e test text, engine.compile? e = some test →
    (test text = true ↔ ∃ i j, m.Matches e text i j)
  /-- An expression can be put into a group, unless the parenthesis behind it is lost. -/
  groups : ∀ e, m.IsExpression e → ¬m.EndsInComment e → m.IsExpression (grouped e)
  /-- A group matches what the expression in it matches. -/
  group : ∀ e text i j, m.IsExpression e → m.IsExpression (grouped e) →
    (m.Matches (grouped e) text i j ↔ m.Matches e text i j)
  /-- A group can stand between anchors. -/
  anchors : ∀ e, m.IsExpression e → m.IsExpression (grouped e) →
    m.IsExpression ("^" ++ grouped e ++ "$")
  /-- A caret in front of a group stands for the beginning of the text. -/
  caret : ∀ e text i j, m.IsExpression e → m.IsExpression (grouped e) →
    (m.Matches ("^" ++ grouped e) text i j ↔ i = 0 ∧ m.Matches (grouped e) text i j)
  /-- A dollar sign behind a group stands for the end of the text. -/
  dollar : ∀ e text i j, m.IsExpression e → m.IsExpression (grouped e) →
    (m.Matches ("^" ++ grouped e ++ "$") text i j ↔
      m.Matches ("^" ++ grouped e) text i j ∧ j = text.length)
  /-- A comment takes in all that follows on its line, and what closes a group is missing then. -/
  comment : ∀ e rest, m.IsExpression e → m.EndsInComment e → '\n' ∉ rest.toList →
    ¬m.IsExpression ("^" ++ grouped e ++ rest)
  /-- Between the parentheses of a group stands an expression. -/
  closes : ∀ rest, m.IsExpression ("^(?:" ++ rest) →
    ∃ e after, rest = e ++ ")" ++ after ∧ m.IsExpression e

end RegexEngine

end FeaturePlan
