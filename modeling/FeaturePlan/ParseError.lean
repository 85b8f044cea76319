import FeaturePlan.Token

/-! Reasons for which a text is refused. -/

namespace FeaturePlan

inductive ParseError where
  /-- A line of none of the classes that may stand here. -/
  | unexpectedLine (place : Location) (expected : List TokenKind) (received : String)
  /-- The text ends where it may not end. -/
  | unexpectedEnd (place : Location) (expected : List TokenKind)
  /-- A table row that is not as wide as the first row of its table. -/
  | unevenRow (place : Location)
  /-- A language without a keyword table. -/
  | unknownLanguage (code : String) (place : Location)
deriving DecidableEq, Repr, Inhabited

namespace ParseError

def place : ParseError → Location
  | unexpectedLine place _ _ => place
  | unexpectedEnd place _ => place
  | unevenRow place => place
  | unknownLanguage _ place => place

def isSyntax : ParseError → Bool
  | unevenRow _ => false
  | _ => true

def isStructural : ParseError → Bool
  | unevenRow _ => true
  | _ => false

def names (kinds : List TokenKind) : String :=
  ", ".intercalate (kinds.map TokenKind.name)

def message : ParseError → String
  | unexpectedLine place expected received =>
    "(" ++ place.text ++ "): expected: " ++ names expected ++ ", got '" ++ received ++ "'"
  | unexpectedEnd place expected =>
    "(" ++ place.text ++ "): unexpected end of file, expected: " ++ names expected
  | unevenRow place => "(" ++ place.text ++ "): inconsistent cell count within the table"
  | unknownLanguage code place => "(" ++ place.text ++ "): language not supported: " ++ code

end ParseError

end FeaturePlan
