import FeaturePlan.Json.Lexeme

/-! Reading JSON texts without numbers, which is all that can be written here. One pass over the
lexemes keeps, for each array and object that is open, what has been read of it. -/

namespace FeaturePlan.Json

/-- An array or object that is not closed yet: what it holds so far, and the key of the member
whose value is being read. -/
inductive Frame where
  | array (items : List Json)
  | object (members : List (String × Json)) (key : String)
deriving Repr, Inhabited

inductive Turn where
  | value
  /-- The first item of an array, or its end. -/
  | firstItem
  /-- The first key of an object, or its end. -/
  | firstKey
  /-- A key behind other members. -/
  | key (members : List (String × Json))
  /-- The colon behind a key. -/
  | colon (members : List (String × Json)) (key : String)
  /-- A comma behind a value, or the end of what is open. -/
  | after (j : Json)
deriving Repr, Inhabited

def startValue? (frames : List Frame) : Lexeme → Option (List Frame × Turn)
  | .null => some (frames, .after .null)
  | .bool b => some (frames, .after (.bool b))
  | .string s => some (frames, .after (.string s))
  | .openArray => some (.array [] :: frames, .firstItem)
  | .openObject => some (frames, .firstKey)
  | _ => none

def take? : List Frame → Turn → Lexeme → Option (List Frame × Turn)
  | frames, .value, l => startValue? frames l
  | .array items :: frames, .firstItem, .closeArray => some (frames, .after (.array items))
  | frames, .firstItem, l => startValue? frames l
  | frames, .firstKey, .closeObject => some (frames, .after (.object []))
  | frames, .firstKey, .string key => some (frames, .colon [] key)
  | frames, .key members, .string key => some (frames, .colon members key)
  | frames, .colon members key, .colon => some (.object members key :: frames, .value)
  | .array items :: frames, .after j, .comma => some (.array (items ++ [j]) :: frames, .value)
  | .array items :: frames, .after j, .closeArray =>
    some (frames, .after (.array (items ++ [j])))
  | .object members key :: frames, .after j, .comma =>
    some (frames, .key (members ++ [(key, j)]))
  | .object members key :: frames, .after j, .closeObject =>
    some (frames, .after (.object (members ++ [(key, j)])))
  | _, _, _ => none

/-- Takes lexemes up to the end of a text, where nothing may be open. -/
def readFrom? : List Frame → Turn → List Lexeme → Option Json
  | [], .after j, [] => some j
  | _, _, [] => none
  | frames, turn, l :: ls => do
    let (frames, turn) ← take? frames turn l
    readFrom? frames turn ls

def read? (text : String) : Option Json := do
  let lexemes ← lexemesFrom? .between text.toList
  readFrom? [] .value lexemes

end FeaturePlan.Json
