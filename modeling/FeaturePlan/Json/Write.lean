import FeaturePlan.Json

/-! Writing JSON without putting the whole text together first: one piece after the other goes
behind the bytes that have been written. -/

namespace FeaturePlan.Json

/-- The pieces of a JSON string: its quotes, and what each of its characters is written as. -/
def stringPieces (s : String) : List String :=
  "\"" :: s.toList.map (fun c => .ofList (stringChar c)) ++ ["\""]

mutual

def pieces : Json → List String
  | null => ["null"]
  | bool b => [if b then "true" else "false"]
  | string s => stringPieces s
  | array items => "[" :: itemPieces items ++ ["]"]
  | object members => "\x7b" :: memberPieces members ++ ["\x7d"]

def itemPieces : List Json → List String
  | [] => []
  | [j] => pieces j
  | j :: js => pieces j ++ "," :: itemPieces js

def memberPieces : List (String × Json) → List String
  | [] => []
  | [(k, j)] => stringPieces k ++ ":" :: pieces j
  | (k, j) :: ms => stringPieces k ++ ":" :: pieces j ++ "," :: memberPieces ms

end

def write (out : ByteArray) (j : Json) : ByteArray :=
  j.pieces.foldl (fun out piece => out ++ piece.toUTF8) out

end FeaturePlan.Json
