/-! Lines of a text. A line ends at a line feed; one carriage return directly before that line
feed belongs to the line's end, any other stays in the line. A line feed at the very end of the
text starts no further line. -/

namespace FeaturePlan.Text

def lines : List Char → List (List Char)
  | [] => []
  | '\n' :: cs => [] :: lines cs
  | '\r' :: '\n' :: cs => [] :: lines cs
  | c :: cs =>
    match lines cs with
    | [] => [[c]]
    | line :: rest => (c :: line) :: rest

def joinLines (ls : List String) : String :=
  "\n".intercalate ls

end FeaturePlan.Text
