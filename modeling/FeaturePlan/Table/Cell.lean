import FeaturePlan.Text.Blank

/-! Cells of a table row. Inside a cell a backslash escapes the bar, the backslash itself and, as
the letter n, the line feed; any other backslash stands for itself. -/

namespace FeaturePlan.Cell

/-- The pieces of a row between its bars, as written. An escaped bar does not end a piece; the
last piece is what follows the last bar. -/
def pieces : List Char → List (List Char)
  | [] => [[]]
  | '|' :: cs => [] :: pieces cs
  | '\\' :: c :: cs =>
    match pieces cs with
    | [] => [['\\', c]]
    | piece :: rest => ('\\' :: c :: piece) :: rest
  | c :: cs =>
    match pieces cs with
    | [] => [[c]]
    | piece :: rest => (c :: piece) :: rest

def decode : List Char → List Char
  | [] => []
  | '\\' :: 'n' :: cs => '\n' :: decode cs
  | '\\' :: '|' :: cs => '|' :: decode cs
  | '\\' :: '\\' :: cs => '\\' :: decode cs
  | '\\' :: c :: cs => '\\' :: c :: decode cs
  | c :: cs => c :: decode cs

def encode : List Char → List Char
  | [] => []
  | '\n' :: cs => '\\' :: 'n' :: encode cs
  | '|' :: cs => '\\' :: '|' :: encode cs
  | '\\' :: cs => '\\' :: '\\' :: encode cs
  | c :: cs => c :: encode cs

theorem decode_encode (value : List Char) : decode (encode value) = value := by
  fun_induction encode value with
  | case1 => rfl
  | case2 cs ih => simp [decode, ih]
  | case3 cs ih => simp [decode, ih]
  | case4 cs ih => simp [decode, ih]
  | case5 c cs _ _ hc ih => cases cs <;> simp_all [decode]

/-- Puts pieces one after the other, a bar between them, the first after `start` characters. -/
def place (start : Nat) : List (List Char) → List (Nat × List Char)
  | [] => []
  | piece :: rest => (start, piece) :: place (start + piece.length + 1) rest

/-- The values of a row that starts with a bar, each with the number of characters before it.
What follows the last bar is no cell. -/
def ofRow (row : List Char) : Option (List (Nat × List Char)) :=
  (Text.after? ['|'] row).map fun rest =>
    (place 1 (pieces rest).dropLast).map fun (start, piece) =>
      (start + (piece.takeWhile Text.isBlank).length, decode (Text.trim piece))

end FeaturePlan.Cell
