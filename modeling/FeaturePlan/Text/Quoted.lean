import FeaturePlan.Text.Printable

/-! Text quoted for a message: double quotes around it, and a backslash escape for each character
that could be mistaken for something else. -/

namespace FeaturePlan.Text

def hex (n : Nat) : List Char :=
  Nat.toDigits 16 n

/-- One character inside quotes. Five characters have an escape of their own, besides the quote;
what combines with its neighbour or cannot be seen is written by its code point. -/
def quotedChar (c : Char) : List Char :=
  if c = '\x00' then ['\\', '0']
  else if c = '\t' then ['\\', 't']
  else if c = '\r' then ['\\', 'r']
  else if c = '\n' then ['\\', 'n']
  else if c = '\\' then ['\\', '\\']
  else if c = '"' then ['\\', '"']
  else if isCombining c || !isPrintable c then ['\\', 'u', '\x7b'] ++ hex c.toNat ++ ['\x7d']
  else [c]

def quoted (s : String) : String :=
  .ofList ('"' :: s.toList.flatMap quotedChar ++ ['"'])

/-- Quoted strings in brackets, with a comma between two of them. -/
def quotedList (items : List String) : String :=
  "[" ++ ", ".intercalate (items.map quoted) ++ "]"

end FeaturePlan.Text
