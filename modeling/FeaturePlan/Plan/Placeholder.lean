import FeaturePlan.Text.Blank

/-! Placeholders: column names in angle brackets, which the values of an examples row replace. -/

namespace FeaturePlan

structure ExamplesRow where
  header : List String
  values : List String
deriving DecidableEq, Repr, Inhabited

namespace ExamplesRow

def lookup (column : String) : (header values : List String) → Option String
  | [], _ => none
  | h :: hs, vs => if h = column then vs.head? else lookup column hs vs.tail

def value? (r : ExamplesRow) (column : String) : Option String :=
  lookup column r.header r.values

/-- The name of a placeholder, from what follows its opening bracket: everything up to the next
closing bracket, provided that it starts with a character that is not blank. -/
def placeholder? : List Char → Option (List Char)
  | [] => none
  | c :: cs =>
    if c = '>' ∨ Text.isBlank c ∨ '>' ∉ cs then none
    else some (c :: cs.takeWhile (· != '>'))

/-- Replaces placeholders from left to right, after leaving out `skip` characters. A placeholder
that names no column stays as it is, with everything up to its closing bracket. -/
def substituteFrom (r : ExamplesRow) : Nat → List Char → List Char
  | _, [] => []
  | skip + 1, _ :: cs => r.substituteFrom skip cs
  | 0, c :: cs =>
    match if c = '<' then placeholder? cs else none with
    | none => c :: r.substituteFrom 0 cs
    | some name =>
      let replaced :=
        match r.value? (.ofList name) with
        | some value => value.toList
        | none => '<' :: name ++ ['>']
      replaced ++ r.substituteFrom (name.length + 1) cs

/-- The text with the placeholders of known columns replaced by their values. -/
def substitute (r : ExamplesRow) (text : String) : String :=
  .ofList (r.substituteFrom 0 text.toList)

end ExamplesRow

end FeaturePlan
