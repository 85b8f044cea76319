import FeaturePlan.Text.Blank

/-! Flags that change how the rest of a pattern is read. -/

namespace FeaturePlan.Pattern

structure Flags where
  anyCase : Bool
  manyLines : Bool
  dotAll : Bool
  returns : Bool
  spaced : Bool
deriving DecidableEq, Repr, Inhabited

namespace Flags

def none : Flags :=
  ⟨false, false, false, false, false⟩

/-- Sets or clears the flag of a letter. Preferring short matches changes nothing about whether
there is one. Without expressions over bytes, `u` cannot be cleared. -/
def set? (f : Flags) (value : Bool) : Char → Option Flags
  | 'i' => some { f with anyCase := value }
  | 'm' => some { f with manyLines := value }
  | 's' => some { f with dotAll := value }
  | 'R' => some { f with returns := value }
  | 'x' => some { f with spaced := value }
  | 'U' => some f
  | 'u' => if value then some f else .none
  | _ => .none

/-- Flags after a question mark, up to the colon or parenthesis that ends them, with that mark
and what follows it. No flag may be given twice, and there may be one minus sign, with a flag
behind it. -/
def read? (f : Flags) (seen : List Char) : List Char → Option (Flags × List Char × Char × List Char)
  | [] => .none
  | c :: cs =>
    if c = ':' ∨ c = ')' then
      if seen.head? = some '-' then .none else some (f, seen, c, cs)
    else if c ∈ seen then .none
    else if c = '-' then f.read? (c :: seen) cs
    else
      match f.set? (!seen.contains '-') c with
      | .none => .none
      | some f => f.read? (c :: seen) cs

/-- Leaves out blanks and comments, when the flag for it is set. A comment starts with a hash sign
and ends with its line. -/
def skipFrom (inComment : Bool) : List Char → List Char
  | [] => []
  | c :: cs =>
    if inComment then skipFrom (c ≠ '\n') cs
    else if Text.isBlank c then skipFrom false cs
    else if c = '#' then skipFrom true cs
    else c :: cs

def skip (f : Flags) (cs : List Char) : List Char :=
  if f.spaced then skipFrom false cs else cs

/-- The first characters of a kind, no more than `limit`, and what follows them. Blanks and comments
before and between them are left out, when the flag for it is set. -/
def takeWhile (f : Flags) (kind : Char → Bool) (limit : Nat) (inComment : Bool) :
    List Char → List Char × List Char
  | [] => ([], [])
  | c :: cs =>
    if f.spaced && inComment then f.takeWhile kind limit (c ≠ '\n') cs
    else if f.spaced && Text.isBlank c then f.takeWhile kind limit false cs
    else if f.spaced && c == '#' then f.takeWhile kind limit true cs
    else if limit ≠ 0 ∧ kind c then
      let (taken, rest) := f.takeWhile kind (limit - 1) false cs
      (c :: taken, rest)
    else ([], c :: cs)

/-- The character that follows. When blanks are left out, so are those before it, and one hash sign
among them, but not the rest of a comment. -/
def peek (f : Flags) (cs : List Char) : Option Char :=
  if f.spaced then
    match Text.trimStart cs with
    | '#' :: cs => (Text.trimStart cs).head?
    | cs => cs.head?
  else cs.head?

end Flags

end FeaturePlan.Pattern
