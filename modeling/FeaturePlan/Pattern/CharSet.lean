import FeaturePlan.Text.Blank
import FeaturePlan.Text.CaseFold
import FeaturePlan.Text.WordChar

/-! Sets of characters as patterns describe them. A set is a list of ranges of numbers, in order
and with a gap between any two, so that equal sets are equal lists. Characters are numbered by
their code points, without the gap that the surrogates leave. -/

namespace FeaturePlan.Pattern

structure CharSet where
  ranges : List (Nat × Nat)
deriving DecidableEq, Repr, Inhabited

namespace CharSet

def number (n : Nat) : Nat :=
  if n < 0xD800 then n else n - 0x800

def codePoint (n : Nat) : Nat :=
  if n < 0xD800 then n else n + 0x800

def lastNumber : Nat := 0x10F7FF

/-- Adds a range to ranges in order, and joins those that touch it. -/
def insertRange (low high : Nat) : List (Nat × Nat) → List (Nat × Nat)
  | [] => [(low, high)]
  | (first, last) :: rest =>
    if last + 1 < low then (first, last) :: insertRange low high rest
    else if high + 1 < first then (low, high) :: (first, last) :: rest
    else insertRange (min first low) (max last high) rest

/-- The numbers from `next` to the last one that are in no range. -/
def gaps (next : Nat) : List (Nat × Nat) → List (Nat × Nat)
  | [] => if next ≤ lastNumber then [(next, lastNumber)] else []
  | (first, last) :: rest =>
    if next < first then (next, first - 1) :: gaps (last + 1) rest else gaps (last + 1) rest

def hasNumber (s : CharSet) (n : Nat) : Bool :=
  s.ranges.any fun (low, high) => low ≤ n && n ≤ high

def contains (s : CharSet) (c : Char) : Bool :=
  s.hasNumber (number c.toNat)

def empty : CharSet := ⟨[]⟩

def all : CharSet := ⟨[(0, lastNumber)]⟩

def ofTable (table : List (Nat × Nat)) : CharSet :=
  ⟨table.foldr (fun (low, high) => insertRange (number low) (number high)) []⟩

def range (first last : Char) : CharSet :=
  ofTable [(first.toNat, last.toNat)]

def char (c : Char) : CharSet :=
  range c c

def ofList (cs : List Char) : CharSet :=
  ofTable (cs.map fun c => (c.toNat, c.toNat))

def union (s t : CharSet) : CharSet :=
  ⟨t.ranges.foldr (fun (low, high) => insertRange low high) s.ranges⟩

def compl (s : CharSet) : CharSet :=
  ⟨gaps 0 s.ranges⟩

def inter (s t : CharSet) : CharSet :=
  compl (union (compl s) (compl t))

def diff (s t : CharSet) : CharSet :=
  inter s (compl t)

def symmDiff (s t : CharSet) : CharSet :=
  union (diff s t) (diff t s)

/-- A set with all characters that differ from one of it in case only. -/
def anyCase (s : CharSet) : CharSet :=
  let pairs := Text.foldPairs.map fun (a, b) => (number a, number b)
  let folded := (pairs.filter fun (a, b) => s.hasNumber a || s.hasNumber b).map (·.2)
  let added := pairs.filter fun (_, b) => folded.contains b
  ⟨added.foldl (fun ranges (a, b) => insertRange a a (insertRange b b ranges)) s.ranges⟩

def single? (s : CharSet) : Option Char :=
  match s.ranges with
  | [(low, high)] => if low = high then some (.ofNat (codePoint low)) else none
  | _ => none

def isAscii (s : CharSet) : Bool :=
  s.ranges.all fun (_, high) => high < 128

def digit : CharSet :=
  ofTable Text.digitRanges

def blank : CharSet :=
  ofTable Text.blankRanges

def word : CharSet :=
  ofTable Text.wordRanges

end CharSet

/-- The classes of ASCII characters that have a name of their own inside brackets. -/
inductive NamedClass where
  | alnum | alpha | ascii | blank | cntrl | digit | graph | lower | print | punct | space | upper
  | word | xdigit
deriving DecidableEq, Repr, Inhabited

namespace NamedClass

def names : List (String × NamedClass) :=
  [("alnum", alnum), ("alpha", alpha), ("ascii", ascii), ("blank", blank), ("cntrl", cntrl),
    ("digit", digit), ("graph", graph), ("lower", lower), ("print", print), ("punct", punct),
    ("space", space), ("upper", upper), ("word", word), ("xdigit", xdigit)]

def find? (name : List Char) : Option NamedClass :=
  names.findSome? fun (known, cls) => if known.toList = name then some cls else none

def ranges : NamedClass → List (Nat × Nat)
  | alnum => [(48, 57), (65, 90), (97, 122)]
  | alpha => [(65, 90), (97, 122)]
  | ascii => [(0, 127)]
  | blank => [(9, 9), (32, 32)]
  | cntrl => [(0, 31), (127, 127)]
  | digit => [(48, 57)]
  | graph => [(33, 126)]
  | lower => [(97, 122)]
  | print => [(32, 126)]
  | punct => [(33, 47), (58, 64), (91, 96), (123, 126)]
  | space => [(9, 13), (32, 32)]
  | upper => [(65, 90)]
  | word => [(48, 57), (65, 90), (95, 95), (97, 122)]
  | xdigit => [(48, 57), (65, 70), (97, 102)]

def set (cls : NamedClass) : CharSet :=
  .ofTable cls.ranges

end NamedClass

end FeaturePlan.Pattern
