import FeaturePlan.Pattern.Escape

/-! Classes in brackets. Brackets nest, and between the members of a class `&&`, `--` and `~~`
combine what is to their left with what is to their right. How deep a class is nested is counted
along with its set. -/

namespace FeaturePlan.Pattern

/-- The depth of some things side by side: one thing alone does not make a level of its own. -/
def depthOf : List Nat → Nat
  | [] => 0
  | [depth] => depth
  | depths => depths.foldl max 0 + 1

inductive SetOperator where
  | inter | diff | symmDiff
deriving DecidableEq, Repr, Inhabited

namespace Brackets

/-- The members of a class that have been read since its last operator. -/
structure Members where
  set : CharSet
  depths : List Nat
deriving DecidableEq, Repr, Inhabited

structure Operand where
  set : CharSet
  depth : Nat
deriving DecidableEq, Repr, Inhabited

inductive Around where
  | bracket (members : Members) (negated : Bool)
  | operator (op : SetOperator) (left : Operand)
deriving DecidableEq, Repr, Inhabited

def Members.none : Members :=
  ⟨.empty, []⟩

def Members.add (m : Members) (s : CharSet) (depth : Nat) : Members :=
  ⟨.union m.set s, depth :: m.depths⟩

def Members.operand (m : Members) : Operand :=
  ⟨m.set, depthOf m.depths⟩

/-- A set with the letters of the other case, when case does not matter. -/
def cased (f : Flags) (s : CharSet) : CharSet :=
  if f.anyCase then .anyCase s else s

/-- A set as it is written, or all characters but those of it, in any case when case does not
matter. -/
def signed (f : Flags) (negated : Bool) (s : CharSet) : CharSet :=
  if negated then .compl (cased f s) else cased f s

def combine (f : Flags) (op : SetOperator) (left right : Operand) : Operand :=
  let set := match op with
    | .inter => CharSet.inter (cased f left.set) (cased f right.set)
    | .diff => CharSet.diff (cased f left.set) (cased f right.set)
    | .symmDiff => CharSet.symmDiff (cased f left.set) (cased f right.set)
  ⟨set, max left.depth right.depth + 1⟩

/-- Applies the operator directly around some members, if there is one. -/
def settle (f : Flags) (members : Members) : List Around → Operand × List Around
  | .operator op left :: rest => (combine f op left members.operand, rest)
  | around => (members.operand, around)

def leadingHyphens (f : Flags) (members : Members) : Nat → List Char → Members × List Char
  | fuel + 1, '-' :: cs => leadingHyphens f (members.add (.char '-') 0) fuel (f.skip cs)
  | _, cs => (members, cs)

/-- A closing bracket at the start of a class stands for itself. Something has to follow it. -/
def firstMember? (f : Flags) (negated : Bool) (members : Members) (cs : List Char) :
    Option (Bool × Members × List Char) :=
  let (members, cs) :=
    if members = .none ∧ cs.head? = some ']' then (members.add (.char ']') 0, f.skip cs.tail)
    else (members, cs)
  if cs = [] then none else some (negated, members, cs)

/-- The members of a class with which it starts: hyphens, or a closing bracket. -/
def firstMembers? (f : Flags) (negated : Bool) (cs : List Char) :
    Option (Bool × Members × List Char) :=
  let (members, rest) := leadingHyphens f .none cs.length cs
  firstMember? f negated members rest

/-- The start of a class, after its bracket: whether it is negated, and the hyphens or the closing
bracket that stand for themselves there. -/
def opening? (f : Flags) (cs : List Char) : Option (Bool × Members × List Char) :=
  let cs := f.skip cs
  if cs.head? = some '^' then firstMembers? f true (f.skip cs.tail) else firstMembers? f false cs

/-- A class by its name, with what follows the colon and the bracket that end it. -/
def className? (cs : List Char) : Option (NamedClass × List Char) :=
  let name := cs.takeWhile (· != ':')
  match cs.drop name.length with
  | ':' :: ']' :: rest => (NamedClass.find? name).map fun cls => (cls, rest)
  | _ => none

/-- A class of ASCII characters by its name, such as `[:alpha:]`, after its bracket. -/
def named? (f : Flags) : List Char → Option (CharSet × List Char)
  | ':' :: '^' :: cs => (className? cs).map fun (cls, rest) => (signed f true cls.set, rest)
  | ':' :: cs => (className? cs).map fun (cls, rest) => (signed f false cls.set, rest)
  | _ => none

def memberSet? : Atom → Option CharSet
  | .literal c => some (.char c)
  | .set s => some s
  | .anchor _ => none

/-- One member of a class, or one end of a range. A condition on a place is neither. -/
def member? (f : Flags) : List Char → Option (Atom × List Char)
  | [] => none
  | '\\' :: cs => (escape? f cs).bind fun r => (memberSet? r.1).map fun _ => r
  | c :: cs => some (.literal c, cs)

def rangeOf? : (first last : Atom) → Option CharSet
  | .literal a, .literal b => if a ≤ b then some (.range a b) else none
  | _, _ => none

def rangeEnd? (f : Flags) (first : Atom) (cs : List Char) : Option (CharSet × List Char) := do
  let (last, rest) ← member? f cs
  (rangeOf? first last).map fun s => (s, rest)

/-- What follows a member: a range goes on with a hyphen. A hyphen before the closing bracket or
before another hyphen makes no range. -/
def rangeAfter? (f : Flags) (first : Atom) : List Char → Option (CharSet × List Char)
  | [] => none
  | '-' :: cs =>
    let next := f.peek cs
    if next = some ']' ∨ next = some '-' then (memberSet? first).map fun s => (s, '-' :: cs)
    else rangeEnd? f first (f.skip cs)
  | cs => (memberSet? first).map fun s => (s, cs)

def range? (f : Flags) (cs : List Char) : Option (CharSet × List Char) := do
  let (first, rest) ← member? f cs
  rangeAfter? f first (f.skip rest)

def operator? : List Char → Option (SetOperator × List Char)
  | '&' :: '&' :: rest => some (.inter, rest)
  | '-' :: '-' :: rest => some (.diff, rest)
  | '~' :: '~' :: rest => some (.symmDiff, rest)
  | _ => none

/-- The start of a class inside another one: a class with a name, or members in brackets. The
outermost class has no name. -/
def nested? (f : Flags) (members : Members) (around : List Around) (cs : List Char) :
    Option ((Members × List Around) × List Char) :=
  match if around = [] then none else named? f cs with
  | some (s, rest) => some ((members.add s 0, around), rest)
  | none => (opening? f cs).map fun (negated, inner, rest) =>
    ((inner, .bracket members negated :: around), rest)

def item? (f : Flags) (members : Members) (around : List Around) (cs : List Char) :
    Option ((Members × List Around) × List Char) :=
  match operator? cs with
  | some (op, rest) =>
    let (left, around) := settle f members around
    some ((.none, .operator op left :: around), rest)
  | none => (range? f cs).map fun (s, rest) => ((members.add s 0, around), rest)

def grow? (f : Flags) (members : Members) (around : List Around) (cs : List Char) :
    Option ((Members × List Around) × List Char) :=
  if cs.head? = some '[' then nested? f members around cs.tail else item? f members around cs

/-- What a closing bracket makes of the members before it: a member of the class around theirs, or
the whole of the outermost class. -/
def close? (f : Flags) (members : Members) (around : List Around) :
    Option (Operand ⊕ Members × List Around) :=
  let (whole, around) := settle f members around
  match around with
  | .bracket outer negated :: around =>
    let set := signed f negated whole.set
    let depth := whole.depth + 1
    if around = [] then some (.inl ⟨set, depth⟩) else some (.inr (outer.add set depth, around))
  | _ => none

/-- Reads members up to the bracket that closes the outermost class. Each round takes at least
one character, so the number of characters is fuel enough. -/
def read? (f : Flags) :
    Nat → Members → List Around → List Char → Option (Operand × List Char)
  | 0, _, _, _ => none
  | fuel + 1, members, around, cs =>
    let cs := f.skip cs
    if cs.head? = some ']' then
      match close? f members around with
      | none => none
      | some (.inl whole) => some (whole, cs.tail)
      | some (.inr (members, around)) => read? f fuel members around cs.tail
    else do
      let ((members, around), rest) ← grow? f members around cs
      read? f fuel members around rest

end Brackets

def brackets? (f : Flags) (cs : List Char) : Option (Brackets.Operand × List Char) :=
  Brackets.read? f (cs.length + 1) .none [] cs

end FeaturePlan.Pattern
