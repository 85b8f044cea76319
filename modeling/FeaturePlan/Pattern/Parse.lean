import FeaturePlan.Pattern.Brackets
import FeaturePlan.Pattern.Footprint
import FeaturePlan.Pattern.Search
import FeaturePlan.RegexEngine
import FeaturePlan.Text.Letter

/-! Reading patterns. The parts of the innermost group are collected from left to right; a
parenthesis puts them aside until the group it opens is closed. A pattern is refused when its parts
are nested too deep, or when it would take too much room. -/

namespace FeaturePlan.Pattern

structure Part where
  pattern : Pattern
  depth : Nat
deriving Repr, Inhabited

/-- A group that is being read: its alternatives so far, and the parts of the last of them, both
latest first. A part that only sets flags is none, and cannot be repeated. Only groups whose
matches can be told have a number. -/
structure Group where
  number : Option Nat
  alternatives : List Part
  parts : List (Option Part)
  flags : Flags
deriving Repr, Inhabited

/-- The innermost group, the groups around it, how many groups have been numbered, and the names
that have been given to some of them. -/
structure Reader where
  group : Group
  outer : List Group
  numbered : Nat
  names : List (List Char)
deriving Repr, Inhabited

namespace Group

def start (number : Option Nat) (f : Flags) : Group :=
  ⟨number, [], [], f⟩

def sequence (g : Group) : Part :=
  let parts := g.parts.reverse
  ⟨concat (parts.filterMap fun p => p.map (·.pattern)),
    depthOf (parts.map fun p => (p.map (·.depth)).getD 0)⟩

def whole (g : Group) : Part :=
  match g.alternatives with
  | [] => g.sequence
  | alternatives =>
    let parts := (g.sequence :: alternatives).reverse
    ⟨choice (parts.map (·.pattern)), depthOf (parts.map (·.depth))⟩

def part (g : Group) : Part :=
  let p := g.whole
  ⟨match g.number with
    | some n => group n p.pattern
    | none => p.pattern, p.depth + 1⟩

def add (g : Group) (p : Part) : Group :=
  { g with parts := some p :: g.parts }

def divide (g : Group) : Group :=
  { g with alternatives := g.sequence :: g.alternatives, parts := [] }

def repeat? (g : Group) (least : Nat) (most : Option Nat) : Option Group :=
  match g.parts with
  | some p :: parts =>
    some { g with parts := some ⟨p.pattern.times least most, p.depth + 1⟩ :: parts }
  | _ => none

end Group

/-- A repetition may be followed by a question mark, which makes it prefer short matches. -/
def afterLaziness : List Char → List Char
  | '?' :: cs => cs
  | cs => cs

def count? (f : Flags) (cs : List Char) : Option (Nat × List Char) :=
  let cs := Text.trimStart (f.skip cs)
  let (digits, rest) := f.takeWhile Char.isDigit cs.length false cs
  let value := digits.foldl (fun n c => 10 * n + (c.toNat - 48)) 0
  if digits ≠ [] ∧ value < 4294967296 then some (value, Text.trimStart rest) else none

def closeBounds? (least : Nat) (most : Option Nat) :
    List Char → Option (Nat × Option Nat × List Char)
  | '\x7d' :: rest => if ∀ m ∈ most, least ≤ m then some (least, most, rest) else none
  | _ => none

/-- The upper bound of a counted repetition, if it has one, after the comma. -/
def upperBound? (f : Flags) (least : Nat) (cs : List Char) :
    Option (Nat × Option Nat × List Char) :=
  match f.skip cs with
  | '\x7d' :: rest => some (least, none, rest)
  | cs => do
    let (most, rest) ← count? f cs
    closeBounds? least (some most) rest

def bounds? (f : Flags) (cs : List Char) : Option (Nat × Option Nat × List Char) := do
  let (least, rest) ← count? f cs
  match rest with
  | ',' :: rest => upperBound? f least rest
  | rest => closeBounds? least (some least) rest

def groupName? (cs : List Char) : Option (List Char × List Char) :=
  let name := cs.takeWhile (· != '>')
  let isInitial := fun c : Char => c == '_' || Text.isAlphabetic c
  let isLater := fun c : Char => isInitial c || Text.isNumeric c || c == '.' || c == '[' || c == ']'
  match name, cs.drop name.length with
  | c :: rest, _ :: after => if isInitial c ∧ rest.all isLater then some (name, after) else none
  | _, _ => none

namespace Reader

def start : Reader :=
  ⟨.start none .none, [], 0, []⟩

def enter (r : Reader) (f : Flags) : Reader :=
  { r with group := .start none f, outer := r.group :: r.outer }

/-- Puts the innermost group aside for one inside it that has the next number. -/
def enterNumbered (r : Reader) : Reader :=
  { r with
    group := .start (some (r.numbered + 1)) r.group.flags
    outer := r.group :: r.outer
    numbered := r.numbered + 1 }

/-- A named group; no two groups may have one name. -/
def enterNamed? (r : Reader) (cs : List Char) : Option (Reader × List Char) := do
  let (name, rest) ← groupName? cs
  if name ∈ r.names then none
  else some ({ r with names := name :: r.names }.enterNumbered, rest)

/-- Flags after an opening parenthesis and a question mark: for a group inside the innermost one, or
for the rest of that group. -/
def openFlags? (r : Reader) (cs : List Char) : Option (Reader × List Char) :=
  match r.group.flags.read? [] cs with
  | none => none
  | some (f, _, ':', rest) => some (r.enter f, rest)
  | some (f, seen, _, rest) =>
    if seen = [] then none
    else
      let group := { r.group with flags := f, parts := none :: r.group.parts }
      some ({ r with group }, rest)

/-- A group with a name, after its angle bracket. A group cannot look at what is before the place
where it stands. -/
def openNamed? (r : Reader) : List Char → Option (Reader × List Char)
  | '=' :: _ => none
  | '!' :: _ => none
  | cs => r.enterNamed? cs

/-- What follows an opening parenthesis and a question mark: a name, or flags. A group cannot look
ahead either. -/
def openMarked? (r : Reader) : List Char → Option (Reader × List Char)
  | '=' :: _ => none
  | '!' :: _ => none
  | '<' :: cs => r.openNamed? cs
  | 'P' :: '<' :: cs => r.enterNamed? cs
  | cs => r.openFlags? cs

/-- What an opening parenthesis starts: a group, or flags for the rest of the innermost one. -/
def open? (r : Reader) (cs : List Char) : Option (Reader × List Char) :=
  match r.group.flags.skip cs with
  | '?' :: cs => r.openMarked? cs
  | cs => some (r.enterNumbered, cs)

def close? (r : Reader) : Option Reader :=
  match r.outer with
  | [] => none
  | group :: outer => some { r with group := group.add r.group.part, outer }

def add (r : Reader) (p : Pattern) : Reader :=
  { r with group := r.group.add ⟨p, 0⟩ }

def repeat? (r : Reader) (least : Nat) (most : Option Nat) : Option Reader :=
  (r.group.repeat? least most).map fun group => { r with group }

def edge (r : Reader) (text : Anchor) (line : Bool → Anchor) : Pattern :=
  .anchor (if r.group.flags.manyLines then line r.group.flags.returns else text)

def take? (r : Reader) (c : Char) (cs : List Char) : Option (Reader × List Char) :=
  let f := r.group.flags
  match c with
  | '(' => r.open? cs
  | ')' => r.close?.map fun r => (r, cs)
  | '|' => some ({ r with group := r.group.divide }, cs)
  | '[' => (brackets? f (c :: cs)).map fun (operand, rest) =>
    ({ r with group := r.group.add ⟨.ofSet operand.set, operand.depth⟩ }, rest)
  | '?' => (r.repeat? 0 (some 1)).map fun r => (r, afterLaziness cs)
  | '*' => (r.repeat? 0 none).map fun r => (r, afterLaziness cs)
  | '+' => (r.repeat? 1 none).map fun r => (r, afterLaziness cs)
  | '\x7b' => do
    let (least, most, rest) ← bounds? f cs
    (r.repeat? least most).map fun r => (r, afterLaziness (f.skip rest))
  | '.' => some (r.add (.ofSet (dot f)), cs)
  | '^' => some (r.add (r.edge .textStart .lineStart), cs)
  | '$' => some (r.add (r.edge .textEnd .lineEnd), cs)
  | '\\' => (escape? f cs).map fun (atom, rest) => (r.add (atom.pattern f), rest)
  | c => some (r.add (Atom.pattern f (.literal c)), cs)

/-- Takes parts to the end of the text. Each takes at least one character, so the number of
characters is fuel enough. -/
def run? : Nat → Reader → List Char → Option Part
  | 0, _, _ => none
  | fuel + 1, r, cs =>
    match r.group.flags.skip cs with
    | [] => if r.outer.isEmpty then some r.group.whole else none
    | c :: cs =>
      match r.take? c cs with
      | none => none
      | some (r, rest) => r.run? fuel rest

end Reader

def maxDepth : Nat := 250

def read? (text : String) : Option Part :=
  Reader.start.run? (text.toList.length + 1) text.toList

/-- The pattern that a text stands for, if it is well formed and neither nested too deep nor too
large. -/
def parse? (text : String) : Option Pattern := do
  let part ← read? text
  if part.depth ≤ maxDepth ∧ part.pattern.fits then some part.pattern else none

/-- The engine for what can be read here. -/
def engine : RegexEngine where
  compile? text := (parse? text).map occursIn

end FeaturePlan.Pattern
