import FeaturePlan.Pattern

/-! Patterns put together from parts. A pattern that is put together here has a simple form: what
it repeats, joins or chooses from is as small as the rules below can make it. -/

namespace FeaturePlan.Pattern

/-- The number of characters of a shortest match, unless a part that no text can match makes it
uncertain whether there is one. -/
def shortest : Pattern → Option Nat
  | empty => some 0
  | text cs => some cs.length
  | set s => if s = .empty then none else some 1
  | anchor _ => some 0
  | group _ p => p.shortest
  | repeated p least _ => p.shortest.map (· * least)
  | seq p q => do return (← p.shortest) + (← q.shortest)
  | alt p q => do return min (← p.shortest) (← q.shortest)

/-- The number of characters of a longest match, if there is a bound and no part that no text can
match. -/
def longest : Pattern → Option Nat
  | empty => some 0
  | text cs => some cs.length
  | set s => if s = .empty then none else some 1
  | anchor _ => some 0
  | group _ p => p.longest
  | repeated p _ most => do return (← p.longest) * (← most)
  | seq p q => do return (← p.longest) + (← q.longest)
  | alt p q => do return max (← p.longest) (← q.longest)

def opensWith (a : Anchor) : Pattern → Bool
  | empty => false
  | text _ => false
  | set _ => false
  | anchor b => a == b
  | group _ p => p.opensWith a
  | repeated p least _ => least != 0 && p.opensWith a
  | seq p q => p.opensWith a || (p.longest == some 0 && q.opensWith a)
  | alt p q => p.opensWith a && q.opensWith a

def closesWith (a : Anchor) : Pattern → Bool
  | empty => false
  | text _ => false
  | set _ => false
  | anchor b => a == b
  | group _ p => p.closesWith a
  | repeated p least _ => least != 0 && p.closesWith a
  | seq p q => q.closesWith a || (q.longest == some 0 && p.closesWith a)
  | alt p q => p.closesWith a && q.closesWith a

def parts : Pattern → List Pattern
  | empty => []
  | seq p q => p :: q.parts
  | p => [p]

def ofParts : List Pattern → Pattern
  | [] => empty
  | [p] => p
  | p :: ps => seq p (ofParts ps)

def branches : Pattern → List Pattern
  | alt p q => p :: q.branches
  | p => [p]

def ofBranches : List Pattern → Pattern
  | [] => set .empty
  | [p] => p
  | p :: ps => alt p (ofBranches ps)

def joinTexts : List Pattern → List Pattern
  | [] => []
  | text cs :: ps =>
    match joinTexts ps with
    | text ds :: qs => text (cs ++ ds) :: qs
    | qs => text cs :: qs
  | p :: ps => p :: joinTexts ps

def ofSet (s : CharSet) : Pattern :=
  match s.single? with
  | some c => text [c]
  | none => set s

def concat (ps : List Pattern) : Pattern :=
  ofParts (joinTexts (ps.flatMap parts))

def char? : Pattern → Option Char
  | text [c] => some c
  | _ => none

def set? : Pattern → Option CharSet
  | set s => some s
  | _ => none

def commonStart : List Pattern → List Pattern → List Pattern
  | p :: ps, q :: qs => if p = q then p :: commonStart ps qs else []
  | _, _ => []

/-- The parts with which all alternatives start, if there are several and each has several
parts. -/
def sharedStart : List Pattern → List Pattern
  | p :: q :: ps =>
    if (p :: q :: ps).all fun p => 2 ≤ p.parts.length then
      (q :: ps).foldl (fun start p => commonStart start p.parts) p.parts
    else []
  | _ => []

/-- Alternatives that are single characters, or sets of them, make one set. -/
def merge (ps : List Pattern) : Pattern :=
  match ps with
  | [p] => p
  | ps =>
    match ps.mapM char?, ps.mapM set? with
    | some cs, _ => ofSet (.ofList cs)
    | none, some sets => ofSet (sets.foldl .union .empty)
    | none, none => ofBranches ps

/-- One of some patterns. What all of them start with is matched before the choice. -/
def choice (ps : List Pattern) : Pattern :=
  let ps := ps.flatMap branches
  match sharedStart ps with
  | [] => merge ps
  | start =>
    let ends := ps.map fun p => concat (p.parts.drop start.length)
    concat (start ++ [merge (ends.flatMap branches)])

/-- A pattern at least `least` times in a row, and at most `most` times if there is a limit. What
matches only the empty text need not be matched more than once. -/
def times (p : Pattern) (least : Nat) (most : Option Nat) : Pattern :=
  let (least, most) :=
    if p.longest = some 0 then (min least 1, some (min (most.getD 1) 1)) else (least, most)
  if most = some 0 then empty
  else if least = 1 ∧ most = some 1 then p
  else repeated p least most

end FeaturePlan.Pattern
