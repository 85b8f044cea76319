import FeaturePlan.Pattern.CharSet
import FeaturePlan.Pattern.Footprint.Basic
import FeaturePlan.Pattern.Footprint.Slots
import FeaturePlan.Text.Utf8

/-! The states that read one character of a set, byte by byte. States that lead to the same ones
are made once, as far as they are remembered: a state is kept in one of a fixed number of slots,
which its arcs determine, until another one with the same slot takes its place. -/

namespace FeaturePlan.Pattern.Footprint

structure Arc where
  range : Text.ByteRange
  target : Nat
deriving DecidableEq, Repr, Inhabited

/-- The states made so far, and those that are remembered, by their arcs. -/
structure Memory where
  made : Footprint
  size : Nat
  slots : Slots (List Arc × Nat)

namespace Memory

def start (made : Footprint) (size : Nat) : Memory :=
  ⟨made, size, .empty⟩

/-- The hash of some numbers, from the hash of those before them: each is mixed in, and the result
multiplied by a prime number. -/
def hashFrom (hash : UInt64) : List Nat → UInt64
  | [] => hash
  | n :: ns => hashFrom ((hash ^^^ UInt64.ofNat n) * 1099511628211) ns

def slot (m : Memory) (numbers : List Nat) : Nat :=
  (hashFrom 14695981039346656037 numbers).toNat % m.size

/-- The number of the state with some arcs, which is made when it is not remembered. -/
def state (m : Memory) (slot : Nat) (arcs : List Arc) (extra : Nat) : Nat × Memory :=
  let number := m.made.states
  let made : Memory :=
    ⟨⟨number + 1, m.made.extra + extra⟩, m.size, m.slots.put (arcs, number) 14 slot⟩
  match m.slots.find? slot with
  | some (known, knownNumber) => if known = arcs then (knownNumber, m) else (number, made)
  | none => (number, made)

end Memory

/-- The state that reads some blocks, the states it leads to made before it. Blocks are in order,
and none has more than `depth` bytes. -/
def ofBlocks (target : Nat) : (depth : Nat) → List (List Text.ByteRange) → Memory → Nat × Memory
  | 0, _, m => (target, m)
  | depth + 1, blocks, m =>
    let groups := blocks.splitBy fun a b => a.head? = b.head?
    let (arcs, m) := groups.foldl (fun (arcs, m) group =>
      match group with
      | (range :: rest) :: _ =>
        let (next, m) :=
          if rest = [] then (target, m) else ofBlocks target depth (group.map List.tail) m
        (arcs ++ [Arc.mk range next], m)
      | _ => (arcs, m)) (([] : List Arc), m)
    let numbers := arcs.flatMap fun a => [a.range.first, a.range.last, a.target]
    m.state (m.slot numbers) arcs (8 * arcs.length)

/-- Makes the states for a block that is read backwards, the first byte last. -/
def ofBlockBackward (target : Nat) (block : List Text.ByteRange) (m : Memory) : Memory :=
  (block.foldl (fun (next, m) range =>
    m.state (m.slot [next, range.first, range.last]) [⟨range, next⟩] 0)
    (target, m)).2

/-- Makes the states for a set. Forwards they share all ends of characters; backwards there is a
choice between all blocks, which share their starts. -/
def ofSet (d : Direction) (s : CharSet) (f : Footprint) : Footprint :=
  if s.isAscii then ⟨f.states + 2, f.extra + 8 * s.ranges.length⟩
  else
    let blocks := s.ranges.flatMap fun (low, high) =>
      Text.utf8Blocks (CharSet.codePoint low) (CharSet.codePoint high)
    match d with
    | .forward =>
      (ofBlocks f.states 4 blocks (.start ⟨f.states + 1, f.extra⟩ 10000)).2.made
    | .backward =>
      let m := blocks.foldl (fun m block => ofBlockBackward (f.states + 1) block m)
        (Memory.start ⟨f.states + 2, f.extra⟩ 1000)
      ⟨m.made.states, m.made.extra + 4 * blocks.length⟩

end FeaturePlan.Pattern.Footprint
