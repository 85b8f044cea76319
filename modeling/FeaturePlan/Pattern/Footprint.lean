import FeaturePlan.Pattern.Compose
import FeaturePlan.Pattern.Footprint.Chars
import FeaturePlan.Pattern.Footprint.Words

/-! The room for the automata of a pattern: one that reads a text forwards and keeps track of the
groups, and one that reads it backwards. A pattern with an automaton that takes too much room is
refused. -/

namespace FeaturePlan.Pattern

def text? : Pattern → Option (List Char)
  | text cs => some cs
  | _ => none

namespace Footprint

def ofTexts (d : Direction) (texts : List (List Char)) : Footprint :=
  let words := texts.map fun cs =>
    let bytes := cs.flatMap String.utf8EncodeChar
    match d with
    | .forward => bytes
    | .backward => bytes.reverse
  ofWords ((words.map List.length).foldl max 0) words

/-- What follows an alternative. After the second one come the states in which all of them start
and end. -/
def endBranch (branch : Nat) (f : Footprint) : Option Footprint :=
  match branch with
  | 0 => some f
  | 1 => f.add 2 8
  | _ => f.add 0 4

/-- Makes the states for a pattern. `branch` is the number of alternatives before it, when it is
the rest of some alternatives. -/
def ofPattern (d : Direction) : Pattern → (branch : Nat) → Footprint → Option Footprint
  | empty, branch, f => (f.add 1 0).bind (endBranch branch)
  | text cs, branch, f =>
    (f.add (cs.flatMap String.utf8EncodeChar).length 0).bind (endBranch branch)
  | set s, branch, f => ((ofSet d s f).add 0 0).bind (endBranch branch)
  | anchor _, branch, f => (f.add 1 0).bind (endBranch branch)
  | group _ p, branch, f =>
    (match d with
      | .forward => do (← ofPattern d p 0 (← f.add 1 0)).add 1 0
      | .backward => ofPattern d p 0 f).bind (endBranch branch)
  | repeated p least most, branch, f =>
    (match least, most with
      | 0, some 1 => do (← ofPattern d p 0 (← f.add 1 8)).add 1 0
      | 0, none =>
        if p.shortest.any (0 < ·) then do ofPattern d p 0 (← f.add 1 8)
        else do (← ofPattern d p 0 f).add 3 16
      | least, none => do (← iterate (ofPattern d p 0) least f).add 1 8
      | least, some most =>
        if least = most then iterate (ofPattern d p 0) least f
        else do
          let f ← if least = 0 then f.add 1 0 else iterate (ofPattern d p 0) least f
          iterate (fun f => do ofPattern d p 0 (← f.add 1 8)) (most - least) (← f.add 1 0)).bind
      (endBranch branch)
  | seq p q, branch, f =>
    (match d with
      | .forward => do ofPattern d q 0 (← ofPattern d p 0 f)
      | .backward => do ofPattern d p 0 (← ofPattern d q 0 f)).bind (endBranch branch)
  | alt p q, 0, f =>
    match (alt p q).branches.mapM text? with
    | some texts =>
      let tree := ofTexts d texts
      f.add (tree.states + 1) tree.extra
    | none => do ofPattern d q 1 (← ofPattern d p 0 f)
  | alt p q, branch + 1, f => do
    let f ← ofPattern d p 0 f
    ofPattern d q (branch + 2) (← endBranch (branch + 1) f)

end Footprint

/-- The room for an automaton of a pattern, unless it is too much. A match can begin at any place,
unless the pattern has to begin at the end of the text from which it is read. -/
def footprint? (d : Direction) (p : Pattern) : Option Footprint := do
  let isFixed := match d with
    | .forward => p.opensWith .textStart
    | .backward => p.closesWith .textEnd
  let f ← if isFixed then Footprint.zero.add 1 0 else Footprint.zero.add 3 16
  (← Footprint.ofPattern d (group 0 p) 0 f).add 1 0

def fits (p : Pattern) : Bool :=
  (p.footprint? .forward).isSome && (p.footprint? .backward).isSome

end FeaturePlan.Pattern
