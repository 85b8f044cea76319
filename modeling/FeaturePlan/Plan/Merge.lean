import FeaturePlan.Plan.Error
import FeaturePlan.Plan.Expansion
import FeaturePlan.Plan.Log
import FeaturePlan.Plan.StepMap

/-! Merging a definition with its implementation: the steps of the implementation, in their order,
become children of the steps of the definition. -/

namespace FeaturePlan

def Node.ref (n : Node) : NodeRef :=
  ⟨n.locator, n.displayName⟩

/-- How sums are computed that do not fit into a machine word. A program with overflow checks
panics; without them the sum starts again from zero. -/
inductive Arithmetic where
  | checked
  | wrapping
deriving DecidableEq, Repr, Inhabited

def Arithmetic.add? (w : Arithmetic) (m n : Nat) : Option Nat :=
  if m + n < Text.wordLimit then some (m + n)
  else
    match w with
    | checked => none
    | wrapping => some ((m + n) % Text.wordLimit)

/-- What has become of a definition, the events on the way, and the reason to stop, if any. -/
structure Merge where
  node : Node
  log : List LogEvent
  error : Option (Failure RedefinitionError)
deriving DecidableEq, Repr, Inhabited

namespace Merge

/-- The name of the virtual step that holds the background of an implementation. -/
def backgroundName : String := "<background>"

/-- The name of the virtual step below a step that is not implemented. -/
def voidName : String := "void"

def background (steps : List Node) : List Node :=
  steps.filter fun s => s.background

def own (steps : List Node) : List Node :=
  steps.filter fun s => !s.background

/-- The virtual step that holds the background of an implementation, if it has one. -/
def backgroundStep (implementation : List Node) : List Node :=
  match background implementation with
  | [] => []
  | steps => [{ Node.virtual backgroundName with background := true, children := steps }]

def attach (step : Node) (more : List Node) : Node :=
  { step with children := step.children ++ more }

/-- Gives each step of a definition the steps that its run asks for, after those that are taken
already, with the total of all runs at the end. -/
def distribute (w : Arithmetic) (implementation : List Node) (taken : Nat) :
    List Nat → List Node → Option (List Node × Nat)
  | _, [] => some ([], taken)
  | runs, step :: steps => do
    let run := runs.headD 0
    let next ← w.add? taken run
    let (rest, total) ← distribute w implementation next runs.tail steps
    return (attach step ((implementation.drop taken).take run) :: rest, total)

def attachLast? (steps more : List Node) : Option (List Node) :=
  if more.isEmpty then some steps
  else steps.getLast?.map fun last => steps.dropLast ++ [attach last more]

def fillVoid (step : Node) : Node :=
  if step.isLeaf then attach step [Node.virtual voidName] else step

/-- The runs of an implementation's step map. Without a map, or with one that cannot be read, each
step of the definition takes one; a map with too many entries is an error. -/
def runsFor (property : String) (implementation : Node) (steps : Nat) :
    Except RedefinitionError (List Nat × List LogEvent) :=
  match implementation.properties.get? property with
  | none => .ok (StepMap.ones steps, [])
  | some raw =>
    match StepMap.read raw steps with
    | .tooLong => .error (.badStepMap implementation.locator raw)
    | .faulty f =>
      .ok (StepMap.ones steps, [.stepMapIgnored implementation.locator raw f.message])
    | .runs ns => .ok (ns, [])

/-- Merges a definition with its implementation. If that fails the definition loses its children. -/
def scenario (w : Arithmetic) (property : String) (definition implementation : Node) : Merge :=
  let emptied : Node := { definition with children := [] }
  let steps := own definition.children
  match runsFor property implementation steps.length with
  | .error e => ⟨emptied, [], some (.error e)⟩
  | .ok (runs, log) =>
    let given := own implementation.children
    match distribute w given 0 runs steps with
    | none => ⟨emptied, log, some .panic⟩
    | some (served, total) =>
      let children :=
        backgroundStep implementation.children ++ background definition.children ++ served
      match attachLast? children (given.drop total) with
      | none => ⟨emptied, log, some (.error (.noSteps definition.ref))⟩
      | some children =>
        ⟨{ definition with children := children.map fillVoid },
          log ++ [.scenarioMerged definition.displayName implementation.locator], none⟩

/-- Merges definitions with implementations pairwise, up to the first error. What has no partner
stays as it is. -/
def pairwise (w : Arithmetic) (property : String) : List Node → List Node →
    List Node × List LogEvent × Option (Failure RedefinitionError)
  | [], _ => ([], [], none)
  | definitions, [] => (definitions, [], none)
  | d :: ds, i :: is =>
    let m := scenario w property d i
    match m.error with
    | some e => (m.node :: ds, m.log, some e)
    | none =>
      let (rest, log, error) := pairwise w property ds is
      (m.node :: rest, m.log ++ log, error)

/-- Merges the scenarios of a defining outline with those that its examples make of the
implementing outline. -/
def outline (w : Arithmetic) (property : String) (definition implementation : Node) : Merge :=
  let examples := match definition.outline with
    | some t => t.examples
    | none => []
  let template := implementation.outline.getD ⟨[], [], []⟩
  let (children, log, error) :=
    pairwise w property definition.children (implementation.expand template examples)
  ⟨{ definition with children }, log, error⟩

end Merge

end FeaturePlan
