import FeaturePlan.Document.Parse
import FeaturePlan.Plan.Compiler
import FeaturePlan.Plan.Redefine

/-! Plans built from several texts. Features keep the order in which their texts are added; a text
that cannot be read or compiled adds nothing. -/

namespace FeaturePlan

structure PlanBuilder where
  dialect : Dialect
  compiler : Compiler
  redefinition : RedefinitionConfig
  features : List Node
  log : List LogEntry

namespace PlanBuilder

def ofConfig (engine : RegexEngine) (c : Config) : Except PlanError PlanBuilder := do
  let dialect ← match Dialect.request c.defaultLanguage with
    | .ok d => .ok d
    | .error e => .error (.config (.badLanguage e.message))
  let compiler ← Compiler.ofConfig engine c
  return ⟨dialect, compiler, c.redefinition, [], []⟩

def note (b : PlanBuilder) (spans : List LogSpan) (events : List LogEvent) : PlanBuilder :=
  { b with log := b.log ++ events.map fun e => ⟨e, spans⟩ }

/-- Adds the feature of a text, which is read up to its first error. -/
def addSource (b : PlanBuilder) (resource text : String) : Except PlanError Unit × PlanBuilder :=
  let delivery := Document.strictly b.dialect text
  let b := b.note [.addSource]
    ((delivery.events.filterMap Event.language?).map LogEvent.dialectChanged)
  match delivery.stopped with
  | some e => (.error (.parse resource e), b)
  | none =>
    let (result, events) := b.compiler.compileLogged resource delivery.builder.document
    let b := b.note [.addSource] events
    match result with
    | .error e => (.error e, b)
    | .ok none => (.ok (), b)
    | .ok (some n) => (.ok (), { b with features := b.features ++ [n] })

/-- The finished plan, after definitions have been merged with their implementations. -/
def build (w : Arithmetic) (b : PlanBuilder) :
    Except (Failure PlanError) (List Node) × List LogEntry :=
  let r := Redefinition.run w b.redefinition b.features
  let b := b.note [.redefine] r.log
  match r.error with
  | some (.error e) => (.error (.error (.redefinition e)), b.log)
  | some .panic => (.error .panic, b.log)
  | none => (.ok r.features, (b.note [] [.planBuilt r.features.length]).log)

end PlanBuilder

end FeaturePlan
