import FeaturePlan.LogLevel

/-! What happens while plans are made, as far as it is worth a note. -/

namespace FeaturePlan

inductive LogEvent where
  | dialectChanged (language : String)
  | featureCompiled (resource name : String) (scenarios : Nat)
  | noFeature (resource : String)
  | scenarioMerged (definition implementation : String)
  | planBuilt (features : Nat)
  | idMissing (source name : String)
  | stepMapIgnored (source stepMap fault : String)
deriving DecidableEq, Repr, Inhabited

inductive LogSpan where
  | addSource
  | redefine
deriving DecidableEq, Repr, Inhabited

def LogSpan.name : LogSpan → String
  | addSource => "add_source"
  | redefine => "redefine"

namespace LogEvent

def level : LogEvent → LogLevel
  | idMissing _ _ | stepMapIgnored _ _ _ => .warn
  | _ => .debug

def message : LogEvent → String
  | dialectChanged _ => "switching feature dialect"
  | featureCompiled _ _ _ => "compiled feature"
  | noFeature _ => "source contributes no feature"
  | scenarioMerged _ _ => "merged redefined scenario"
  | planBuilt _ => "built plan"
  | idMissing _ _ => "scenario not having a unique id; it will be ignored"
  | stepMapIgnored _ _ _ => "malformed step map; mapping steps one to one"

end LogEvent

inductive LogValue where
  | text (s : String)
  | number (n : Nat)
deriving DecidableEq, Repr, Inhabited

def LogEvent.fields : LogEvent → List (String × LogValue)
  | dialectChanged language => [("language", .text language)]
  | featureCompiled resource name scenarios =>
    [("resource", .text resource), ("feature", .text name), ("scenarios", .number scenarios)]
  | noFeature resource => [("resource", .text resource)]
  | scenarioMerged definition implementation =>
    [("definition", .text definition), ("implementation", .text implementation)]
  | planBuilt features => [("features", .number features)]
  | idMissing source name => [("source", .text source), ("name", .text name)]
  | stepMapIgnored source stepMap fault =>
    [("source", .text source), ("step_map", .text stepMap), ("error", .text fault)]

structure LogEntry where
  event : LogEvent
  spans : List LogSpan
deriving DecidableEq, Repr, Inhabited

/-- The entries that a log kept at a level holds. Activities have the level of debugging: a log
that does not hold it knows nothing of them. -/
def LogEntry.keptAt (level : LogLevel) (entries : List LogEntry) : List LogEntry :=
  (entries.filter fun e => level.shows e.event.level).map fun e =>
    if level.shows .debug then e else { e with spans := [] }

end FeaturePlan
