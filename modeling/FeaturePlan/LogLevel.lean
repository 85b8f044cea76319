/-! Levels of log events. -/

namespace FeaturePlan

inductive LogLevel where
  | trace | debug | info | warn | error
deriving DecidableEq, Repr, Inhabited

namespace LogLevel

def name : LogLevel → String
  | trace => "trace"
  | debug => "debug"
  | info => "info"
  | warn => "warn"
  | error => "error"

def rank : LogLevel → Nat
  | trace => 0
  | debug => 1
  | info => 2
  | warn => 3
  | error => 4

def shows (kept event : LogLevel) : Bool :=
  kept.rank ≤ event.rank

/-- The level that a word names, in whatever case it is written. No character outside ASCII has
one of the letters of these words as its lower-case form. -/
def find? (word : String) : Option LogLevel :=
  let lower : String := .ofList (word.toList.map Char.toLower)
  if lower = "trace" then some trace
  else if lower = "debug" then some debug
  else if lower = "info" then some info
  else if lower = "warn" ∨ lower = "warning" then some warn
  else if lower = "error" then some error
  else none

end LogLevel

end FeaturePlan
