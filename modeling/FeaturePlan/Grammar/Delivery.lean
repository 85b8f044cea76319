import FeaturePlan.Grammar.Event

/-! Delivery of events to a builder, which assembles something from them, and of errors to a sink,
which decides whether to go on. The builder can refuse a rule that it is told to close; this is
an error like any other. -/

namespace FeaturePlan

structure Builder (σ : Type _) where
  opened : Rule → σ → σ
  token : Token → σ → σ
  closed : Rule → σ → σ × Option ParseError

/-- What a sink does with an error, on states of type `τ`. An error that it gives back ends the
delivery. -/
structure Sink (τ : Type _) where
  report : ParseError → τ → τ × Option ParseError

namespace Sink

def failFast : Sink Unit where
  report e s := (s, some e)

def collect : Sink (List ParseError) where
  report e es := (es ++ [e], none)

def upTo (budget : Nat) : Sink (List ParseError) where
  report e es := if es.length < budget then (es ++ [e], none) else (es, some e)

end Sink

/-- How a delivery ended: the events that the builder was given, what builder and sink have become,
and the error that stopped it. -/
structure Delivery (σ τ : Type _) where
  events : List Event
  builder : σ
  sink : τ
  stopped : Option ParseError

namespace Delivery

variable {σ τ : Type _}

def afterEvent (e : Event) (d : Delivery σ τ) : Delivery σ τ :=
  { d with events := e :: d.events }

/-- Hands over the events in order until the sink gives an error back. -/
def run (b : Builder σ) (k : Sink τ) : List Event → σ → τ → Delivery σ τ
  | [], s, t => ⟨[], s, t, none⟩
  | .opened rule :: rest, s, t => (run b k rest (b.opened rule s) t).afterEvent (.opened rule)
  | .token tok :: rest, s, t => (run b k rest (b.token tok s) t).afterEvent (.token tok)
  | .closed rule :: rest, s, t =>
    match b.closed rule s with
    | (s, none) => (run b k rest s t).afterEvent (.closed rule)
    | (s, some e) =>
      match k.report e t with
      | (t, none) => (run b k rest s t).afterEvent (.closed rule)
      | (t, some stop) => ⟨[.closed rule], s, t, some stop⟩
  | .error e :: rest, s, t =>
    match k.report e t with
    | (t, none) => run b k rest s t
    | (t, some stop) => ⟨[], s, t, some stop⟩

end Delivery

end FeaturePlan
