import FeaturePlan.Grammar.Delivery

/-! The engine that reads a text in a single pass. It tells a builder of each rule and each line at
once, and a sink of each error. An error that the sink gives back ends the reading, wherever it
is. -/

namespace FeaturePlan

/-- Where the reading stands, what builder and sink have become, and what the builder was told, the
last of it first. -/
structure Engine (σ τ : Type _) extends Cursor where
  builder : σ
  sink : τ
  told : List Event

namespace Engine

variable {σ τ : Type _}

abbrev Reply (σ τ : Type _) :=
  Engine σ τ × Option ParseError

def Reply.andThen (r : Reply σ τ) (next : Engine σ τ → Reply σ τ) : Reply σ τ :=
  match r with
  | (g, none) => next g
  | (g, some stop) => (g, some stop)

/-- What has been delivered when the engine comes to its end, or is stopped. -/
def Reply.delivery (r : Reply σ τ) : Delivery σ τ :=
  ⟨r.1.told.reverse, r.1.builder, r.1.sink, r.2⟩

def start (d : Dialect) (s : σ) (t : τ) : Engine σ τ :=
  { state := .start, scanner := .start d, rules := [], builder := s, sink := t, told := [] }

variable (b : Builder σ) (k : Sink τ)

def report (e : ParseError) (g : Engine σ τ) : Reply σ τ :=
  match k.report e g.sink with
  | (sink, stop) => ({ g with sink }, stop)

def enter (rule : Rule) (g : Engine σ τ) : Engine σ τ :=
  { g with
    rules := rule :: g.rules, builder := b.opened rule g.builder, told := .opened rule :: g.told }

def shift (t : Token) (g : Engine σ τ) : Engine σ τ :=
  { g with builder := b.token t g.builder, told := .token t :: g.told }

/-- Closes the innermost rule, and reports the error of a builder that refuses to. -/
def leave (g : Engine σ τ) : Reply σ τ :=
  match g.rules with
  | [] => (g, none)
  | rule :: rules =>
    match b.closed rule g.builder with
    | (builder, none) => ({ g with rules, builder, told := .closed rule :: g.told }, none)
    | (builder, some e) =>
      { g with rules, builder, told := .closed rule :: g.told }.report k e

/-- Closes rules of those that are open, up to the first that does not satisfy the condition. -/
def leaveWhile (p : Rule → Bool) : List Rule → Engine σ τ → Reply σ τ
  | [], g => (g, none)
  | rule :: rules, g =>
    if p rule then (g.leave b k).andThen (leaveWhile p rules) else (g, none)

def perform (t : Token) (g : Engine σ τ) : Action → Reply σ τ
  | .enter rule => (g.enter b rule, none)
  | .leaveTo rule => g.leaveWhile b k (fun r => decide (r ≠ rule)) g.rules
  | .leave => g.leave b k
  | .shift => (g.shift b t, none)

def performAll (t : Token) : List Action → Engine σ τ → Reply σ τ
  | [], g => (g, none)
  | action :: actions, g => (g.perform b k t action).andThen (performAll t actions)

/-- Refuses an item of none of the expected classes. The end of the text closes whatever is open. -/
def reject (item : Item) (g : Engine σ τ) : Reply σ τ :=
  match item with
  | .line l => g.report k (.unexpectedLine l.start g.state.expected l.visible)
  | .eof place =>
    (g.report k (.unexpectedEnd place g.state.expected)).andThen fun g =>
      (g.leaveWhile b k (fun _ => true) g.rules).andThen fun g => ({ g with state := .done }, none)

/-- Takes one item. The items ahead matter only to tags below an examples block. -/
def consume (item : Item) (ahead : List Item) (g : Engine σ τ) : Reply σ τ :=
  match g.scanner.classify item g.state.expected with
  | .unknownLanguage code place => g.report k (.unknownLanguage code place)
  | .refused => g.reject b k item
  | .token t scanner =>
    let g := { g with scanner }
    let examplesAhead := t.kind = .tags && g.state.block? = some .examples &&
      scanner.examplesFollow ahead
    match g.state.next examplesAhead t.kind with
    | none => g.reject b k item
    | some (actions, state) =>
      (g.performAll b k t actions).andThen fun g => ({ g with state }, none)

def run : List Item → Engine σ τ → Reply σ τ
  | [], g => (g, none)
  | item :: ahead, g => (g.consume b k item ahead).andThen (run ahead)

/-- The reading goes on until the state is `done`: with how many items taken, and how it ends.
Behind the end of a text there is only that end again. -/
inductive RunsUntilDone (place : Location) :
    Engine σ τ → List Item → Nat → Reply σ τ → Prop where
  | done {g items} : g.state = .done → RunsUntilDone place g items 0 (g, none)
  | stopped {g items g' stop} : g.state ≠ .done →
      g.consume b k (items.headD (.eof place)) items.tail = (g', some stop) →
      RunsUntilDone place g items 1 (g', some stop)
  | next {g items g' calls r} : g.state ≠ .done →
      g.consume b k (items.headD (.eof place)) items.tail = (g', none) →
      RunsUntilDone place g' items.tail calls r → RunsUntilDone place g items (calls + 1) r

end Engine

def deliver {σ τ : Type _} (d : Dialect) (text : String) (b : Builder σ) (k : Sink τ) (s : σ)
    (t : τ) : Delivery σ τ :=
  (((Engine.start d s t).enter b .document).run b k (Item.ofText text)).delivery

end FeaturePlan
