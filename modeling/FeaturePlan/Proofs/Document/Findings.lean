import FeaturePlan.Proofs.Grammar.Stopping

/-! # What diagnostics find

Diagnostics go through the events of a text one by one. After some of them, what has been assembled
and the errors that were found are all that the rest depends on. -/

namespace FeaturePlan

/-- What has been assembled so far, and the errors that were found on the way. -/
structure Findings where
  assembly : Assembly
  errors : List ParseError

namespace Findings

def empty : Findings :=
  ⟨.empty, []⟩

def take (f : Findings) : Event → Findings
  | .opened rule => { f with assembly := Assembly.builder.opened rule f.assembly }
  | .token t => { f with assembly := f.assembly.addToken t }
  | .closed _ => ⟨f.assembly.close.1, f.errors ++ f.assembly.close.2.toList⟩
  | .error e => { f with errors := f.errors ++ [e] }

def after (f : Findings) (events : List Event) : Findings :=
  events.foldl take f

@[simp] theorem after_nil (f : Findings) : f.after [] = f :=
  rfl

@[simp] theorem after_cons (f : Findings) (e : Event) (events : List Event) :
    f.after (e :: events) = (f.take e).after events :=
  rfl

@[simp] theorem after_append (f : Findings) (events more : List Event) :
    f.after (events ++ more) = (f.after events).after more :=
  List.foldl_append

theorem isStructural_of_close {a : Assembly} {e : ParseError} (h : e ∈ a.close.2.toList) :
    e.isStructural := by
  obtain ⟨frames, trees, waiting⟩ := a
  simp only [Assembly.close, Option.mem_toList] at h
  split at h
  · cases h
  · split at h
    · obtain rfl := Option.some.inj h
      rfl
    · cases h

@[simp] theorem take_closed (f : Findings) (rule : Rule) :
    f.take (.closed rule) = ⟨f.assembly.close.1, f.errors ++ f.assembly.close.2.toList⟩ :=
  rfl

/-- A delivery that keeps every error finds what the events hold. -/
theorem run_collect (events : List Event) (a : Assembly) (es : List ParseError) :
    (Delivery.run Assembly.builder Sink.collect events a es).builder =
        (after ⟨a, es⟩ events).assembly ∧
      (Delivery.run Assembly.builder Sink.collect events a es).sink =
        (after ⟨a, es⟩ events).errors := by
  induction events generalizing a es with
  | nil => exact ⟨rfl, rfl⟩
  | cons event rest ih =>
      cases event with
      | opened rule => exact ih _ es
      | token t => exact ih _ es
      | error e => exact ih a _
      | closed rule =>
          have hb : Assembly.builder.closed rule a = a.close := rfl
          simp only [Delivery.run, after_cons, take, hb]
          rcases a.close with ⟨a', _ | e⟩
          · simpa [Delivery.afterEvent] using ih a' es
          · exact ih a' _

end Findings

theorem Diagnostics.ofText_eq (d : Dialect) (text : String) :
    ofText d text =
      ⟨(Findings.empty.after (eventsOf d text)).assembly.document,
        (Findings.empty.after (eventsOf d text)).errors⟩ := by
  obtain ⟨hb, hs⟩ := Findings.run_collect (eventsOf d text) .empty []
  have hstop := (Delivery.run_collect_spec Assembly.builder (eventsOf d text) .empty []).1
  simp only [ofText, deliver_eq_run, hb, hs, hstop]
  simp [Findings.empty]

end FeaturePlan
