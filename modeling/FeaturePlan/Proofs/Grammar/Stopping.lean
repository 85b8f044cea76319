import FeaturePlan.Document.Parse
import FeaturePlan.Proofs.Grammar.Engine

/-! # Deliveries that stop early

A sink only decides how far a delivery goes. With a budget of errors a delivery agrees with the one
that keeps every error up to the first error beyond the budget, and there it stops. -/

namespace FeaturePlan

def Event.isError : Event → Bool
  | error _ => true
  | opened _ | closed _ | token _ => false

namespace Delivery

variable {σ τ υ : Type _} (b : Builder σ)

/-! ## Sinks that answer alike -/

/-- The deliveries differ in nothing but what has become of the sink. -/
structure SameCourse (d : Delivery σ τ) (e : Delivery σ υ) : Prop where
  events : d.events = e.events
  builder : d.builder = e.builder
  stopped : d.stopped = e.stopped

theorem SameCourse.afterEvent {d : Delivery σ τ} {e : Delivery σ υ} (h : SameCourse d e)
    (event : Event) : SameCourse (d.afterEvent event) (e.afterEvent event) :=
  ⟨congrArg (event :: ·) h.events, h.builder, h.stopped⟩

/-- Sinks that give the same answers from related states lead to the same course. -/
theorem sameCourse_run {k : Sink τ} {l : Sink υ} {R : τ → υ → Prop}
    (hR : ∀ e t u, R t u → (k.report e t).2 = (l.report e u).2 ∧
      ((k.report e t).2 = none → R (k.report e t).1 (l.report e u).1))
    (events : List Event) (s : σ) {t : τ} {u : υ} (h : R t u) :
    SameCourse (run b k events s t) (run b l events s u) := by
  induction events generalizing s t u with
  | nil => exact ⟨rfl, rfl, rfl⟩
  | cons event rest ih =>
      cases event with
      | opened rule => exact (ih _ h).afterEvent _
      | token tok => exact (ih _ h).afterEvent _
      | closed rule =>
          simp only [run]
          rcases b.closed rule s with ⟨s, _ | e⟩
          · exact (ih s h).afterEvent _
          · dsimp only
            obtain ⟨answer, next⟩ := hR e t u h
            generalize k.report e t = p at answer next
            generalize l.report e u = q at answer next
            obtain ⟨t, _ | stop⟩ := p <;> obtain ⟨u, _ | stop'⟩ := q <;> cases answer
            · exact (ih s (next rfl)).afterEvent _
            · exact ⟨rfl, rfl, rfl⟩
      | error e =>
          simp only [run]
          obtain ⟨answer, next⟩ := hR e t u h
          generalize k.report e t = p at answer next
          generalize l.report e u = q at answer next
          obtain ⟨t, _ | stop⟩ := p <;> obtain ⟨u, _ | stop'⟩ := q <;> cases answer
          · exact ih s (next rfl)
          · exact ⟨rfl, rfl, rfl⟩

/-- Giving back the first error is the same as having no budget. -/
theorem sameCourse_failFast (events : List Event) (s : σ) :
    SameCourse (run b Sink.failFast events s ()) (run b (Sink.upTo 0) events s []) := by
  refine sameCourse_run b (R := fun _ _ => True) ?_ events s trivial
  intro e t u _
  simp [Sink.failFast, Sink.upTo]

/-! ## Budgets -/

/-- Without a limit a delivery goes on to the end, and only adds to the errors kept before. -/
theorem run_collect_spec (events : List Event) (s : σ) (es : List ParseError) :
    (run b Sink.collect events s es).stopped = none ∧
      es <+: (run b Sink.collect events s es).sink := by
  induction events generalizing s es with
  | nil => exact ⟨rfl, List.prefix_rfl⟩
  | cons event rest ih =>
      cases event with
      | opened rule => exact ih _ es
      | token tok => exact ih _ es
      | closed rule =>
          simp only [run]
          rcases b.closed rule s with ⟨s, _ | e⟩
          · exact ih s es
          · exact ⟨(ih s _).1, (List.prefix_append es [e]).trans (ih s _).2⟩
      | error e => exact ⟨(ih s _).1, (List.prefix_append es [e]).trans (ih s _).2⟩

/-- How a delivery with a budget of `n` errors compares to one without a limit: either the errors
are within the budget and nothing differs, or the error that follows the first `n` ends it. -/
structure Truncates (n : Nat) (full capped : Delivery σ (List ParseError)) : Prop where
  within : full.sink.length ≤ n → capped = full
  beyond : n < full.sink.length →
    capped.stopped = full.sink[n]? ∧ capped.sink = full.sink.take n ∧
      capped.events <+: full.events

theorem Truncates.afterEvent {n : Nat} {full capped : Delivery σ (List ParseError)}
    (h : Truncates n full capped) (event : Event) :
    Truncates n (full.afterEvent event) (capped.afterEvent event) where
  within hn := congrArg (Delivery.afterEvent event) (h.within hn)
  beyond hn :=
    have ⟨stopped, sink, events⟩ := h.beyond hn
    ⟨stopped, sink, List.cons_prefix_cons.mpr ⟨rfl, events⟩⟩

/-- When the budget is used up, the next error is the one that stops. -/
theorem truncates_of_prefix {n : Nat} {es : List ParseError} {e : ParseError} (hn : es.length = n)
    {full : Delivery σ (List ParseError)} (hp : es ++ [e] <+: full.sink)
    {events : List Event} (he : events <+: full.events) (s : σ) :
    Truncates n full ⟨events, s, es, some e⟩ := by
  obtain ⟨more, hm⟩ := hp
  subst hn
  constructor
  · intro hl
    have hlen := congrArg List.length hm
    simp only [List.length_append, List.length_singleton] at hlen
    omega
  · intro _
    refine ⟨?_, ?_, he⟩
    · simp [← hm]
    · simp [← hm]

theorem truncates_run (n : Nat) (events : List Event) (s : σ) (es : List ParseError)
    (hn : es.length ≤ n) :
    Truncates n (run b Sink.collect events s es) (run b (Sink.upTo n) events s es) := by
  induction events generalizing s es with
  | nil => exact ⟨fun _ => rfl, fun h => absurd hn (Nat.not_le_of_lt h)⟩
  | cons event rest ih =>
      cases event with
      | opened rule => exact (ih _ es hn).afterEvent _
      | token tok => exact (ih _ es hn).afterEvent _
      | closed rule =>
          simp only [run]
          rcases b.closed rule s with ⟨s, _ | e⟩
          · exact (ih s es hn).afterEvent _
          · by_cases hlt : es.length < n
            · have hl : (es ++ [e]).length ≤ n := by simpa using Nat.succ_le_of_lt hlt
              simpa [Sink.collect, Sink.upTo, hlt] using (ih s _ hl).afterEvent (.closed rule)
            · have hp : es ++ [e] <+:
                  ((run b Sink.collect rest s (es ++ [e])).afterEvent (.closed rule)).sink :=
                (run_collect_spec b rest s (es ++ [e])).2
              simp only [Sink.collect, Sink.upTo, hlt, if_false]
              exact truncates_of_prefix (Nat.le_antisymm hn (Nat.le_of_not_lt hlt)) hp
                (List.prefix_append [Event.closed rule] _) s
      | error e =>
          simp only [run]
          by_cases hlt : es.length < n
          · have hl : (es ++ [e]).length ≤ n := by simpa using Nat.succ_le_of_lt hlt
            simpa [Sink.collect, Sink.upTo, hlt] using ih s _ hl
          · have hp := (run_collect_spec b rest s (es ++ [e])).2
            simp only [Sink.collect, Sink.upTo, hlt, if_false]
            exact truncates_of_prefix (Nat.le_antisymm hn (Nat.le_of_not_lt hlt)) hp
              List.nil_prefix s

/-! ## What the builder is told -/

/-- The builder was told of the events, in order, as far as the delivery went. -/
structure Tells (d : Delivery σ τ) (events : List Event) : Prop where
  told : d.events <+: events
  all : d.stopped = none → d.events = events

theorem Tells.afterEvent {d : Delivery σ τ} {events : List Event} (h : d.Tells events)
    (event : Event) : (d.afterEvent event).Tells (event :: events) :=
  ⟨List.cons_prefix_cons.mpr ⟨rfl, h.told⟩, fun hs => congrArg (event :: ·) (h.all hs)⟩

theorem tells_run {k : Sink τ} (events : List Event) (s : σ) (t : τ) :
    (run b k events s t).Tells (events.filter (!·.isError)) := by
  induction events generalizing s t with
  | nil => exact ⟨List.prefix_rfl, fun _ => rfl⟩
  | cons event rest ih =>
      cases event with
      | opened rule => exact (ih _ t).afterEvent _
      | token tok => exact (ih _ t).afterEvent _
      | closed rule =>
          simp only [run]
          rcases b.closed rule s with ⟨s, _ | e⟩
          · exact (ih s t).afterEvent _
          · dsimp only
            rcases k.report e t with ⟨t, _ | stop⟩
            · exact (ih s t).afterEvent _
            · exact ⟨List.prefix_append [Event.closed rule] _, fun hs => by cases hs⟩
      | error e =>
          simp only [run]
          rcases k.report e t with ⟨t, _ | stop⟩
          · exact ih s t
          · exact ⟨List.nil_prefix, fun hs => by cases hs⟩

end Delivery

theorem Engine.told_of_consume {σ τ : Type _} {b : Builder σ} {k : Sink τ} {g g' : Engine σ τ}
    {item : Item} {ahead : List Item} (h : g.consume b k item ahead = (g', none)) :
    g'.told.reverse =
      g.told.reverse ++ (g.toCursor.consume item ahead).events.filter (!·.isError) := by
  have hreply := (handsOver_consume (b := b) (k := k) item ahead g).reply rfl
  rw [h] at hreply
  obtain ⟨htold, -, -, hstop⟩ := hreply
  have hall := (Delivery.tells_run b (k := k) (g.toCursor.consume item ahead).events g.builder
    g.sink).all hstop.symm
  rw [htold, hall, List.reverse_append, List.reverse_reverse]

/-- Whatever stops the engine, it tells of nothing but the events of the item. -/
theorem Engine.exists_told_of_consume {σ τ : Type _} (b : Builder σ) (k : Sink τ) (g : Engine σ τ)
    (item : Item) (ahead : List Item) : ∃ told, (g.consume b k item ahead).1.told = told ++ g.told ∧
      ∀ e ∈ told, e ∈ (g.toCursor.consume item ahead).events := by
  have hreply := (handsOver_consume (b := b) (k := k) item ahead g).reply rfl
  refine ⟨_, hreply.1, fun e he => ?_⟩
  have htells := Delivery.tells_run b (k := k) (g.toCursor.consume item ahead).events g.builder
    g.sink
  exact (List.mem_filter.mp (htells.told.subset (List.mem_reverse.mp he))).1

/-! ## Strict reading and diagnostics -/

theorem Diagnostics.errors_eq (d : Dialect) (text : String) :
    (Diagnostics.ofText d text).errors =
      (Delivery.run Assembly.builder Sink.collect (eventsOf d text) .empty []).sink := by
  have h := (Delivery.run_collect_spec Assembly.builder (eventsOf d text) .empty []).1
  simp [Diagnostics.ofText, deliver_eq_run, h]

/-- Strict reading gives the document of the diagnostics when they are clean, and their first error
when they are not. -/
theorem Document.parse_eq (d : Dialect) (text : String) :
    Document.parse d text =
      match (Diagnostics.ofText d text).errors with
      | [] => .ok (Diagnostics.ofText d text).document
      | e :: _ => .error e := by
  have hc := Delivery.truncates_run Assembly.builder 0 (eventsOf d text) .empty [] (Nat.le_refl 0)
  have hs := Delivery.sameCourse_failFast Assembly.builder (eventsOf d text) .empty
  have hn := (Delivery.run_collect_spec Assembly.builder (eventsOf d text) .empty []).1
  rw [Diagnostics.errors_eq]
  cases he : (Delivery.run Assembly.builder Sink.collect (eventsOf d text) .empty []).sink with
  | nil =>
      rw [hc.within (by simp [he])] at hs
      simp only [Document.parse, Document.strictly, Diagnostics.ofText, deliver_eq_run, hs.stopped,
        hs.builder, hn]
  | cons e rest =>
      have hf : (Document.strictly d text).stopped = some e := by
        rw [Document.strictly, deliver_eq_run, hs.stopped, (hc.beyond (by simp [he])).1, he]
        rfl
      simp only [Document.parse, hf]

/-- A text that is read strictly has the document of its diagnostics. -/
theorem Document.eq_of_parse {d : Dialect} {text : String} {document : Document}
    (h : Document.parse d text = .ok document) :
    document = (Diagnostics.ofText d text).document := by
  rw [parse_eq] at h
  split at h
  · exact (Except.ok.inj h).symm
  · cases h

/-- Reading with a budget of errors, and reading strictly, agree with reading to the end up to the
point where they stop. The last two parts say what that means for documents. -/
theorem reading_agrees_until_stopped {σ : Type _} (d : Dialect) (text : String) (b : Builder σ)
    (s : σ) :
    let all := deliver d text b Sink.collect s []
    let upTo := fun n => deliver d text b (Sink.upTo n) s []
    let diagnostics := Diagnostics.ofText d text
    all.stopped = none ∧
      (∀ n, all.sink.length ≤ n →
        (upTo n).events = all.events ∧ (upTo n).builder = all.builder ∧
          (upTo n).sink = all.sink ∧ (upTo n).stopped = none) ∧
      (∀ n, (h : n < all.sink.length) →
        (upTo n).stopped = some all.sink[n] ∧ (upTo n).sink = all.sink.take n ∧
          (upTo n).events <+: all.events) ∧
      (∀ doc, Document.parse d text = .ok doc ↔
        diagnostics.isClean ∧ diagnostics.document = doc) ∧
      (∀ e, Document.parse d text = .error e ↔ diagnostics.errors.head? = some e) := by
  have hstop := (Delivery.run_collect_spec b (eventsOf d text) s []).1
  dsimp only
  simp only [deliver_eq_run]
  refine ⟨hstop, ?_, ?_, ?_, ?_⟩
  · intro n hn
    have h := (Delivery.truncates_run b n (eventsOf d text) s [] (Nat.zero_le n)).within hn
    simp only [h, hstop, and_self]
  · intro n hn
    obtain ⟨stopped, sink, events⟩ :=
      (Delivery.truncates_run b n (eventsOf d text) s [] (Nat.zero_le n)).beyond hn
    exact ⟨stopped.trans (List.getElem?_eq_getElem hn), sink, events⟩
  · intro doc
    rw [Document.parse_eq, Diagnostics.isClean]
    cases (Diagnostics.ofText d text).errors <;> simp
  · intro e
    rw [Document.parse_eq]
    cases (Diagnostics.ofText d text).errors <;> simp

/-- The builder refuses the document as a whole. Its error comes after that of the first line, and
a budget of one error ends there. -/
theorem reading_agrees_until_stopped_at_second_error :
    let b : Builder Nat :=
      ⟨fun _ n => n, fun _ n => n + 1,
        fun rule n => (n, if rule = .document then some (.unevenRow ⟨n, 1⟩) else none)⟩
    let text := "Given a\nFeature: F\n"
    1 < (deliver .english text b Sink.collect 0 []).sink.length ∧
      (deliver .english text b (Sink.upTo 1) 0 []).stopped =
        (deliver .english text b Sink.collect 0 []).sink[1]? := by
  intro b text
  have h : 1 < (deliver .english text b Sink.collect 0 []).sink.length := by decide +kernel
  have hs := ((reading_agrees_until_stopped .english text b 0).2.2.1 1 h).1
  exact ⟨h, hs.trans (List.getElem?_eq_getElem h).symm⟩

end FeaturePlan
