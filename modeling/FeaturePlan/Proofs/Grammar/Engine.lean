import FeaturePlan.Grammar.Engine
import Mathlib.Data.List.TakeWhile

/-! # What the engine delivers

The engine takes a line, tells builder and sink of it, and only then takes the next. Neither of them
has a say in how lines are read, except that the sink may end the reading. So the engine delivers
the events of the text, in order, as far as the sink lets it. -/

namespace FeaturePlan

namespace Engine

variable {σ τ : Type _} {b : Builder σ} {k : Sink τ}

/-- What is delivered when the events are handed over to builder and sink as the engine has left
them. -/
def handOver (b : Builder σ) (k : Sink τ) (g : Engine σ τ) (events : List Event) : Delivery σ τ :=
  let rest := Delivery.run b k events g.builder g.sink
  { rest with events := g.told.reverse ++ rest.events }

/-- The engine has handed over the events and stands at the cursor, or it was stopped while it
handed them over. -/
structure HandsOver (b : Builder σ) (k : Sink τ) (g : Engine σ τ) (events : List Event)
    (c : Cursor) (r : Reply σ τ) : Prop where
  cursor : r.2 = none → r.1.toCursor = c
  delivers : ∀ rest, g.handOver b k (events ++ rest) =
    match r.2 with
    | none => r.1.handOver b k rest
    | some _ => r.delivery

/-! ## Single events -/

theorem handsOver_nil (g : Engine σ τ) : g.HandsOver b k [] g.toCursor (g, none) :=
  ⟨fun _ => rfl, fun _ => rfl⟩

theorem handsOver_report (e : ParseError) (g : Engine σ τ) :
    g.HandsOver b k [.error e] g.toCursor (g.report k e) := by
  rcases hr : k.report e g.sink with ⟨sink, stop⟩
  have hreport : g.report k e = ({ g with sink }, stop) := by rw [report, hr]
  rw [hreport]
  constructor
  · intro _
    rfl
  · intro rest
    cases stop <;> simp [handOver, Delivery.run, hr, Reply.delivery]

theorem handsOver_enter (rule : Rule) (g : Engine σ τ) :
    g.HandsOver b k [.opened rule] { g.toCursor with rules := rule :: g.rules }
      (g.enter b rule, none) := by
  constructor
  · intro _
    rfl
  · intro rest
    simp [enter, handOver, Delivery.run, Delivery.afterEvent]

theorem handsOver_shift (t : Token) (g : Engine σ τ) :
    g.HandsOver b k [.token t] g.toCursor (g.shift b t, none) := by
  constructor
  · intro _
    rfl
  · intro rest
    simp [shift, handOver, Delivery.run, Delivery.afterEvent]

theorem handsOver_leave {rule : Rule} {rules : List Rule} {g : Engine σ τ}
    (hg : g.rules = rule :: rules) :
    g.HandsOver b k [.closed rule] { g.toCursor with rules } (g.leave b k) := by
  rcases hb : b.closed rule g.builder with ⟨builder, _ | e⟩
  · have hleave : g.leave b k =
        ({ g with rules, builder, told := .closed rule :: g.told }, none) := by
      simp only [leave, hg, hb]
    rw [hleave]
    constructor
    · intro _
      rfl
    · intro rest
      simp [handOver, Delivery.run, hb, Delivery.afterEvent]
  · rcases hr : k.report e g.sink with ⟨sink, stop⟩
    have hleave : g.leave b k =
        ({ g with rules, builder, sink, told := .closed rule :: g.told }, stop) := by
      simp only [leave, hg, hb, report, hr]
    rw [hleave]
    constructor
    · intro _
      rfl
    · intro rest
      cases stop <;> simp [handOver, Delivery.run, hb, hr, Delivery.afterEvent, Reply.delivery]

/-! ## Sequences -/

theorem HandsOver.andThen {g : Engine σ τ} {r : Reply σ τ} {events more : List Event}
    {c c' : Cursor} {next : Engine σ τ → Reply σ τ} (h : g.HandsOver b k events c r)
    (hnext : ∀ g' : Engine σ τ, g'.toCursor = c → g'.HandsOver b k more c' (next g')) :
    g.HandsOver b k (events ++ more) c' (r.andThen next) := by
  obtain ⟨g', _ | stop⟩ := r
  · have h' := hnext g' (h.cursor rfl)
    exact ⟨h'.cursor, fun rest => by
      rw [List.append_assoc, h.delivers]
      exact h'.delivers rest⟩
  · exact ⟨fun hstop => absurd hstop (by simp [Reply.andThen]), fun rest => by
      rw [List.append_assoc, h.delivers]
      rfl⟩

theorem handsOver_goTo {state : State} {g : Engine σ τ} {c : Cursor}
    (hc : (⟨state, g.scanner, g.rules⟩ : Cursor) = c) :
    g.HandsOver b k [] c ({ g with state }, none) :=
  ⟨fun _ => hc, fun _ => rfl⟩

/-- Where the engine stands has no part in what it hands over. -/
theorem HandsOver.of_move {g : Engine σ τ} {r : Reply σ τ} {events : List Event} {c c' : Cursor}
    (h : { g with toCursor := c }.HandsOver b k events c' r) : g.HandsOver b k events c' r :=
  ⟨h.cursor, h.delivers⟩

theorem handsOver_leaveWhile (p : Rule → Bool) {rules : List Rule} {g : Engine σ τ}
    (hg : g.rules = rules) :
    g.HandsOver b k ((rules.takeWhile p).map .closed)
      ⟨g.state, g.scanner, rules.dropWhile p⟩ (g.leaveWhile b k p rules) := by
  induction rules generalizing g with
  | nil =>
      have hc : g.toCursor = ⟨g.state, g.scanner, []⟩ := by rw [← hg]
      exact ⟨fun _ => hc, fun _ => rfl⟩
  | cons rule rules ih =>
      cases hp : p rule with
      | true =>
          have h : g.HandsOver b k ([.closed rule] ++ (rules.takeWhile p).map .closed)
              ⟨g.state, g.scanner, rules.dropWhile p⟩
              ((g.leave b k).andThen (leaveWhile b k p rules)) := by
            refine (handsOver_leave hg).andThen fun g' hg' => ?_
            have hrest := ih (congrArg Cursor.rules hg')
            rwa [hg'] at hrest
          simpa [leaveWhile, hp] using h
      | false =>
          have hc : g.toCursor = ⟨g.state, g.scanner, rule :: rules⟩ := by rw [← hg]
          simp only [leaveWhile, hp, List.takeWhile_cons, List.dropWhile_cons]
          exact ⟨fun _ => hc, fun _ => rfl⟩

/-! ## Actions -/

theorem handsOver_perform (t : Token) (g : Engine σ τ) (action : Action) :
    g.HandsOver b k (Action.perform t g.rules action).1
      ⟨g.state, g.scanner, (Action.perform t g.rules action).2⟩ (g.perform b k t action) := by
  cases action with
  | enter rule => exact handsOver_enter rule g
  | leaveTo rule => exact handsOver_leaveWhile _ rfl
  | shift => exact handsOver_shift t g
  | leave =>
      cases hg : g.rules with
      | nil =>
          have hc : g.toCursor = ⟨g.state, g.scanner, []⟩ := by rw [← hg]
          have hleave : g.perform b k t .leave = (g, none) := by simp only [perform, leave, hg]
          rw [hleave]
          exact ⟨fun _ => hc, fun _ => rfl⟩
      | cons rule rules => exact handsOver_leave hg

theorem handsOver_performAll (t : Token) (actions : List Action) {g : Engine σ τ}
    {rules : List Rule} (hg : g.rules = rules) :
    g.HandsOver b k (Action.performAll t rules actions).1
      ⟨g.state, g.scanner, (Action.performAll t rules actions).2⟩
      (g.performAll b k t actions) := by
  subst hg
  induction actions generalizing g with
  | nil => exact handsOver_nil g
  | cons action actions ih =>
      refine (handsOver_perform t g action).andThen fun g' hg' => ?_
      have hrest := ih (g := g')
      rwa [hg'] at hrest

/-! ## Items -/

theorem handsOver_leaveAll {rules : List Rule} {g : Engine σ τ} (hg : g.rules = rules) :
    g.HandsOver b k (rules.map .closed) ⟨g.state, g.scanner, []⟩
      (g.leaveWhile b k (fun _ => true) rules) := by
  have h := handsOver_leaveWhile (b := b) (k := k) (fun _ => true) hg
  rwa [List.takeWhile_eq_self_iff.mpr fun _ _ => rfl,
    List.dropWhile_eq_nil_iff.mpr fun _ _ => rfl] at h

theorem handsOver_reject (item : Item) (g : Engine σ τ) :
    g.HandsOver b k (g.toCursor.reject item).events (g.toCursor.reject item).cursor
      (g.reject b k item) := by
  cases item with
  | line l => exact handsOver_report _ g
  | eof place =>
      refine (handsOver_report _ g).andThen fun g₁ h₁ => ?_
      have hrules : g₁.rules = g.rules := congrArg Cursor.rules h₁
      rw [hrules, ← List.append_nil (g.rules.map _)]
      refine (handsOver_leaveAll hrules).andThen fun g₂ h₂ => ?_
      exact handsOver_goTo (by rw [h₂, h₁]; rfl)

theorem handsOver_consume (item : Item) (ahead : List Item) (g : Engine σ τ) :
    g.HandsOver b k (g.toCursor.consume item ahead).events (g.toCursor.consume item ahead).cursor
      (g.consume b k item ahead) := by
  simp only [consume, Cursor.consume]
  cases g.scanner.classify item g.state.expected with
  | unknownLanguage code place => exact handsOver_report _ g
  | refused => exact handsOver_reject item g
  | token t scanner =>
      dsimp only
      cases g.state.next (t.kind = .tags && g.state.block? = some .examples &&
          scanner.examplesFollow ahead) t.kind with
      | none => exact (handsOver_reject item { g with scanner }).of_move
      | some result =>
          obtain ⟨actions, state⟩ := result
          have hactions := handsOver_performAll (b := b) (k := k) t actions
            (g := { g with scanner }) rfl
          dsimp only
          rw [← List.append_nil (Action.performAll t g.rules actions).1]
          exact hactions.of_move.andThen fun g₁ h₁ => handsOver_goTo (by rw [h₁])

theorem handsOver_run (items : List Item) (c : Cursor) :
    ∃ c', ∀ g : Engine σ τ, g.toCursor = c →
      g.HandsOver b k ((c.strides items).flatMap Stride.events) c' (g.run b k items) := by
  induction items generalizing c with
  | nil => exact ⟨c, fun g hg => hg ▸ handsOver_nil g⟩
  | cons item ahead ih =>
      obtain ⟨c', hrest⟩ := ih (c.consume item ahead).cursor
      refine ⟨c', fun g hg => ?_⟩
      subst hg
      exact (handsOver_consume item ahead g).andThen hrest

/-- What has been delivered in the end is what was to be handed over. -/
theorem HandsOver.delivery {g : Engine σ τ} {r : Reply σ τ} {events : List Event} {c : Cursor}
    (h : g.HandsOver b k events c r) : r.delivery = g.handOver b k events := by
  have hrest := h.delivers []
  rw [List.append_nil] at hrest
  rw [hrest]
  obtain ⟨g', _ | stop⟩ := r
  · simp [Reply.delivery, handOver, Delivery.run]
  · rfl

/-- The events add to what was told, and nothing else decides what builder and sink become. -/
theorem HandsOver.reply {g : Engine σ τ} {r : Reply σ τ} {events told : List Event} {c : Cursor}
    {s : σ} {t : τ} {stop : Option ParseError} (h : g.HandsOver b k events c r)
    (hrun : Delivery.run b k events g.builder g.sink = ⟨told, s, t, stop⟩) :
    r.1.told = told.reverse ++ g.told ∧ r.1.builder = s ∧ r.1.sink = t ∧ r.2 = stop := by
  have hdelivery := h.delivery
  simp only [handOver, hrun, Reply.delivery, Delivery.mk.injEq] at hdelivery
  obtain ⟨htold, hbuilder, hsink, hstop⟩ := hdelivery
  refine ⟨?_, hbuilder, hsink, hstop⟩
  rw [← List.reverse_inj, htold, List.reverse_append, List.reverse_reverse]

/-- What a fresh engine hands over is all that is delivered. -/
theorem HandsOver.delivery_eq {g : Engine σ τ} {r : Reply σ τ} {events : List Event} {c : Cursor}
    (h : g.HandsOver b k events c r) (hg : g.told = []) :
    r.delivery = Delivery.run b k events g.builder g.sink := by
  rw [h.delivery]
  simp [handOver, hg]

end Engine

/-- Reading a text delivers its events, as far as the sink lets it. -/
theorem deliver_eq_run {σ τ : Type _} (d : Dialect) (text : String) (b : Builder σ) (k : Sink τ)
    (s : σ) (t : τ) : deliver d text b k s t = Delivery.run b k (eventsOf d text) s t := by
  obtain ⟨c, hrun⟩ := Engine.handsOver_run (b := b) (k := k) (Item.ofText text) (.start d)
  have hall := (Engine.handsOver_enter .document (Engine.start d s t)).andThen hrun
  exact hall.delivery_eq rfl

end FeaturePlan
