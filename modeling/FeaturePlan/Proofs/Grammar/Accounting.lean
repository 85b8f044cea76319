import FeaturePlan.Proofs.Grammar.Beginnings
import Mathlib.Data.List.Forall2

/-! # Every line is accounted for

Each line of a text is either handed over or turned away, and so is its end. The end is what brings
the state to `done`, whether it may stand where it stands or not; so an engine that goes by its
state alone takes each line once, then the end, and then nothing more. -/

namespace FeaturePlan

/-! ## What becomes of a line -/

namespace Event

/-- A line that is handed over, or an error of the reading itself. -/
def isReport : Event → Bool
  | token _ | error _ => true
  | opened _ | closed _ => false

inductive SettlesLine (number : Nat) : Event → Prop where
  | handedOver {t : Token} : t.place.line = number → t.kind ≠ .eof → SettlesLine number (.token t)
  | turnedAway {e : ParseError} : e.rejectedLine? = some number → SettlesLine number (.error e)

inductive SettlesEnd (place : Location) : Event → Prop where
  | handedOver {t : Token} : t.place = place → t.kind = .eof → SettlesEnd place (.token t)
  | unexpected {expected : List TokenKind} :
      SettlesEnd place (.error (.unexpectedEnd place expected))

end Event

theorem Action.filter_isReport_performAll (t : Token) (rules : List Rule)
    (actions : List Action) :
    (performAll t rules actions).1.filter Event.isReport =
      List.replicate (actions.count .shift) (.token t) := by
  induction actions generalizing rules with
  | nil => rfl
  | cons action actions ih =>
      simp only [performAll, List.filter_append, ih]
      cases action with
      | enter rule => rfl
      | leaveTo rule => simp [perform, Event.isReport]
      | leave => cases rules <;> rfl
      | shift =>
          rw [List.count_cons_self, List.replicate_succ]
          rfl

namespace Cursor

variable {c : Cursor}

/-- A line that is taken is the only thing reported of its stride. -/
theorem filter_isReport_taken {t : Token} {ahead : Bool} {actions : List Action} {state : State}
    (hnext : c.state.next ahead t.kind = some (actions, state)) :
    (Action.performAll t c.rules actions).1.filter Event.isReport = [.token t] := by
  rw [Action.filter_isReport_performAll, State.count_shift_of_next hnext]
  rfl

/-- A line leads to one report, and never to the end of the reading. -/
theorem settles_line (hc : c.state ≠ .done) (l : Line) (ahead : List Item) :
    (∃ e, (c.consume (.line l) ahead).events.filter Event.isReport = [e] ∧
        e.SettlesLine l.number) ∧
      (c.consume (.line l) ahead).cursor.state ≠ .done := by
  have hcases := c.consumes (.line l) ahead
  generalize c.consume (.line l) ahead = stride at hcases ⊢
  cases hcases with
  | rejected he => exact ⟨⟨_, rfl, .turnedAway he⟩, hc⟩
  | taken hclass hnext =>
      have hread := (Scanner.classify_eq_token hclass).2
      have hkind := Scanner.kind_ne_eof hread
      refine ⟨⟨_, filter_isReport_taken hnext, ?_⟩, ?_⟩
      · exact .handedOver (Scanner.line_of_read hread) hkind
      · exact State.ne_done_of_next hc hkind hnext

/-- The end of the text leads to one report, and to the end of the reading. -/
theorem settles_end (c : Cursor) (place : Location) (ahead : List Item) :
    (∃ e, (c.consume (.eof place) ahead).events.filter Event.isReport = [e] ∧
        e.SettlesEnd place) ∧
      (c.consume (.eof place) ahead).cursor.state = .done := by
  have hcases := c.consumes (.eof place) ahead
  generalize c.consume (.eof place) ahead = stride at hcases ⊢
  cases hcases with
  | ended hclass =>
      have hclosed : (c.rules.map Event.closed).filter Event.isReport = [] :=
        List.filter_eq_nil_iff.mpr fun e he => by
          obtain ⟨rule, -, rfl⟩ := List.mem_map.mp he
          simp [Event.isReport]
      exact ⟨⟨_, congrArg (List.cons _) hclosed, .unexpected⟩, rfl⟩
  | taken hclass hnext =>
      have hread := (Scanner.classify_eq_token hclass).2
      have hkind := Scanner.kind_eq_eof hread
      refine ⟨⟨_, filter_isReport_taken hnext, .handedOver ?_ hkind⟩, ?_⟩
      · rw [(Scanner.keep_eq_token hread).2.2]
      · rw [hkind] at hnext
        exact (Prod.mk.inj (Option.some.inj hnext)).2.symm

/-- The reports of a whole text: one for each of its lines, in order, and one for its end. -/
theorem settles_strides (raws : List (List Char)) (n : Nat) {c : Cursor} (hc : c.state ≠ .done) :
    ∃ reports last,
      ((c.strides (Item.number n raws)).flatMap Stride.events).filter Event.isReport =
        reports ++ [last] ∧
      List.Forall₂ Event.SettlesLine (List.range' n raws.length) reports ∧
      last.SettlesEnd ⟨n + raws.length, 1⟩ := by
  induction raws generalizing n c with
  | nil =>
      obtain ⟨⟨last, hlast, hend⟩, -⟩ := c.settles_end ⟨n, 1⟩ []
      exact ⟨[], last, by simpa [Item.number, strides] using hlast, .nil, hend⟩
  | cons raw raws ih =>
      obtain ⟨⟨first, hfirst, hline⟩, hc'⟩ :=
        settles_line hc ⟨n, raw⟩ (Item.number (n + 1) raws)
      obtain ⟨reports, last, hreports, hlines, hend⟩ := ih (n + 1) hc'
      refine ⟨first :: reports, last, ?_, .cons hline hlines, ?_⟩
      · rw [Item.number, strides, List.flatMap_cons, List.filter_append, hfirst, hreports]
        rfl
      · rwa [List.length_cons, Nat.add_comm raws.length, ← Nat.add_assoc]

end Cursor

/-! ## Reading until the state is `done` -/

namespace Engine

variable {σ τ : Type _} {b : Builder σ} {k : Sink τ} {g g' : Engine σ τ}

theorem toCursor_of_consume {item : Item} {ahead : List Item}
    (h : g.consume b k item ahead = (g', none)) :
    g'.toCursor = (g.toCursor.consume item ahead).cursor := by
  have hands := (handsOver_consume (b := b) (k := k) item ahead g).cursor
  rw [h] at hands
  exact hands rfl

theorem RunsUntilDone.unique {place : Location} {items : List Item} {calls calls' : Nat}
    {r r' : Reply σ τ} (h : RunsUntilDone b k place g items calls r)
    (h' : RunsUntilDone b k place g items calls' r') : calls = calls' ∧ r = r' := by
  induction h generalizing calls' r' with
  | done hdone =>
      cases h' with
      | done => exact ⟨rfl, rfl⟩
      | stopped hnot | next hnot => exact absurd hdone hnot
  | stopped hnot hcall =>
      cases h' with
      | done hdone => exact absurd hdone hnot
      | stopped _ hcall' => exact ⟨rfl, hcall.symm.trans hcall'⟩
      | next _ hcall' => cases hcall.symm.trans hcall'
  | next hnot hcall _ ih =>
      cases h' with
      | done hdone => exact absurd hdone hnot
      | stopped _ hcall' => cases hcall.symm.trans hcall'
      | next _ hcall' hrest =>
          obtain rfl := (Prod.mk.inj (hcall.symm.trans hcall')).1
          obtain ⟨rfl, rfl⟩ := ih hrest
          exact ⟨rfl, rfl⟩

/-- An engine that goes by its state takes the items of a text and no more. If nothing stops it, it
takes all of them. -/
theorem runsUntilDone_number (place : Location) (raws : List (List Char)) (n : Nat)
    (hg : g.state ≠ .done) :
    ∃ calls ≤ raws.length + 1,
      RunsUntilDone b k place g (Item.number n raws) calls (g.run b k (Item.number n raws)) ∧
      ((g.run b k (Item.number n raws)).2 = none →
        calls = raws.length + 1 ∧ (g.run b k (Item.number n raws)).1.state = .done) := by
  induction raws generalizing n g with
  | nil =>
      rcases hcall : g.consume b k (.eof ⟨n, 1⟩) [] with ⟨g', _ | stop⟩
      · have hdone : g'.state = .done := by
          rw [toCursor_of_consume hcall]
          exact (g.toCursor.settles_end ⟨n, 1⟩ []).2
        refine ⟨1, Nat.le_refl 1, ?_, ?_⟩ <;> simp only [Item.number, run, hcall]
        · exact .next hg hcall (.done hdone)
        · exact fun _ => ⟨rfl, hdone⟩
      · refine ⟨1, Nat.le_refl 1, ?_, ?_⟩ <;> simp only [Item.number, run, hcall]
        · exact .stopped hg hcall
        · exact fun hstop => by cases hstop
  | cons raw raws ih =>
      rcases hcall : g.consume b k (.line ⟨n, raw⟩) (Item.number (n + 1) raws) with
        ⟨g', _ | stop⟩
      · have hg' : g'.state ≠ .done := by
          rw [toCursor_of_consume hcall]
          exact (Cursor.settles_line hg ⟨n, raw⟩ (Item.number (n + 1) raws)).2
        obtain ⟨calls, hcalls, hrun, hall⟩ := ih (n + 1) hg'
        refine ⟨calls + 1, Nat.succ_le_succ hcalls, ?_, ?_⟩ <;> simp only [Item.number, run, hcall]
        · exact .next hg hcall hrun
        · intro hstop
          obtain ⟨rfl, hdone⟩ := hall hstop
          exact ⟨rfl, hdone⟩
      · refine ⟨1, by omega, ?_, ?_⟩ <;> simp only [Item.number, run, hcall]
        · exact .stopped hg hcall
        · exact fun hstop => by cases hstop

end Engine

/-! ## Texts -/

/-- Nothing stops a reading that keeps its errors. Going by the state alone, it takes each line and
the end of the text, and no more. Builder and sink are handed the events of the text, of which
there is a report for each line, in order, then one for the end, and no other. -/
theorem lines_accounted_for {σ : Type _} (d : Dialect) (text : String) (b : Builder σ) (s : σ) :
    let count := (Text.lines text.toList).length
    let start := (Engine.start d s []).enter b .document
    ∃ (g : Engine σ (List ParseError)) (reports : List Event) (last : Event),
      (∀ calls r, start.RunsUntilDone b .collect ⟨count + 1, 1⟩ (Item.ofText text) calls r ↔
        calls = count + 1 ∧ r = (g, none)) ∧
      g.state = .done ∧
      Engine.Reply.delivery (g, none) = Delivery.run b .collect (eventsOf d text) s [] ∧
      g.told.reverse = (eventsOf d text).filter (!·.isError) ∧
      (eventsOf d text).filter Event.isReport = reports ++ [last] ∧
      List.Forall₂ Event.SettlesLine (List.range' 1 count) reports ∧
      last.SettlesEnd ⟨count + 1, 1⟩ := by
  intro count start
  have hstart : start.state ≠ .done := by simp [start, Engine.enter, Engine.start]
  obtain ⟨calls, -, hcalls, hdone⟩ := Engine.runsUntilDone_number (b := b) (k := .collect)
    ⟨count + 1, 1⟩ (Text.lines text.toList) 1 hstart
  obtain ⟨reports, last, hreports, hlines, hend⟩ :=
    Cursor.settles_strides (Text.lines text.toList) 1 (c := .start d) (by simp [Cursor.start])
  have hdeliver : (start.run b .collect (Item.ofText text)).delivery =
      Delivery.run b .collect (eventsOf d text) s [] := deliver_eq_run d text b .collect s []
  have hstop := (Delivery.run_collect_spec b (eventsOf d text) s []).1
  have htold := (Delivery.tells_run b (k := .collect) (eventsOf d text) s []).all hstop
  rw [← hdeliver] at hstop htold
  rw [Item.ofText] at hdeliver hstop htold
  rcases hrun : start.run b .collect (Item.number 1 (Text.lines text.toList)) with ⟨g, stop⟩
  rw [hrun] at hcalls hdone hdeliver hstop htold
  obtain rfl : stop = none := hstop
  obtain ⟨rfl, hstate⟩ := hdone rfl
  refine ⟨g, reports, last, ?_, hstate, hdeliver, htold, ?_, hlines, ?_⟩
  · intro calls r
    constructor
    · exact fun h => h.unique hcalls
    · rintro ⟨rfl, rfl⟩
      exact hcalls
  · rw [eventsOf, List.filter_cons_of_neg (by simp [Event.isReport]), stridesOf, Item.ofText,
      hreports]
  · rwa [Nat.add_comm]

end FeaturePlan
