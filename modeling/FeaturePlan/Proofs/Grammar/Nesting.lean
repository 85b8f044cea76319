import FeaturePlan.Proofs.Grammar.Accounting

/-! # Rules are closed in the reverse order of their opening

Leaving to a rule closes rules until that one is the innermost, and would close all of them if it
were not open. It always is: the document is open from the first line to the last, and it could not
be, had such a search ever come to nothing. -/

namespace FeaturePlan

/-! ## Nested events -/

namespace Event

/-- The rules that are open after events, the innermost first, if every rule that is closed among
them is the innermost of those that are open then. -/
def nest? : List Rule → List Event → Option (List Rule)
  | rules, [] => some rules
  | rules, opened rule :: events => nest? (rule :: rules) events
  | [], closed _ :: _ => none
  | innermost :: rules, closed rule :: events =>
    if rule = innermost then nest? rules events else none
  | rules, token _ :: events | rules, error _ :: events => nest? rules events

theorem nest?_append (rules : List Rule) (events more : List Event) :
    nest? rules (events ++ more) = (nest? rules events).bind (nest? · more) := by
  induction events generalizing rules with
  | nil => rfl
  | cons event events ih =>
      cases event with
      | opened rule | token t | error e => exact ih _
      | closed rule =>
          cases rules with
          | nil => rfl
          | cons innermost rules =>
              by_cases h : rule = innermost
              · simpa only [List.cons_append, nest?, if_pos h] using ih rules
              · simp only [List.cons_append, nest?, if_neg h, Option.bind_none]

theorem nest?_closed (closing rules : List Rule) :
    nest? (closing ++ rules) (closing.map closed) = some rules := by
  induction closing with
  | nil => rfl
  | cons rule closing ih => simpa only [List.cons_append, List.map_cons, nest?, if_true] using ih

/-- If a rule can be closed so that nothing remains open, then it is the only one. -/
theorem eq_of_nest?_closed {rules : List Rule} {rule : Rule}
    (h : nest? rules [closed rule] = some []) : rules = [rule] := by
  cases rules with
  | nil => cases h
  | cons innermost rules =>
      by_cases hr : rule = innermost
      · simp only [nest?, if_pos hr] at h
        rw [Option.some.inj h, hr]
      · simp [nest?, hr] at h

theorem nest?_filter (rules : List Rule) (events : List Event) :
    nest? rules (events.filter (!·.isError)) = nest? rules events := by
  induction events generalizing rules with
  | nil => rfl
  | cons event events ih =>
      cases event with
      | opened rule | token t | error e => exact ih _
      | closed rule =>
          cases rules with
          | nil => rfl
          | cons innermost rules =>
              by_cases h : rule = innermost
              · simpa [isError, nest?, h] using ih rules
              · simp [isError, nest?, h]

/-- What is open afterwards was open before or has been opened since, and has not been closed. -/
theorem count_nest? {rules rules' : List Rule} {events : List Event} (rule : Rule)
    (h : nest? rules events = some rules') :
    rules'.count rule + events.count (closed rule) =
      rules.count rule + events.count (opened rule) := by
  induction events generalizing rules with
  | nil =>
      obtain rfl := Option.some.inj h
      simp
  | cons event events ih =>
      cases event with
      | token t | error e => simpa [List.count_cons] using ih h
      | opened r =>
          have hrest := ih h
          simp only [List.count_cons, beq_iff_eq, opened.injEq, reduceCtorEq, if_false]
            at hrest ⊢
          omega
      | closed r =>
          cases rules with
          | nil => cases h
          | cons innermost rules =>
              by_cases hr : r = innermost
              · subst hr
                simp only [nest?, if_true] at h
                have hrest := ih h
                simp only [List.count_cons, beq_iff_eq, closed.injEq, reduceCtorEq, if_false]
                omega
              · simp only [nest?, if_neg hr] at h
                cases h

/-- As long as the outermost rule is not closed, it might as well not be there. -/
theorem nest?_of_outermost (rules : List Rule) {rules' : List Rule} {events : List Event}
    {outermost : Rule} (h : nest? (rules ++ [outermost]) events = some (rules' ++ [outermost]))
    (hclosed : closed outermost ∉ events) : nest? rules events = some rules' := by
  induction events generalizing rules with
  | nil => exact congrArg some (List.append_inj_left' (Option.some.inj h) rfl)
  | cons event events ih =>
      have hrest : closed outermost ∉ events := fun hm => hclosed (List.mem_cons_of_mem _ hm)
      cases event with
      | opened rule => exact ih (rule :: rules) h hrest
      | token t | error e => exact ih rules h hrest
      | closed rule =>
          have hne : rule ≠ outermost := fun he => hclosed (he ▸ List.mem_cons_self)
          cases rules with
          | nil => simp [nest?, hne] at h
          | cons innermost rules =>
              by_cases hr : rule = innermost
              · simp only [List.cons_append, nest?, if_pos hr] at h ⊢
                exact ih rules h hrest
              · simp [nest?, hr] at h

end Event

/-! ## Actions -/

namespace Action

variable {t : Token} {rule : Rule} {rules : List Rule} {action : Action} {actions : List Action}

theorem nest?_perform (t : Token) (rules : List Rule) (action : Action) :
    Event.nest? rules (perform t rules action).1 = some (perform t rules action).2 := by
  cases action with
  | enter rule | shift => rfl
  | leave =>
      cases rules with
      | nil => rfl
      | cons rule rules => exact Event.nest?_closed [rule] rules
  | leaveTo rule =>
      have h := Event.nest?_closed (rules.takeWhile fun r => decide (r ≠ rule))
        (rules.dropWhile fun r => decide (r ≠ rule))
      rwa [List.takeWhile_append_dropWhile] at h

theorem nest?_performAll (t : Token) (rules : List Rule) (actions : List Action) :
    Event.nest? rules (performAll t rules actions).1 = some (performAll t rules actions).2 := by
  induction actions generalizing rules with
  | nil => rfl
  | cons action actions ih =>
      simp only [performAll, Event.nest?_append, nest?_perform, Option.bind_some, ih]

theorem opened_notMem_performAll (h : enter rule ∉ actions) :
    .opened rule ∉ (performAll t rules actions).1 := by
  induction actions generalizing rules with
  | nil => exact List.not_mem_nil
  | cons action actions ih =>
      rw [List.mem_cons, not_or] at h
      refine fun hm => (List.mem_append.mp hm).elim (fun hm => ?_) (ih h.2)
      cases action with
      | enter r =>
          obtain rfl := Event.opened.inj (List.mem_singleton.mp hm)
          exact h.1 rfl
      | leaveTo r | shift => simp at hm
      | leave => cases rules <;> simp at hm

def Finds (rules : List Rule) (action : Action) : Prop :=
  ∀ rule, action = leaveTo rule → rule ∈ rules

/-- Each of the actions, carried out one after the other, finds what it leaves to. -/
def AllFind (t : Token) : List Rule → List Action → Prop
  | _, [] => True
  | rules, action :: actions => action.Finds rules ∧ AllFind t (perform t rules action).2 actions

/-- What is open and has not just been opened was open before. -/
theorem mem_of_mem_perform (h : rule ∈ (perform t rules action).2) (hne : enter rule ≠ action) :
    rule ∈ rules := by
  cases action with
  | enter r =>
      rcases List.mem_cons.mp h with rfl | h
      · exact absurd rfl hne
      · exact h
  | leaveTo r => exact (List.dropWhile_sublist _).mem h
  | shift => exact h
  | leave =>
      cases rules with
      | nil => exact h
      | cons r rules => exact List.mem_cons_of_mem r h

theorem mem_of_mem_performAll (h : rule ∈ (performAll t rules actions).2)
    (hne : enter rule ∉ actions) : rule ∈ rules := by
  induction actions generalizing rules with
  | nil => exact h
  | cons action actions ih =>
      rw [List.mem_cons, not_or] at hne
      exact mem_of_mem_perform (ih h hne.2) hne.1

theorem finds_of_mem (h : rule ∈ (perform t rules action).2) : action.Finds rules := by
  rintro target rfl
  have hne : rules.dropWhile (fun r => decide (r ≠ target)) ≠ [] := List.ne_nil_of_mem h
  have hstop := List.head_dropWhile_not (fun r => decide (r ≠ target)) hne
  have hm := (List.dropWhile_sublist (fun r => decide (r ≠ target))).mem (List.head_mem hne)
  have heq : (rules.dropWhile fun r => decide (r ≠ target)).head hne = target := by
    simpa using hstop
  exact heq ▸ hm

/-- A rule that is open afterwards, and has been open all the time, shows that no search came to
nothing. -/
theorem allFind_of_mem (h : rule ∈ (performAll t rules actions).2)
    (hne : enter rule ∉ actions) : AllFind t rules actions := by
  induction actions generalizing rules with
  | nil => trivial
  | cons action actions ih =>
      rw [List.mem_cons, not_or] at hne
      exact ⟨finds_of_mem (mem_of_mem_performAll h hne.2), ih h hne.2⟩

end Action

/-! ## States -/

namespace State

variable {s s' : State} {kind : TokenKind} {ahead : Bool} {actions : List Action}

/-- The document is opened before all lines, and by none of them. -/
theorem document_not_entered (h : s.next ahead kind = some (actions, s')) :
    .enter .document ∉ actions := by
  have hblock : ∀ kind, s.followBlock ahead kind = some (actions, s') →
      .enter .document ∉ actions := by
    intro kind hf
    obtain ⟨b, -, hb⟩ := Option.bind_eq_some_iff.mp hf
    simp only [follow] at hb
    split at hb <;> try split at hb
    all_goals
      first
      | (obtain ⟨rfl, -⟩ := Prod.mk.inj (Option.some.inj hb); simp)
      | cases hb
  simp only [next] at h
  split at h <;> try split at h
  all_goals
    first
    | exact hblock _ h
    | (obtain ⟨rfl, -⟩ := Prod.mk.inj (Option.some.inj h); simp)
    | cases h

/-- Before the end, the document is open and nothing is open around it. -/
theorem exists_pending_rules (hs : s ≠ done) :
    ∃ rules, s.pending.rules = rules ++ [.document] ∧ .document ∉ rules := by
  refine ⟨s.pending.rules.dropLast, ?_⟩
  have hblock : ∀ b, s.block? = some b → s.pending.rules =
      ((s.inside ++ (b.rule, s.remainder b) :: b.enclosing).rules ++ [.feature]) ++
        [.document] := by
    intro b hb
    rw [pending_of_block hb]
    simp [Frames.rules, Block.outermost]
  cases hb : s.block? with
  | some b =>
      rw [hblock b hb, List.dropLast_concat]
      refine ⟨rfl, fun hm => ?_⟩
      rcases List.mem_append.mp hm with hm | hm
      · obtain ⟨f, hf, he⟩ := List.mem_map.mp hm
        exact (rule_mem_within s b f hf).2 he
      · simp at hm
  | none =>
      cases s with
      | done => exact absurd rfl hs
      | start | headerLanguage | headerTags | scenarioTags | examplesTags => decide
      | _ => cases hb

end State

/-! ## Lines -/

/-- The end of a text closes all that is open, and the document last. -/
theorem Action.performAll_end (t : Token) {rules : List Rule} (h : .document ∉ rules) :
    performAll t (rules ++ [.document]) [.leaveTo .document, .shift, .leave] =
      (rules.map .closed ++ [.token t] ++ [.closed .document], []) := by
  have hne : ∀ r ∈ rules, decide (r ≠ Rule.document) = true := by
    intro r hr
    exact decide_eq_true fun he => h (he ▸ hr)
  have hperform : perform t (rules ++ [.document]) (.leaveTo .document) =
      (rules.map .closed, [.document]) := by
    simp only [perform, List.takeWhile_append_of_pos hne, List.dropWhile_append_of_pos hne]
    simp
  simp only [performAll, hperform]
  simp [perform]

namespace Cursor

variable {c : Cursor}

theorem Consistent.exists_rules (hc : c.Consistent) (hd : c.state ≠ .done) :
    ∃ rules, c.rules = rules ++ [.document] ∧ .document ∉ rules := by
  rw [hc]
  exact State.exists_pending_rules hd

/-- Whatever is done with a line finds open what it leaves to. -/
theorem allFind_of_next (hc : c.Consistent) {t : Token} {ahead : Bool} {actions : List Action}
    {state : State} (ha : c.state.accepts t.kind)
    (hnext : c.state.next ahead t.kind = some (actions, state)) :
    Action.AllFind t c.rules actions := by
  have hd : c.state ≠ .done := by
    intro hdone
    simp [hdone, State.accepts] at ha
  by_cases hk : t.kind = .eof
  · rw [hk] at hnext
    obtain ⟨rfl, -⟩ := Prod.mk.inj (Option.some.inj hnext)
    obtain ⟨rules, hrules, -⟩ := hc.exists_rules hd
    refine ⟨?_, ?_, ?_, trivial⟩
    · rintro rule ⟨⟩
      rw [hrules]
      exact List.mem_append_right rules List.mem_cons_self
    · rintro rule ⟨⟩
    · rintro rule ⟨⟩
  · -- The document is still open behind the line, because only the end of the text closes it.
    have hopen : .document ∈ (Action.performAll t c.rules actions).2 := by
      obtain ⟨rules, hrules, -⟩ := State.exists_pending_rules (State.ne_done_of_next hd hk hnext)
      rw [hc, (State.next_sendsAll ha hnext).rules, hrules]
      exact List.mem_append_right rules List.mem_cons_self
    exact Action.allFind_of_mem hopen (State.document_not_entered hnext)

theorem nest?_consume (c : Cursor) (item : Item) (ahead : List Item) :
    Event.nest? c.rules (c.consume item ahead).events =
      some (c.consume item ahead).cursor.rules := by
  have hcases := c.consumes item ahead
  generalize c.consume item ahead = stride at hcases ⊢
  cases hcases with
  | taken hclass hnext => exact Action.nest?_performAll _ _ _
  | rejected he => rfl
  | ended hclass => simpa [reject, Event.nest?] using Event.nest?_closed c.rules []

theorem document_not_opened (c : Cursor) (item : Item) (ahead : List Item) :
    .opened .document ∉ (c.consume item ahead).events := by
  have hcases := c.consumes item ahead
  generalize c.consume item ahead = stride at hcases ⊢
  cases hcases with
  | taken hclass hnext =>
      exact Action.opened_notMem_performAll (State.document_not_entered hnext)
  | rejected he => simp
  | ended hclass => simp [reject]

/-- Whether the text may end or not, the document is closed last, and nothing remains open. -/
theorem exists_events_at_end (hc : c.Consistent) (hd : c.state ≠ .done) (place : Location)
    (ahead : List Item) :
    ∃ events, (c.consume (.eof place) ahead).events = events ++ [.closed .document] ∧
      (c.consume (.eof place) ahead).cursor.rules = [] := by
  obtain ⟨rules, hrules, hdocument⟩ := hc.exists_rules hd
  have hcases := c.consumes (.eof place) ahead
  generalize c.consume (.eof place) ahead = stride at hcases ⊢
  cases hcases with
  | ended hclass =>
      refine ⟨.error (.unexpectedEnd place c.state.expected) :: rules.map .closed, ?_, rfl⟩
      simp [reject, hrules]
  | @taken item ahead t scanner actions state hclass hnext =>
      rw [Scanner.kind_eq_eof (Scanner.classify_eq_token hclass).2] at hnext
      obtain ⟨rfl, -⟩ := Prod.mk.inj (Option.some.inj hnext)
      rw [hrules, Action.performAll_end t hdocument]
      exact ⟨_, rfl, rfl⟩

/-- The events of a text are nested; the document is closed last, and opened by none of them. -/
theorem nested_strides (raws : List (List Char)) (n : Nat) {c : Cursor} (hc : c.Consistent)
    (hd : c.state ≠ .done) :
    ∃ events,
      (c.strides (Item.number n raws)).flatMap Stride.events = events ++ [.closed .document] ∧
      Event.nest? c.rules (events ++ [.closed .document]) = some [] ∧
      .opened .document ∉ events := by
  induction raws generalizing c n with
  | nil =>
      obtain ⟨events, hevents, hrules⟩ := exists_events_at_end hc hd ⟨n, 1⟩ []
      have hnest := c.nest?_consume (.eof ⟨n, 1⟩) []
      have hopened := c.document_not_opened (.eof ⟨n, 1⟩) []
      rw [hevents, hrules] at hnest
      rw [hevents] at hopened
      refine ⟨events, ?_, hnest, fun hm => hopened (List.mem_append_left _ hm)⟩
      simpa [Item.number, strides] using hevents
  | cons raw raws ih =>
      have hline := consume_begins hc hd ⟨n, raw⟩ (Item.number (n + 1) raws)
      obtain ⟨events, hevents, hnest, hopened⟩ := ih (n + 1) hline.consistent hline.not_done
      refine ⟨(c.consume (.line ⟨n, raw⟩) (Item.number (n + 1) raws)).events ++ events,
        ?_, ?_, ?_⟩
      · rw [Item.number, strides, List.flatMap_cons, hevents, List.append_assoc]
      · rw [List.append_assoc, Event.nest?_append, nest?_consume]
        exact hnest
      · rw [List.mem_append, not_or]
        exact ⟨c.document_not_opened _ _, hopened⟩

end Cursor

/-- Between the opening of the document and its end there is a sequence of nested events. -/
theorem eventsOf_nested (d : Dialect) (text : String) :
    ∃ inner, eventsOf d text = .opened .document :: inner ++ [.closed .document] ∧
      Event.nest? [] inner = some [] ∧
      .opened .document ∉ inner ∧ .closed .document ∉ inner := by
  obtain ⟨inner, hevents, hnest, hopened⟩ :=
    Cursor.nested_strides (Text.lines text.toList) 1 (c := .start d) rfl (by simp [Cursor.start])
  rw [Event.nest?_append, Option.bind_eq_some_iff] at hnest
  obtain ⟨rules, hinner, hend⟩ := hnest
  obtain rfl := Event.eq_of_nest?_closed hend
  have hclosed : .closed .document ∉ inner := by
    have hcount := Event.count_nest? .document hinner
    rw [List.count_eq_zero.mpr hopened] at hcount
    exact List.count_eq_zero.mp (by simpa [Cursor.start] using hcount)
  refine ⟨inner, ?_, Event.nest?_of_outermost [] hinner hclosed, hopened, hclosed⟩
  rw [eventsOf, stridesOf, Item.ofText, hevents]
  rfl

/-! ## The engine -/

namespace Engine

variable {σ τ : Type _}

/-- While it carries out actions on a line, the engine comes to stand before one of them. -/
inductive ComesTo (b : Builder σ) (k : Sink τ) (t : Token) :
    List Action → Engine σ τ → Action → Engine σ τ → Prop where
  | now {action actions g} : ComesTo b k t (action :: actions) g action g
  | later {action actions g g' next last} : g.perform b k t action = (g', none) →
      ComesTo b k t actions g' next last → ComesTo b k t (action :: actions) g next last

/-- While it reads items, the engine comes to stand before an action. -/
inductive Meets (b : Builder σ) (k : Sink τ) :
    List Item → Engine σ τ → Action → Engine σ τ → Prop where
  | now {item ahead g t scanner actions state action last} :
      g.scanner.classify item g.state.expected = .token t scanner →
      g.state.next (t.kind = .tags && g.state.block? = some .examples &&
        scanner.examplesFollow ahead) t.kind = some (actions, state) →
      ComesTo b k t actions { g with scanner } action last →
      Meets b k (item :: ahead) g action last
  | later {item ahead g g' action last} : g.consume b k item ahead = (g', none) →
      Meets b k ahead g' action last → Meets b k (item :: ahead) g action last

variable {b : Builder σ} {k : Sink τ} {g last : Engine σ τ} {action : Action}

theorem ComesTo.finds {t : Token} {actions : List Action}
    (h : ComesTo b k t actions g action last) (hfind : Action.AllFind t g.rules actions) :
    action.Finds last.rules := by
  induction h with
  | now => exact hfind.1
  | @later action actions g g' next last hperform _ ih =>
      have hrules : g'.rules = (Action.perform t g.rules action).2 := by
        have hands := (handsOver_perform (b := b) (k := k) t g action).cursor
        rw [hperform] at hands
        exact congrArg Cursor.rules (hands rfl)
      exact ih (hrules ▸ hfind.2)

/-- From a consistent cursor on, the engine never looks for a rule that is not open. -/
theorem Meets.finds {raws : List (List Char)} {n : Nat} (hc : g.toCursor.Consistent)
    (hd : g.state ≠ .done) (h : Meets b k (Item.number n raws) g action last) :
    action.Finds last.rules := by
  induction raws generalizing g n with
  | nil =>
      cases h with
      | later _ hrest => cases hrest
      | now hclass hnext hcomes =>
          have ha := State.mem_expected.mp (Scanner.classify_eq_token hclass).1
          exact hcomes.finds (Cursor.allFind_of_next hc ha hnext)
  | cons raw raws ih =>
      cases h with
      | later hconsume hrest =>
          have hline := Cursor.consume_begins hc hd ⟨n, raw⟩ (Item.number (n + 1) raws)
          rw [← toCursor_of_consume hconsume] at hline
          exact ih hline.consistent hline.not_done hrest
      | now hclass hnext hcomes =>
          have ha := State.mem_expected.mp (Scanner.classify_eq_token hclass).1
          exact hcomes.finds (Cursor.allFind_of_next hc ha hnext)

theorem rules_run_number (raws : List (List Char)) (n : Nat) (hc : g.toCursor.Consistent)
    (hd : g.state ≠ .done) (h : (g.run b k (Item.number n raws)).2 = none) :
    (g.run b k (Item.number n raws)).1.rules = [] := by
  induction raws generalizing g n with
  | nil =>
      simp only [Item.number, run] at h ⊢
      rcases hconsume : g.consume b k (.eof ⟨n, 1⟩) [] with ⟨g', _ | stop⟩
      · obtain ⟨-, -, hrules⟩ := Cursor.exists_events_at_end hc hd ⟨n, 1⟩ []
        rw [← toCursor_of_consume hconsume] at hrules
        exact hrules
      · rw [hconsume] at h
        cases h
  | cons raw raws ih =>
      simp only [Item.number, run] at h ⊢
      rcases hconsume : g.consume b k (.line ⟨n, raw⟩) (Item.number (n + 1) raws) with
        ⟨g', _ | stop⟩
      · have hline := Cursor.consume_begins hc hd ⟨n, raw⟩ (Item.number (n + 1) raws)
        rw [← toCursor_of_consume hconsume] at hline
        rw [hconsume] at h
        exact ih (n + 1) hline.consistent hline.not_done h
      · rw [hconsume] at h
        cases h

end Engine

theorem Delivery.stopped_run {σ τ : Type _} (b : Builder σ) {k : Sink τ}
    (hk : ∀ e t, (k.report e t).2 = none) (events : List Event) (s : σ) (t : τ) :
    (run b k events s t).stopped = none := by
  have h := sameCourse_run b (k := k) (l := Sink.collect) (R := fun _ _ => True)
    (fun e t es _ => ⟨hk e t, fun _ => trivial⟩) events s (t := t) (u := []) trivial
  exact h.stopped.trans (run_collect_spec b events s []).1

/-- What a builder is told is nested, whatever it refuses. The document comes first and last, and
only there; nothing remains open unless the sink stops the reading, and then the builder has been
told the beginning of the same. Wherever rules are closed up to a certain one, that one is open. -/
theorem builder_told_nested {σ τ : Type _} (d : Dialect) (text : String) (b : Builder σ)
    (k : Sink τ) (s : σ) (t : τ) :
    let start := (Engine.start d s t).enter b .document
    let delivery := deliver d text b k s t
    (∃ inner, Event.nest? [] inner = some [] ∧
        .opened .document ∉ inner ∧ .closed .document ∉ inner ∧
        delivery.events <+: .opened .document :: inner ++ [.closed .document] ∧
        (delivery.stopped = none →
          delivery.events = .opened .document :: inner ++ [.closed .document])) ∧
      (delivery.stopped = none → (start.run b k (Item.ofText text)).1.rules = []) ∧
      ((∀ e t, (k.report e t).2 = none) → delivery.stopped = none) ∧
      ∀ rule last, start.Meets b k (Item.ofText text) (.leaveTo rule) last →
        rule ∈ last.rules := by
  intro start delivery
  have hc : start.toCursor.Consistent := rfl
  have hd : start.state ≠ .done := by simp [start, Engine.enter, Engine.start]
  have hdelivery : delivery = Delivery.run b k (eventsOf d text) s t :=
    deliver_eq_run d text b k s t
  refine ⟨?_, ?_, ?_, ?_⟩
  · obtain ⟨inner, hevents, hnest, hopened, hclosed⟩ := eventsOf_nested d text
    have htells := Delivery.tells_run b (k := k) (eventsOf d text) s t
    rw [← hdelivery, hevents, List.filter_append, List.filter_cons_of_pos rfl,
      List.filter_singleton] at htells
    refine ⟨inner.filter (!·.isError), ?_, ?_, ?_, htells.told, htells.all⟩
    · rw [Event.nest?_filter, hnest]
    · exact fun hm => hopened (List.mem_of_mem_filter hm)
    · exact fun hm => hclosed (List.mem_of_mem_filter hm)
  · exact Engine.rules_run_number (Text.lines text.toList) 1 hc hd
  · intro hk
    rw [hdelivery]
    exact Delivery.stopped_run b hk (eventsOf d text) s t
  · intro rule last h
    exact Engine.Meets.finds hc hd h rule rfl

/-- An outline without examples, whose table the builder refuses: two errors at the end of the text,
neither of which leaves a rule open. -/
theorem builder_told_nested_at_unexpected_end :
    let b : Builder Unit :=
      ⟨fun _ s => s, fun _ s => s,
        fun rule s => (s, if rule = .dataTable then some (.unevenRow ⟨4, 1⟩) else none)⟩
    let text := "Feature: F\nScenario Outline: O\nGiven a\n| b |\n"
    (deliver .english text b Sink.collect () []).sink.length = 2 ∧
      (∀ e es, (Sink.collect.report e es).2 = none) ∧
      ∃ inner, Event.nest? [] inner = some [] ∧
        (deliver .english text b Sink.collect () []).events =
          .opened .document :: inner ++ [.closed .document] := by
  intro b text
  have hk : ∀ e es, (Sink.collect.report e es).2 = none := fun _ _ => rfl
  obtain ⟨⟨inner, hnest, -, -, -, hall⟩, -, hstop, -⟩ :=
    builder_told_nested .english text b Sink.collect () []
  exact ⟨by decide +kernel, hk, inner, hnest, hall (hstop hk)⟩

end FeaturePlan
