import FeaturePlan.Grammar.Event
import FeaturePlan.Proofs.Scanner.Classify

/-! # Single strides

What can happen when an item is taken. Either the item is put where it belongs, or it is a line that
may not stand here and changes nothing, or the text ends where it may not end. -/

namespace FeaturePlan

/-! ## The automaton -/

theorem Block.follows_eq_false {b : Block} {kind : TokenKind}
    (h : kind ∈ [.empty, .comment, .title .feature, .separator, .language, .other]) :
    b.follows kind = false := by
  simp only [List.mem_cons, List.not_mem_nil, or_false] at h
  rcases h with rfl | rfl | rfl | rfl | rfl | rfl <;> cases b <;> rfl

namespace State

variable {s s' : State} {b : Block} {kind : TokenKind} {ahead : Bool} {actions : List Action}

theorem next_isSome (h : s.accepts kind) : (s.next ahead kind).isSome := by
  have hnever (b : Block) := @Block.follows_eq_false b kind
  cases kind with
  | eof | empty => rfl
  | comment => cases s <;> rfl
  | tags =>
      have hfollow : ∀ b, (follow b ahead .tags).isSome := by
        intro b
        simp only [follow]
        split <;> rfl
      cases s <;> first | rfl | exact hfollow _ | simp [accepts] at h
  | title block =>
      cases block with
      | feature => cases s <;> first | rfl | simp [accepts, hnever] at h
      | _ => cases s <;> first | rfl | simp [accepts] at h
  | step | row => cases s <;> first | rfl | simp [accepts] at h
  | separator | language | other => cases s <;> first | rfl | simp [accepts, hnever] at h

theorem count_shift_of_follow (h : follow b ahead kind = some (actions, s')) :
    actions.count .shift = 1 := by
  simp only [follow] at h
  split at h <;> try split at h
  all_goals
    first
    | (obtain ⟨rfl, -⟩ := Prod.mk.inj (Option.some.inj h); rfl)
    | cases h

theorem count_shift_of_next (h : s.next ahead kind = some (actions, s')) :
    actions.count .shift = 1 := by
  have hblock : s.followBlock ahead kind = some (actions, s') → actions.count .shift = 1 := by
    intro hf
    obtain ⟨b, -, hb⟩ := Option.bind_eq_some_iff.mp hf
    exact count_shift_of_follow hb
  simp only [next] at h
  split at h <;> try split at h
  all_goals
    first
    | exact hblock h
    | (obtain ⟨rfl, -⟩ := Prod.mk.inj (Option.some.inj h); rfl)
    | cases h

end State

/-! ## Items and what they are read as -/

/-- The number of the line, or of the line that would come next. -/
def Item.lineNumber : Item → Nat
  | .line l => l.number
  | .eof place => place.line

namespace Scanner

variable {s s' : Scanner} {t : Token} {kind : TokenKind}

theorem line_of_read {item : Item} (h : s.read kind item = .token t s') :
    t.place.line = item.lineNumber := by
  have hkeep : ∀ {place : Location} {content : Option Content},
      s.keep place content = .token t s' → t.place = place := by
    intro place content hk
    rw [(keep_eq_token hk).2.2]
  cases item with
  | eof place => exact congrArg Location.line (hkeep h)
  | line l =>
      cases kind with
      | eof => simp [read, readLine] at h
      | language =>
          simp only [read, readLine, readLanguage] at h
          split at h <;> try split at h
          all_goals first | (obtain ⟨rfl, -⟩ := Reading.token.inj h; rfl) | cases h
      | separator =>
          simp only [read, readLine, readSeparator] at h
          split at h <;> split at h
          all_goals first | (obtain ⟨rfl, -⟩ := Reading.token.inj h; rfl) | cases h
      | other =>
          obtain ⟨rfl, -⟩ := Reading.token.inj h
          rfl
      | _ => exact congrArg Location.line (hkeep h)

theorem place_of_unknownLanguage {l : Line} {code : String} {place : Location}
    (h : s.readLanguage l = .unknownLanguage code place) : place = l.start := by
  simp only [readLanguage] at h
  split at h <;> try split at h
  all_goals first | exact (Reading.unknownLanguage.inj h).2.symm | cases h

end Scanner

/-- The number of the line that an error turns away, if it turns a line away. -/
def ParseError.rejectedLine? : ParseError → Option Nat
  | unexpectedLine place _ _ | unknownLanguage _ place => some place.line
  | unexpectedEnd _ _ | unevenRow _ => none

namespace Cursor

inductive Consumes (c : Cursor) : Item → List Item → Stride → Prop where
  | taken {item ahead t scanner actions state} :
      c.scanner.classify item c.state.expected = .token t scanner →
      c.state.next (t.kind = .tags && c.state.block? = some .examples &&
        scanner.examplesFollow ahead) t.kind = some (actions, state) →
      Consumes c item ahead ⟨(Action.performAll t c.rules actions).1,
        ⟨state, scanner, (Action.performAll t c.rules actions).2⟩⟩
  | rejected {l ahead e} : e.rejectedLine? = some l.number →
      Consumes c (.line l) ahead ⟨[.error e], c⟩
  | ended {place ahead} :
      c.scanner.classify (.eof place) c.state.expected = .refused →
      Consumes c (.eof place) ahead (c.reject (.eof place))

/-- There is something to do with a line of a class that is expected. -/
theorem exists_next {c : Cursor} {item : Item} {t : Token} {scanner : Scanner}
    (h : c.scanner.classify item c.state.expected = .token t scanner) (ahead : Bool) :
    ∃ actions state, c.state.next ahead t.kind = some (actions, state) := by
  have hsome : (c.state.next ahead t.kind).isSome :=
    State.next_isSome (State.mem_expected.mp (Scanner.classify_eq_token h).1)
  obtain ⟨⟨actions, state⟩, hn⟩ := Option.isSome_iff_exists.mp hsome
  exact ⟨actions, state, hn⟩

theorem consumes (c : Cursor) (item : Item) (ahead : List Item) :
    c.Consumes item ahead (c.consume item ahead) := by
  cases hc : c.scanner.classify item c.state.expected with
  | unknownLanguage code place =>
      obtain ⟨l, rfl, hl⟩ := Scanner.classify_eq_unknownLanguage hc
      obtain rfl := Scanner.place_of_unknownLanguage hl
      simp only [consume, hc]
      exact .rejected rfl
  | refused =>
      simp only [consume, hc]
      cases item with
      | line l => exact .rejected rfl
      | eof place => exact .ended hc
  | token t scanner =>
      obtain ⟨actions, state, hn⟩ := exists_next hc
        (t.kind = .tags && c.state.block? = some .examples && scanner.examplesFollow ahead)
      simp only [consume, hc, hn]
      exact .taken hc hn

end Cursor

/-! ## Lines that are changed -/

/-- The event with the line that it hands over, or its error, changed. -/
def Event.map (g : Token → Token) (h : ParseError → ParseError) : Event → Event
  | opened rule => opened rule
  | closed rule => closed rule
  | token t => token (g t)
  | error e => error (h e)

theorem Action.performAll_map (g : Token → Token) (h : ParseError → ParseError) (t : Token)
    (rules : List Rule) (actions : List Action) :
    performAll (g t) rules actions =
      ((performAll t rules actions).1.map (Event.map g h), (performAll t rules actions).2) := by
  induction actions generalizing rules with
  | nil => rfl
  | cons action actions ih =>
      have hperform : perform (g t) rules action =
          ((perform t rules action).1.map (Event.map g h), (perform t rules action).2) := by
        cases action with
        | enter rule | shift => rfl
        | leave => cases rules <;> rfl
        | leaveTo rule => simp [perform, Event.map]
      simp only [performAll, hperform, ih, List.map_append]

/-! ## Lines that are handed over -/

/-- Actions hand over the line that they act on, and no other. -/
theorem Action.eq_of_mem_performAll {t u : Token} {rules : List Rule} {actions : List Action}
    (h : .token u ∈ (performAll t rules actions).1) : u = t := by
  induction actions generalizing rules with
  | nil => cases h
  | cons action actions ih =>
    rcases List.mem_append.mp h with h | h
    · cases action with
      | leave => cases rules <;> simp at h
      | enter rule | leaveTo rule => simp at h
      | shift => simpa [perform] using h
    · exact ih h

/-- The only line that is handed over is the one that was taken. -/
theorem Cursor.read_of_mem_consume {c : Cursor} {item : Item} {ahead : List Item} {t : Token}
    (h : .token t ∈ (c.consume item ahead).events) :
    ∃ scanner, c.scanner.read t.kind item = .token t scanner := by
  have hcases := c.consumes item ahead
  generalize c.consume item ahead = stride at h hcases
  cases hcases with
  | taken hclass hnext =>
    obtain rfl := Action.eq_of_mem_performAll h
    exact ⟨_, (Scanner.classify_eq_token hclass).2⟩
  | rejected he => simp at h
  | ended hclass => simp [reject] at h

/-! ## Line numbers -/

def Event.line? : Event → Option Nat
  | .token t => some t.place.line
  | .error e => some e.place.line
  | .opened _ | .closed _ => none

theorem ParseError.line_of_rejectedLine? {e : ParseError} {n : Nat}
    (h : e.rejectedLine? = some n) : e.place.line = n := by
  cases e with
  | unexpectedLine place expected received => exact Option.some.inj h
  | unknownLanguage code place => exact Option.some.inj h
  | unexpectedEnd place expected => cases h
  | unevenRow place => cases h

theorem Action.filterMap_line?_performAll (t : Token) (rules : List Rule) (actions : List Action) :
    (performAll t rules actions).1.filterMap Event.line? =
      List.replicate (actions.count .shift) t.place.line := by
  induction actions generalizing rules with
  | nil => rfl
  | cons action actions ih =>
      simp only [performAll, List.filterMap_append, ih]
      cases action with
      | enter rule => rfl
      | leaveTo rule => simp [perform, Event.line?]
      | leave => cases rules <;> rfl
      | shift =>
          rw [List.count_cons_self, List.replicate_succ]
          rfl

namespace Cursor

theorem filterMap_line?_consume (c : Cursor) (item : Item) (ahead : List Item) :
    (c.consume item ahead).events.filterMap Event.line? = [item.lineNumber] := by
  have h := c.consumes item ahead
  generalize c.consume item ahead = stride at h ⊢
  cases h with
  | taken hc hn =>
      rw [Action.filterMap_line?_performAll, State.count_shift_of_next hn,
        Scanner.line_of_read (Scanner.classify_eq_token hc).2]
      rfl
  | rejected he =>
      simp [Event.line?, ParseError.line_of_rejectedLine? he, Item.lineNumber]
  | ended hc =>
      simp [reject, Event.line?, ParseError.place, Item.lineNumber]

/-- Every line, and the end of the text, leads to one event, in this order. -/
theorem filterMap_line?_strides (raws : List (List Char)) (c : Cursor) (n : Nat) :
    ((c.strides (Item.number n raws)).flatMap Stride.events).filterMap Event.line? =
      List.range' n (raws.length + 1) := by
  induction raws generalizing c n with
  | nil => simp [Item.number, strides, filterMap_line?_consume, Item.lineNumber]
  | cons raw raws ih =>
      rw [Item.number, strides, List.flatMap_cons, List.filterMap_append, filterMap_line?_consume,
        ih, List.length_cons, List.range'_succ]
      rfl

end Cursor

end FeaturePlan
