import FeaturePlan.Proofs.Grammar.Sentences
import FeaturePlan.Proofs.Grammar.Strides

/-! # Every text begins a sentence

Lines that are turned away leave no trace in what the grammar describes. So what is left of any text
is a sentence, or the beginning of one that the end of the text cuts off. -/

namespace FeaturePlan

/-! ## Every expectation can be met -/

theorem TokenKind.exists_token (kind : TokenKind) : ∃ t : Token, t.kind = kind := by
  have hcontent : ∃ content : Content, content.kind = kind := by
    cases kind with
    | eof => exact ⟨.eof, rfl⟩
    | empty => exact ⟨.empty, rfl⟩
    | comment => exact ⟨.comment "", rfl⟩
    | tags => exact ⟨.tags [], rfl⟩
    | title block => exact ⟨.title block "" "", rfl⟩
    | step => exact ⟨.step "" "", rfl⟩
    | separator => exact ⟨.separator .quotes "", rfl⟩
    | row => exact ⟨.row [], rfl⟩
    | language => exact ⟨.language "", rfl⟩
    | other => exact ⟨.other "", rfl⟩
  obtain ⟨content, h⟩ := hcontent
  exact ⟨⟨⟨1, 1⟩, .english, content⟩, h⟩

namespace Production

def Derivable (p : Production) : Prop :=
  ∃ events, p.Derives events

theorem derivable_line (kind : TokenKind) : (line kind).Derivable :=
  have ⟨_, h⟩ := kind.exists_token
  ⟨_, .line h⟩

theorem derivable_of_nullable {p : Production} (h : p.nullable) : p.Derivable :=
  ⟨[], derives_nil_of_nullable h⟩

theorem Derivable.seq {p q : Production} (hp : p.Derivable) (hq : q.Derivable) :
    (seq p q).Derivable :=
  have ⟨_, hp⟩ := hp
  have ⟨_, hq⟩ := hq
  ⟨_, .seq hp hq⟩

theorem Derivable.left {p q : Production} (h : p.Derivable) : (either p q).Derivable :=
  have ⟨_, h⟩ := h
  ⟨_, .left h⟩

theorem Derivable.rule {r : Rule} (h : r.production.Derivable) : (rule r).Derivable :=
  have ⟨_, h⟩ := h
  ⟨_, .rule h⟩

theorem derivable_rule (r : Rule) : r.production.Derivable := by
  have hblock : ∀ {kind : TokenKind} {q : Production}, q.nullable → (seq (line kind) q).Derivable :=
    fun h => (derivable_line _).seq (derivable_of_nullable h)
  have hexamples : (Production.rule .examples).Derivable := .rule (hblock rfl)
  have hdefinition : (Production.rule .examplesDefinition).Derivable :=
    .rule ((derivable_of_nullable rfl).seq (hexamples.seq (derivable_of_nullable rfl)))
  have hheader : Rule.featureHeader.production.Derivable :=
    (derivable_of_nullable rfl).seq ((derivable_of_nullable rfl).seq (hblock rfl))
  cases r with
  | document => exact (derivable_of_nullable rfl).seq (hblock rfl)
  | feature => exact (Derivable.rule hheader).seq (derivable_of_nullable rfl)
  | featureHeader => exact hheader
  | scenarioDefinition =>
      have hscenario : (Production.rule .scenario).Derivable := .rule (hblock rfl)
      exact (derivable_of_nullable rfl).seq (hscenario.left.seq (derivable_of_nullable rfl))
  | scenarioOutline =>
      exact (derivable_line _).seq ((derivable_of_nullable rfl).seq ((derivable_of_nullable rfl).seq
        ((hdefinition.seq (derivable_of_nullable rfl)).seq (derivable_of_nullable rfl))))
  | examplesDefinition =>
      exact (derivable_of_nullable rfl).seq (hexamples.seq (derivable_of_nullable rfl))
  | docString => exact (derivable_line _).seq ((derivable_of_nullable rfl).seq (hblock rfl))
  | background | scenario | examples | examplesTable | step | dataTable | tags | description =>
      exact hblock rfl

theorem derivable (p : Production) : p.Derivable := by
  induction p with
  | line kind => exact derivable_line kind
  | rule r => exact .rule (derivable_rule r)
  | nothing | many p => exact derivable_of_nullable rfl
  | seq p q hp hq => exact hp.seq hq
  | either p q hp _ => exact hp.left

/-- The events are the beginning of some that the production derives. -/
inductive Starts : Production → List Event → Prop where
  | whole {p es} : p.Derives es → Starts p es
  | nil {p} : Starts p []
  | rule {r es} : Starts r.production es → Starts (.rule r) (.opened r :: es)
  | left {p q es} : Starts p es → Starts (.either p q) es
  | right {p q es} : Starts q es → Starts (.either p q) es
  | first {p q es} : Starts p es → Starts (.seq p q) es
  | seq {p q es fs} : p.Derives es → Starts q fs → Starts (.seq p q) (es ++ fs)
  | again {p es} : Starts p es → Starts (.many p) es
  | more {p es fs} : p.Derives es → Starts (.many p) fs → Starts (.many p) (es ++ fs)

theorem Derives.starts {p : Production} {all : List Event} (h : p.Derives all) :
    ∀ {es more : List Event}, all = es ++ more → p.Starts es := by
  induction h with
  | line hk =>
      intro es more hall
      rcases List.singleton_eq_append_iff.mp hall with ⟨rfl, -⟩ | ⟨rfl, -⟩
      · exact .nil
      · exact .whole (.line hk)
  | @rule r inner hd ih =>
      intro es more hall
      rcases List.eq_nil_or_concat more with rfl | ⟨more, last, rfl⟩
      · rw [List.append_nil] at hall
        exact .whole (hall ▸ .rule hd)
      · cases es with
        | nil => exact .nil
        | cons e es =>
            rw [List.cons_append, List.cons_append, List.concat_eq_append,
              ← List.append_assoc] at hall
            obtain ⟨rfl, hrest⟩ := List.cons.inj hall
            exact .rule (ih (List.append_inj' hrest rfl).1)
  | nothing | none =>
      intro es more hall
      exact (List.append_eq_nil_iff.mp hall.symm).1 ▸ .nil
  | left _ ih => exact fun hall => .left (ih hall)
  | right _ ih => exact fun hall => .right (ih hall)
  | seq hp _ ihp ihq =>
      intro es more hall
      rcases List.append_eq_append_iff.mp hall with ⟨rest, rfl, hrest⟩ | ⟨rest, hes, -⟩
      · exact .seq hp (ihq hrest)
      · exact .first (ihp hes)
  | more hp _ ihp ihq =>
      intro es more hall
      rcases List.append_eq_append_iff.mp hall with ⟨rest, rfl, hrest⟩ | ⟨rest, hes, -⟩
      · exact .more hp (ihq hrest)
      · exact .again (ihp hes)

end Production

theorem Frames.exists_finish (F : Frames) : ∃ events, Finish F events := by
  induction F with
  | nil => exact ⟨[], .nil⟩
  | cons f F ih =>
      obtain ⟨es, hd⟩ := f.2.derivable
      obtain ⟨fs, hF⟩ := ih
      exact ⟨_, .cons hd hF⟩

/-! ## Events and the rules they leave open -/

namespace Event

/-- The event is one that the grammar describes: errors, blank lines and comments are not. -/
def isPart : Event → Bool
  | error _ => false
  | e => e.counts

def openRules : List Rule → Event → List Rule
  | rules, opened rule => rule :: rules
  | rules, closed _ => rules.tail
  | rules, token _ | rules, error _ => rules

theorem foldl_openRules_closed (rules closing : List Rule) :
    (closing.map closed).foldl openRules rules = rules.drop closing.length := by
  induction closing generalizing rules with
  | nil => rfl
  | cons rule closing ih =>
      rw [List.map_cons, List.foldl_cons, ih, openRules, List.length_cons, ← List.drop_one,
        List.drop_drop, Nat.add_comm]

end Event

namespace Action

open Event

theorem foldl_openRules_performAll (t : Token) (rules : List Rule) (actions : List Action) :
    (performAll t rules actions).1.foldl openRules rules = (performAll t rules actions).2 := by
  induction actions generalizing rules with
  | nil => rfl
  | cons action actions ih =>
      have hperform : (perform t rules action).1.foldl openRules rules =
          (perform t rules action).2 := by
        cases action with
        | enter rule => rfl
        | shift => rfl
        | leave => cases rules <;> rfl
        | leaveTo rule =>
            have hdrop := @List.drop_left _ (rules.takeWhile fun r => decide (r ≠ rule))
              (rules.dropWhile fun r => decide (r ≠ rule))
            rw [List.takeWhile_append_dropWhile] at hdrop
            simp only [perform, foldl_openRules_closed]
            exact hdrop
      simp only [performAll, List.foldl_append, hperform]
      exact ih _

theorem error_notMem_performAll (t : Token) (rules : List Rule) (actions : List Action)
    (e : ParseError) : .error e ∉ (performAll t rules actions).1 := by
  induction actions generalizing rules with
  | nil => exact List.not_mem_nil
  | cons action actions ih =>
      simp only [performAll, List.mem_append, not_or]
      refine ⟨?_, ih _⟩
      cases action with
      | leave => cases rules <;> simp [perform]
      | _ => simp [perform]

end Action

/-! ## Texts -/

open Frames

theorem Event.filter_isPart {events : List Event} (h : ∀ e, .error e ∉ events) :
    events.filter isPart = events.filter counts := by
  refine List.filter_congr fun e he => ?_
  cases e with
  | error error => exact absurd he (h error)
  | _ => rfl

theorem State.ne_done_of_next {s s' : State} {ahead : Bool} {kind : TokenKind}
    {actions : List Action} (hs : s ≠ done) (hk : kind ≠ .eof)
    (h : s.next ahead kind = some (actions, s')) : s' ≠ done := by
  have hblock : ∀ kind, s.followBlock ahead kind = some (actions, s') → s' ≠ done := by
    intro kind hf
    obtain ⟨b, -, hb⟩ := Option.bind_eq_some_iff.mp hf
    simp only [follow] at hb
    split at hb <;> try split at hb
    all_goals
      first
      | (obtain ⟨-, rfl⟩ := Prod.mk.inj (Option.some.inj hb); simp)
      | cases hb
  simp only [next] at h
  split at h <;> try split at h
  all_goals
    first
    | exact absurd rfl hk
    | exact hblock _ h
    | (obtain ⟨-, rfl⟩ := Prod.mk.inj (Option.some.inj h); first | exact hs | simp)
    | cases h

theorem State.pending_ne_nil {s : State} (h : s ≠ done) : s.pending ≠ [] := by
  cases s <;> simp_all [pending, block?, Block.outermost]

theorem Scanner.kind_ne_eof {s s' : Scanner} {l : Line} {kind : TokenKind} {t : Token}
    (h : s.read kind (.line l) = .token t s') : t.kind ≠ .eof := by
  intro ht
  obtain rfl : kind = .eof := (kind_of_read h).symm.trans ht
  cases h

/-- What finishes open rules ends with the end of the outermost. -/
theorem Frames.Finish.exists_concat {F : Frames} {events : List Event} (h : Finish F events)
    (hF : F ≠ []) : ∃ before r, events = before ++ [.closed r] := by
  induction h with
  | nil => exact absurd rfl hF
  | @cons r p F es fs _ hfinish ih =>
      cases F with
      | nil =>
          cases hfinish
          exact ⟨es, r, rfl⟩
      | cons f F =>
          obtain ⟨before, r', hb⟩ := ih (List.cons_ne_nil f F)
          exact ⟨es ++ .closed r :: before, r', by rw [hb, List.append_assoc, List.cons_append]⟩

/-- What finishes the document is derived from its production and closes it. -/
theorem Frames.Finish.document {events : List Event}
    (h : Finish [(.document, Rule.document.production)] events) :
    ∃ inner, Rule.document.production.Derives inner ∧ events = inner ++ [.closed .document] := by
  cases h with
  | cons hd hnil =>
      cases hnil
      exact ⟨_, hd, rfl⟩

namespace Cursor

/-- What lines before the end of a text lead to, whether they are turned away or not. -/
structure Begins (c : Cursor) (events : List Event) (c' : Cursor) : Prop where
  consistent : c'.Consistent
  not_done : c'.state ≠ .done
  rules : c'.rules = events.foldl Event.openRules c.rules
  errors : ∀ e, .error e ∈ events → e.rejectedLine?.isSome
  leads : Leads (events.filter Event.isPart) c.state.pending c'.state.pending

theorem Begins.append {c c' c'' : Cursor} {es fs : List Event} (h : c.Begins es c')
    (h' : c'.Begins fs c'') : c.Begins (es ++ fs) c'' where
  consistent := h'.consistent
  not_done := h'.not_done
  rules := by rw [h'.rules, h.rules, List.foldl_append]
  errors := by
    intro e he
    exact (List.mem_append.mp he).elim (h.errors e) (h'.errors e)
  leads := by
    rw [List.filter_append]
    exact h.leads.trans h'.leads

/-- A line is put where it belongs, or leaves the cursor where it was. -/
theorem consume_begins {c : Cursor} (hc : c.Consistent) (hd : c.state ≠ .done) (l : Line)
    (ahead : List Item) :
    c.Begins (c.consume (.line l) ahead).events (c.consume (.line l) ahead).cursor := by
  have hfits := consume_fits hc (.line l) ahead
  have hcases := c.consumes (.line l) ahead
  generalize c.consume (.line l) ahead = stride at hfits hcases ⊢
  cases hcases with
  | rejected he => exact ⟨hc, hd, rfl, by simp [he], .refl _⟩
  | @taken item ahead t scanner actions state hclass hnext =>
      have hno := Action.error_notMem_performAll t c.rules actions
      obtain ⟨hconsistent, hleads, -⟩ := hfits hno
      have hk := Scanner.kind_ne_eof (Scanner.classify_eq_token hclass).2
      refine ⟨hconsistent, State.ne_done_of_next hd hk hnext, ?_, fun e he => absurd he (hno e), ?_⟩
      · exact (Action.foldl_openRules_performAll t c.rules actions).symm
      · rwa [Event.filter_isPart hno]

/-- Up to its end a text leads on from what the cursor expects, whatever lines are turned away. -/
theorem strides_begin (raws : List (List Char)) (n : Nat) {c : Cursor} (hc : c.Consistent)
    (hd : c.state ≠ .done) :
    ∃ events c', c.Begins events c' ∧ (c.strides (Item.number n raws)).flatMap Stride.events =
      events ++ (c'.consume (.eof ⟨n + raws.length, 1⟩) []).events := by
  induction raws generalizing c n with
  | nil => exact ⟨[], c, ⟨hc, hd, rfl, by simp, .refl _⟩, by simp [Item.number, strides]⟩
  | cons raw raws ih =>
      have hline := consume_begins hc hd ⟨n, raw⟩ (Item.number (n + 1) raws)
      obtain ⟨fs, c', hrest, hevents⟩ := ih (n + 1) hline.consistent hline.not_done
      refine ⟨_, c', hline.append hrest, ?_⟩
      rw [Item.number, strides, List.flatMap_cons, hevents, List.append_assoc, List.length_cons,
        Nat.add_assoc, Nat.add_comm 1]

end Cursor

/-- The events of a text are a sentence, or the beginning of one. In the latter case the end of the
text is an error there, and closes what is open. -/
inductive Event.Course : List Event → Prop where
  | complete {events inner} :
      (∀ e, .error e ∈ events → e.rejectedLine?.isSome) →
      events.filter isPart = inner ++ [.closed .document] →
      Rule.document.production.Derives inner → Course (.opened .document :: events)
  | cut {events place expected} :
      (∀ e, .error e ∈ events → e.rejectedLine?.isSome) →
      Rule.document.production.Starts (events.filter isPart) →
      Course (.opened .document :: (events ++ .error (.unexpectedEnd place expected) ::
        (events.foldl openRules [.document]).map .closed))

theorem eventsOf_course (d : Dialect) (text : String) : Event.Course (eventsOf d text) := by
  obtain ⟨events, c, h, hevents⟩ :=
    Cursor.strides_begin (Text.lines text.toList) 1 (c := .start d) rfl (by simp [Cursor.start])
  rw [eventsOf, stridesOf, Item.ofText, hevents]
  generalize (⟨1 + (Text.lines text.toList).length, 1⟩ : Location) = place
  have hfits := Cursor.consume_fits h.consistent (.eof place) []
  have hcases := c.consumes (.eof place) []
  generalize c.consume (.eof place) [] = stride at hfits hcases ⊢
  cases hcases with
  | ended hrefused =>
      obtain ⟨more, hmore⟩ := exists_finish c.state.pending
      obtain ⟨inner, hd, hinner⟩ := (h.leads more hmore).document
      obtain ⟨before, r, rfl⟩ := hmore.exists_concat (State.pending_ne_nil h.not_done)
      rw [← List.append_assoc] at hinner
      obtain ⟨rfl, -⟩ := List.append_inj' hinner rfl
      rw [Cursor.reject, h.rules]
      exact .cut h.errors (hd.starts rfl)
  | @taken item ahead t scanner actions state hclass hnext =>
      have hno := Action.error_notMem_performAll t c.rules actions
      obtain ⟨-, hleads, hend⟩ := hfits hno
      obtain ⟨rfl, -⟩ := hend place rfl
      obtain ⟨inner, hd, hinner⟩ := (h.leads _ (hleads [] .nil)).document
      refine .complete ?_ ?_ hd
      · intro e he
        exact (List.mem_append.mp he).elim (h.errors e) fun he => absurd he (hno e)
      · rw [List.filter_append, Event.filter_isPart hno, ← hinner, List.append_nil]

end FeaturePlan
