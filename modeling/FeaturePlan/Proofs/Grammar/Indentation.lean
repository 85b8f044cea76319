import FeaturePlan.Proofs.Grammar.Beginnings
import FeaturePlan.Proofs.Grammar.Recovery
import FeaturePlan.Proofs.Scanner.Indentation

/-! # Events of indented lines

Lines that are all indented alike are read in the same states, and lead to the same events further
to the right. Which of their free text is text of a doc string shows in the scanner and in the state
alike. -/

namespace FeaturePlan

variable (k : Nat)

/-- The error on the line that is now indented. The end of the text is where it was. -/
def ParseError.indentBy : ParseError → ParseError
  | unexpectedLine place expected received =>
    unexpectedLine (place.indentBy k) expected received
  | unexpectedEnd place expected => unexpectedEnd place expected
  | unevenRow place => unevenRow (place.indentBy k)
  | unknownLanguage code place => unknownLanguage code (place.indentBy k)

def Event.indentBy (inDocString : Bool) : Event → Event :=
  Event.map (Token.indentBy k inDocString) (ParseError.indentBy k)

namespace Cursor

def indentBy (c : Cursor) : Cursor :=
  { c with scanner := c.scanner.indentBy k }

theorem reject_indentBy (c : Cursor) (item : Item) (b : Bool) :
    (c.indentBy k).reject (item.indentBy k) =
      ⟨(c.reject item).events.map (Event.indentBy k b), (c.reject item).cursor.indentBy k⟩ := by
  cases item with
  | line l => simp [Item.indentBy, reject, indentBy, Event.indentBy, Event.map, ParseError.indentBy]
  | eof place =>
    simp [Item.indentBy, reject, indentBy, Event.indentBy, Event.map, ParseError.indentBy]

theorem consume_indentBy (c : Cursor) (item : Item) (ahead : List Item) :
    (c.indentBy k).consume (item.indentBy k) (ahead.map (Item.indentBy k)) =
      ⟨(c.consume item ahead).events.map (Event.indentBy k c.scanner.docString.isSome),
        (c.consume item ahead).cursor.indentBy k⟩ := by
  have hscanner : (c.indentBy k).scanner = c.scanner.indentBy k := rfl
  have hstate : (c.indentBy k).state = c.state := rfl
  have hrules : (c.indentBy k).rules = c.rules := rfl
  simp only [consume, hscanner, hstate, Scanner.classify_indentBy]
  cases c.scanner.classify item c.state.expected with
  | refused => exact reject_indentBy k c item _
  | unknownLanguage code place => rfl
  | token t scanner =>
    simp only [Reading.indentBy, Token.kind_indentBy, Scanner.examplesFollow_indentBy]
    cases c.state.next _ t.kind with
    | none => exact reject_indentBy k { c with scanner } item _
    | some result =>
      simp only [hrules, Action.performAll_map (Token.indentBy k c.scanner.docString.isSome)
        (ParseError.indentBy k)]
      rfl

end Cursor

/-! ## Doc strings -/

def State.inDocString : State → Bool
  | docString _ => true
  | _ => false

/-- A doc string is open in the scanner whenever the state is inside one. -/
def Cursor.IsAligned (c : Cursor) : Prop :=
  c.scanner.docString.isSome = c.state.inDocString

theorem State.inDocString_of_next_outside {s s' : State} {ahead : Bool} {kind : TokenKind}
    {actions : List Action} (hs : s.inDocString = false)
    (h : s.next ahead kind = some (actions, s')) :
    s'.inDocString = decide (kind = .separator) := by
  have hblock : s.followBlock ahead kind = some (actions, s') →
      s'.inDocString = decide (kind = .separator) := by
    intro hf
    obtain ⟨b, -, hb⟩ := Option.bind_eq_some_iff.mp hf
    simp only [follow] at hb
    split at hb <;> try split at hb
    all_goals
      first
      | (obtain ⟨-, rfl⟩ := Prod.mk.inj (Option.some.inj hb); rfl)
      | cases hb
  simp only [next] at h
  split at h <;> try split at h
  all_goals
    first
    | exact hblock h
    | (obtain ⟨-, rfl⟩ := Prod.mk.inj (Option.some.inj h); first | exact hs | rfl | cases hs)
    | cases h

/-- Delimiters lead into doc strings and out of them, other lines do not. -/
theorem State.inDocString_of_next {s s' : State} {ahead : Bool} {kind : TokenKind}
    {actions : List Action} (ha : s.accepts kind) (h : s.next ahead kind = some (actions, s')) :
    s'.inDocString = (s.inDocString ^^ decide (kind = .separator)) := by
  cases hs : s.inDocString with
  | false => rw [inDocString_of_next_outside hs h, Bool.false_xor]
  | true =>
    cases s with
    | docString b =>
      rcases (by simpa [accepts] using ha : kind = .separator ∨ kind = .other) with rfl | rfl
      all_goals
        obtain ⟨-, rfl⟩ := Prod.mk.inj (Option.some.inj h)
        rfl
    | _ => cases hs

theorem Scanner.docString_of_read {s s' : Scanner} {kind : TokenKind} {item : Item} {t : Token}
    (h : s.read kind item = .token t s') :
    s'.docString.isSome = (s.docString.isSome ^^ decide (kind = .separator)) := by
  by_cases hk : kind ≠ .language ∧ kind ≠ .separator
  · rw [scanner_of_read h hk]
    simp [hk.2]
  cases item with
  | eof place =>
    obtain rfl := kind_eq_eof h
    simp at hk
  | line l =>
    cases kind with
    | language =>
      simp only [read, readLine, readLanguage] at h
      split at h <;> try split at h
      all_goals
        first
        | (obtain ⟨-, rfl⟩ := Reading.token.inj h; simp)
        | cases h
    | separator =>
      simp only [read, readLine, readSeparator] at h
      split at h <;> split at h
      all_goals
        first
        | (obtain ⟨-, rfl⟩ := Reading.token.inj h; simp [*])
        | cases h
    | _ => simp at hk

theorem Cursor.consume_aligned {c : Cursor} (hc : c.IsAligned) (l : Line) (ahead : List Item) :
    (c.consume (.line l) ahead).cursor.IsAligned := by
  have hcases := c.consumes (.line l) ahead
  generalize c.consume (.line l) ahead = stride at hcases ⊢
  cases hcases with
  | rejected he => exact hc
  | taken hclass hnext =>
    obtain ⟨hm, hread⟩ := Scanner.classify_eq_token hclass
    have hstate := State.inDocString_of_next (State.mem_expected.mp hm) hnext
    rw [IsAligned, Scanner.docString_of_read hread, hstate, hc]

/-- A state is inside a doc string when the innermost of its rules is that of one. -/
theorem State.inDocString_eq (s : State) :
    s.inDocString = decide (s.pending.rules.head? = some .docString) := by
  cases s with
  | title b | afterDescription b => cases b <;> rfl
  | _ => rfl

/-- Free text is put into the innermost rule, or into a description outside of doc strings. -/
theorem State.actions_of_other {s s' : State} {ahead : Bool} {actions : List Action}
    (h : s.next ahead .other = some (actions, s')) :
    actions = [.shift] ∨ actions = [.enter .description, .shift] ∧ s.inDocString = false := by
  cases s with
  | title b => exact .inr ⟨(Prod.mk.inj (Option.some.inj h)).1.symm, rfl⟩
  | description b | docString b => exact .inl (Prod.mk.inj (Option.some.inj h)).1.symm
  | _ => cases h

theorem Item.number_map_spaces (n : Nat) (raws : List (List Char)) :
    Item.number n (raws.map (Text.spaces k ++ ·)) =
      (Item.number n raws).map (Item.indentBy k) := by
  induction raws generalizing n with
  | nil => rfl
  | cons raw raws ih => exact congrArg _ (ih (n + 1))

end FeaturePlan
