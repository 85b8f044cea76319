import FeaturePlan.Proofs.Grammar.Strides

/-! # Line numbers

What a line is read as does not depend on its number, which only shows in the places of what is
read. So lines that are numbered in another way lead to the same events at other places. -/

namespace FeaturePlan

variable (ρ : Nat → Nat)

def Location.renumber (place : Location) : Location :=
  ⟨ρ place.line, place.column⟩

def Line.renumber (l : Line) : Line :=
  { l with number := ρ l.number }

def Item.renumber : Item → Item
  | line l => line (l.renumber ρ)
  | eof place => eof (place.renumber ρ)

def Token.renumber (t : Token) : Token :=
  { t with place := t.place.renumber ρ }

def ParseError.renumber : ParseError → ParseError
  | unexpectedLine place expected received => unexpectedLine (place.renumber ρ) expected received
  | unexpectedEnd place expected => unexpectedEnd (place.renumber ρ) expected
  | unevenRow place => unevenRow (place.renumber ρ)
  | unknownLanguage code place => unknownLanguage code (place.renumber ρ)

def Event.renumber : Event → Event
  | opened rule => opened rule
  | closed rule => closed rule
  | token t => token (t.renumber ρ)
  | error e => error (e.renumber ρ)

def Reading.renumber : Reading → Reading
  | refused => refused
  | token t next => token (t.renumber ρ) next
  | unknownLanguage code place => unknownLanguage code (place.renumber ρ)

def Stride.renumber (s : Stride) : Stride :=
  { s with events := s.events.map (Event.renumber ρ) }

/-! ## Reading -/

namespace Scanner

variable (s : Scanner)

theorem keep_renumber (place : Location) (content : Option Content) :
    s.keep (place.renumber ρ) content = (s.keep place content).renumber ρ := by
  cases content <;> rfl

theorem read_renumber (kind : TokenKind) (item : Item) :
    s.read kind (item.renumber ρ) = (s.read kind item).renumber ρ := by
  cases item with
  | eof place => exact s.keep_renumber ρ place _
  | line l =>
      cases kind with
      | eof | other => rfl
      | empty | tags | title _ | step | row => exact s.keep_renumber ρ l.start _
      | comment => exact s.keep_renumber ρ l.margin _
      | language =>
          have hl : (l.renumber ρ).language? = l.language? := rfl
          simp only [Item.renumber, read, readLine, readLanguage, hl]
          split <;> try split
          all_goals rfl
      | separator =>
          have ht : (l.renumber ρ).textAfter? = l.textAfter? := rfl
          have hb : (l.renumber ρ).body = l.body := rfl
          simp only [Item.renumber, read, readLine, readSeparator, ht, hb]
          split <;> split
          all_goals rfl

theorem classify_renumber (item : Item) (kinds : List TokenKind) :
    s.classify (item.renumber ρ) kinds = (s.classify item kinds).renumber ρ := by
  induction kinds with
  | nil => rfl
  | cons kind kinds ih =>
      simp only [classify, read_renumber]
      cases s.read kind item with
      | refused => exact ih
      | token t next => rfl
      | unknownLanguage code place => rfl

theorem accepts_renumber (kind : TokenKind) (item : Item) :
    s.accepts kind (item.renumber ρ) = s.accepts kind item := by
  simp only [accepts, read_renumber]
  cases s.read kind item <;> rfl

theorem examplesFollow_renumber (items : List Item) :
    s.examplesFollow (items.map (Item.renumber ρ)) = s.examplesFollow items := by
  induction items with
  | nil => rfl
  | cons item items ih =>
      simp only [List.map_cons, examplesFollow, accepts_renumber, ih]

end Scanner

/-! ## Events -/

theorem Action.performAll_renumber (t : Token) (rules : List Rule) (actions : List Action) :
    performAll (t.renumber ρ) rules actions =
      ((performAll t rules actions).1.map (Event.renumber ρ), (performAll t rules actions).2) := by
  have hmap : Event.renumber ρ = Event.map (Token.renumber ρ) (ParseError.renumber ρ) := by
    funext e
    cases e <;> rfl
  rw [hmap]
  exact performAll_map _ _ t rules actions

namespace Cursor

theorem reject_renumber (c : Cursor) (item : Item) :
    c.reject (item.renumber ρ) = (c.reject item).renumber ρ := by
  cases item with
  | line l => rfl
  | eof place => simp [Item.renumber, reject, Stride.renumber, Event.renumber, ParseError.renumber]

theorem consume_renumber (c : Cursor) (item : Item) (ahead : List Item) :
    c.consume (item.renumber ρ) (ahead.map (Item.renumber ρ)) =
      (c.consume item ahead).renumber ρ := by
  simp only [consume, Scanner.classify_renumber]
  cases c.scanner.classify item c.state.expected with
  | refused => exact c.reject_renumber ρ item
  | unknownLanguage code place => rfl
  | token t scanner =>
      have hkind : (t.renumber ρ).kind = t.kind := rfl
      simp only [Reading.renumber, hkind, Scanner.examplesFollow_renumber,
        Action.performAll_renumber]
      split
      · exact reject_renumber ρ _ item
      · rfl

/-- Items that are numbered otherwise lead to the same events at other places. -/
theorem strides_renumber (items : List Item) (c : Cursor) :
    c.strides (items.map (Item.renumber ρ)) = (c.strides items).map (Stride.renumber ρ) := by
  induction items generalizing c with
  | nil => rfl
  | cons item items ih =>
      rw [List.map_cons, strides, consume_renumber, strides, List.map_cons]
      exact congrArg _ (ih _)

end Cursor

end FeaturePlan
