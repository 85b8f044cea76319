import FeaturePlan.Proofs.Text.Indentation
import FeaturePlan.Scanner

/-! # Indented lines

A line with spaces in front is read as the same, further to the right. Only comments and free text
keep the spaces; the lines of a doc string lose as many more as the line that opened it has got. -/

namespace FeaturePlan

open Text (spaces)

variable (k : Nat)

def Location.indentBy (place : Location) : Location :=
  ⟨place.line, place.column + k⟩

def Span.indentBy (s : Span) : Span :=
  { s with column := s.column + k }

def Line.indentBy (l : Line) : Line :=
  { l with raw := spaces k ++ l.raw }

def Item.indentBy : Item → Item
  | line l => line (l.indentBy k)
  | eof place => eof place

/-- Free text of a doc string loses its indentation, any other keeps it. -/
def Content.indentBy (inDocString : Bool) : Content → Content
  | comment text => comment (.ofList (spaces k ++ text.toList))
  | tags spans => tags (spans.map (Span.indentBy k))
  | row cells => row (cells.map (Span.indentBy k))
  | other text => other (if inDocString then text else .ofList (spaces k ++ text.toList))
  | content => content

/-- Comments and free text start with their line, and no line is left at the end of the text. -/
def Content.startsAtMargin : Content → Bool
  | comment _ | other _ | eof => true
  | _ => false

def Token.indentBy (inDocString : Bool) (t : Token) : Token where
  place := if t.content.startsAtMargin then t.place else t.place.indentBy k
  dialect := t.dialect
  content := t.content.indentBy k inDocString

def Scanner.indentBy (s : Scanner) : Scanner :=
  { s with docString := s.docString.map fun o => { o with indent := o.indent + k } }

def Reading.indentBy (inDocString : Bool) : Reading → Reading
  | refused => refused
  | token t next => token (t.indentBy k inDocString) (next.indentBy k)
  | unknownLanguage code place => unknownLanguage code (place.indentBy k)

@[simp] theorem Token.kind_indentBy (b : Bool) (t : Token) : (t.indentBy k b).kind = t.kind := by
  obtain ⟨place, d, content⟩ := t
  cases content <;> rfl

/-- Only of free text it matters whether it is text of a doc string. -/
theorem Token.indentBy_of_ne_other {t : Token} (h : t.kind ≠ .other) (b b' : Bool) :
    t.indentBy k b = t.indentBy k b' := by
  obtain ⟨place, d, content⟩ := t
  cases content <;> first | rfl | exact absurd rfl h

/-! ## Lines -/

namespace Line

variable (l : Line)

@[simp] theorem body_indentBy : (l.indentBy k).body = l.body :=
  Text.trimStart_spaces_append k l.raw

@[simp] theorem indent_indentBy : (l.indentBy k).indent = l.indent + k := by
  have h : (l.indentBy k).raw = spaces k ++ l.raw := rfl
  rw [indent, h, Text.takeWhile_spaces_append, List.length_append, Text.length_spaces,
    Nat.add_comm, indent]

@[simp] theorem start_indentBy : (l.indentBy k).start = l.start.indentBy k := by
  rw [start, indent_indentBy, Nat.add_right_comm]
  rfl

@[simp] theorem visible_indentBy : (l.indentBy k).visible = l.visible := by
  rw [visible, body_indentBy, visible]

@[simp] theorem isBlank_indentBy : (l.indentBy k).isBlank = l.isBlank := by
  rw [isBlank, body_indentBy, isBlank]

@[simp] theorem titleAfter?_indentBy (keyword : String) :
    (l.indentBy k).titleAfter? keyword = l.titleAfter? keyword := by
  rw [titleAfter?, body_indentBy, titleAfter?]

@[simp] theorem textAfter?_indentBy (keyword : String) :
    (l.indentBy k).textAfter? keyword = l.textAfter? keyword := by
  rw [textAfter?, body_indentBy, textAfter?]

@[simp] theorem language?_indentBy : (l.indentBy k).language? = l.language? := by
  rw [language?, body_indentBy, language?]

@[simp] theorem tags?_indentBy :
    (l.indentBy k).tags? = l.tags?.map (List.map (Span.indentBy k)) := by
  simp only [tags?, body_indentBy, indent_indentBy]
  split
  · simp [Span.indentBy, Function.comp_def, Nat.add_assoc, Nat.add_comm k]
  · rfl

@[simp] theorem cells?_indentBy :
    (l.indentBy k).cells? = l.cells?.map (List.map (Span.indentBy k)) := by
  simp only [cells?, body_indentBy, indent_indentBy, Option.map_map]
  simp [Span.indentBy, Function.comp_def, Nat.add_assoc, Nat.add_comm k]

/-- Lines that are indented as the line above them are lose the same text less. -/
theorem unindented_indentBy (count : Nat) :
    (l.indentBy k).unindented (count + k) = l.unindented count := by
  have h : (l.indentBy k).raw = spaces k ++ l.raw := rfl
  rw [unindented, indent_indentBy, h, Nat.add_min_add_right, Nat.add_comm, ← List.drop_drop,
    List.drop_left' (Text.length_spaces k), unindented]

end Line

/-! ## Readings -/

namespace Scanner

variable (s : Scanner)

theorem freeText_indentBy (l : Line) :
    (s.indentBy k).freeText (l.indentBy k) =
      if s.docString.isSome then s.freeText l
      else .ofList (spaces k ++ (s.freeText l).toList) := by
  obtain ⟨d, _ | o⟩ := s
  · simp [freeText, indentBy, indentToDrop, Line.unindented, Line.indentBy]
  · simp [freeText, indentBy, indentToDrop, Line.unindented_indentBy]

theorem keep_keyword_indentBy {b : Bool} (place : Location) (keywords : List String)
    (said : String → Option String) {content : String → String → Content}
    (h : ∀ keyword text, (content keyword text).startsAtMargin = false ∧
      (content keyword text).indentBy k b = content keyword text) :
    (s.indentBy k).keep (place.indentBy k)
        (keywords.findSome? fun keyword => (said keyword).map (content keyword)) =
      (s.keep place
        (keywords.findSome? fun keyword => (said keyword).map (content keyword))).indentBy k b := by
  cases hc : keywords.findSome? fun keyword => (said keyword).map (content keyword) with
  | none => rfl
  | some c =>
    obtain ⟨keyword, -, hk⟩ := List.exists_of_findSome?_eq_some hc
    obtain ⟨text, -, rfl⟩ := Option.map_eq_some_iff.mp hk
    obtain ⟨hmargin, hkept⟩ := h keyword text
    simp [keep, Reading.indentBy, Token.indentBy, hmargin, hkept, indentBy]

/-- Whether an item belongs to a class does not depend on its indentation, and neither does what it
says, but for comments and free text. -/
theorem read_indentBy (kind : TokenKind) (item : Item) :
    (s.indentBy k).read kind (item.indentBy k) =
      (s.read kind item).indentBy k s.docString.isSome := by
  cases item with
  | eof place =>
    simp only [Item.indentBy, read]
    split <;> rfl
  | line l =>
    have hmargin : (l.indentBy k).margin = l.margin := rfl
    cases kind with
    | eof => rfl
    | other =>
      simp only [Item.indentBy, read, readLine, freeText_indentBy, hmargin]
      rfl
    | comment =>
      simp only [Item.indentBy, read, readLine, Line.body_indentBy, hmargin]
      split
      · simp [keep, Reading.indentBy, Token.indentBy, Content.startsAtMargin, Content.indentBy,
          Line.indentBy, indentBy]
      · rfl
    | empty =>
      simp only [Item.indentBy, read, readLine, Line.isBlank_indentBy, Line.start_indentBy]
      split <;> rfl
    | tags =>
      simp only [Item.indentBy, read, readLine, Line.tags?_indentBy, Line.start_indentBy]
      cases l.tags? <;> rfl
    | row =>
      simp only [Item.indentBy, read, readLine, Line.cells?_indentBy, Line.start_indentBy]
      cases l.cells? <;> rfl
    | title block =>
      simp only [Item.indentBy, read, readLine, Line.titleAfter?_indentBy, Line.start_indentBy]
      exact s.keep_keyword_indentBy k _ _ _ fun _ _ => ⟨rfl, rfl⟩
    | step =>
      simp only [Item.indentBy, read, readLine, Line.textAfter?_indentBy, Line.start_indentBy]
      exact s.keep_keyword_indentBy k _ _ _ fun _ _ => ⟨rfl, rfl⟩
    | language =>
      simp only [Item.indentBy, read, readLine, readLanguage, Line.language?_indentBy,
        Line.start_indentBy]
      split <;> try split
      all_goals rfl
    | separator =>
      obtain ⟨d, _ | o⟩ := s
      · simp only [Item.indentBy, read, readLine, readSeparator, Line.textAfter?_indentBy,
          Line.start_indentBy, Line.indent_indentBy, indentBy, Option.map_none]
        split
        all_goals rfl
      · simp only [Item.indentBy, read, readLine, readSeparator, Line.body_indentBy,
          Line.start_indentBy, indentBy, Option.map_some]
        split
        all_goals rfl

theorem classify_indentBy (item : Item) (kinds : List TokenKind) :
    (s.indentBy k).classify (item.indentBy k) kinds =
      (s.classify item kinds).indentBy k s.docString.isSome := by
  induction kinds with
  | nil => rfl
  | cons kind kinds ih =>
    simp only [classify, read_indentBy]
    cases s.read kind item with
    | refused => exact ih
    | token t next => rfl
    | unknownLanguage code place => rfl

theorem accepts_indentBy (kind : TokenKind) (item : Item) :
    (s.indentBy k).accepts kind (item.indentBy k) = s.accepts kind item := by
  simp only [accepts, read_indentBy]
  cases s.read kind item <;> rfl

theorem examplesFollow_indentBy (items : List Item) :
    (s.indentBy k).examplesFollow (items.map (Item.indentBy k)) = s.examplesFollow items := by
  induction items with
  | nil => rfl
  | cons item items ih => simp only [List.map_cons, examplesFollow, accepts_indentBy, ih]

end Scanner

end FeaturePlan
