import FeaturePlan.Proofs.Scanner.Classify
import FeaturePlan.Proofs.Scanner.Tags
import FeaturePlan.Proofs.Table.Row
import Mathlib.Data.List.Forall2

/-! # What a line is read as stands on the line

Keywords, names, tags and cells are found on the line that they were read from: in the columns that
they were given, and as they were written there. Columns count characters. -/

namespace FeaturePlan

namespace Text

def StandsAt (raw : List Char) (column : Nat) (word : List Char) : Prop :=
  ∃ before after, raw = before ++ word ++ after ∧ column = before.length + 1

/-- The line holds blanks up to the column, there the sign, and behind the sign the text, with
blanks around it or not. -/
def OpensWith (raw : List Char) (column : Nat) (sign : List Char) (text : String) : Prop :=
  ∃ blanks rest, raw = blanks ++ sign ++ rest ∧ (∀ c ∈ blanks, isBlank c) ∧
    column = blanks.length + 1 ∧ text = .ofList (trim rest)

end Text

open Text

/-! ## Cells -/

namespace Cell

/-- The row begins in the column, and each of its cells stands for what is written between two of
its bars; the cell's column is where the text between them begins. -/
def IsRow (raw : List Char) (column : Nat) (cells : List Span) : Prop :=
  ∃ blanks written tail, raw = blanks ++ '|' :: (written.flatMap (· ++ ['|']) ++ tail) ∧
    (∀ c ∈ blanks, isBlank c) ∧ column = blanks.length + 1 ∧
    (∀ w ∈ written, IsWritten w) ∧ IsTail tail ∧
    List.Forall₂ (fun w cell =>
      cell.text = .ofList (decode (trim w)) ∧ StandsAt raw cell.column (trim w)) written cells

/-- Pieces that are put one after the other stand on the line in that order. -/
theorem forall₂_place (written : List (List Char)) (before after : List Char) :
    List.Forall₂ (fun w p => p.2 = w ∧
        StandsAt (before ++ (written.flatMap (· ++ ['|']) ++ after))
          (p.1 + (p.2.takeWhile isBlank).length + 1) (trim w))
      written (place before.length written) := by
  induction written generalizing before with
  | nil => exact .nil
  | cons w written ih =>
    have hrest := ih (before ++ w ++ ['|'])
    have hlength : (before ++ w ++ ['|']).length = before.length + w.length + 1 := by
      simp [Nat.add_assoc]
    rw [hlength] at hrest
    refine .cons ⟨rfl, ?_⟩ (by simpa using hrest)
    obtain ⟨behind, -, hbehind⟩ := exists_trim_append w
    refine ⟨before ++ w.takeWhile isBlank,
      behind ++ '|' :: (written.flatMap (· ++ ['|']) ++ after), ?_, by simp⟩
    conv_lhs => rw [List.flatMap_cons, hbehind]
    simp

end Cell

/-! ## Lines -/

def Token.IsWrittenOn (raw : List Char) (t : Token) : Prop :=
  match t.content with
  | .title _ keyword name => OpensWith raw t.place.column (keyword.toList ++ [':']) name
  | .step keyword text => OpensWith raw t.place.column keyword.toList text
  | .tags spans => ∀ s ∈ spans, StandsAt raw s.column s.text.toList
  | .row cells => Cell.IsRow raw t.place.column cells
  | _ => True

namespace Line

variable {l : Line}

theorem opensWith_of_body {sign rest : List Char} (h : l.body = sign ++ rest) :
    OpensWith l.raw l.start.column sign (.ofList (trim rest)) := by
  refine ⟨l.raw.takeWhile Text.isBlank, rest, ?_, fun c => List.mem_takeWhile_imp, rfl, rfl⟩
  rw [List.append_assoc, ← h, blanks_append_body]

/-- What stands in the body of a line stands on the line, behind its indentation. -/
theorem standsAt_of_body {column : Nat} {word : List Char} (h : StandsAt l.body column word) :
    StandsAt l.raw (l.indent + column) word := by
  obtain ⟨before, after, hbody, rfl⟩ := h
  refine ⟨l.raw.takeWhile Text.isBlank ++ before, after, ?_, by simp [indent, Nat.add_assoc]⟩
  rw [List.append_assoc, List.append_assoc, ← List.append_assoc before, ← hbody,
    blanks_append_body]

theorem opensWith_of_titleAfter? {keyword name : String} (h : l.titleAfter? keyword = some name) :
    OpensWith l.raw l.start.column (keyword.toList ++ [':']) name := by
  obtain ⟨rest, hrest, h⟩ := Option.bind_eq_some_iff.mp h
  obtain ⟨title, htitle, h⟩ := Option.bind_eq_some_iff.mp h
  obtain rfl := Option.some.inj h
  refine opensWith_of_body ?_
  rw [after?_eq_some_iff.mp hrest, after?_eq_some_iff.mp htitle, List.append_assoc]

theorem opensWith_of_textAfter? {keyword text : String} (h : l.textAfter? keyword = some text) :
    OpensWith l.raw l.start.column keyword.toList text := by
  obtain ⟨rest, hrest, h⟩ := Option.bind_eq_some_iff.mp h
  obtain rfl := Option.some.inj h
  exact opensWith_of_body (after?_eq_some_iff.mp hrest)

theorem standsAt_of_tags? {spans : List Span} (h : l.tags? = some spans) :
    ∀ s ∈ spans, StandsAt l.raw s.column s.text.toList := by
  rw [tags?_eq] at h
  split at h
  · obtain rfl := Option.some.inj h
    intro s hs
    obtain ⟨start, hcolumn, ⟨before, after, hraw, rfl, -⟩, -⟩ :=
      ((listsWords_content l).mem_iff s).mp hs
    exact ⟨before, after, hraw, hcolumn⟩
  · cases h

theorem isRow_of_cells? {cells : List Span} (h : l.cells? = some cells) :
    Cell.IsRow l.raw l.start.column cells := by
  obtain ⟨values, hvalues, rfl⟩ := Option.map_eq_some_iff.mp h
  obtain ⟨rest, hrest, rfl⟩ := Option.map_eq_some_iff.mp hvalues
  obtain ⟨written, tail, hpieces, rfl, hcells, htail⟩ := Cell.exists_bars rest
  have hbody : l.body = ['|'] ++ (written.flatMap (· ++ ['|']) ++ tail) :=
    after?_eq_some_iff.mp hrest
  refine ⟨l.raw.takeWhile Text.isBlank, written, tail, ?_, fun c => List.mem_takeWhile_imp, rfl,
    hcells, htail, ?_⟩
  · rw [← List.singleton_append, ← hbody, blanks_append_body]
  · rw [hpieces, List.dropLast_concat, List.forall₂_map_right_iff, List.forall₂_map_right_iff]
    refine (Cell.forall₂_place written ['|'] tail).imp ?_
    rintro w ⟨start, piece⟩ ⟨rfl, hstands⟩
    rw [← hbody] at hstands
    exact ⟨rfl, standsAt_of_body hstands⟩

end Line

namespace Scanner

variable {s s' : Scanner} {l : Line} {kind : TokenKind} {t : Token}

theorem isWrittenOn_of_readLine (h : s.readLine l kind = .token t s') : t.IsWrittenOn l.raw := by
  have hkind := kind_of_readLine h
  cases kind with
  | title block =>
    obtain ⟨hc, -, ht⟩ := keep_eq_token h
    obtain ⟨keyword, -, hk⟩ := List.exists_of_findSome?_eq_some hc
    obtain ⟨name, hname, hn⟩ := Option.map_eq_some_iff.mp hk
    rw [ht, ← hn]
    exact Line.opensWith_of_titleAfter? hname
  | step =>
    obtain ⟨hc, -, ht⟩ := keep_eq_token h
    obtain ⟨keyword, -, hk⟩ := List.exists_of_findSome?_eq_some hc
    obtain ⟨text, htext, hn⟩ := Option.map_eq_some_iff.mp hk
    rw [ht, ← hn]
    exact Line.opensWith_of_textAfter? htext
  | tags =>
    obtain ⟨hc, -, ht⟩ := keep_eq_token h
    obtain ⟨spans, hspans, hn⟩ := Option.map_eq_some_iff.mp hc
    rw [ht, ← hn]
    exact Line.standsAt_of_tags? hspans
  | row =>
    obtain ⟨hc, -, ht⟩ := keep_eq_token h
    obtain ⟨cells, hcells, hn⟩ := Option.map_eq_some_iff.mp hc
    rw [ht, ← hn]
    exact Line.isRow_of_cells? hcells
  | _ =>
    obtain ⟨place, d, content⟩ := t
    cases content <;> trivial

end Scanner

end FeaturePlan
