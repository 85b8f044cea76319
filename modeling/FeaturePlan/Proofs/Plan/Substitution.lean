import FeaturePlan.Proofs.Plan.Placeholders
import Mathlib.Data.List.Infix

/-! # What substitution leaves alone

Which placeholders a text has is settled before any value is looked at. Between them the text is
kept character by character, and what is put in their places is not looked at again. -/

namespace FeaturePlan.ExamplesRow

/-- A part of a text: a character, or a column's name in brackets. -/
inductive Piece where
  | kept (c : Char)
  | column (name : String)
deriving DecidableEq, Repr

namespace Piece

def written : Piece → List Char
  | kept c => [c]
  | column name => '<' :: name.toList ++ ['>']

/-- The piece with the value under the first column of the name. -/
def filled (r : ExamplesRow) : Piece → List Char
  | kept c => [c]
  | column name => (r.values[r.header.idxOf name]?.getD "").toList

theorem written_kept (cs : List Char) : (cs.map kept).flatMap written = cs := by
  simp [List.flatMap_map, written]

theorem filled_kept (r : ExamplesRow) (cs : List Char) : (cs.map kept).flatMap (filled r) = cs := by
  simp [List.flatMap_map, filled]

end Piece

/-- Under the first column of the name there is one of the values, of which there are `count`. -/
def IsColumn (header : List String) (count : Nat) (name : String) : Prop :=
  name ∈ header ∧ header.idxOf name < count

instance (header : List String) (count : Nat) (name : String) :
    Decidable (IsColumn header count name) :=
  inferInstanceAs (Decidable (_ ∧ _))

/-- The pieces make up the text, and are the placeholders of columns that it has: all of them, but
for those that a bracket in front takes into a name of its own. -/
structure Divides (header : List String) (count : Nat) (text : List Char) (pieces : List Piece) :
    Prop where
  written : pieces.flatMap Piece.written = text
  columns : ∀ name, .column name ∈ pieces → IsColumn header count name
  complete : ∀ before name after, text = before ++ '<' :: name.toList ++ '>' :: after →
    IsName name.toList → IsColumn header count name → leavesOpen before = false →
    ∃ front back, pieces = front ++ .column name :: back ∧ front.flatMap Piece.written = before

variable {header : List String} {count : Nat} {pieces : List Piece}

/-! ## Where columns stand -/

def ColumnAt (pieces : List Piece) (before : List Char) (name : String) : Prop :=
  ∃ front back, pieces = front ++ .column name :: back ∧ front.flatMap Piece.written = before

theorem Piece.written_ne_nil (piece : Piece) : piece.written ≠ [] := by
  cases piece <;> simp [written]

theorem columnAt_cons {piece : Piece} {before : List Char} {name : String} :
    ColumnAt (piece :: pieces) before name ↔
      before = [] ∧ piece = .column name ∨
        ∃ rest, before = piece.written ++ rest ∧ ColumnAt pieces rest name := by
  constructor
  · rintro ⟨_ | ⟨first, front⟩, back, heq, rfl⟩
    · exact .inl ⟨rfl, (List.cons.inj heq).1⟩
    · obtain ⟨rfl, rfl⟩ := List.cons.inj heq
      exact .inr ⟨_, rfl, front, back, rfl, rfl⟩
  · rintro (⟨rfl, rfl⟩ | ⟨rest, rfl, front, back, rfl, rfl⟩)
    · exact ⟨[], pieces, rfl, rfl⟩
    · exact ⟨piece :: front, back, rfl, rfl⟩

theorem columnAt_kept_append {cs before : List Char} {name : String} :
    ColumnAt (cs.map .kept ++ pieces) before name ↔
      ∃ rest, before = cs ++ rest ∧ ColumnAt pieces rest name := by
  induction cs generalizing before with
  | nil => simp
  | cons c cs ih => simp [columnAt_cons, ih, Piece.written]

theorem columnAt_written_append (piece : Piece) {before : List Char} {name : String} :
    ColumnAt (piece :: pieces) (piece.written ++ before) name ↔ ColumnAt pieces before name := by
  simp [columnAt_cons, piece.written_ne_nil]

/-- Pieces of one text with columns at the same places are the same. -/
theorem eq_of_columnAt_iff {others : List Piece}
    (hwritten : pieces.flatMap Piece.written = others.flatMap Piece.written)
    (hcolumns : ∀ before name, ColumnAt pieces before name ↔ ColumnAt others before name) :
    pieces = others := by
  induction pieces generalizing others with
  | nil =>
      cases others with
      | nil => rfl
      | cons other others => exact absurd hwritten.symm (by simp [other.written_ne_nil])
  | cons piece pieces ih =>
      cases others with
      | nil => exact absurd hwritten (by simp [piece.written_ne_nil])
      | cons other others =>
          have hfirst (name : String) : piece = .column name ↔ other = .column name := by
            have hiff := hcolumns [] name
            simpa [columnAt_cons, piece.written_ne_nil, other.written_ne_nil] using hiff
          have hpiece : piece = other := by
            cases piece with
            | column name => exact ((hfirst name).mp rfl).symm
            | kept c =>
                cases other with
                | column name => exact (hfirst name).mpr rfl
                | kept d => rw [(List.cons.inj hwritten).1]
          subst hpiece
          refine congrArg _ (ih (List.append_cancel_left hwritten) fun before name => ?_)
          rw [← columnAt_written_append piece, hcolumns, columnAt_written_append]

/-! ## Pieces of a text -/

/-- The pieces make up the text, and a placeholder in it is one of them exactly if it names a column
and no bracket in front takes it into a name of its own. -/
structure IsSplit (header : List String) (count : Nat) (text : List Char) (pieces : List Piece) :
    Prop where
  written : pieces.flatMap Piece.written = text
  column_iff : ∀ before name after, text = before ++ '<' :: name.toList ++ '>' :: after →
    (ColumnAt pieces before name ↔
      IsName name.toList ∧ IsColumn header count name ∧ leavesOpen before = false)

theorem IsSplit.unique {text : List Char} {others : List Piece}
    (h : IsSplit header count text pieces) (hothers : IsSplit header count text others) :
    pieces = others := by
  have hplace {ps : List Piece} (hps : IsSplit header count text ps) {before : List Char}
      {name : String} (hat : ColumnAt ps before name) :
      ∃ after, text = before ++ '<' :: name.toList ++ '>' :: after := by
    obtain ⟨front, back, rfl, rfl⟩ := hat
    exact ⟨back.flatMap Piece.written, by simp [← hps.written, Piece.written]⟩
  refine eq_of_columnAt_iff (h.written.trans hothers.written.symm) fun before name => ?_
  constructor
  · intro hat
    obtain ⟨after, htext⟩ := hplace h hat
    exact (hothers.column_iff _ _ _ htext).mpr ((h.column_iff _ _ _ htext).mp hat)
  · intro hat
    obtain ⟨after, htext⟩ := hplace hothers hat
    exact (h.column_iff _ _ _ htext).mpr ((hothers.column_iff _ _ _ htext).mp hat)

theorem IsSplit.divides {text : List Char} (h : IsSplit header count text pieces) :
    Divides header count text pieces where
  written := h.written
  columns name hm := by
    obtain ⟨front, back, rfl⟩ := List.append_of_mem hm
    have htext := h.written
    rw [List.flatMap_append, List.flatMap_cons, ← List.append_assoc] at htext
    exact ((h.column_iff (front.flatMap Piece.written) name (back.flatMap Piece.written)
      (by simp [← htext, Piece.written])).mp ⟨front, back, rfl, rfl⟩).2.1
  complete before name after htext hname hcolumn hopen :=
    (h.column_iff before name after htext).mpr ⟨hname, hcolumn, hopen⟩

theorem isSplit_nil : IsSplit header count [] [] where
  written := rfl
  column_iff := by simp

def piecesOf (header : List String) (count : Nat) (name : List Char) : List Piece :=
  if IsColumn header count (.ofList name) then [.column (.ofList name)]
  else ('<' :: name ++ ['>']).map .kept

theorem written_piecesOf (name : List Char) :
    (piecesOf header count name).flatMap Piece.written = '<' :: name ++ ['>'] := by
  rw [piecesOf]
  split
  · simp [Piece.written]
  · exact Piece.written_kept _

theorem columnAt_piecesOf_append {name before : List Char} {column : String} :
    ColumnAt (piecesOf header count name ++ pieces) before column ↔
      before = [] ∧ name = column.toList ∧ IsColumn header count column ∨
        ∃ rest, before = '<' :: name ++ '>' :: rest ∧ ColumnAt pieces rest column := by
  obtain ⟨name, rfl⟩ : ∃ text : String, name = text.toList := ⟨.ofList name, by simp⟩
  rw [piecesOf, String.ofList_toList, String.toList_inj]
  split
  · rename_i hcolumn
    have hsame : before = [] ∧ Piece.column name = .column column ↔
        before = [] ∧ name = column ∧ IsColumn header count column := by
      rw [Piece.column.injEq]
      exact and_congr_right fun _ => ⟨fun h => ⟨h, h ▸ hcolumn⟩, And.left⟩
    rw [List.singleton_append, columnAt_cons, hsame]
    simp [Piece.written]
  · rename_i hnot
    have hno : ¬(before = [] ∧ name = column ∧ IsColumn header count column) := by
      rintro ⟨-, rfl, hcolumn⟩
      exact hnot hcolumn
    rw [columnAt_kept_append]
    simp [hno]

/-- Two names in brackets at the start of the same text are the same. -/
theorem IsName.eq_of_append {name other rest after : List Char} (h : IsName name)
    (hother : IsName other) (heq : name ++ '>' :: rest = other ++ '>' :: after) :
    name = other ∧ rest = after := by
  have hname := placeholder?_append h rest
  rw [heq, placeholder?_append hother after] at hname
  obtain rfl := Option.some.inj hname
  exact ⟨rfl, by simpa using heq⟩

/-- A bracket that begins a name does not leave it open when the text goes on behind the name. -/
theorem IsName.split_of_append {name rest before after : List Char} {c : Char} (h : IsName name)
    (hopen : leavesOpen ('<' :: before) = false)
    (heq : name ++ '>' :: rest = before ++ c :: after) (hc : c ≠ '>') :
    ∃ more, before = name ++ '>' :: more ∧ rest = more ++ c :: after := by
  rcases List.append_eq_append_iff.mp heq with ⟨more, rfl, hrest⟩ | ⟨more, hname, hrest⟩
  · cases more with
    | nil =>
        exact absurd (List.cons.inj hrest).1.symm hc
    | cons d more =>
        obtain ⟨rfl, rfl⟩ := List.cons.inj hrest
        exact ⟨more, rfl, rfl⟩
  · -- what stands before `c` is a part of the name, so that the bracket is still waiting
    exfalso
    have hunclosed : '>' ∉ before := fun hm => h.unclosed (hname ▸ List.mem_append_left _ hm)
    have hblank : before.head?.any Text.isBlank = false := by
      obtain ⟨d, ds, hcons, hd⟩ := h.visible
      cases before with
      | nil => rfl
      | cons e before =>
          rw [hcons] at hname
          obtain ⟨rfl, -⟩ := List.cons.inj hname
          simpa using hd
    simp [leavesOpen, waits, hunclosed, hblank] at hopen

theorem IsSplit.named {name rest : List Char} (h : IsSplit header count rest pieces)
    (hname : IsName name) :
    IsSplit header count ('<' :: name ++ '>' :: rest) (piecesOf header count name ++ pieces) where
  written := by
    rw [List.flatMap_append, written_piecesOf, h.written]
    simp
  column_iff := by
    intro before column after htext
    rw [columnAt_piecesOf_append]
    constructor
    · rintro (⟨rfl, rfl, hcolumn⟩ | ⟨more, rfl, hat⟩)
      · exact ⟨hname, hcolumn, rfl⟩
      · have hrest : rest = more ++ '<' :: column.toList ++ '>' :: after := by simpa using htext
        obtain ⟨hIs, hcolumn, hopen⟩ := (h.column_iff more column after hrest).mp hat
        exact ⟨hIs, hcolumn, (leavesOpen_append_closing ('<' :: name) more).trans hopen⟩
    · rintro ⟨hIs, hcolumn, hopen⟩
      cases before with
      | nil => exact .inl ⟨rfl, (hname.eq_of_append hIs (List.cons.inj htext).2).1, hcolumn⟩
      | cons c before =>
          obtain ⟨rfl, heq⟩ := List.cons.inj htext
          obtain ⟨more, rfl, rfl⟩ := hname.split_of_append hopen
            (by simpa using heq : _ = before ++ '<' :: (column.toList ++ '>' :: after)) (by decide)
          have hmore : leavesOpen more = false := by
            rwa [← List.cons_append, leavesOpen_append_closing] at hopen
          exact .inr ⟨more, rfl,
            (h.column_iff more column after (by simp)).mpr ⟨hIs, hcolumn, hmore⟩⟩

theorem IsSplit.other {c : Char} {cs : List Char} (h : IsSplit header count cs pieces)
    (hc : c = '<' → placeholder? cs = none) :
    IsSplit header count (c :: cs) (.kept c :: pieces) where
  written := congrArg (c :: ·) h.written
  column_iff := by
    intro before column after htext
    cases before with
    | nil =>
        obtain ⟨rfl, rfl⟩ : c = '<' ∧ cs = column.toList ++ '>' :: after := by simpa using htext
        have hnot : ¬IsName column.toList := by
          intro hIs
          have hnone := hc rfl
          rw [placeholder?_append hIs after] at hnone
          cases hnone
        simp [columnAt_cons, Piece.written, hnot]
    | cons d before =>
        obtain ⟨rfl, rfl⟩ := List.cons.inj htext
        have hopen (hIs : IsName column.toList) :
            leavesOpen (c :: before) = leavesOpen before := by
          -- a bracket that waited would begin a name here
          simp only [leavesOpen, Bool.or_eq_right_iff_imp, Bool.and_eq_true, beq_iff_eq]
          rintro ⟨rfl, hwaits⟩
          have hsome := placeholder?_append (hIs.of_waits hwaits) after
          exact absurd ((hc rfl).symm.trans hsome) (by simp)
        have hat : ColumnAt (.kept c :: pieces) (c :: before) column ↔
            ColumnAt pieces before column := columnAt_written_append (.kept c)
        rw [hat, h.column_iff before column after rfl]
        exact and_congr_right fun hIs => by rw [hopen hIs]

/-! ## Filling the pieces -/

theorem replacement_eq_filled (header values : List String) (name : List Char) :
    replacement ⟨header, values⟩ name =
      (piecesOf header values.length name).flatMap (Piece.filled ⟨header, values⟩) := by
  by_cases hcolumn : IsColumn header values.length (.ofList name)
  · have hvalue := lookup_of_mem hcolumn.1 values
    rw [List.getElem?_eq_getElem hcolumn.2] at hvalue
    rw [piecesOf, if_pos hcolumn, replacement, value?, hvalue]
    simp [Piece.filled, List.getElem?_eq_getElem hcolumn.2]
  · rw [piecesOf, if_neg hcolumn, Piece.filled_kept]
    by_cases hm : .ofList name ∈ header
    · have hvalue := lookup_of_mem hm values
      rw [List.getElem?_eq_none (Nat.le_of_not_lt fun hlt => hcolumn ⟨hm, hlt⟩)] at hvalue
      rw [replacement, value?, hvalue]
    · exact replacement_of_notMem hm

/-- A text comes apart into pieces, whatever the values. Filled with values, they are what
substitution makes of the text. -/
theorem exists_isSplit (header : List String) (count : Nat) (text : List Char) :
    ∃ pieces, IsSplit header count text pieces ∧ ∀ values : List String, values.length = count →
      substituteFrom ⟨header, values⟩ 0 text =
        pieces.flatMap (Piece.filled ⟨header, values⟩) := by
  induction text using placeholder_induction with
  | nil => exact ⟨[], isSplit_nil, fun _ _ => rfl⟩
  | named name rest hname ih =>
      obtain ⟨pieces, hpieces, hfilled⟩ := ih
      refine ⟨piecesOf header count name ++ pieces, hpieces.named hname, ?_⟩
      rintro values rfl
      rw [substituteFrom_name hname, replacement_eq_filled, hfilled values rfl,
        List.flatMap_append]
  | other c cs hc ih =>
      obtain ⟨pieces, hpieces, hfilled⟩ := ih
      refine ⟨.kept c :: pieces, hpieces.other hc, ?_⟩
      rintro values rfl
      rw [substituteFrom_other hc, hfilled values rfl]
      rfl

/-- Without a column among its pieces a text has nothing to fill. -/
theorem Divides.filled_eq_self {text : List Char} (h : Divides header count text pieces)
    (hnone : ∀ name, .column name ∉ pieces) (r : ExamplesRow) :
    pieces.flatMap (Piece.filled r) = text := by
  rw [← h.written]
  refine List.flatMap_congr fun piece hpiece => ?_
  cases piece with
  | kept c => rfl
  | column name => exact absurd hpiece (hnone name)

theorem Divides.infix_of_column {text : List Char} (h : Divides header count text pieces)
    {name : String} (hm : .column name ∈ pieces) : '<' :: name.toList ++ ['>'] <:+: text := by
  obtain ⟨front, back, rfl⟩ := List.append_of_mem hm
  refine ⟨front.flatMap Piece.written, back.flatMap Piece.written, ?_⟩
  rw [← h.written]
  simp [Piece.written]

/-- Substitution replaces placeholders of columns that have a value, each by the value under the
first column of its name, and keeps all else in its place. Which ones it replaces does not depend
on the values, so that nothing in a value is ever replaced; it is every placeholder of a column
before which no bracket waits for its end. A text without placeholders of columns stays as it is. -/
theorem substitute_replaces_only_columns (header : List String) (count : Nat) (text : String) :
    ∃ pieces : List Piece,
      Divides header count text.toList pieces ∧
      (∀ values : List String, values.length = count →
        (substitute ⟨header, values⟩ text).toList =
          pieces.flatMap (Piece.filled ⟨header, values⟩)) ∧
      ((∀ name ∈ header, ¬("<" ++ name ++ ">").toList <:+: text.toList) →
        ∀ values : List String, values.length = count →
          substitute ⟨header, values⟩ text = text) := by
  obtain ⟨pieces, hsplit, hfilled⟩ := exists_isSplit header count text.toList
  have hpieces := hsplit.divides
  refine ⟨pieces, hpieces, ?_, ?_⟩
  · intro values hvalues
    rw [substitute, String.toList_ofList, hfilled values hvalues]
  · intro hnone values hvalues
    have hcolumns : ∀ name, .column name ∉ pieces := by
      intro name hm
      refine hnone name (hpieces.columns name hm).1 ?_
      simpa using hpieces.infix_of_column hm
    rw [substitute, hfilled values hvalues, hpieces.filled_eq_self hcolumns, String.ofList_toList]

/-- A value that looks like a placeholder, one that completes a bracket, and a name that is none of
a column. -/
theorem substitute_replaces_only_columns_look_alikes :
    let header := ["a", "b", "c", "a"]
    let text := "<a><b>c> <d>"
    ∃ pieces, Divides header 4 text.toList pieces ∧
      pieces.flatMap (Piece.filled ⟨header, ["<b>", "<", "x", "y"]⟩) = "<b><c> <d>".toList := by
  intro header text
  obtain ⟨pieces, hpieces, hfilled, -⟩ := substitute_replaces_only_columns header 4 text
  exact ⟨pieces, hpieces, (hfilled ["<b>", "<", "x", "y"] rfl).symm.trans (by decide)⟩

/-! ## Filled texts -/

/-- A text with the values of a row in the places of its columns. -/
def Fills (r : ExamplesRow) (text filled : String) : Prop :=
  ∃ pieces, IsSplit r.header r.values.length text.toList pieces ∧
    filled.toList = pieces.flatMap (Piece.filled r)

/-- There is one such text, and it is what substitution makes of the text. -/
theorem fills_iff {r : ExamplesRow} {text filled : String} :
    r.Fills text filled ↔ filled = r.substitute text := by
  obtain ⟨pieces, hsplit, hfilled⟩ := exists_isSplit r.header r.values.length text.toList
  have hsubstitute : (r.substitute text).toList = pieces.flatMap (Piece.filled r) := by
    rw [substitute, String.toList_ofList, hfilled r.values rfl]
  constructor
  · rintro ⟨others, hothers, hwritten⟩
    obtain rfl := hothers.unique hsplit
    exact String.toList_inj.mp (hwritten.trans hsubstitute.symm)
  · rintro rfl
    exact ⟨pieces, hsplit, hsubstitute⟩

end FeaturePlan.ExamplesRow
