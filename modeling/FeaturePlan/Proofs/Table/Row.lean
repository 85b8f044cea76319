import FeaturePlan.Document.Render
import FeaturePlan.Line
import FeaturePlan.Proofs.Text.Blank

/-! # Rows that are written and read back

The bars of a row that are not escaped stand between its cells. What is written for a cell holds
none of them, so that the pieces of a row are its cells. -/

namespace FeaturePlan

namespace Cell

/-- The value keeps its blanks: at its ends it has none but line feeds. -/
structure IsTrimmed (value : List Char) : Prop where
  head : ∀ c ∈ value.head?, Text.isBlank c = true → c = '\n'
  last : ∀ c ∈ value.getLast?, Text.isBlank c = true → c = '\n'

def padded (value : List Char) : List Char :=
  ' ' :: encode value ++ [' ']

theorem encode_append (v w : List Char) : encode (v ++ w) = encode v ++ encode w := by
  fun_induction encode v with
  | case1 => rfl
  | case2 cs ih => simp [encode, ih]
  | case3 cs ih => simp [encode, ih]
  | case4 cs ih => simp [encode, ih]
  | case5 c cs _ _ _ ih => simp [encode, ih]

theorem encode_singleton (c : Char) :
    c = '\n' ∧ encode [c] = ['\\', 'n'] ∨ c = '|' ∧ encode [c] = ['\\', '|'] ∨
      c = '\\' ∧ encode [c] = ['\\', '\\'] ∨
        (c ≠ '\n' ∧ c ≠ '|' ∧ c ≠ '\\') ∧ encode [c] = [c] := by
  by_cases h₁ : c = '\n'
  · simp [h₁, encode]
  · by_cases h₂ : c = '|'
    · simp [h₂, encode]
    · by_cases h₃ : c = '\\'
      · simp [h₃, encode]
      · simp [h₁, h₂, h₃, encode]

theorem feed_notMem_encode (value : List Char) : '\n' ∉ encode value := by
  induction value with
  | nil => simp [encode]
  | cons c cs ih =>
      rw [← List.singleton_append, encode_append, List.mem_append, not_or]
      refine ⟨?_, ih⟩
      rcases encode_singleton c with ⟨-, he⟩ | ⟨-, he⟩ | ⟨-, he⟩ | ⟨h, he⟩
      · simp [he]
      · simp [he]
      · simp [he]
      · simp [he, Ne.symm h.1]

/-! ## Cells without blanks around them -/

theorem isBlank_encode_head {value : List Char} (h : IsTrimmed value) :
    ∀ c ∈ (encode value).head?, Text.isBlank c = false := by
  cases value with
  | nil => simp [encode]
  | cons d ds =>
      have hb : Text.isBlank '\\' = false := by decide
      rw [← List.singleton_append, encode_append]
      rcases encode_singleton d with ⟨-, he⟩ | ⟨-, he⟩ | ⟨-, he⟩ | ⟨hn, he⟩
      · simp [he, hb]
      · simp [he, hb]
      · simp [he, hb]
      · have hd : Text.isBlank d ≠ true := fun hd => hn.1 (h.head d rfl hd)
        simpa [he] using hd

theorem isBlank_encode_last {value : List Char} (h : IsTrimmed value) :
    ∀ c ∈ (encode value).getLast?, Text.isBlank c = false := by
  rcases List.eq_nil_or_concat value with rfl | ⟨ds, d, hv⟩
  · simp [encode]
  · rw [List.concat_eq_append] at hv
    subst hv
    have h₁ : Text.isBlank 'n' = false := by decide
    have h₂ : Text.isBlank '|' = false := by decide
    have h₃ : Text.isBlank '\\' = false := by decide
    rw [encode_append]
    rcases encode_singleton d with ⟨-, he⟩ | ⟨-, he⟩ | ⟨-, he⟩ | ⟨hn, he⟩
    · simp [he, h₁]
    · simp [he, h₂]
    · simp [he, h₃]
    · have hd : Text.isBlank d ≠ true := fun hd => hn.1 (h.last d (by simp) hd)
      simpa [he] using hd

theorem trim_encode {value : List Char} (h : IsTrimmed value) :
    Text.trim (encode value) = encode value :=
  Text.trim_eq_self_iff.mpr ⟨isBlank_encode_head h, isBlank_encode_last h⟩

/-! ## Pieces of a row -/

/-- A character that is neither a bar nor a backslash belongs to the first piece. -/
theorem pieces_cons {c : Char} (h₁ : c ≠ '|') (h₂ : c ≠ '\\') {cs piece : List Char}
    {rest : List (List Char)} (h : pieces cs = piece :: rest) :
    pieces (c :: cs) = (c :: piece) :: rest := by
  rw [pieces, h] <;> simp [h₁, h₂]

theorem pieces_encode_append (value : List Char) {cs piece : List Char} {rest : List (List Char)}
    (h : pieces cs = piece :: rest) :
    pieces (encode value ++ cs) = (encode value ++ piece) :: rest := by
  induction value with
  | nil => exact h
  | cons c value ih =>
      rw [← List.singleton_append, encode_append, List.append_assoc, List.append_assoc]
      rcases encode_singleton c with ⟨-, he⟩ | ⟨-, he⟩ | ⟨-, he⟩ | ⟨hn, he⟩
      · simp [he, pieces, ih]
      · simp [he, pieces, ih]
      · simp [he, pieces, ih]
      · rw [he]
        exact pieces_cons hn.2.1 hn.2.2 ih

theorem pieces_blanks_append {blanks : List Char} (hblanks : ∀ c ∈ blanks, Text.isBlank c = true)
    {cs piece : List Char} {rest : List (List Char)} (h : pieces cs = piece :: rest) :
    pieces (blanks ++ cs) = (blanks ++ piece) :: rest := by
  induction blanks with
  | nil => exact h
  | cons c blanks ih =>
      obtain ⟨hc, hblanks⟩ := List.forall_mem_cons.mp hblanks
      have hne (d : Char) (hd : Text.isBlank d = false) : c ≠ d := by
        rintro rfl
        simp [hc] at hd
      exact pieces_cons (hne '|' (by decide)) (hne '\\' (by decide)) (ih hblanks)

/-- The text of a cell as it is written: no bar, save behind a backslash that escapes it. -/
inductive IsWritten : List Char → Prop where
  | nil : IsWritten []
  | plain {c : Char} {cs : List Char} : c ≠ '|' → c ≠ '\\' → IsWritten cs → IsWritten (c :: cs)
  | escaped {c : Char} {cs : List Char} : IsWritten cs → IsWritten ('\\' :: c :: cs)

/-- What may follow the last bar of a row: text that could stand in a cell, but a backslash at its
end has nothing to escape. -/
inductive IsTail : List Char → Prop where
  | written {cs : List Char} : IsWritten cs → IsTail cs
  | backslash {cs : List Char} : IsWritten cs → IsTail (cs ++ ['\\'])

/-- The row behind its first bar holds these cells, a bar behind each, and then the tail. -/
structure Bars (cs : List Char) (written : List (List Char)) (tail : List Char) : Prop where
  eq : cs = written.flatMap (· ++ ['|']) ++ tail
  cells : ∀ w ∈ written, IsWritten w
  tail : IsTail tail

/-- Characters that do not end a cell become part of the first piece. -/
theorem Bars.prepend (lead : List Char) {cs : List Char}
    (hcell : ∀ ⦃w⦄, IsWritten w → IsWritten (lead ++ w)) {pieces written : List (List Char)}
    {tail : List Char} (h : Bars cs written tail) (hp : pieces = written ++ [tail]) :
    ∃ piece rest written tail, pieces = piece :: rest ∧
      (lead ++ piece) :: rest = written ++ [tail] ∧ Bars (lead ++ cs) written tail := by
  obtain ⟨rfl, hcells, htail⟩ := h
  cases written with
  | nil =>
    refine ⟨tail, [], [], lead ++ tail, hp, rfl, rfl, by simp, ?_⟩
    cases htail with
    | written h => exact .written (hcell h)
    | @backslash cs h =>
      rw [← List.append_assoc]
      exact .backslash (hcell h)
  | cons w written =>
    refine ⟨w, written ++ [tail], (lead ++ w) :: written, tail, hp, rfl, by simp, ?_, htail⟩
    intro v hv
    rcases List.mem_cons.mp hv with rfl | hv
    · exact hcell (hcells w List.mem_cons_self)
    · exact hcells v (List.mem_cons_of_mem w hv)

/-- The pieces of a row are its cells as they are written, and what follows the last bar. -/
theorem exists_bars (cs : List Char) :
    ∃ written tail, pieces cs = written ++ [tail] ∧ Bars cs written tail := by
  fun_induction pieces cs with
  | case1 => exact ⟨[], [], rfl, rfl, by simp, .written .nil⟩
  | case2 cs ih =>
    obtain ⟨written, tail, hp, rfl, hcells, htail⟩ := ih
    refine ⟨[] :: written, tail, by rw [hp]; rfl, rfl, ?_, htail⟩
    simpa using ⟨.nil, hcells⟩
  | case3 c cs hnil ih => simp [hnil] at ih
  | case4 c cs piece rest hcons ih =>
    obtain ⟨written, tail, hp, hbars⟩ := ih
    obtain ⟨p, ps, w, t, hpieces, heq, hb⟩ :=
      hbars.prepend ['\\', c] (fun _ => .escaped) hp
    obtain ⟨rfl, rfl⟩ := List.cons.inj (hcons.symm.trans hpieces)
    exact ⟨w, t, heq, hb⟩
  | case5 c cs hbar hescape hnil ih => simp [hnil] at ih
  | case6 c cs hbar hescape piece rest hcons ih =>
    obtain ⟨written, tail, hp, hbars⟩ := ih
    by_cases hc : c = '\\'
    · obtain rfl : cs = [] := by
        cases cs with
        | nil => rfl
        | cons d ds => exact (hescape d ds hc rfl).elim
      obtain ⟨rfl, rfl⟩ := List.cons.inj hcons
      exact ⟨[], [c], rfl, rfl, by simp, hc ▸ .backslash .nil⟩
    · obtain ⟨p, ps, w, t, hpieces, heq, hb⟩ :=
        hbars.prepend [c] (fun _ => .plain hbar hc) hp
      obtain ⟨rfl, rfl⟩ := List.cons.inj (hcons.symm.trans hpieces)
      exact ⟨w, t, heq, hb⟩

/-- A text without bars is a single piece, whatever its backslashes escape. -/
theorem pieces_of_notMem {cs : List Char} (h : '|' ∉ cs) : pieces cs = [cs] := by
  obtain ⟨written, tail, hpieces, rfl, -, -⟩ := exists_bars cs
  cases written with
  | nil => exact hpieces
  | cons w written => simp at h

/-! ## Cells between blanks -/

/-- A value as it is written in a row, with blanks around it. -/
structure Padded where
  before : List Char
  value : List Char
  behind : List Char
  blank_before : ∀ c ∈ before, Text.isBlank c = true
  blank_behind : ∀ c ∈ behind, Text.isBlank c = true

namespace Padded

def text (p : Padded) : List Char :=
  p.before ++ encode p.value ++ p.behind

/-- The cells of a row behind its first bar, a bar behind each. -/
def row (cells : List Padded) : List Char :=
  cells.flatMap fun p => p.text ++ ['|']

def spaced (value : List Char) : Padded :=
  ⟨[' '], value, [' '], List.forall_mem_singleton.mpr (by decide),
    List.forall_mem_singleton.mpr (by decide)⟩

variable {p : Padded}

theorem decode_trim_text (h : IsTrimmed p.value) : decode (Text.trim p.text) = p.value := by
  rw [text, Text.trim_pad p.blank_before p.blank_behind (trim_encode h), decode_encode]

theorem takeWhile_text (h : IsTrimmed p.value) (hne : p.value ≠ []) :
    p.text.takeWhile Text.isBlank = p.before := by
  have hencode : encode p.value ≠ [] := by
    intro hnil
    have hvalue := decode_encode p.value
    rw [hnil] at hvalue
    exact hne hvalue.symm
  obtain ⟨c, cs, hcs⟩ := List.exists_cons_of_ne_nil hencode
  have hc : Text.isBlank c = false := isBlank_encode_head h c (by simp [hcs])
  rw [text, List.append_assoc, List.takeWhile_append_of_pos p.blank_before, hcs, List.cons_append,
    List.takeWhile_cons_of_neg (by simp [hc]), List.append_nil]

theorem pieces_text_append (p : Padded) (cs : List Char) :
    pieces (p.text ++ '|' :: cs) = p.text :: pieces cs := by
  have hbar : pieces ('|' :: cs) = [] :: pieces cs := by rw [pieces]
  have h := pieces_blanks_append p.blank_before
    (pieces_encode_append p.value (pieces_blanks_append p.blank_behind hbar))
  simpa [text] using h

/-- The pieces of a row are its cells, and what stands behind the last bar. -/
theorem pieces_row (cells : List Padded) {tail : List Char} (htail : '|' ∉ tail) :
    pieces (row cells ++ tail) = cells.map text ++ [tail] := by
  induction cells with
  | nil => exact pieces_of_notMem htail
  | cons p cells ih =>
      have hrow : row (p :: cells) ++ tail = p.text ++ '|' :: (row cells ++ tail) := by
        simp [row]
      rw [hrow, pieces_text_append, ih]
      rfl

theorem ofRow_row (cells : List Padded) {tail : List Char} (htail : '|' ∉ tail) :
    ofRow ('|' :: (row cells ++ tail)) =
      some ((place 1 (cells.map text)).map fun (start, piece) =>
        (start + (piece.takeWhile Text.isBlank).length, decode (Text.trim piece))) := by
  rw [ofRow, Text.after?_eq_some_iff.mpr (List.singleton_append).symm, Option.map_some,
    pieces_row cells htail, List.dropLast_concat]

end Padded

theorem map_snd_place (start : Nat) (ps : List (List Char)) :
    (place start ps).map Prod.snd = ps := by
  induction ps generalizing start with
  | nil => rfl
  | cons p ps ih => simp [place, ih]

theorem Padded.values_place (start : Nat) (cells : List Padded)
    (h : ∀ p ∈ cells, IsTrimmed p.value) :
    (place start (cells.map text)).map (fun piece => decode (Text.trim piece.2)) =
      cells.map (·.value) := by
  calc _ = ((place start (cells.map text)).map Prod.snd).map fun piece =>
          decode (Text.trim piece) := by
        simp only [List.map_map, Function.comp_def]
    _ = cells.map fun p => decode (Text.trim p.text) := by
        rw [map_snd_place, List.map_map]
        rfl
    _ = cells.map (·.value) := List.map_congr_left fun p hp => decode_trim_text (h p hp)

theorem ofRow_cells (values : List (List Char)) (h : ∀ v ∈ values, IsTrimmed v) :
    ∃ cells, ofRow ('|' :: values.flatMap fun v => padded v ++ ['|']) = some cells ∧
      cells.map Prod.snd = values := by
  have hrow : values.flatMap (fun v => padded v ++ ['|']) =
      Padded.row (values.map Padded.spaced) ++ [] := by
    rw [List.append_nil, Padded.row, List.flatMap_map]
    rfl
  have htrimmed : ∀ p ∈ values.map Padded.spaced, IsTrimmed p.value := by
    simpa [Padded.spaced] using h
  have hvalues := Padded.values_place 1 (values.map Padded.spaced) htrimmed
  rw [hrow, Padded.ofRow_row _ (by simp)]
  refine ⟨_, rfl, ?_⟩
  simpa [Padded.spaced, Function.comp_def] using hvalues

theorem place_append (start : Nat) (ps qs : List (List Char)) :
    place start (ps ++ qs) =
      place start ps ++ place (start + (ps.flatMap fun p => p ++ ['|']).length) qs := by
  induction ps generalizing start with
  | nil => rfl
  | cons p ps ih =>
      rw [List.cons_append, place, ih, place, List.cons_append, List.flatMap_cons,
        List.length_append, List.length_append]
      simp only [List.length_singleton, Nat.add_assoc]

/-- A piece is placed behind those before it and their bars. -/
theorem getElem?_place (start : Nat) (ps : List (List Char)) (p : List Char)
    (qs : List (List Char)) :
    (place start (ps ++ p :: qs))[ps.length]? =
      some (start + (ps.flatMap fun p => p ++ ['|']).length, p) := by
  have hlength : (place start ps).length = ps.length := by
    rw [← List.length_map (f := Prod.snd), map_snd_place]
  rw [place_append, List.getElem?_append_right hlength.le, hlength, Nat.sub_self]
  rfl

end Cell

/-! ## Rows on a line -/

namespace Line

open Cell

/-- A row that is written with any blanks around its cells, indented and with some text behind its
last bar, is read as its values. A value that is not empty has the column of its first character. -/
theorem cells?_row (number : Nat) {indentation tail : List Char} {cells : List Padded}
    (hindentation : ∀ c ∈ indentation, Text.isBlank c = true)
    (hcells : ∀ p ∈ cells, IsTrimmed p.value) (htail : '|' ∉ tail) :
    let raw := indentation ++ '|' :: (Padded.row cells ++ tail)
    ∃ spans, (⟨number, raw⟩ : Line).cells? = some spans ∧
      spans.map (·.text) = cells.map (fun p => .ofList p.value) ∧
      ∀ front p rest, cells = front ++ p :: rest → p.value ≠ [] →
        let before := indentation ++ '|' :: (Padded.row front ++ p.before)
        before ++ encode p.value <+: raw ∧
          spans[front.length]? = some ⟨before.length + 1, .ofList p.value⟩ := by
  intro raw
  have hbody : (⟨number, raw⟩ : Line).body = '|' :: (Padded.row cells ++ tail) := by
    rw [body, Text.trimStart, List.dropWhile_append_of_pos hindentation]
    exact List.dropWhile_cons_of_neg (by decide)
  have hindent : (⟨number, raw⟩ : Line).indent = indentation.length := by
    rw [indent, List.takeWhile_append_of_pos hindentation, List.takeWhile_cons_of_neg (by decide),
      List.append_nil]
  refine ⟨_, by rw [cells?, hbody, Padded.ofRow_row cells htail, hindent]; rfl, ?_, ?_⟩
  · have hvalues := congrArg (List.map String.ofList) (Padded.values_place 1 cells hcells)
    simpa [Function.comp_def] using hvalues
  · rintro front p rest rfl hne before
    have hp : IsTrimmed p.value := hcells p (by simp)
    have hfront : ((front.map Padded.text).flatMap fun p => p ++ ['|']) = Padded.row front := by
      rw [Padded.row, List.flatMap_map]
    have hplace := getElem?_place 1 (front.map Padded.text) p.text (rest.map Padded.text)
    rw [List.length_map, hfront] at hplace
    constructor
    · refine ⟨p.behind ++ '|' :: (Padded.row rest ++ tail), ?_⟩
      simp [raw, before, Padded.row, Padded.text]
    · have hcolumn : indentation.length + (1 + (Padded.row front).length + p.before.length) =
          before.length := by
        simp only [before, List.length_append, List.length_cons]
        omega
      rw [List.map_append, List.map_cons, List.getElem?_map, List.getElem?_map, hplace]
      simp only [Option.map_some, Padded.takeWhile_text hp hne, Padded.decode_trim_text hp, hcolumn]

/-- A backslash, a line feed between wide blanks, an empty cell, and a value that looks like an
escape. What follows the last bar ends in a backslash. -/
theorem cells?_row_backslashes :
    let padded (before value behind : String) (hbefore : before.toList.all Text.isBlank = true)
        (hbehind : behind.toList.all Text.isBlank = true) : Padded :=
      ⟨before.toList, value.toList, behind.toList, List.all_eq_true.mp hbefore,
        List.all_eq_true.mp hbehind⟩
    let last := padded " " "|\\n" "" (by decide) (by decide)
    let front := [padded "" "\\" " " (by decide) (by decide),
      padded "\u3000" "\n" "\t" (by decide) (by decide), padded "" "" "  " (by decide) (by decide)]
    let raw := " \u00a0".toList ++ '|' :: (Padded.row (front ++ [last]) ++ " ab\\".toList)
    String.ofList raw = " \u00a0|\\\\ |\u3000\\n\t|  | \\|\\\\n| ab\\" ∧
      ∃ spans, (⟨1, raw⟩ : Line).cells? = some spans ∧
        spans.map (·.text) = ["\\", "\n", "", "|\\n"] ∧ spans[3]? = some ⟨17, "|\\n"⟩ := by
  intro padded last front raw
  have hcells : ∀ p ∈ front ++ [last], IsTrimmed p.value := by
    refine List.forall_mem_cons.mpr ⟨?_, List.forall_mem_cons.mpr ⟨?_, List.forall_mem_cons.mpr
      ⟨?_, List.forall_mem_singleton.mpr ?_⟩⟩⟩ <;> constructor <;> rintro c ⟨⟩ <;> decide
  have hblanks : ∀ c ∈ " \u00a0".toList, Text.isBlank c = true := List.all_eq_true.mp (by decide)
  have htail : '|' ∉ " ab\\".toList := by decide
  obtain ⟨spans, hspans, htexts, hcolumns⟩ := cells?_row 1 hblanks hcells htail
  exact ⟨by decide +kernel, spans, hspans, htexts, (hcolumns front last [] rfl (by decide)).2⟩

end Line

namespace TableRow

theorem line_eq (r : TableRow) :
    r.line = '|' :: (r.values.map String.toList).flatMap fun v => Cell.padded v ++ ['|'] := by
  simp [line, values, List.flatMap_map, Cell.padded]

theorem isLine_line (r : TableRow) : Text.IsLine r.line := by
  rw [line_eq]
  constructor
  · simp [Cell.padded, Cell.feed_notMem_encode]
  · rcases List.eq_nil_or_concat (r.values.map String.toList) with h | ⟨vs, v, h⟩
    · simp [h]
    · simp only [h, List.concat_eq_append, List.flatMap_append, List.flatMap_singleton,
        ← List.append_assoc, ← List.cons_append, List.getLast?_concat]
      decide

end TableRow

end FeaturePlan
