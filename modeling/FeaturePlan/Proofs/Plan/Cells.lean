import FeaturePlan.Document.Parse
import FeaturePlan.Plan.Compiler
import FeaturePlan.Proofs.Table.Row
import Mathlib.Data.List.Basic

/-! # Rows of tables in the plan

A row of text has the same cells below a step as in a block of examples. The plan keeps the cells of
examples as they are, and takes the blanks around those of steps away once more. This can be seen
where a cell begins or ends with an escaped line feed. -/

namespace FeaturePlan

namespace Cell

/-! ## Blanks at the ends of cells -/

/-- Where a text starts visibly, what its escapes stand for starts with no blank but a line feed. -/
theorem head?_decode {cs : List Char} (h : ∀ c ∈ cs.head?, Text.isBlank c = false) :
    ∀ c ∈ (decode cs).head?, Text.isBlank c = true → c = '\n' := by
  intro c hc hblank
  fun_cases decode cs with
  | case1 => simp [decode] at hc
  | case2 cs => simpa [decode] using hc.symm
  | case3 cs =>
    obtain rfl : '|' = c := by simpa [decode] using hc
    exact absurd hblank (by decide)
  | case4 cs =>
    obtain rfl : '\\' = c := by simpa [decode] using hc
    exact absurd hblank (by decide)
  | case5 d cs h₁ h₂ h₃ =>
    obtain rfl : '\\' = c := by simpa [decode, h₁, h₂, h₃] using hc
    exact absurd hblank (by decide)
  | case6 d cs h₁ h₂ h₃ h₄ =>
    obtain rfl : d = c := by
      rw [decode.eq_6 d cs h₁ h₂ h₃ h₄] at hc
      exact Option.some.inj hc
    simp [h d rfl] at hblank

theorem eq_nil_of_decode {cs : List Char} (h : decode cs = []) : cs = [] := by
  fun_cases decode cs with
  | case1 => rfl
  | case6 d cs h₁ h₂ h₃ h₄ => simp [decode.eq_6 d cs h₁ h₂ h₃ h₄] at h
  | _ => simp_all [decode]

theorem feed_of_getLast?_cons {d : Char} {cs : List Char}
    (hd : cs = [] → Text.isBlank d = true → d = '\n')
    (h : ∀ c ∈ cs.getLast?, Text.isBlank c = true → c = '\n') :
    ∀ c ∈ (d :: cs).getLast?, Text.isBlank c = true → c = '\n' := by
  cases cs with
  | nil =>
    intro c hc
    obtain rfl : d = c := Option.some.inj hc
    exact hd rfl
  | cons e cs => exact fun c hc => h c (by simpa using hc)

theorem getLast?_decode {cs : List Char} (h : ∀ c ∈ cs.getLast?, Text.isBlank c = false) :
    ∀ c ∈ (decode cs).getLast?, Text.isBlank c = true → c = '\n' := by
  have hbar : Text.isBlank '|' = false := by decide
  have hslash : Text.isBlank '\\' = false := by decide
  fun_induction decode cs with
  | case1 => simp
  | case2 cs ih =>
    refine feed_of_getLast?_cons (fun _ _ => rfl) (ih fun c hc => h c ?_)
    exact List.mem_getLast?_cons (List.mem_getLast?_cons hc)
  | case3 cs ih =>
    refine feed_of_getLast?_cons (by simp [hbar]) (ih fun c hc => h c ?_)
    exact List.mem_getLast?_cons (List.mem_getLast?_cons hc)
  | case4 cs ih =>
    refine feed_of_getLast?_cons (by simp [hslash]) (ih fun c hc => h c ?_)
    exact List.mem_getLast?_cons (List.mem_getLast?_cons hc)
  | case5 d cs h₁ h₂ h₃ ih =>
    refine feed_of_getLast?_cons (by simp)
      (feed_of_getLast?_cons (fun hnil hblank => ?_) (ih fun c hc => h c ?_))
    · obtain rfl := eq_nil_of_decode hnil
      simp [h d rfl] at hblank
    · exact List.mem_getLast?_cons (List.mem_getLast?_cons hc)
  | case6 d cs h₁ h₂ h₃ h₄ ih =>
    refine feed_of_getLast?_cons (fun hnil hblank => ?_)
      (ih fun c hc => h c (List.mem_getLast?_cons hc))
    obtain rfl := eq_nil_of_decode hnil
    simp [h d rfl] at hblank

/-- The cells of a row behind its first bar: what is written between the bars, without the blanks
around it and with its escapes resolved. -/
def values (rest : List Char) : List String :=
  (pieces rest).dropLast.map fun piece => .ofList (decode (Text.trim piece))

theorem isTrimmed_of_mem_values {rest : List Char} :
    ∀ v ∈ values rest, IsTrimmed v.toList := by
  intro v hv
  obtain ⟨piece, -, rfl⟩ := List.mem_map.mp hv
  rw [String.toList_ofList]
  exact ⟨head?_decode Text.head?_trim, getLast?_decode Text.getLast?_trim⟩

/-- The line feeds at the ends of a cell are all that trimming can find there. -/
theorem trimmed_eq_self_iff {v : String} (h : IsTrimmed v.toList) : Text.trimmed v = v ↔
    v.toList.head? ≠ some '\n' ∧ v.toList.getLast? ≠ some '\n' := by
  have hfeed : Text.isBlank '\n' = true := by decide
  have hends : Text.trimmed v = v ↔ Text.trim v.toList = v.toList := by
    rw [Text.trimmed, ← String.toList_inj, String.toList_ofList]
  rw [hends, Text.trim_eq_self_iff]
  constructor
  · rintro ⟨hf, hl⟩
    exact ⟨fun h => by simp [hf '\n' h] at hfeed, fun h => by simp [hl '\n' h] at hfeed⟩
  · rintro ⟨hf, hl⟩
    constructor
    · intro c hc
      by_contra hblank
      exact hf (h.head c hc (by simpa using hblank) ▸ hc)
    · intro c hc
      by_contra hblank
      exact hl (h.last c hc (by simpa using hblank) ▸ hc)

end Cell

/-! ## The row of a line -/

theorem Line.cells?_of_body {l : Line} {rest : List Char} (h : l.body = '|' :: rest) :
    ∃ cells, l.cells? = some cells ∧ cells.map (·.text) = Cell.values rest := by
  have hrow : Cell.ofRow l.body = some ((Cell.place 1 (Cell.pieces rest).dropLast).map fun cell =>
      (cell.1 + (cell.2.takeWhile Text.isBlank).length, Cell.decode (Text.trim cell.2))) := by
    rw [Cell.ofRow, Text.after?_eq_some_iff.mpr (h.trans (List.singleton_append).symm)]
    rfl
  refine ⟨_, by rw [Line.cells?, hrow, Option.map_some], ?_⟩
  calc _ = ((Cell.place 1 (Cell.pieces rest).dropLast).map Prod.snd).map fun piece =>
          String.ofList (Cell.decode (Text.trim piece)) := by
        simp only [List.map_map, Function.comp_def]
    _ = Cell.values rest := by rw [Cell.map_snd_place, Cell.values]

namespace Compiler

/-- A line that starts with a bar is read as the same row wherever it stands. Examples have its
cells for the names of columns and for their values. A step has the same cells without the blanks
around them, which are others where a cell begins or ends with a line feed, and only there. -/
theorem row_below_step_and_in_examples (s : Scanner) (l : Line) (rest : List Char)
    (h : l.body = '|' :: rest) (comments : List Comment) :
    ∃ token row, s.readLine l .row = .token token s ∧
      Tree.rows [.leaf token comments] = [row] ∧
      (∀ e : Examples, e.header = some row → (examplesTable e).header = Cell.values rest) ∧
      (∀ (e : Examples) (i : Nat), e.body[i]? = some row →
        (examplesTable e).rows[i]? = some (Cell.values rest)) ∧
      (∀ (resource language : String) (inherited : Properties) (step : Step) (t : DataTable)
          (i : Nat), step.argument = some (.table t) → t.rows[i]? = some row →
        ∃ rows, (Compiler.step resource language inherited step).data = some (.table rows) ∧
          rows[i]? = some ((Cell.values rest).map Text.trimmed)) ∧
      ((Cell.values rest).map Text.trimmed = Cell.values rest ↔
        ∀ v ∈ Cell.values rest, v.toList.head? ≠ some '\n' ∧ v.toList.getLast? ≠ some '\n') := by
  obtain ⟨cells, hcells, hvalues⟩ := Line.cells?_of_body h
  let token : Token := ⟨l.start, s.dialect, .row cells⟩
  let row : TableRow := ⟨l.start, cells.map fun c => ⟨Tree.spanPlace token c, c.text⟩⟩
  have hrow : row.values = Cell.values rest := by
    rw [← hvalues]
    simp [row, TableRow.values]
  refine ⟨token, row, ?_, rfl, ?_, ?_, ?_, ?_⟩
  · rw [Scanner.readLine, hcells]
    rfl
  · intro e he
    simp only [examplesTable, he, hrow]
  · intro e i he
    simp [examplesTable, he, hrow]
  · intro resource language inherited step t i hargument hi
    refine ⟨_, by rw [Compiler.step, hargument]; rfl, ?_⟩
    simp [hi, ← hrow, TableRow.values]
  · have hmap : (Cell.values rest).map Text.trimmed = Cell.values rest ↔
        ∀ v ∈ Cell.values rest, Text.trimmed v = v := by
      simpa using List.map_inj_left (l := Cell.values rest) (f := Text.trimmed)
        (g := fun v => v)
    rw [hmap]
    exact forall₂_congr fun v hv => Cell.trimmed_eq_self_iff (Cell.isTrimmed_of_mem_values v hv)

/-- The first cell ends with a line feed, and the second is nothing else. -/
theorem row_below_step_and_in_examples_line_feeds :
    let rest := " a\\|\\n | \\n|b |".toList
    let s : Scanner := ⟨.english, none⟩
    ∃ token row, s.readLine ⟨4, ' ' :: '|' :: rest⟩ .row = .token token s ∧
      Tree.rows [.leaf token []] = [row] ∧
      (∀ e : Examples, e.header = some row → (examplesTable e).header = ["a|\n", "\n", "b"]) ∧
      ∀ (step : Step) (t : DataTable), step.argument = some (.table t) → t.rows[0]? = some row →
        ∃ rows, (Compiler.step "f" "en" .empty step).data = some (.table rows) ∧
          rows[0]? = some ["a|", "", "b"] := by
  intro rest s
  have hvalues : Cell.values rest = ["a|\n", "\n", "b"] := by decide +kernel
  have htrimmed : (Cell.values rest).map Text.trimmed = ["a|", "", "b"] := by decide +kernel
  obtain ⟨token, row, hread, hrow, hheader, -, hstep, -⟩ :=
    row_below_step_and_in_examples s ⟨4, ' ' :: '|' :: rest⟩ rest (by decide) []
  rw [hvalues] at hheader
  rw [htrimmed] at hstep
  exact ⟨token, row, hread, hrow, hheader, fun step t => hstep "f" "en" .empty step t 0⟩

/-- The row has a line feed in front of its cell. It names the column of the examples with it, and
is without it below the step. -/
theorem row_trimmed_below_step :
    let text := "Feature: F\nScenario Outline: O\nGiven a\n|\\nx|\nExamples:\n|\\nx|\n"
    let plan := (Document.parse .english text).toOption.bind fun document =>
      (Compiler.compile ⟨fun _ => false, none⟩ "f" document).toOption.join
    let template := plan.bind fun n => n.children.head?.bind (·.outline)
    template.map (fun t => t.steps.map (·.data)) = some [some (.table [["x"]])] ∧
      template.map (fun t => t.examples.map (·.header)) = some [["\nx"]] := by
  decide +kernel

end Compiler

end FeaturePlan
