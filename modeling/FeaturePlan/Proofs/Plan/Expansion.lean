import FeaturePlan.Plan.Expansion
import FeaturePlan.Proofs.Plan.Export
import FeaturePlan.Proofs.Plan.Substitution
import Mathlib.Data.List.Forall2

/-! # Expansion row by row

The rows of all blocks are numbered together, and each of them makes one scenario. Here a row is
named by its block and its place in it, so that a row read under the header of another block, or
numbers that count an empty block, would show. -/

namespace FeaturePlan.Node

/-! ## Scenarios by their numbers -/

theorem getElem?_scenariosFrom (outline : Node) (t : Template Node) (number : Nat)
    (rows : List (ExamplesTable × List String)) (j : Nat) :
    (outline.scenariosFrom t number rows)[j]? =
      rows[j]?.map fun row => outline.scenarioFor t (number + j) row.1 row.2 := by
  induction rows generalizing number j with
  | nil => rfl
  | cons row rows ih =>
    cases j with
    | zero => rfl
    | succ j =>
      have hnumber : number + 1 + j = number + (j + 1) := by omega
      simp [scenariosFrom, ih, hnumber]

theorem getElem?_expand (outline : Node) (t : Template Node) (examples : List ExamplesTable)
    (j : Nat) : (outline.expand t examples)[j]? =
      (rowsOf examples)[j]?.map fun row => outline.scenarioFor t (j + 1) row.1 row.2 := by
  rw [expand, getElem?_scenariosFrom, Nat.add_comm]

theorem length_scenariosFrom (outline : Node) (t : Template Node) (number : Nat)
    (rows : List (ExamplesTable × List String)) :
    (outline.scenariosFrom t number rows).length = rows.length := by
  induction rows generalizing number with
  | nil => rfl
  | cons row rows ih => simp [scenariosFrom, ih]

/-! ## Rows by their blocks -/

def rowsBefore (examples : List ExamplesTable) (block : Nat) : Nat :=
  ((examples.take block).map fun e => e.rows.length).sum

theorem length_rowsOf (examples : List ExamplesTable) :
    (rowsOf examples).length = (examples.map fun e => e.rows.length).sum := by
  simp [rowsOf, List.length_flatMap]

/-- A place among all rows is a place in one block, behind the rows of the blocks before it. -/
theorem getElem?_rowsOf_eq_some_iff {examples : List ExamplesTable} {k : Nat}
    {block : ExamplesTable} {values : List String} :
    (rowsOf examples)[k]? = some (block, values) ↔
      ∃ i j, examples[i]? = some block ∧ block.rows[j]? = some values ∧
        k = rowsBefore examples i + j := by
  induction examples generalizing k with
  | nil => simp [rowsOf]
  | cons e examples ih =>
      have hrows : rowsOf (e :: examples) =
          (e.rows.map fun row => (e, row)) ++ rowsOf examples := by
        simp [rowsOf]
      have hbefore (i : Nat) :
          rowsBefore (e :: examples) (i + 1) = e.rows.length + rowsBefore examples i := by
        simp [rowsBefore]
      rw [hrows]
      by_cases hk : k < e.rows.length
      · rw [List.getElem?_append_left (by simpa using hk), List.getElem?_map]
        constructor
        · intro h
          obtain ⟨row, hrow, heq⟩ := Option.map_eq_some_iff.mp h
          obtain ⟨rfl, rfl⟩ := Prod.mk.inj heq
          exact ⟨0, k, rfl, hrow, by simp [rowsBefore]⟩
        · rintro ⟨_ | i, j, hblock, hrow, rfl⟩
          · obtain rfl : e = block := Option.some.inj hblock
            have hzero : rowsBefore (e :: examples) 0 + j = j := by simp [rowsBefore]
            rw [hzero, hrow]
            rfl
          · rw [hbefore] at hk
            omega
      · rw [List.getElem?_append_right (by simpa using hk), List.length_map, ih]
        constructor
        · rintro ⟨i, j, hblock, hrow, hplace⟩
          refine ⟨i + 1, j, hblock, hrow, ?_⟩
          rw [hbefore]
          omega
        · rintro ⟨_ | i, j, hblock, hrow, rfl⟩
          · obtain rfl : e = block := Option.some.inj hblock
            have hj : j < e.rows.length := (List.getElem?_eq_some_iff.mp hrow).1
            simp [rowsBefore] at hk
            omega
          · refine ⟨i, j, hblock, hrow, ?_⟩
            rw [hbefore]
            omega

/-! ## What a row makes of an outline -/

/-- What stands below a step, with the values of a row in each of its texts. -/
inductive DataFilled (row : ExamplesRow) : Option StepData → Option StepData → Prop where
  | none : DataFilled row none none
  | table {rows filled : List (List String)} :
      List.Forall₂ (List.Forall₂ row.Fills) rows filled →
      DataFilled row (some (.table rows)) (some (.table filled))
  | document {content filled : String} {contentType : Option String} :
      row.Fills content filled →
      DataFilled row (some (.document content contentType)) (some (.document filled contentType))

/-- A step with the values of a row. Its name is filled and what stands below it; nothing else
changes. -/
structure IsFilled (row : ExamplesRow) (step filled : Node) : Prop where
  name : row.Fills step.name filled.name
  data : DataFilled row step.data filled.data
  others : filled = { step with name := filled.name, data := filled.data }

/-- The scenario with a number, made of an outline by a row of a block. -/
structure IsRowScenario (outline : Node) (t : Template Node) (block : ExamplesTable)
    (values : List String) (number : Nat) (s : Node) : Prop where
  kind : s.kind = .scenario
  name : s.name = outline.name ++ " [" ++ toString number ++ "]"
  id : s.id = outline.id.map fun id => id ++ "_" ++ toString number
  tags : s.tags =
    ((outline.tags.filter fun tag => decide (outline.id ≠ some tag)) ++ block.tags).eraseDups
  keyword : s.keyword = outline.keyword
  language : s.language = outline.language
  description : s.description = outline.description
  properties : s.properties = outline.properties
  source : s.source = outline.source
  plain : s.background = false ∧ s.data = none ∧ s.outline = none
  children : ∃ steps, s.children = t.background ++ steps ∧
    List.Forall₂ (IsFilled ⟨block.header, values⟩) t.steps steps

/-- Further tags are those that are new, each at its first place. -/
theorem withTags_eq (tags more : List String) :
    withTags tags more = tags ++ (more.filter fun tag => !tags.contains tag).eraseDups := by
  induction more generalizing tags with
  | nil => simp [withTags]
  | cons tag more ih =>
      by_cases h : tag ∈ tags
      · simp [withTags, h, ih]
      · have hrest : (more.filter fun t => !(tags ++ [tag]).contains t) =
            (more.filter fun t => !tags.contains t).filter fun t => !t == tag := by
          rw [List.filter_filter]
          refine List.filter_congr fun t _ => ?_
          by_cases hne : t = tag <;> simp [hne]
        rw [withTags, if_neg (by simpa using h), ih, hrest,
          List.filter_cons_of_pos (by simpa using h), List.eraseDups_cons, List.append_assoc,
          List.singleton_append]

theorem forall₂_iff_eq_map {α β : Type} {R : α → β → Prop} {f : α → β}
    (h : ∀ a b, R a b ↔ b = f a) {as : List α} {bs : List β} :
    List.Forall₂ R as bs ↔ bs = as.map f := by
  induction as generalizing bs with
  | nil => simp
  | cons a as ih => simp [List.forall₂_cons_left_iff, h, ih]

theorem dataFilled_iff {row : ExamplesRow} {data filled : Option StepData} :
    DataFilled row data filled ↔ filled = data.map (.mapText row.substitute) := by
  have hcells (cells filled : List String) :
      List.Forall₂ row.Fills cells filled ↔ filled = cells.map row.substitute :=
    forall₂_iff_eq_map (f := row.substitute) fun _ _ => ExamplesRow.fills_iff
  have htable {rows filled : List (List String)} :
      List.Forall₂ (List.Forall₂ row.Fills) rows filled ↔
        filled = rows.map fun cells => cells.map row.substitute :=
    forall₂_iff_eq_map hcells
  constructor
  · rintro (_ | hrows | hcontent)
    · rfl
    · rw [htable.mp hrows]
      rfl
    · rw [ExamplesRow.fills_iff.mp hcontent]
      rfl
  · rintro rfl
    match data with
    | none => exact .none
    | some (.table rows) => exact .table (htable.mpr rfl)
    | some (.document content contentType) => exact .document (ExamplesRow.fills_iff.mpr rfl)

theorem isFilled_iff {row : ExamplesRow} {step filled : Node} :
    IsFilled row step filled ↔ filled = step.concrete row := by
  constructor
  · rintro ⟨hname, hdata, hothers⟩
    rw [ExamplesRow.fills_iff] at hname
    rw [dataFilled_iff] at hdata
    exact hothers.trans (by rw [concrete, hname, hdata])
  · rintro rfl
    exact ⟨ExamplesRow.fills_iff.mpr rfl, dataFilled_iff.mpr rfl, rfl⟩

theorem forall₂_isFilled_iff {row : ExamplesRow} {steps filled : List Node} :
    List.Forall₂ (IsFilled row) steps filled ↔ filled = steps.map (concrete row) :=
  forall₂_iff_eq_map (f := concrete row) fun _ _ => isFilled_iff

theorem isRowScenario_scenarioFor (outline : Node) (t : Template Node) (number : Nat)
    (block : ExamplesTable) (values : List String) :
    IsRowScenario outline t block values number (outline.scenarioFor t number block values) where
  kind := rfl
  name := rfl
  id := rfl
  tags := by simp [scenarioFor, sharedTags, withTags_eq]
  keyword := rfl
  language := rfl
  description := rfl
  properties := rfl
  source := rfl
  plain := ⟨rfl, rfl, rfl⟩
  children := ⟨_, rfl, forall₂_isFilled_iff.mpr rfl⟩

/-! ## Numbers in names -/

theorem append_toString_inj {before after : String} {m n : Nat}
    (h : before ++ toString m ++ after = before ++ toString n ++ after) : m = n := by
  have hlist : before.toList ++ (Nat.toDigits 10 m ++ after.toList) =
      before.toList ++ (Nat.toDigits 10 n ++ after.toList) := by
    simpa using congrArg String.toList h
  exact toDigits_inj (List.append_cancel_right (List.append_cancel_left hlist))

/-- What tells the numbers of scenarios apart differs from one to the next. -/
theorem nodup_map_scenariosFrom {α : Type} (outline : Node) (t : Template Node)
    (examples : List ExamplesTable) (view : Node → α) (ofNumber : Nat → α)
    (hinj : ofNumber.Injective)
    (hview : ∀ number block values,
      view (outline.scenarioFor t number block values) = ofNumber number) :
    ((outline.expand t examples).map view).Nodup := by
  rw [List.nodup_iff_injective_getElem]
  rintro ⟨k, hk⟩ ⟨l, hl⟩ h
  have hnumber (k : Nat) (hk : k < ((outline.expand t examples).map view).length) :
      ((outline.expand t examples).map view)[k] = ofNumber (k + 1) := by
    have hlt : k < (rowsOf examples).length := by
      simpa [expand, length_scenariosFrom] using hk
    have hget := getElem?_expand outline t examples k
    rw [List.getElem?_eq_getElem hlt] at hget
    have hmap : ((outline.expand t examples).map view)[k]? = some (ofNumber (k + 1)) := by
      rw [List.getElem?_map, hget]
      simp [hview]
    exact Option.some.inj ((List.getElem?_eq_getElem hk).symm.trans hmap)
  have heq : ofNumber (k + 1) = ofNumber (l + 1) := by
    rw [← hnumber k hk, ← hnumber l hl]
    exact h
  exact Fin.ext (Nat.succ.inj (hinj heq))

/-- Expansion makes one scenario for each row of all blocks, in their order, and numbers them from
one on. Each is filled with the values of its row under the header of its own block, has the tags
of this block, and a name of its own; its id is its own as well, if the outline has one. -/
theorem expand_row_by_row (outline : Node) (t : Template Node) (examples : List ExamplesTable) :
    (outline.expand t examples).length = (examples.map fun e => e.rows.length).sum ∧
      (∀ i j block values, examples[i]? = some block → block.rows[j]? = some values →
        ∃ s, (outline.expand t examples)[rowsBefore examples i + j]? = some s ∧
          IsRowScenario outline t block values (rowsBefore examples i + j + 1) s) ∧
      (∀ k s, (outline.expand t examples)[k]? = some s →
        ∃ i j block values, examples[i]? = some block ∧ block.rows[j]? = some values ∧
          k = rowsBefore examples i + j ∧ IsRowScenario outline t block values (k + 1) s) ∧
      ((outline.expand t examples).map fun s => s.name).Nodup ∧
      (outline.id.isSome → ((outline.expand t examples).map fun s => s.id).Nodup) := by
  refine ⟨?_, fun i j block values hblock hrow => ?_, fun k s hs => ?_, ?_, fun hid => ?_⟩
  · rw [expand, length_scenariosFrom, length_rowsOf]
  · have hplace := getElem?_rowsOf_eq_some_iff.mpr ⟨i, j, hblock, hrow, rfl⟩
    refine ⟨outline.scenarioFor t (rowsBefore examples i + j + 1) block values, ?_,
      isRowScenario_scenarioFor outline t _ block values⟩
    rw [getElem?_expand, hplace]
    rfl
  · rw [getElem?_expand] at hs
    obtain ⟨⟨block, values⟩, hplace, rfl⟩ := Option.map_eq_some_iff.mp hs
    obtain ⟨i, j, hblock, hrow, hk⟩ := getElem?_rowsOf_eq_some_iff.mp hplace
    exact ⟨i, j, block, values, hblock, hrow, hk, isRowScenario_scenarioFor outline t _ _ _⟩
  · refine nodup_map_scenariosFrom outline t examples _
      (fun number => outline.name ++ " [" ++ toString number ++ "]") (fun m n h => ?_)
      fun _ _ _ => rfl
    exact append_toString_inj h
  · obtain ⟨id, hid⟩ := Option.isSome_iff_exists.mp hid
    refine nodup_map_scenariosFrom outline t examples _
      (fun number => some (id ++ "_" ++ toString number)) (fun m n h => ?_) fun _ _ _ => ?_
    · have happ : id ++ "_" ++ toString m ++ "" = id ++ "_" ++ toString n ++ "" := by
        simpa using Option.some.inj h
      exact append_toString_inj happ
    · simp [scenarioFor, hid]

/-- Between two blocks with rows there is one without. The last row is the third of all, and is read
under its own header, which has a column more. -/
theorem expand_row_by_row_blocks :
    let steps (name cell content : String) : List Node :=
      [⟨{ Label.plain .step name with data := some (.table [[cell, "x"]]) }, [], none⟩,
        ⟨{ Label.plain .step "note" with data := some (.document content none) }, [], none⟩]
    let outline : Node :=
      ⟨{ Label.plain .outline "O" with id := some "o", tags := ["o", "slow"] }, [], none⟩
    let t : Template Node := ⟨steps "pay <n> in <m>" "<m>" "<n>: <m>", [], [default]⟩
    let examples : List ExamplesTable :=
      [⟨[], ["n"], [["1"], ["2"]]⟩, ⟨["none"], ["m"], []⟩,
        ⟨["slow", "last"], ["m", "n"], [["<n>", "3"]]⟩]
    ∃ first last, (outline.expand t examples)[0]? = some first ∧
      first.name = "O [1]" ∧ first.id = some "o_1" ∧ first.tags = ["slow"] ∧
      first.children = default :: steps "pay 1 in <m>" "<m>" "1: <m>" ∧
      (outline.expand t examples)[2]? = some last ∧
      last.name = "O [3]" ∧ last.id = some "o_3" ∧ last.tags = ["slow", "last"] ∧
      last.children = default :: steps "pay 3 in <n>" "<n>" "3: <n>" := by
  intro steps outline t examples
  obtain ⟨-, hrows, -⟩ := expand_row_by_row outline t examples
  obtain ⟨first, hfirst, hone⟩ := hrows 0 0 _ _ rfl rfl
  obtain ⟨last, hlast, hthree⟩ := hrows 2 0 _ _ rfl rfl
  obtain ⟨filled, hchildren, hfilled⟩ := hone.children
  obtain ⟨filled', hchildren', hfilled'⟩ := hthree.children
  rw [forall₂_isFilled_iff.mp hfilled] at hchildren
  rw [forall₂_isFilled_iff.mp hfilled'] at hchildren'
  exact ⟨first, last, hfirst, hone.name.trans (by decide +kernel),
    hone.id.trans (by decide +kernel), hone.tags.trans (by decide +kernel),
    hchildren.trans (by decide +kernel), hlast, hthree.name.trans (by decide +kernel),
    hthree.id.trans (by decide +kernel), hthree.tags.trans (by decide +kernel),
    hchildren'.trans (by decide +kernel)⟩

end FeaturePlan.Node
