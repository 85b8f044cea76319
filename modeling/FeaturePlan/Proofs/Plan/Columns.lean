import FeaturePlan.Proofs.Document.Violations
import FeaturePlan.Proofs.Plan.Placeholders
import FeaturePlan.Proofs.Plan.WellFormed

/-! # Every row has a value for every column

Whatever is read from a text has rectangular tables, so a row of examples has a value under each
name of its header once the outline has been compiled. A text is refused for a table just when that
is the first thing that is wrong with it. -/

namespace FeaturePlan

/-! ## Rows of a plan -/

/-- Each row of the block has a value under each name of the header. -/
def ExamplesTable.IsComplete (block : ExamplesTable) : Prop :=
  ∀ values ∈ block.rows, ∀ column ∈ block.header,
    ∃ value, ExamplesRow.value? ⟨block.header, values⟩ column = some value

namespace Compiler

variable {c : Compiler} {resource : String}

theorem isComplete_examplesTable {e : Examples}
    (h : ∀ row ∈ e.body, ∃ header, e.header = some header ∧
      row.cells.length = header.cells.length) : (examplesTable e).IsComplete := by
  intro values hvalues column hcolumn
  obtain ⟨row, hrow, rfl⟩ := List.mem_map.mp hvalues
  obtain ⟨header, hheader, hwidth⟩ := h row hrow
  have hnames : (examplesTable e).header = header.values := by rw [examplesTable, hheader]
  rw [hnames] at hcolumn ⊢
  have hindex : header.values.idxOf column < row.values.length := by
    have hlt := List.idxOf_lt_length_of_mem hcolumn
    simpa [TableRow.values, hwidth] using hlt
  exact ⟨_, (ExamplesRow.lookup_of_mem hcolumn row.values).trans (List.getElem?_eq_getElem hindex)⟩

/-- The examples of an outline's node are those of the document. -/
theorem exists_of_mem_template {d : Document} {root n : Node} {t : Template Node}
    {block : ExamplesTable} (h : c.compile resource d = .ok (some root)) (hn : n ∈ root.children)
    (ht : n.outline = some t) (hblock : block ∈ t.examples) :
    ∃ e ∈ d.examples, block = examplesTable e := by
  obtain ⟨f, hf, hwell⟩ := compile_wellFormed h
  obtain ⟨child, hchild, hmade, -⟩ := Node.exists_of_forall₂ hwell.children hn
  cases child with
  | background b => exact hmade.elim
  | scenario s =>
    have hnone : n.outline = none := Node.IsScenarioOf.outline hmade
    rw [hnone] at ht
    cases ht
  | outline o =>
    obtain ⟨t', hmade⟩ := hmade
    obtain rfl := Option.some.inj (ht.symm.trans hmade.outline)
    rw [hmade.examples] at hblock
    obtain ⟨e, he, rfl⟩ := List.mem_map.mp hblock
    have hin : e ∈ d.examples := List.mem_flatMap.mpr ⟨f, by simp [hf],
      List.mem_flatMap.mpr ⟨_, List.mem_of_mem_filter hchild, he⟩⟩
    exact ⟨e, hin, rfl⟩

theorem isComplete_of_isRectangular {d : Document} (hd : d.IsRectangular) {root n : Node}
    {t : Template Node} (h : c.compile resource d = .ok (some root)) (hn : n ∈ root.children)
    (ht : n.outline = some t) : ∀ block ∈ t.examples, block.IsComplete := by
  intro block hblock
  obtain ⟨e, he, rfl⟩ := exists_of_mem_template h hn ht hblock
  exact isComplete_examplesTable (hd.examples e he)

end Compiler

/-! ## Texts -/

namespace Diagnostics

open Event

/-- There is one error for each construct whose table is refused, at the first row that differs in
width. -/
theorem forall₂_refusedAt? (told : List Construct) :
    List.Forall₂ (fun (c : Construct) e => ∃ row, TableRow.IsFirstUneven c.rows row ∧
        e = ParseError.unevenRow row.place)
      (told.filter fun c => ¬TableRow.AreEven c.rows)
      ((told.filterMap Construct.refusedAt?).map .unevenRow) := by
  induction told with
  | nil => exact .nil
  | cons c told ih =>
    cases hrow : TableRow.firstUneven? c.rows with
    | none =>
      have heven := TableRow.firstUneven?_eq_none_iff.mp hrow
      have hplace : c.refusedAt? = none := by rw [Construct.refusedAt?, hrow, Option.map_none]
      rwa [List.filter_cons_of_neg (by simpa using heven), List.filterMap_cons_none hplace]
    | some row =>
      have huneven : ¬TableRow.AreEven c.rows := fun heven => by
        rw [TableRow.firstUneven?_eq_none_iff.mpr heven] at hrow
        cases hrow
      have hplace : c.refusedAt? = some row.place := by
        rw [Construct.refusedAt?, hrow, Option.map_some]
      rw [List.filter_cons_of_pos (by simpa using huneven), List.filterMap_cons_some hplace,
        List.map_cons]
      exact .cons ⟨row, TableRow.firstUneven?_eq_some_iff.mp hrow, rfl⟩ ih

theorem isRectangular_of_parse {d : Dialect} {text : String} {document : Document}
    (h : Document.parse d text = .ok document) : document.IsRectangular :=
  Document.eq_of_parse h ▸ isRectangular_ofText d text

/-- Documents have rectangular tables, whether they are read strictly or with all errors, and their
outlines have a value for each column in each row. Strict reading ends with a row just when the
first thing that is wrong with the text is a table that ends there in which that row is the first to
differ in width. Otherwise each such table is an error of its own and is left out whole; the step or
the examples above it stay. -/
theorem tables_rectangular (d : Dialect) (text : String) :
    let found := ofText d text
    let delivery := deliver d text Assembly.builder Sink.collect .empty []
    let told := Construct.gather ((delivery.events.filterMap token?).flatMap Token.entries)
    (∀ document, document = found.document ∨ Document.parse d text = .ok document →
      document.IsRectangular ∧
      ∀ (c : Compiler) resource root, c.compile resource document = .ok (some root) →
        ∀ n ∈ root.children, ∀ t, n.outline = some t → ∀ block ∈ t.examples,
          block.IsComplete) ∧
    (∀ place, Document.parse d text = .error (.unevenRow place) ↔
      ∃ before rule inner row,
        before ++ .opened rule :: inner ++ [.closed rule] <+: eventsOf d text ∧
        Assembly.isTable rule ∧ (∀ e ∈ inner, isFlat e) ∧
        TableRow.IsFirstUneven (inner.filterMap row?) row ∧ row.place = place ∧
        ∀ earlier event, earlier ++ [event] <+: before ++ .opened rule :: inner →
          ∀ e, ¬Violates earlier event e) ∧
    found.document.constructs.map Construct.untagged =
      told.map (Construct.untagged ∘ Construct.kept) ∧
    List.Forall₂ (fun (c : Construct) e => ∃ row, TableRow.IsFirstUneven c.rows row ∧
        e = ParseError.unevenRow row.place)
      (told.filter fun c => ¬TableRow.AreEven c.rows)
      (found.errors.filter ParseError.isStructural) := by
  intro found delivery told
  have htold : told =
      Construct.gather (((eventsOf d text).filterMap token?).flatMap Token.entries) := by
    rw [← Delivery.filterMap_token?_run_collect (b := Assembly.builder) _ .empty [],
      ← deliver_eq_run]
  obtain ⟨hkept, hrefused⟩ := constructs_kept d text
  refine ⟨fun document hdocument => ?_, Document.parse_eq_unevenRow_iff d text, ?_, ?_⟩
  · have hrect : document.IsRectangular := by
      rcases hdocument with rfl | hparse
      · exact isRectangular_ofText d text
      · exact isRectangular_of_parse hparse
    exact ⟨hrect, fun c resource root h n hn t ht =>
      Compiler.isComplete_of_isRectangular hrect h hn ht⟩
  · rw [htold]
    exact hkept
  · rw [htold, hrefused]
    exact forall₂_refusedAt? _

/-- A table with a comment between its rows is refused, and those on either side of it are kept. -/
theorem tables_rectangular_between_comments :
    let text := "Feature: F\nScenario Outline: O\nGiven <a>\n| x |\nWhen b\n| y |\n# c\n\n" ++
      "| z | z |\nExamples:\n| a | b |\n# d\n| 1 | 2 |\n"
    let found := ofText .english text
    let c : Compiler := ⟨fun _ => false, none⟩
    found.document.IsRectangular ∧
      found.document.constructs.map (·.rows.length) = [0, 0, 1, 0, 2] ∧
      found.errors = [.unevenRow ⟨9, 1⟩] ∧
      Document.parse .english text = .error (.unevenRow ⟨9, 1⟩) ∧
      (∃ before rule inner, before ++ .opened rule :: inner ++ [.closed rule] <+:
          eventsOf .english text ∧ Assembly.isTable rule ∧
        ∃ row, TableRow.IsFirstUneven (inner.filterMap row?) row ∧ row.place = ⟨9, 1⟩) ∧
      ∃ root n t, c.compile "r" found.document = .ok (some root) ∧ n ∈ root.children ∧
        n.outline = some t ∧ (∀ block ∈ t.examples, block.IsComplete) ∧
        t.examples.map (·.header) = [["a", "b"]] := by
  intro text found c
  let root := (c.compile "r" found.document).toOption.join.getD default
  let n := root.children.headD default
  let t := n.outline.getD ⟨[], [], []⟩
  obtain ⟨hparse, hrows, herrors, hroot, hn, ht, hheader⟩ :
      Document.parse .english text = .error (.unevenRow ⟨9, 1⟩) ∧
        found.document.constructs.map (·.rows.length) = [0, 0, 1, 0, 2] ∧
        found.errors = [.unevenRow ⟨9, 1⟩] ∧
        c.compile "r" found.document = .ok (some root) ∧ n ∈ root.children ∧
        n.outline = some t ∧ t.examples.map (·.header) = [["a", "b"]] := by
    decide +kernel
  obtain ⟨hdocument, huneven, -⟩ := tables_rectangular .english text
  obtain ⟨hrect, hcomplete⟩ := hdocument _ (.inl rfl)
  obtain ⟨before, rule, inner, row, hprefix, hrule, -, hrow, hplace, -⟩ := (huneven _).mp hparse
  exact ⟨hrect, hrows, herrors, hparse, ⟨before, rule, inner, hprefix, hrule, row, hrow, hplace⟩,
    root, n, t, hroot, hn, ht, hcomplete c "r" root hroot n hn t ht, hheader⟩

end Diagnostics

end FeaturePlan
