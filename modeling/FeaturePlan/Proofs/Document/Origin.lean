import FeaturePlan.Proofs.Document.Constructs
import FeaturePlan.Proofs.Document.Growth
import FeaturePlan.Proofs.Grammar.Strides
import FeaturePlan.Proofs.Scanner.Spelling

/-! # Documents are written in their texts

Every title, step, tag and row of a document can be read off the text again, at the place that the
document gives for it. Trees hold nothing but lines of the text, and whatever a document is made of
is read off the lines of its tree. -/

namespace FeaturePlan

open Text

/-- The line of that number; lines count from 1. -/
def Text.IsLineAt (ls : List (List Char)) (number : Nat) (raw : List Char) : Prop :=
  ∃ i, ls[i]? = some raw ∧ number = i + 1

/-! ## Parts of a document -/

section

variable (ls : List (List Char))

def Heading.IsWrittenIn (h : Heading) : Prop :=
  ∃ raw, IsLineAt ls h.place.line raw ∧
    OpensWith raw h.place.column (h.keyword.toList ++ [':']) h.name

def Tag.IsWrittenIn (t : Tag) : Prop :=
  ∃ raw, IsLineAt ls t.place.line raw ∧ StandsAt raw t.place.column t.name.toList

/-- The row is a row of the text, and its cells are on the same line. -/
def TableRow.IsWrittenIn (r : TableRow) : Prop :=
  ∃ raw, IsLineAt ls r.place.line raw ∧
    Cell.IsRow raw r.place.column (r.cells.map fun c => ⟨c.place.column, c.value⟩) ∧
    ∀ c ∈ r.cells, c.place.line = r.place.line

structure Step.IsWrittenIn (s : Step) : Prop where
  line : ∃ raw, IsLineAt ls s.place.line raw ∧
    OpensWith raw s.place.column s.keyword.toList s.text
  rows : ∀ a ∈ s.argument, ∀ r ∈ a.rows, r.IsWrittenIn ls

structure Background.IsWrittenIn (b : Background) : Prop where
  heading : b.toHeading.IsWrittenIn ls
  steps : ∀ s ∈ b.steps, s.IsWrittenIn ls

structure Scenario.IsWrittenIn (s : Scenario) : Prop where
  heading : s.toHeading.IsWrittenIn ls
  tags : ∀ t ∈ s.tags, t.IsWrittenIn ls
  steps : ∀ step ∈ s.steps, step.IsWrittenIn ls

structure Examples.IsWrittenIn (e : Examples) : Prop where
  heading : e.toHeading.IsWrittenIn ls
  tags : ∀ t ∈ e.tags, t.IsWrittenIn ls
  rows : ∀ r ∈ e.rows, r.IsWrittenIn ls

structure Outline.IsWrittenIn (o : Outline) : Prop where
  heading : o.toHeading.IsWrittenIn ls
  tags : ∀ t ∈ o.tags, t.IsWrittenIn ls
  steps : ∀ s ∈ o.steps, s.IsWrittenIn ls
  examples : ∀ e ∈ o.examples, e.IsWrittenIn ls

def Child.IsWrittenIn : Child → Prop
  | background b => b.IsWrittenIn ls
  | scenario s => s.IsWrittenIn ls
  | outline o => o.IsWrittenIn ls

structure Feature.IsWrittenIn (f : Feature) : Prop where
  heading : f.toHeading.IsWrittenIn ls
  tags : ∀ t ∈ f.tags, t.IsWrittenIn ls
  children : ∀ c ∈ f.children, c.IsWrittenIn ls

/-- Whatever has a place in the document stands in the text at that place. -/
def Document.IsWrittenIn (d : Document) : Prop :=
  ∀ f ∈ d.feature, f.IsWrittenIn ls

/-- What the line was read as stands on the line of its number. -/
def Token.IsWrittenIn (t : Token) : Prop :=
  ∃ raw, IsLineAt ls t.place.line raw ∧ t.IsWrittenOn raw

end

variable {ls : List (List Char)}

/-! ## Trees -/

namespace Tree

theorem mem_tokensAll {t : Token} {ts : List Tree} :
    t ∈ tokensAll ts ↔ ∃ tree ∈ ts, t ∈ tree.tokens := by
  induction ts with
  | nil => simp [tokensAll]
  | cons tree ts ih => simp [tokensAll, ih]

def AreWrittenIn (ls : List (List Char)) (ts : List Tree) : Prop :=
  ∀ t ∈ tokensAll ts, t.IsWrittenIn ls

variable {ts parts : List Tree}

theorem AreWrittenIn.node (h : AreWrittenIn ls ts) {rule : Rule} (hm : .node rule parts ∈ ts) :
    AreWrittenIn ls parts :=
  fun t ht => h t (mem_tokensAll.mpr ⟨_, hm, ht⟩)

theorem AreWrittenIn.leaf (h : AreWrittenIn ls ts) {t : Token} {comments : List Comment}
    (hm : .leaf t comments ∈ ts) : t.IsWrittenIn ls :=
  h t (mem_tokensAll.mpr ⟨_, hm, by simp [tokens]⟩)

theorem AreWrittenIn.parts? (h : AreWrittenIn ls ts) {rule : Rule}
    (hp : parts? rule ts = some parts) : AreWrittenIn ls parts := by
  obtain ⟨tree, hm, hp⟩ := List.exists_of_findSome?_eq_some hp
  cases tree with
  | leaf t comments => cases hp
  | node r ps =>
    simp only at hp
    split at hp
    · obtain rfl := Option.some.inj hp
      exact h.node hm
    · cases hp

theorem AreWrittenIn.getD_parts? (h : AreWrittenIn ls ts) (rule : Rule) :
    AreWrittenIn ls ((Tree.parts? rule ts).getD []) := by
  cases hp : Tree.parts? rule ts with
  | none => exact fun t ht => by cases ht
  | some parts => exact h.parts? hp

theorem isWrittenIn_title? (h : AreWrittenIn ls ts) {block : Block} {token : Token}
    {heading : Heading} {comments : List Comment}
    (ht : title? block ts = some (token, heading, comments)) : heading.IsWrittenIn ls := by
  obtain ⟨tree, hm, ht⟩ := List.exists_of_findSome?_eq_some ht
  cases tree with
  | node r ps => cases ht
  | leaf t cs =>
    obtain ⟨raw, hline, hon⟩ := h.leaf hm
    obtain ⟨place, d, content⟩ := t
    cases content with
    | title b keyword name =>
      simp only at ht
      split at ht
      · obtain ⟨rfl, hrest⟩ := Prod.mk.inj (Option.some.inj ht)
        obtain ⟨rfl, rfl⟩ := Prod.mk.inj hrest
        exact ⟨raw, hline, hon⟩
      · cases ht
    | _ => cases ht

theorem isWrittenIn_heading? (h : AreWrittenIn ls ts) {block : Block} {heading : Heading}
    {comments : List Comment} (hh : heading? block ts = some (heading, comments)) :
    heading.IsWrittenIn ls := by
  obtain ⟨⟨token, title, cs⟩, ht, hh⟩ := Option.map_eq_some_iff.mp hh
  obtain ⟨rfl, rfl⟩ := Prod.mk.inj hh
  have htitle : title.IsWrittenIn ls := isWrittenIn_title? h ht
  exact htitle

theorem isWrittenIn_rows (h : AreWrittenIn ls ts) : ∀ r ∈ rows ts, r.IsWrittenIn ls := by
  intro r hr
  obtain ⟨tree, hm, hr⟩ := List.mem_filterMap.mp hr
  cases tree with
  | node rule ps => cases hr
  | leaf t cs =>
    obtain ⟨raw, hline, hon⟩ := h.leaf hm
    obtain ⟨place, d, content⟩ := t
    cases content with
    | row cells =>
      obtain rfl := Option.some.inj hr
      refine ⟨raw, hline, ?_, ?_⟩
      · simpa [Token.IsWrittenOn, spanPlace, Function.comp_def] using hon
      · simp [spanPlace]
    | _ => cases hr

theorem isWrittenIn_tags (h : AreWrittenIn ls ts) : ∀ t ∈ tags ts, t.IsWrittenIn ls := by
  intro tag ht
  obtain ⟨tree, hm, ht⟩ := List.mem_flatMap.mp ht
  cases tree with
  | node rule ps => cases ht
  | leaf t cs =>
    obtain ⟨raw, hline, hon⟩ := (h.getD_parts? .tags).leaf hm
    obtain ⟨place, d, content⟩ := t
    cases content with
    | tags spans =>
      obtain ⟨s, hs, rfl⟩ := List.mem_map.mp ht
      exact ⟨raw, hline, hon s hs⟩
    | _ => cases ht

/-! ## Steps and blocks -/

theorem isWrittenIn_argument? (h : AreWrittenIn ls ts) :
    ∀ a ∈ argument? ts, ∀ r ∈ a.rows, r.IsWrittenIn ls := by
  intro a ha r hr
  cases a with
  | docString s => cases hr
  | table t =>
    have ht : dataTable? ts = some t := by
      cases htable : dataTable? ts with
      | some t' => simpa [argument?, htable] using ha
      | none => simp [argument?, htable] at ha
    obtain ⟨parts, hp, ht⟩ := Option.bind_eq_some_iff.mp ht
    obtain ⟨first, -, ht⟩ := Option.bind_eq_some_iff.mp ht
    obtain rfl := Option.some.inj ht
    exact isWrittenIn_rows (h.parts? hp) r hr

theorem isWrittenIn_step? (h : AreWrittenIn ls ts) {tree : Tree} (hm : tree ∈ ts) {s : Step}
    (hs : step? tree = some s) : s.IsWrittenIn ls := by
  cases tree with
  | leaf t cs => cases hs
  | node rule parts =>
    cases rule with
    | step =>
      obtain ⟨tree, hleaf, hs⟩ := List.exists_of_findSome?_eq_some hs
      cases tree with
      | node r ps => cases hs
      | leaf t cs =>
        obtain ⟨raw, hline, hon⟩ := (h.node hm).leaf hleaf
        obtain ⟨place, d, content⟩ := t
        cases content with
        | step keyword text =>
          obtain rfl := Option.some.inj hs
          exact ⟨⟨raw, hline, hon⟩, isWrittenIn_argument? (h.node hm)⟩
        | _ => cases hs
    | _ => cases hs

/-- The category that a step has after others does not show in the text. -/
theorem isWrittenIn_resolveKinds {steps : List Step} (h : ∀ s ∈ steps, s.IsWrittenIn ls)
    (last : Option StepKind) : ∀ s ∈ resolveKinds last steps, s.IsWrittenIn ls := by
  induction steps generalizing last with
  | nil => exact h
  | cons first rest ih =>
    intro s hs
    rcases List.mem_cons.mp hs with rfl | hs
    · have hfirst := h first List.mem_cons_self
      exact ⟨hfirst.line, hfirst.rows⟩
    · exact ih (fun s hs => h s (List.mem_cons_of_mem first hs)) _ s hs

theorem isWrittenIn_steps (h : AreWrittenIn ls ts) : ∀ s ∈ steps ts, s.IsWrittenIn ls := by
  refine isWrittenIn_resolveKinds (fun s hs => ?_) none
  obtain ⟨tree, hm, hs⟩ := List.mem_filterMap.mp hs
  exact isWrittenIn_step? h hm hs

theorem isWrittenIn_examples? (h : AreWrittenIn ls ts) {tree : Tree} (hm : tree ∈ ts)
    {e : Examples} (he : examples? tree = some e) : e.IsWrittenIn ls := by
  cases tree with
  | leaf t cs => cases he
  | node rule parts =>
    cases rule with
    | examplesDefinition =>
      have hparts := h.node hm
      obtain ⟨inner, hinner, he⟩ := Option.bind_eq_some_iff.mp he
      obtain ⟨⟨heading, comments⟩, hheading, he⟩ := Option.bind_eq_some_iff.mp he
      obtain rfl := Option.some.inj he
      have hrows := isWrittenIn_rows ((hparts.parts? hinner).getD_parts? .examplesTable)
      refine ⟨isWrittenIn_heading? (hparts.parts? hinner) hheading, isWrittenIn_tags hparts,
        fun r hr => hrows r ?_⟩
      cases htable : rows ((parts? .examplesTable inner).getD []) with
      | nil => simp [Examples.rows, htable] at hr
      | cons first rest => simpa [Examples.rows, htable] using hr
    | _ => cases he

theorem isWrittenIn_child? (h : AreWrittenIn ls ts) {tree : Tree} (hm : tree ∈ ts) {c : Child}
    (hc : child? tree = some c) : c.IsWrittenIn ls := by
  cases tree with
  | leaf t cs => cases hc
  | node rule parts =>
    have hparts := h.node hm
    cases rule with
    | background =>
      obtain ⟨⟨heading, comments⟩, hheading, rfl⟩ := Option.map_eq_some_iff.mp hc
      exact ⟨isWrittenIn_heading? hparts hheading, isWrittenIn_steps hparts⟩
    | scenarioDefinition =>
      rw [child?] at hc
      split at hc
      · next inner hinner =>
        obtain ⟨⟨heading, comments⟩, hheading, rfl⟩ := Option.map_eq_some_iff.mp hc
        have hin := hparts.parts? hinner
        exact ⟨isWrittenIn_heading? hin hheading, isWrittenIn_tags hparts, isWrittenIn_steps hin⟩
      · obtain ⟨inner, hinner, hc⟩ := Option.bind_eq_some_iff.mp hc
        obtain ⟨⟨heading, comments⟩, hheading, hc⟩ := Option.bind_eq_some_iff.mp hc
        obtain rfl := Option.some.inj hc
        have hin := hparts.parts? hinner
        refine ⟨isWrittenIn_heading? hin hheading, isWrittenIn_tags hparts, isWrittenIn_steps hin,
          fun e he => ?_⟩
        obtain ⟨tree, htree, he⟩ := List.mem_filterMap.mp he
        exact isWrittenIn_examples? hin htree he
    | _ => cases hc

theorem isWrittenIn_feature? (h : AreWrittenIn ls ts) {f : Feature} (hf : feature? ts = some f) :
    f.IsWrittenIn ls := by
  obtain ⟨header, hheader, hf⟩ := Option.bind_eq_some_iff.mp hf
  obtain ⟨⟨token, heading, comments⟩, htitle, hf⟩ := Option.bind_eq_some_iff.mp hf
  obtain rfl := Option.some.inj hf
  have hin := h.parts? hheader
  have hheading : heading.IsWrittenIn ls := isWrittenIn_title? hin htitle
  refine ⟨hheading, isWrittenIn_tags hin, fun c hc => ?_⟩
  obtain ⟨tree, htree, hc⟩ := List.mem_filterMap.mp hc
  exact isWrittenIn_child? h htree hc

theorem isWrittenIn_document (h : AreWrittenIn ls ts) : (document ts).IsWrittenIn ls := by
  intro f hf
  obtain ⟨parts, hparts, hf⟩ := Option.bind_eq_some_iff.mp hf
  obtain ⟨inner, hinner, hf⟩ := Option.bind_eq_some_iff.mp hf
  exact isWrittenIn_feature? ((h.parts? hparts).parts? hinner) hf

mutual

theorem tokens_prune_subset : ∀ t : Tree, t.prune.tokens ⊆ t.tokens
  | .leaf _ _ => List.Subset.refl _
  | .node _ parts => tokensAll_pruneAll_subset parts

theorem tokensAll_pruneAll_subset : ∀ ts : List Tree, tokensAll (pruneAll ts) ⊆ tokensAll ts
  | [] => List.Subset.refl _
  | t :: ts => by
    have hts := tokensAll_pruneAll_subset ts
    rw [pruneAll]
    split
    · exact List.subset_append_of_subset_right _ hts
    · exact List.append_subset.mpr ⟨List.subset_append_of_subset_left _ (tokens_prune_subset t),
        List.subset_append_of_subset_right _ hts⟩

end

end Tree

/-! ## Texts -/

/-- What is handed over of numbered lines was read off them. -/
theorem Cursor.exists_readLine_of_mem_strides {raws : List (List Char)} {c : Cursor} {n : Nat}
    {t : Token} (ht : t.kind ≠ .eof)
    (h : .token t ∈ (c.strides (Item.number n raws)).flatMap Stride.events) :
    ∃ i raw s s', raws[i]? = some raw ∧ t.place.line = n + i ∧
      Scanner.readLine s ⟨n + i, raw⟩ t.kind = .token t s' := by
  induction raws generalizing c n with
  | nil =>
    simp only [Item.number, strides, List.flatMap_cons, List.flatMap_nil, List.append_nil] at h
    obtain ⟨scanner, hread⟩ := read_of_mem_consume h
    exact absurd (Scanner.kind_eq_eof hread) ht
  | cons raw raws ih =>
    rcases List.mem_append.mp h with h | h
    · obtain ⟨scanner, hread⟩ := read_of_mem_consume h
      exact ⟨0, raw, _, scanner, rfl, Scanner.line_of_read hread, hread⟩
    · obtain ⟨i, raw', s, s', hraw, hline, hread⟩ := ih h
      rw [Nat.add_assoc, Nat.add_comm 1] at hline hread
      exact ⟨i + 1, raw', s, s', hraw, hline, hread⟩

theorem exists_readLine_of_mem_eventsOf {d : Dialect} {text : String} {t : Token}
    (ht : t.kind ≠ .eof) (h : .token t ∈ eventsOf d text) :
    ∃ raw s s', IsLineAt (lines text.toList) t.place.line raw ∧
      Scanner.readLine s ⟨t.place.line, raw⟩ t.kind = .token t s' := by
  have hstrides : .token t ∈ (stridesOf d text).flatMap Stride.events := by
    simpa [eventsOf] using h
  obtain ⟨i, raw, s, s', hraw, hline, hread⟩ :=
    Cursor.exists_readLine_of_mem_strides ht hstrides
  exact ⟨raw, s, s', ⟨i, hraw, by omega⟩, hline ▸ hread⟩

theorem isWrittenIn_of_mem_eventsOf {d : Dialect} {text : String} {t : Token}
    (ht : t.kind ≠ .eof) (h : .token t ∈ eventsOf d text) :
    t.IsWrittenIn (lines text.toList) := by
  obtain ⟨raw, s, s', hline, hread⟩ := exists_readLine_of_mem_eventsOf ht h
  exact ⟨raw, hline, Scanner.isWrittenOn_of_readLine hread⟩

namespace Assembly

/-- What has been assembled from events holds no line but theirs. -/
theorem token_mem_of_mem_trees {events : List Event} {t : Token}
    (h : t ∈ Tree.tokensAll (empty.growAll events).prune.trees) : .token t ∈ events ∧ holds t := by
  have hgrown : t ∈ Tree.tokensAll (empty.growAll events).content := by
    rw [content, Tree.tokensAll_append]
    exact List.mem_append_left _ (Tree.tokensAll_pruneAll_subset _ h)
  have hempty : Tree.tokensAll empty.content = [] := rfl
  rw [tokens_growAll, hempty, List.nil_append] at hgrown
  obtain ⟨e, he, htoken⟩ := List.mem_filterMap.mp hgrown
  cases e with
  | token u =>
    simp only [heldToken?] at htoken
    split at htoken
    · next hholds =>
      obtain rfl := Option.some.inj htoken
      exact ⟨he, hholds⟩
    · cases htoken
  | _ => cases htoken

theorem areWrittenIn_trees {events : List Event}
    (h : ∀ t, .token t ∈ events → t.kind ≠ .eof → t.IsWrittenIn ls) :
    Tree.AreWrittenIn ls (empty.growAll events).prune.trees := by
  intro t ht
  obtain ⟨hmem, hholds⟩ := token_mem_of_mem_trees ht
  refine h t hmem fun hk => ?_
  simp [holds, hk] at hholds

end Assembly

/-- Every part of a document stands in the text at its place, whether the text has been read
strictly or with all its errors. -/
theorem Document.isWrittenIn_lines (d : Dialect) (text : String) :
    (Diagnostics.ofText d text).document.IsWrittenIn (Text.lines text.toList) ∧
      ∀ document, Document.parse d text = .ok document →
        document.IsWrittenIn (Text.lines text.toList) := by
  have hfound : (Diagnostics.ofText d text).document.IsWrittenIn (Text.lines text.toList) := by
    have hafter : (Findings.empty.after (eventsOf d text)).assembly =
        (Assembly.empty.growAll (eventsOf d text)).prune :=
      Assembly.assembly_after (eventsOf d text) .empty []
    rw [Diagnostics.ofText_eq, hafter]
    exact Tree.isWrittenIn_document (Assembly.areWrittenIn_trees fun t ht hk =>
      isWrittenIn_of_mem_eventsOf hk ht)
  refine ⟨hfound, fun document hparse => ?_⟩
  rw [Document.parse_eq] at hparse
  split at hparse
  · obtain rfl := Except.ok.inj hparse
    exact hfound
  · cases hparse

/-- Columns count characters, and a bar that is escaped does not end its cell. -/
theorem Document.isWrittenIn_lines_accents :
    let text := "@é @b\nFeature: F\n Scenario: S\n  Given x\n  |é\\|| ü |\n"
    ∃ document, Document.parse .english text = .ok document ∧
      document.IsWrittenIn (Text.lines text.toList) ∧
      (document.feature.toList.flatMap (·.tags)).map (·.place.column) = [1, 4] ∧
      document.constructs.flatMap (·.rows) =
        [⟨⟨5, 3⟩, [⟨⟨5, 4⟩, "é|"⟩, ⟨⟨5, 9⟩, "ü"⟩]⟩] := by
  intro text
  let document := (Document.parse .english text).toOption.getD default
  have hparse : Document.parse .english text = .ok document := by decide +kernel
  exact ⟨document, hparse, (isWrittenIn_lines .english text).2 document hparse, by decide +kernel⟩

end FeaturePlan
