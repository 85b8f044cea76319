import FeaturePlan.Proofs.Document.Blocks
import FeaturePlan.Proofs.Document.Comments
import FeaturePlan.Proofs.Document.Lines
import FeaturePlan.Proofs.Document.Settling
import FeaturePlan.Proofs.Grammar.Steps

/-! # Doc strings in their texts

A doc string carries any text to the step above it, wherever that step stands: whatever its lines
look like, they belong to the doc string, and nothing that follows adds to the step. -/

namespace FeaturePlan

/-! ## Parts of doc strings -/

namespace Reader

open FeaturePlan.Tree

variable {d : Dialect} {m : Delimiter} {type : String} {opening closing : Line}
  {contents : List (List Char)} {inner : List Line}

theorem exists_leaf_of_mem_docStringParts {tree : Tree}
    (h : tree ∈ docStringParts d m type opening closing contents inner) :
    ∃ l ∈ opening :: (inner ++ [closing]), ∃ t, tree = .leaf t [] ∧ t.place.line = l.number := by
  rw [docStringParts, List.cons_append] at h
  rcases List.mem_cons.mp h with rfl | h
  · exact ⟨opening, List.mem_cons_self, _, rfl, rfl⟩
  rcases List.mem_append.mp h with h | h
  · obtain ⟨i, hi, rfl⟩ := List.getElem_of_mem h
    have hinner : i < inner.length := by
      rw [contentLeaves, List.length_zipWith] at hi
      omega
    exact ⟨inner[i], by simp, _, List.getElem_zipWith, rfl⟩
  · exact ⟨closing, by simp, _, List.mem_singleton.mp h, rfl⟩

theorem subtreesAll_docStringParts :
    subtreesAll (docStringParts d m type opening closing contents inner) =
      docStringParts d m type opening closing contents inner :=
  subtreesAll_of_leaves fun _ h => by
    obtain ⟨l, -, t, ht, -⟩ := exists_leaf_of_mem_docStringParts h
    exact ⟨t, [], ht⟩

theorem pruneAll_docStringParts :
    pruneAll (docStringParts d m type opening closing contents inner) =
      docStringParts d m type opening closing contents inner :=
  pruneAll_of_leaves fun _ h => by
    obtain ⟨l, -, t, ht, -⟩ := exists_leaf_of_mem_docStringParts h
    exact ⟨t, [], ht⟩

theorem argument?_docString (h : contents.length = inner.length) (t : Token)
    (comments : List Comment) :
    argument? [.leaf t comments,
        .node .docString (docStringParts d m type opening closing contents inner)] =
      some (.docString ⟨opening.start, m, if type = "" then none else some type,
        Text.joinLines (contents.map String.ofList)⟩) := by
  rw [← freeLines_contentLeaves (d := d) h]
  exact Tree.argument?_docString rfl rfl [] [] (contentLeaves d contents inner)

end Reader

/-! ## Numbers of lines -/

/-- Items in front of others are lines, numbered one by one. -/
theorem Item.number_append (n : Nat) (raws more : List (List Char)) :
    ∃ (ls : List Line) (k : Nat), number n (raws ++ more) = ls.map .line ++ number k more ∧
      ls.map (·.raw) = raws ∧ n ≤ k ∧ ∀ l ∈ ls, n ≤ l.number := by
  induction raws generalizing n with
  | nil => exact ⟨[], n, rfl, rfl, Nat.le_refl n, by simp⟩
  | cons raw raws ih =>
    obtain ⟨ls, k, hnumber, hraws, hk, hls⟩ := ih (n + 1)
    refine ⟨⟨n, raw⟩ :: ls, k, ?_, by rw [List.map_cons, hraws], by omega, ?_⟩
    · rw [List.cons_append, number, hnumber, List.map_cons, List.cons_append]
    · exact List.forall_mem_cons.mpr ⟨Nat.le_refl n, fun l hl => Nat.le_of_succ_le (hls l hl)⟩

theorem Item.number_docString (n : Nat) (first last : List Char) (reads below : List (List Char)) :
    ∃ (opening closing : Line) (inner : List Line) (k : Nat),
      number n (first :: (reads ++ last :: below)) =
        (opening :: (inner ++ [closing])).map .line ++ number k below ∧
      opening.number = n ∧ opening.raw = first ∧ inner.map (·.raw) = reads ∧ closing.raw = last ∧
      ∀ l ∈ opening :: (inner ++ [closing]), n ≤ l.number := by
  obtain ⟨inner, k, hnumber, hraws, hk, hinner⟩ := number_append (n + 1) reads (last :: below)
  refine ⟨⟨n, first⟩, ⟨k, last⟩, inner, k + 1, ?_, rfl, rfl, hraws, rfl, ?_⟩
  · rw [number, hnumber, number]
    simp
  · simp only [List.forall_mem_cons, List.forall_mem_append]
    exact ⟨Nat.le_refl n, fun l hl => Nat.le_of_succ_le (hinner l hl), Nat.le_of_succ_le hk,
      by simp⟩

/-- Lines that are handed over before another stand above it, and those after it below. -/
theorem token?_eventsOf_around {d : Dialect} {text : String} {before after : List Event} {t : Token}
    (h : eventsOf d text = before ++ .token t :: after) :
    (∀ u, .token u ∈ before → u.place.line < t.place.line) ∧
      ∀ u, .token u ∈ after → t.place.line < u.place.line := by
  have hpairwise := token?_eventsOf_pairwise d text
  have htoken : Event.token? (.token t) = some t := rfl
  rw [h, List.filterMap_append, List.filterMap_cons_some htoken] at hpairwise
  obtain ⟨-, hbelow, habove⟩ := List.pairwise_append.mp hpairwise
  refine ⟨fun u hu => ?_, fun u hu => ?_⟩
  · exact habove u (List.mem_filterMap.mpr ⟨_, hu, rfl⟩) t List.mem_cons_self
  · exact (List.pairwise_cons.mp hbelow).1 u (List.mem_filterMap.mpr ⟨_, hu, rfl⟩)

/-! ## Doc strings below steps -/

section

variable {d : Dialect} {text : String} {m : Delimiter} {w : List Char} {type : String}
  {contents : List (List Char)} {t : Token}

namespace Assembly

/-- Below the line of a step, a doc string becomes its second part and its last. -/
theorem growAll_docString (hd : d.Sound) (hw : ∀ c ∈ w, Text.isBlank c)
    (htype : Text.IsName type) (hcontents : ∀ content ∈ contents, ¬m.escapedChars <:+: content)
    {opening closing : Line} {inner : List Line}
    (hopen : opening.raw = w ++ (m.chars ++ type.toList)) (hclose : closing.raw = w ++ m.chars)
    (hinner : List.Forall₂ (fun content l => Scanner.StandsFor m w content l.raw) contents inner)
    (hk : t.kind = .step) (a : Assembly) (b : Block) (n : Nat) (below : List (List Char)) :
    ∃ es silent after, ((⟨.step b, .start d, .step :: a.rules⟩ : Cursor).strides
          ((opening :: (inner ++ [closing])).map .line ++ Item.number n below)).flatMap
          Stride.events = es ++ (silent ++ .closed .step :: after) ∧
        silent.filter Event.isPart = [] ∧
        a.growAll (.opened .step :: .token t :: es) = ⟨(.step, [.leaf t a.waiting,
          .node .docString (Reader.docStringParts d m type opening closing contents inner)]) ::
            a.frames, a.trees, []⟩ := by
  have htakes : Reader.Takes
      ⟨.step b, .start d, within ((.step, [.leaf t a.waiting]) :: a.frames) []⟩ _ _ :=
    Reader.takes_docString hd hw htype hopen hclose hcontents hinner a.frames
  obtain ⟨es, hes, hhands⟩ := htakes.strides (Item.number n below)
  obtain ⟨silent, after, hbelow, hsilent⟩ :=
    Cursor.exists_closed_step b (.start d) a.rules n below
  refine ⟨es, silent, after, hes.trans (congrArg (es ++ ·) hbelow), hsilent, ?_⟩
  have hstep : (a.grow (.opened .step)).grow (.token t) =
      (within ((.step, [.leaf t a.waiting]) :: a.frames) []).beside a.trees := by
    have hholds : holds t := by simp [holds, hk]
    have howns : ownsComments t.kind := by rw [hk]; rfl
    simp only [grow, addToken_of_holds hholds, howns, if_true]
    simp [push, within, beside]
  rw [growAll_cons, growAll_cons, hstep, growAll_of_hands a.trees hhands]
  simp [within, beside]

/-- A step and a doc string have the line of the step in no other place. -/
theorem fixes_docString {opening closing : Line} {inner : List Line} (n : Nat)
    (comments : List Comment) (hn : ∀ l ∈ opening :: (inner ++ [closing]), l.number ≠ n) :
    let parts := [.leaf t comments,
      .node .docString (Reader.docStringParts d m type opening closing contents inner)]
    Tree.Fixes n parts parts := by
  intro parts rule ps hm
  simp only [parts, Tree.subtreesAll, Tree.subtrees, Reader.subtreesAll_docStringParts,
    List.append_nil, List.singleton_append, List.mem_cons, reduceCtorEq, false_or] at hm
  rintro ⟨u, cs, hu, hline⟩
  rcases hm with heq | hm
  · obtain ⟨rfl, rfl⟩ := Tree.node.inj heq
    obtain ⟨l, hl, t, ht, hnumber⟩ := Reader.exists_leaf_of_mem_docStringParts hu
    obtain ⟨rfl, -⟩ := Tree.leaf.inj ht
    exact absurd (hnumber.symm.trans hline) (hn l hl)
  · obtain ⟨l, hl, t, ht, -⟩ := Reader.exists_leaf_of_mem_docStringParts hm
    cases ht

/-- Before the text ends nothing adds to a step with a doc string. -/
theorem settles_docString (hd : d.Sound) (hw : ∀ c ∈ w, Text.isBlank c)
    (htype : Text.IsName type) (hcontents : ∀ content ∈ contents, ¬m.escapedChars <:+: content)
    {reads above below : List (List Char)}
    (hreads : List.Forall₂ (Scanner.StandsFor m w) contents reads)
    (hlines : Text.lines text.toList =
      above ++ (w ++ (m.chars ++ type.toList)) :: (reads ++ (w ++ m.chars) :: below))
    (ht : .token t ∈ eventsOf d text) (hk : t.kind = .step) (hline : t.place.line = above.length) :
    ∃ d' comments opening closing inner, opening.start = ⟨t.place.line + 1, w.length + 1⟩ ∧
      contents.length = inner.length ∧
      (empty.growAll (eventsOf d text)).Settles t.place.line [.leaf t comments,
        .node .docString (Reader.docStringParts d' m type opening closing contents inner)] := by
  have htoken : .token t ∈ ((Cursor.start d).strides
      (Item.number 1 (Text.lines text.toList))).flatMap Stride.events := by
    simpa [eventsOf, stridesOf, Item.ofText] using ht
  obtain ⟨above', raw, below', before, b, d', rules, hsplit, hnumber, hd', hrules, hevents⟩ :=
    (Cursor.isReading_start hd).reach_step htoken hk
  -- The step stands on the last line above, so that what the reader has left is the doc string.
  obtain ⟨rfl, rfl⟩ : above' ++ [raw] = above ∧ below' =
      (w ++ (m.chars ++ type.toList)) :: (reads ++ (w ++ m.chars) :: below) := by
    refine List.append_inj (by rw [← hlines, hsplit]; simp) ?_
    rw [List.length_append, List.length_singleton, ← hline, hnumber, Nat.add_comm]
  obtain ⟨opening, closing, inner, k, hitems, hfirst, hopen, hraws, hclose, hbelow⟩ :=
    Item.number_docString (1 + above'.length + 1) (w ++ (m.chars ++ type.toList)) (w ++ m.chars)
      reads below
  generalize ha : (empty.grow (.opened .document)).growAll before = a
  obtain rfl : rules = a.rules := by
    rw [hrules, ← ha, rules_growAll]
    rfl
  have hstands : List.Forall₂ (fun content l => Scanner.StandsFor m w content l.raw)
      contents inner := by
    rwa [← List.forall₂_map_right_iff (R := Scanner.StandsFor m w), hraws]
  obtain ⟨es, silent, after, hstrides, hsilent, hes⟩ :=
    growAll_docString hd' hw htype hcontents hopen hclose hstands hk a b k below
  have hall : eventsOf d text = (.opened .document :: before) ++
      ((.opened .step :: .token t :: es) ++ (silent ++ .closed .step :: after)) := by
    rw [eventsOf, stridesOf, Item.ofText, hevents, hitems, hstrides]
    simp
  have haround : eventsOf d text = (.opened .document :: before ++ [.opened .step]) ++
      .token t :: (es ++ (silent ++ .closed .step :: after)) := by
    simp [hall]
  obtain ⟨habove, hafter⟩ := token?_eventsOf_around haround
  refine ⟨d', a.waiting, opening, closing, inner, ?_, hstands.length_eq, ?_⟩
  · obtain ⟨-, -, hindent⟩ := Scanner.begins_of_indented hw hopen m.isBlank_mark
    rw [Line.start, hindent, hfirst, hnumber]
  rw [hall, growAll_append, growAll_cons, ha]
  refine Settles.growAll_rule ?_ hes hsilent (fun u hu => ?_) (fixes_docString _ _ fun l hl => ?_)
  · rw [← ha, ← growAll_cons]
    exact (settles_empty _ _).growAll fun u hu => (habove u (List.mem_append_left _ hu)).ne
  · exact (hafter u (by simp [hu])).ne'
  · have hl := hbelow l hl
    omega

end Assembly

/-! ## Steps of documents -/

theorem Document.exists_step_of_mem_constructs {d : Document} {c : Construct}
    (h : c ∈ d.constructs) (hk : c.kind = .step) : ∃ s ∈ d.steps, s.place = c.place := by
  obtain ⟨f, hf, h⟩ := List.mem_flatMap.mp h
  rcases List.mem_cons.mp h with rfl | h
  · cases hk
  obtain ⟨child, hchild, h⟩ := List.mem_flatMap.mp h
  have hstep : c ∈ child.steps.map Step.construct := by
    cases child with
    | background b => exact (List.mem_cons.mp h).resolve_left (by rintro rfl; cases hk)
    | scenario s => exact (List.mem_cons.mp h).resolve_left (by rintro rfl; cases hk)
    | outline o =>
      rcases List.mem_append.mp h with h | h
      · exact (List.mem_cons.mp h).resolve_left (by rintro rfl; cases hk)
      · obtain ⟨e, -, rfl⟩ := List.mem_map.mp h
        cases hk
  obtain ⟨s, hs, rfl⟩ := List.mem_map.mp hstep
  exact ⟨s, List.mem_flatMap.mpr ⟨f, hf, List.mem_flatMap.mpr ⟨child, hchild, hs⟩⟩, rfl⟩

namespace Diagnostics

theorem exists_step (ht : .token t ∈ eventsOf d text) (hk : t.kind = .step) :
    ∃ s ∈ (ofText d text).document.steps, s.place = t.place := by
  have hstarts : (t.kind, t.place) ∈ (ofText d text).document.constructs.map fun c =>
      (c.kind, c.place) := by
    rw [starts_eq]
    refine List.mem_map_of_mem (List.mem_filter.mpr ⟨List.mem_filterMap.mpr ⟨_, ht, rfl⟩, ?_⟩)
    rw [Token.starts, hk]
  obtain ⟨c, hc, heq⟩ := List.mem_map.mp hstarts
  obtain ⟨hkind, hplace⟩ := Prod.mk.inj heq
  obtain ⟨s, hs, hsplace⟩ := Document.exists_step_of_mem_constructs hc (hkind.trans hk)
  exact ⟨s, hs, hsplace.trans hplace⟩

/-- A step with a doc string below its line has it in the document. -/
theorem exists_step_docString (hd : d.Sound) (hw : ∀ c ∈ w, Text.isBlank c)
    (htype : Text.IsName type) (hcontents : ∀ content ∈ contents, ¬m.escapedChars <:+: content)
    {reads above below : List (List Char)}
    (hreads : List.Forall₂ (Scanner.StandsFor m w) contents reads)
    (hlines : Text.lines text.toList =
      above ++ (w ++ (m.chars ++ type.toList)) :: (reads ++ (w ++ m.chars) :: below))
    (ht : .token t ∈ eventsOf d text) (hk : t.kind = .step) (hline : t.place.line = above.length) :
    ∃ s ∈ (ofText d text).document.steps, s.place = t.place ∧ t.content = .step s.keyword s.text ∧
      s.argument = some (.docString ⟨⟨t.place.line + 1, w.length + 1⟩, m,
        if type = "" then none else some type, Text.joinLines (contents.map String.ofList)⟩) := by
  obtain ⟨d', comments, opening, closing, inner, hstart, hlength, hsettles⟩ :=
    Assembly.settles_docString hd hw htype hcontents hreads hlines ht hk hline
  obtain ⟨s, hs, hplace⟩ := exists_step ht hk
  have hnode := hs
  rw [document_eq] at hnode
  obtain ⟨kind, ps, hnode, hstep⟩ := Tree.exists_node_of_mem_document_steps hnode
  obtain ⟨whole, hwhole, rfl⟩ := Tree.exists_node_of_pruneAll hnode
  obtain ⟨-, u, hleaf, huplace, hcontent, hargument, -⟩ := Tree.exists_leaf_of_step? hstep
  have hheld : .node .step whole ∈
      Tree.subtreesAll (Assembly.empty.growAll (eventsOf d text)).content := by
    rw [Assembly.content, Tree.subtreesAll_append]
    exact List.mem_append_left _ hwhole
  have hhasLine : Tree.HasLine t.place.line whole :=
    ⟨u, _, Tree.leaf_mem_of_mem_pruneAll hleaf, by rw [huplace, hplace]⟩
  obtain rfl := hsettles.fixes .step whole hheld hhasLine
  have hpruned : Tree.pruneAll [.leaf t comments,
      .node .docString (Reader.docStringParts d' m type opening closing contents inner)] =
      [.leaf t comments,
        .node .docString (Reader.docStringParts d' m type opening closing contents inner)] := by
    simp [Tree.pruneAll, Tree.isRefused, Tree.refusal?, Assembly.isTable, Tree.prune,
      Reader.pruneAll_docStringParts]
  rw [hpruned] at hleaf hargument
  obtain ⟨rfl, -⟩ : u = t ∧ _ := by simpa using hleaf
  refine ⟨s, hs, hplace, hcontent, ?_⟩
  rw [← hstart, ← Reader.argument?_docString hlength]
  exact hargument

end Diagnostics

end

/-! ## Texts -/

section

variable {m : Delimiter} {w : List Char}

/-- What is read of a line stands for what was written. Of an empty line, blanks may be lost that
look like part of the line's end. -/
theorem Scanner.standsFor_of_isReadOf {content line read : List Char}
    (hcontent : Text.IsLine content)
    (hline : line = w ++ m.escape content ∨ content = [] ∧ line = [])
    (hread : Text.IsReadOf read line) : StandsFor m w content read := by
  obtain ⟨hstart, hread⟩ := hread
  obtain rfl | hne := eq_or_ne content []
  · have hescape : m.escape [] = [] := rfl
    refine .inr ⟨rfl, hstart.trans ?_⟩
    rcases hline with rfl | ⟨-, rfl⟩
    · rw [hescape, List.append_nil]
    · exact List.nil_prefix
  · obtain rfl := hline.resolve_right fun h => hne h.1
    refine .inl (hread ?_)
    have hlast : m.escape content ≠ [] := by
      intro h
      have hescape := m.getLast?_escape content
      rw [h, List.getLast?_nil, eq_comm, List.getLast?_eq_none_iff] at hescape
      exact hne hescape
    rw [List.getLast?_append_of_ne_nil _ hlast]
    exact (m.isLine_escape hcontent).noReturn

theorem Scanner.forall₂_standsFor {contents written reads : List (List Char)}
    (hcontents : ∀ content ∈ contents, Text.IsLine content)
    (hwritten : List.Forall₂ (fun content line =>
      line = w ++ m.escape content ∨ content = [] ∧ line = []) contents written)
    (hreads : List.Forall₂ Text.IsReadOf reads written) :
    List.Forall₂ (StandsFor m w) contents reads := by
  induction hwritten generalizing reads with
  | nil =>
    cases hreads
    exact .nil
  | cons hline _ ih =>
    obtain ⟨hcontent, hcontents⟩ := List.forall_mem_cons.mp hcontents
    cases hreads with
    | cons hread hreads =>
      exact .cons (standsFor_of_isReadOf hcontent hline hread) (ih hcontents hreads)

theorem Scanner.feed_notMem_written {contents written : List (List Char)} (hw : '\n' ∉ w)
    (hcontents : ∀ content ∈ contents, Text.IsLine content)
    (hwritten : List.Forall₂ (fun content line =>
      line = w ++ m.escape content ∨ content = [] ∧ line = []) contents written) :
    ∀ line ∈ written, '\n' ∉ line := by
  induction hwritten with
  | nil => simp
  | cons hline _ ih =>
    obtain ⟨hcontent, hcontents⟩ := List.forall_mem_cons.mp hcontents
    refine List.forall_mem_cons.mpr ⟨?_, ih hcontents⟩
    rcases hline with rfl | ⟨-, rfl⟩
    · simpa using ⟨hw, (m.isLine_escape hcontent).noFeed⟩
    · exact List.not_mem_nil

/-- What pairs up with a list pairs up with each of its parts. -/
theorem List.exists_split_of_forall₂ {α β : Type} {R : α → β → Prop} {whole : List α}
    {front back : List β} {y : β} (h : List.Forall₂ R whole (front ++ y :: back)) :
    ∃ front' x back', whole = front' ++ x :: back' ∧ List.Forall₂ R front' front ∧ R x y ∧
      List.Forall₂ R back' back := by
  obtain ⟨x, back', hx, hback, hwhole⟩ :=
    List.forall₂_cons_right_iff.mp (List.forall₂_drop_append whole front _ h)
  exact ⟨whole.take front.length, x, back', by rw [← hwhole, List.take_append_drop],
    List.forall₂_take_append whole front _ h, hx, hback⟩

/-- The lines of a doc string in a text are read as they were written. -/
theorem Text.lines_docString {nl : List Char} (hnl : IsLineEnd nl) (hw : '\n' ∉ w) {type : String}
    (htype : IsName type) {contents written above : List (List Char)}
    (hcontents : ∀ content ∈ contents, IsLine content)
    (hwritten : List.Forall₂ (fun content line =>
      line = w ++ m.escape content ∨ content = [] ∧ line = []) contents written)
    (habove : ∀ line ∈ above, '\n' ∉ line) (below : List (List Char)) :
    ∃ above' reads below', above'.length = above.length ∧
      List.Forall₂ (Scanner.StandsFor m w) contents reads ∧
      lines (nl.intercalate (above ++
        (w ++ (m.chars ++ type.toList)) :: (written ++ (w ++ m.chars) :: below))) =
        above' ++ (w ++ (m.chars ++ type.toList)) :: (reads ++ (w ++ m.chars) :: below') := by
  generalize hopening : w ++ (m.chars ++ type.toList) = opening
  generalize hclosing : w ++ m.chars = closing
  have hvisible {line : List Char} (hline : IsLine line) (hne : line ≠ []) :
      IsLine (w ++ line) := by
    refine ⟨by simpa using ⟨hw, hline.noFeed⟩, ?_⟩
    rw [List.getLast?_append_of_ne_nil _ hne]
    exact hline.noReturn
  have hchars : m.chars ≠ [] := by simp [Delimiter.chars]
  have hopens : IsLine opening := hopening ▸ hvisible
    (m.isLine_chars.append (isLine_of_trim htype.1 htype.2)) (by simp [hchars])
  have hcloses : IsLine closing := hclosing ▸ hvisible m.isLine_chars hchars
  have hfront : ∀ line ∈ above ++ opening :: (written ++ [closing]), '\n' ∉ line := by
    simp only [List.forall_mem_append, List.forall_mem_cons]
    exact ⟨habove, hopens.noFeed, Scanner.feed_notMem_written hw hcontents hwritten,
      hcloses.noFeed, by simp⟩
  have hlast : ∀ line ∈ (above ++ opening :: (written ++ [closing])).getLast?, line ≠ [] := by
    simp [List.getLast?_append, List.getLast?_cons, ← hclosing, hchars]
  obtain ⟨reads, below', hreads, hlines⟩ := lines_intercalate hnl hfront hlast below
  rw [List.append_assoc, List.cons_append, List.append_assoc, List.singleton_append] at hlines
  obtain ⟨above', first, more, rfl, habove', hfirst, hmore⟩ := List.exists_split_of_forall₂ hreads
  obtain ⟨inner, last, rest, rfl, hinner, hend, hrest⟩ := List.exists_split_of_forall₂ hmore
  obtain rfl := hfirst.2 hopens.noReturn
  obtain rfl := hend.2 hcloses.noReturn
  obtain rfl := List.forall₂_nil_right_iff.mp hrest
  refine ⟨above', inner, below', habove'.length_eq,
    Scanner.forall₂_standsFor hcontents hwritten hinner, ?_⟩
  rw [hlines]
  simp

end

/-- A doc string carries any text. Wherever a step stands, the lines below it that are written as a
doc string, behind the blanks of its delimiter and with every delimiter in them escaped, are the
argument of the step: whatever they look like, none of them is taken for anything else. Empty lines
need no blanks. -/
theorem Document.step_has_written_docString {code : String} {d : Dialect}
    (hd : Dialect.find? code = some d) {text : String} {nl : List Char} (hnl : Text.IsLineEnd nl)
    {m : Delimiter} {w : List Char} (hw : ∀ c ∈ w, Text.isBlank c) (hfeed : '\n' ∉ w)
    {type : String} (htype : Text.IsName type) {contents written above below : List (List Char)}
    (hcontents : ∀ content ∈ contents, Text.IsLine content ∧ ¬m.escapedChars <:+: content)
    (hwritten : List.Forall₂ (fun content line =>
      line = w ++ m.escape content ∨ content = [] ∧ line = []) contents written)
    (habove : ∀ line ∈ above, '\n' ∉ line)
    (htext : text.toList = nl.intercalate (above ++
      (w ++ (m.chars ++ type.toList)) :: (written ++ (w ++ m.chars) :: below)))
    {t : Token} (ht : .token t ∈ (deliver d text Assembly.builder Sink.collect .empty []).events)
    (hk : t.kind = .step) (hline : t.place.line = above.length) {document : Document}
    (hdocument : document = (Diagnostics.ofText d text).document ∨ parse d text = .ok document) :
    ∃ s ∈ document.steps, s.place = t.place ∧ t.content = .step s.keyword s.text ∧
      s.argument = some (.docString
        { place := ⟨t.place.line + 1, w.length + 1⟩
          delimiter := m
          contentType := if type = "" then none else some type
          content := Text.joinLines (contents.map String.ofList) }) := by
  have htoken : .token t ∈ eventsOf d text := by
    have hmem : t ∈ (eventsOf d text).filterMap Event.token? :=
      filterMap_token?_deliver d text ▸ List.mem_filterMap.mpr ⟨_, ht, rfl⟩
    obtain ⟨e, he, heq⟩ := List.mem_filterMap.mp hmem
    cases e with
    | token u => exact Option.some.inj heq ▸ he
    | _ => cases heq
  obtain rfl : document = (Diagnostics.ofText d text).document := by
    refine hdocument.elim id fun h => ?_
    rw [parse_eq] at h
    split at h
    · exact (Except.ok.inj h).symm
    · cases h
  obtain ⟨above', reads, below', hlength, hreads, hlines⟩ := Text.lines_docString hnl hfeed htype
    (fun content hc => (hcontents content hc).1) hwritten habove below
  rw [← htext] at hlines
  exact Diagnostics.exists_step_docString (Dialect.sound_of_find? hd).1 hw htype
    (fun content hc => (hcontents content hc).2) hreads hlines htoken hk (hline.trans hlength.symm)

/-- Content that looks like a title, a blank line without its blanks, and a line with both
delimiters, of which only the doc string's own are escaped. -/
theorem Document.step_has_written_docString_background :
    let text := "Feature: F\nBackground:\n* a\n \t```md\n \tScenario: x\n\n" ++
      " \t  # \\`\\`\\`` \"\"\"\n \t```\nGiven b\n"
    ∃ s ∈ (Diagnostics.ofText .english text).document.steps, s.place = ⟨3, 1⟩ ∧
      s.keyword = "* " ∧ s.text = "a" ∧ s.argument = some (.docString
        ⟨⟨4, 3⟩, .backticks, some "md", "Scenario: x\n\n  # ```` \"\"\""⟩) := by
  intro text
  have hd : Dialect.find? "en" = some .english := by decide +kernel
  have hwritten : List.Forall₂ (fun content line => line = " \t".toList ++
      Delimiter.backticks.escape content ∨ content = [] ∧ line = [])
      ["Scenario: x".toList, [], "  # ```` \"\"\"".toList]
      [" \tScenario: x".toList, [], " \t  # \\`\\`\\`` \"\"\"".toList] :=
    .cons (.inl (by decide +kernel)) (.cons (.inr ⟨rfl, rfl⟩)
      (.cons (.inl (by decide +kernel)) .nil))
  have htext : text.toList = ['\n'].intercalate
      (["Feature: F".toList, "Background:".toList, "* a".toList] ++
        (" \t".toList ++ (Delimiter.backticks.chars ++ "md".toList)) ::
          ([" \tScenario: x".toList, [], " \t  # \\`\\`\\`` \"\"\"".toList] ++
            (" \t".toList ++ Delimiter.backticks.chars) :: ["Given b".toList, []])) := by
    decide +kernel
  have ht : .token ⟨⟨3, 1⟩, .english, .step "* " "a"⟩ ∈
      (deliver .english text Assembly.builder Sink.collect .empty []).events := by
    decide +kernel
  have hw : ∀ c ∈ " \t".toList, Text.isBlank c := List.all_eq_true.mp (by decide)
  obtain ⟨s, hs, hplace, hcontent, hargument⟩ := step_has_written_docString hd (.inl rfl) hw
    (by decide) (by decide +kernel) (by decide +kernel) hwritten (by decide +kernel) htext ht rfl
    rfl (.inl rfl)
  obtain ⟨hkeyword, hstep⟩ := Content.step.inj hcontent
  exact ⟨s, hs, hplace, hkeyword.symm, hstep.symm, hargument⟩

end FeaturePlan
