import FeaturePlan.Proofs.Grammar.Indentation

/-! # Steps in their texts

A step can stand in many places, but wherever its line is taken, the step becomes the innermost rule
and nothing but its block decides what may come next. Behind a doc string the step is closed before
anything else becomes part of the grammar's rules. -/

namespace FeaturePlan

/-! ## Cursors between lines -/

namespace Cursor

variable {c : Cursor} {l : Line} {t : Token}

/-- A cursor that a text can lead to, as far as its scanner shows. -/
structure IsReading (c : Cursor) : Prop where
  aligned : c.IsAligned
  sound : c.scanner.dialect.Sound

theorem isReading_start {d : Dialect} (hd : d.Sound) : (start d).IsReading :=
  ⟨rfl, hd⟩

theorem IsReading.consume (h : c.IsReading) (l : Line) (ahead : List Item) :
    (c.consume (.line l) ahead).cursor.IsReading :=
  ⟨consume_aligned h.aligned l ahead, consume_sound h.sound (.line l) ahead⟩

theorem rules_consume (c : Cursor) (l : Line) (ahead : List Item) :
    (c.consume (.line l) ahead).cursor.rules =
      (c.consume (.line l) ahead).events.foldl Event.openRules c.rules := by
  have hcases := c.consumes (.line l) ahead
  generalize c.consume (.line l) ahead = stride at hcases ⊢
  cases hcases with
  | taken hclass hnext => exact (Action.foldl_openRules_performAll _ _ _).symm
  | rejected he => rfl

/-- A line is handed over where it stands in the text, when all lines above it have been read. -/
theorem IsReading.reach (h : c.IsReading) {raws : List (List Char)} {n : Nat}
    (ht : .token t ∈ (c.strides (Item.number n raws)).flatMap Stride.events) (hk : t.kind ≠ .eof) :
    ∃ (above : List (List Char)) (raw : List Char) (below : List (List Char)) (before : List Event)
      (c' : Cursor), raws = above ++ raw :: below ∧ c'.IsReading ∧
      c'.rules = before.foldl Event.openRules c.rules ∧
      (c.strides (Item.number n raws)).flatMap Stride.events =
        before ++
          (c'.strides (Item.number (n + above.length) (raw :: below))).flatMap Stride.events ∧
      t.place.line = n + above.length ∧
      .token t ∈ (c'.consume (.line ⟨n + above.length, raw⟩)
        (Item.number (n + above.length + 1) below)).events := by
  induction raws generalizing c n with
  | nil =>
    simp only [Item.number, strides, List.flatMap_cons, List.flatMap_nil, List.append_nil] at ht
    obtain ⟨scanner, hread⟩ := read_of_mem_consume ht
    exact absurd (Scanner.kind_eq_eof hread) hk
  | cons raw raws ih =>
    have hevents : (c.strides (Item.number n (raw :: raws))).flatMap Stride.events =
        (c.consume (.line ⟨n, raw⟩) (Item.number (n + 1) raws)).events ++
          ((c.consume (.line ⟨n, raw⟩) (Item.number (n + 1) raws)).cursor.strides
            (Item.number (n + 1) raws)).flatMap Stride.events := by
      rw [Item.number, strides, List.flatMap_cons]
    rw [hevents] at ht
    rcases List.mem_append.mp ht with ht | ht
    · obtain ⟨scanner, hread⟩ := read_of_mem_consume ht
      exact ⟨[], raw, raws, [], c, rfl, h, rfl, rfl, Scanner.line_of_read hread, ht⟩
    · obtain ⟨above, raw', below, before, c', rfl, hc', hrules, hrest, hline, hmem⟩ :=
        ih (h.consume ⟨n, raw⟩ _) ht
      have hnumber : n + (raw :: above).length = n + 1 + above.length := by
        rw [List.length_cons]
        omega
      rw [← hnumber] at hrest hline hmem
      refine ⟨raw :: above, raw', below, (c.consume (.line ⟨n, raw⟩)
        (Item.number (n + 1) (above ++ raw' :: below))).events ++ before, c', rfl, hc', ?_, ?_,
        hline, hmem⟩
      · rw [hrules, rules_consume, List.foldl_append]
      · rw [hevents, hrest, List.append_assoc]

/-! ## Lines of steps -/

/-- The line of a step closes what is open in its block, and opens the step. -/
theorem IsReading.consume_step (h : c.IsReading) {ahead : List Item}
    (ht : .token t ∈ (c.consume (.line l) ahead).events) (hk : t.kind = .step) :
    ∃ (closing : List Rule) (b : Block) (d : Dialect) (rules : List Rule), d.Sound ∧
      c.consume (.line l) ahead = ⟨closing.map .closed ++ [.opened .step, .token t],
        ⟨.step b, .start d, .step :: rules⟩⟩ := by
  have hcases := c.consumes (.line l) ahead
  generalize c.consume (.line l) ahead = stride at ht hcases ⊢
  cases hcases with
  | rejected he => simp at ht
  | @taken item ahead u scanner actions state hclass hnext =>
    obtain rfl := Action.eq_of_mem_performAll ht
    obtain ⟨hm, hread⟩ := Scanner.classify_eq_token hclass
    have haccepts := State.mem_expected.mp hm
    rw [hk] at hread hnext haccepts
    obtain rfl := Scanner.scanner_of_read hread (by decide)
    obtain ⟨b, hb, hfollow⟩ := Option.bind_eq_some_iff.mp hnext
    obtain ⟨rfl, rfl⟩ := Prod.mk.inj (Option.some.inj hfollow)
    have houtside : c.state.inDocString = false := by
      cases hs : c.state with
      | docString b => simp [hs, State.accepts] at haccepts
      | _ => rfl
    have hscanner : c.scanner = .start c.scanner.dialect := by
      have hnone : c.scanner.docString = none := by
        rw [← Option.not_isSome_iff_eq_none, h.aligned, houtside]
        decide
      rw [Scanner.start, ← hnone]
    refine ⟨c.rules.takeWhile fun r => decide (r ≠ b.rule), b, c.scanner.dialect,
      c.rules.dropWhile fun r => decide (r ≠ b.rule), h.sound, ?_⟩
    rw [← hscanner]
    simp [Action.performAll, Action.perform]

/-- A step of a text, with all that happens before its line and behind it. -/
theorem IsReading.reach_step (h : c.IsReading) {raws : List (List Char)} {n : Nat}
    (ht : .token t ∈ (c.strides (Item.number n raws)).flatMap Stride.events) (hk : t.kind = .step) :
    ∃ (above : List (List Char)) (raw : List Char) (below : List (List Char)) (before : List Event)
      (b : Block) (d : Dialect) (rules : List Rule), raws = above ++ raw :: below ∧
      t.place.line = n + above.length ∧ d.Sound ∧
      rules = before.foldl Event.openRules c.rules ∧
      (c.strides (Item.number n raws)).flatMap Stride.events =
        before ++ .opened .step :: .token t ::
          ((⟨.step b, .start d, .step :: rules⟩ : Cursor).strides
            (Item.number (n + above.length + 1) below)).flatMap Stride.events := by
  obtain ⟨above, raw, below, before, c', rfl, hc', hrules, hevents, hline, hmem⟩ :=
    h.reach ht (by rw [hk]; decide)
  obtain ⟨closing, b, d, rules, hd, hstride⟩ := hc'.consume_step hmem hk
  have hopen := c'.rules_consume ⟨n + above.length, raw⟩ (Item.number (n + above.length + 1) below)
  rw [hstride] at hopen
  refine ⟨above, raw, below, before ++ closing.map .closed, b, d, rules, rfl, hline, hd, ?_, ?_⟩
  · rw [List.foldl_append, ← hrules]
    simpa [Event.openRules] using hopen
  · rw [hevents, Item.number, strides, List.flatMap_cons, hstride]
    simp

end Cursor

/-! ## Behind doc strings -/

/-- Behind a doc string a line is blank or a comment, or it begins by leaving the step. -/
theorem State.next_afterDocString {b : Block} {ahead : Bool} {kind : TokenKind}
    {actions : List Action} {s : State}
    (h : (afterDocString b).next ahead kind = some (actions, s)) :
    (kind = .empty ∨ kind = .comment) ∧ actions = [.shift] ∧ s = afterDocString b ∨
      ∃ rule rest, actions = .leaveTo rule :: rest ∧ rule ≠ .step := by
  have hblock : (afterDocString b).followBlock ahead kind = some (actions, s) →
      ∃ rule rest, actions = .leaveTo rule :: rest ∧ rule ≠ .step := by
    intro hf
    have hrule : b.rule ≠ .step := by cases b <;> decide
    simp only [followBlock, block?, Option.bind_some, follow] at hf
    split at hf <;> try split at hf
    all_goals
      first
      | (obtain ⟨rfl, -⟩ := Prod.mk.inj (Option.some.inj hf)
         exact ⟨_, _, rfl, by first | exact hrule | decide⟩)
      | cases hf
  cases kind with
  | eof => exact .inr ⟨_, _, (Prod.mk.inj (Option.some.inj h)).1.symm, by decide⟩
  | empty | comment =>
    obtain ⟨rfl, rfl⟩ := Prod.mk.inj (Option.some.inj h)
    exact .inl ⟨by simp, rfl, rfl⟩
  | title block =>
    cases block with
    | feature => cases h
    | _ => exact .inr (hblock h)
  | tags | step | row => exact .inr (hblock h)
  | language | separator | other => cases h

/-- When a rule further out is left to, the innermost rule is closed first. -/
theorem Action.exists_closed_of_leaveTo (t : Token) {inner rule : Rule} (rules : List Rule)
    (actions : List Action) (h : inner ≠ rule) :
    ∃ after, (performAll t (inner :: rules) (.leaveTo rule :: actions)).1 =
      .closed inner :: after := by
  have htake : (inner :: rules).takeWhile (fun r => decide (r ≠ rule)) =
      inner :: rules.takeWhile fun r => decide (r ≠ rule) :=
    List.takeWhile_cons_of_pos (decide_eq_true h)
  simp only [performAll, perform, htake]
  exact ⟨_, rfl⟩

namespace Cursor

/-- Behind a doc string a line changes nothing, or the step is closed first. -/
theorem consume_afterDocString (b : Block) (s : Scanner) (rules : List Rule) (item : Item)
    (ahead : List Item) :
    (∃ l e s', item = .line l ∧ Event.isPart e = false ∧
      (⟨.afterDocString b, s, .step :: rules⟩ : Cursor).consume item ahead =
        ⟨[e], ⟨.afterDocString b, s', .step :: rules⟩⟩) ∨
    ∃ before after, ((⟨.afterDocString b, s, .step :: rules⟩ : Cursor).consume item ahead).events =
      before ++ .closed .step :: after ∧ before.filter Event.isPart = [] := by
  have hcases := (⟨.afterDocString b, s, .step :: rules⟩ : Cursor).consumes item ahead
  generalize (⟨.afterDocString b, s, .step :: rules⟩ : Cursor).consume item ahead = stride
    at hcases ⊢
  cases hcases with
  | rejected he => exact .inl ⟨_, _, s, rfl, rfl, rfl⟩
  | ended hclass => exact .inr ⟨[_], _, rfl, rfl⟩
  | @taken item ahead t scanner actions state hclass hnext =>
    rcases State.next_afterDocString hnext with ⟨hk, rfl, rfl⟩ | ⟨rule, rest, rfl, hr⟩
    · cases item with
      | line l =>
        refine .inl ⟨l, .token t, scanner, rfl, ?_, rfl⟩
        rcases hk with hk | hk <;> simp [Event.isPart, Event.counts, hk]
      | eof place =>
        rw [Scanner.kind_eq_eof (Scanner.classify_eq_token hclass).2] at hk
        simp at hk
    · obtain ⟨after, hafter⟩ := Action.exists_closed_of_leaveTo t rules rest hr.symm
      exact .inr ⟨[], after, hafter, rfl⟩

/-- A step that has a doc string is closed before anything else becomes part of a rule. -/
theorem exists_closed_step (b : Block) (s : Scanner) (rules : List Rule) (n : Nat)
    (raws : List (List Char)) :
    ∃ before after, ((⟨.afterDocString b, s, .step :: rules⟩ : Cursor).strides
        (Item.number n raws)).flatMap Stride.events = before ++ .closed .step :: after ∧
      before.filter Event.isPart = [] := by
  induction raws generalizing s n with
  | nil =>
    rcases consume_afterDocString b s rules (.eof ⟨n, 1⟩) [] with
      ⟨l, e, s', hl, -⟩ | ⟨before, after, hevents, hbefore⟩
    · cases hl
    · exact ⟨before, after, by simp [Item.number, strides, hevents], hbefore⟩
  | cons raw raws ih =>
    rw [Item.number, strides, List.flatMap_cons]
    rcases consume_afterDocString b s rules (.line ⟨n, raw⟩) (Item.number (n + 1) raws) with
      ⟨l, e, s', -, he, hstride⟩ | ⟨before, after, hevents, hbefore⟩
    · obtain ⟨before, after, hrest, hbefore⟩ := ih s' (n + 1)
      rw [hstride, hrest]
      exact ⟨e :: before, after, rfl, by simp [he, hbefore]⟩
    · rw [hevents]
      exact ⟨before, _, by rw [List.append_assoc, List.cons_append], hbefore⟩

end Cursor

end FeaturePlan
