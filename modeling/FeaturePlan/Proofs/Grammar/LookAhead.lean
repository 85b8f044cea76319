import FeaturePlan.Proofs.Grammar.Accounting
import FeaturePlan.Proofs.Grammar.Recovery

/-! # The look ahead keeps its word

Tags below a block of examples belong to another one if the look ahead says so, and to a scenario
otherwise. It judges the lines below by itself, without the automaton. The automaton judges them in
the same way when it comes to them: what the look ahead passes over is put to the tags, and the
title of examples that it has seen becomes part of the outline that is open. -/

namespace FeaturePlan

/-! ## The look ahead -/

namespace Scanner

variable {s : Scanner} {next : Item} {passed : List Item}

/-- Asks whether an item belongs to a class, and becomes what the answer leads to. -/
def ask (s : Scanner) (kind : TokenKind) (item : Item) : Bool × Scanner :=
  match s.read kind item with
  | .token _ next => (true, next)
  | _ => (false, s)

/-- The look ahead of a scanner that puts each question to what the last one has made of it. -/
def lookAhead (s : Scanner) : List Item → Bool × Scanner
  | [] => (false, s)
  | item :: rest =>
    match s.ask .empty item with
    | (true, s) => s.lookAhead rest
    | (false, s) =>
      match s.ask .comment item with
      | (true, s) => s.lookAhead rest
      | (false, s) =>
        match s.ask .tags item with
        | (true, s) => s.lookAhead rest
        | (false, s) => s.ask (.title .examples) item

theorem ask_eq (s : Scanner) (kind : TokenKind) (item : Item)
    (hk : kind ≠ .language ∧ kind ≠ .separator) :
    s.ask kind item = (s.accepts kind item, s) := by
  simp only [ask, accepts]
  cases hread : s.read kind item with
  | token t next => rw [scanner_of_read hread hk]
  | refused | unknownLanguage code place => rfl

/-- The look ahead changes neither the dialect nor the doc string that is open. -/
theorem lookAhead_eq (s : Scanner) (items : List Item) :
    s.lookAhead items = (s.examplesFollow items, s) := by
  induction items with
  | nil => rfl
  | cons item rest ih =>
    cases hempty : s.accepts .empty item <;> cases hcomment : s.accepts .comment item <;>
      cases htags : s.accepts .tags item <;>
      simp [lookAhead, ask_eq, examplesFollow, hempty, hcomment, htags, ih]

theorem examplesFollow_append (h : ∀ item ∈ passed, s.skips item) (hnext : s.skips next = false)
    (rest : List Item) :
    s.examplesFollow (passed ++ next :: rest) = s.accepts (.title .examples) next := by
  induction passed with
  | nil => exact examplesFollow_cons_of_not_skips hnext rest
  | cons item passed ih =>
    rw [List.cons_append, examplesFollow_cons_of_skips (h item List.mem_cons_self)]
    exact ih fun other hm => h other (List.mem_cons_of_mem item hm)

theorem exists_next (s : Scanner) (n : Nat) (raws : List (List Char)) :
    ∃ passed next rest, Item.number n raws = passed ++ next :: rest ∧
      (∀ item ∈ passed, s.skips item) ∧ s.skips next = false := by
  induction raws generalizing n with
  | nil => exact ⟨[], .eof ⟨n, 1⟩, [], rfl, by simp, rfl⟩
  | cons raw raws ih =>
    cases hskip : s.skips (.line ⟨n, raw⟩) with
    | false => exact ⟨[], _, _, rfl, by simp, hskip⟩
    | true =>
      obtain ⟨passed, next, rest, hitems, hpassed, hnext⟩ := ih (n + 1)
      refine ⟨.line ⟨n, raw⟩ :: passed, next, rest, ?_, ?_, hnext⟩
      · rw [Item.number, hitems, List.cons_append]
      · exact List.forall_mem_cons.mpr ⟨hskip, hpassed⟩

end Scanner

/-- What stands in front of a line of a text are lines as well, and the text goes on behind it. -/
theorem Item.exists_of_number {n : Nat} {raws : List (List Char)} {above ahead : List Item}
    {item : Item} (h : Item.number n raws = above ++ item :: ahead) :
    ∃ (lines : List Line) (m : Nat) (below : List (List Char)),
      above = lines.map .line ∧ item :: ahead = Item.number m below := by
  induction above generalizing n raws with
  | nil => exact ⟨[], n, raws, rfl, h.symm⟩
  | cons first above ih =>
    cases raws with
    | nil => simp [Item.number] at h
    | cons raw raws =>
      obtain ⟨hfirst, hrest⟩ := List.cons.inj h
      obtain ⟨lines, m, below, rfl, hbelow⟩ := ih hrest
      exact ⟨⟨n, raw⟩ :: lines, m, below, by rw [List.map_cons, ← hfirst], hbelow⟩

/-! ## Blocks of examples -/

/-- The rules around the definition of a block of examples, the innermost first. -/
def Rule.aroundExamples : List Rule :=
  [.scenarioOutline, .scenarioDefinition, .feature, .document]

namespace State

/-- The block of the step to which the lines of a state belong. -/
def stepBlock? : State → Option Block
  | step b | dataTable b | docString b | afterDocString b => some b
  | _ => none

theorem stepBlock?_of_next {s s' : State} {ahead : Bool} {kind : TokenKind} {actions : List Action}
    (hs : s.stepBlock? ≠ some .examples) (ha : s.accepts kind)
    (h : s.next ahead kind = some (actions, s')) : s'.stepBlock? ≠ some .examples := by
  have hblock : s.followBlock ahead kind = some (actions, s') → s'.stepBlock? ≠ some .examples := by
    intro hf
    obtain ⟨b, hb, hfollow⟩ := Option.bind_eq_some_iff.mp hf
    simp only [follow] at hfollow
    split at hfollow <;> try split at hfollow
    case h_6 =>
      -- a step is opened in the block of the state, and examples do not take one
      obtain ⟨-, rfl⟩ := Prod.mk.inj (Option.some.inj hfollow)
      intro hexamples
      obtain rfl := Option.some.inj hexamples
      cases s <;> simp_all [block?, stepBlock?, accepts, Block.follows]
    all_goals
      first
      | (obtain ⟨-, rfl⟩ := Prod.mk.inj (Option.some.inj hfollow); simp [stepBlock?])
      | cases hfollow
  simp only [next] at h
  split at h <;> try split at h
  all_goals
    first
    | exact hblock h
    | (obtain ⟨-, rfl⟩ := Prod.mk.inj (Option.some.inj h); first | exact hs | simp [stepBlock?])
    | cases h

end State

namespace Cursor

variable {c : Cursor} {item next : Item} {passed : List Item} {opened : List Rule}

/-- A block of examples holds a description or a table, and an outline is open around it. -/
theorem Consistent.rules_of_examples (hc : c.Consistent) (hb : c.state.block? = some .examples)
    (hs : c.state.stepBlock? ≠ some .examples) :
    ∃ opened, opened ∈ [[], [Rule.description], [.examplesTable]] ∧
      c.rules = opened ++ [.examples, .examplesDefinition] ++ Rule.aroundExamples := by
  refine ⟨c.state.inside.rules, ?_, ?_⟩
  · cases hstate : c.state <;>
      simp_all [State.inside, Frames.rules, State.block?, State.stepBlock?]
  · rw [hc, State.pending_of_block hb]
    simp [Frames.rules, Block.enclosing, Block.outermost, Block.rule, Rule.aroundExamples]

theorem stepBlock?_of_consume (h : c.state.stepBlock? ≠ some .examples) (item : Item)
    (ahead : List Item) : (c.consume item ahead).cursor.state.stepBlock? ≠ some .examples := by
  have hcases := c.consumes item ahead
  generalize c.consume item ahead = stride at hcases ⊢
  cases hcases with
  | taken hclass hnext =>
    exact State.stepBlock?_of_next h (State.mem_expected.mp (Scanner.classify_eq_token hclass).1)
      hnext
  | rejected he => exact h
  | ended hclass => simp [reject, State.stepBlock?]

/-- Tags below examples close the block. They open the definition of another one or that of a
scenario, whichever the look ahead says. -/
theorem consume_tags {t : Token} {scanner : Scanner}
    (hopened : opened ∈ [[], [Rule.description], [.examplesTable]])
    (hrules : c.rules = opened ++ [.examples, .examplesDefinition] ++ Rule.aroundExamples)
    (hclass : c.scanner.classify item c.state.expected = .token t scanner) (hk : t.kind = .tags)
    (hb : c.state.block? = some .examples) (ahead : List Item) :
    c.consume item ahead =
      if c.scanner.examplesFollow ahead then
        ⟨(opened ++ [Rule.examples, .examplesDefinition]).map .closed ++
            [.opened .examplesDefinition, .opened .tags, .token t],
          ⟨.examplesTags, c.scanner, .tags :: .examplesDefinition :: Rule.aroundExamples⟩⟩
      else
        ⟨(opened ++ [Rule.examples, .examplesDefinition, .scenarioOutline,
            .scenarioDefinition]).map .closed ++
            [.opened .scenarioDefinition, .opened .tags, .token t],
          ⟨.scenarioTags, c.scanner, [.tags, .scenarioDefinition, .feature, .document]⟩⟩ := by
  obtain rfl := Scanner.scanner_of_read (Scanner.classify_eq_token hclass).2 (by simp [hk])
  obtain ⟨actions, state, hnext, hconsume⟩ := consume_of_token hclass ahead
  have hfollow : ∀ examplesAhead, c.state.next examplesAhead .tags =
      State.follow .examples examplesAhead .tags := by
    intro examplesAhead
    cases hstate : c.state <;> simp_all [State.block?, State.next, State.followBlock]
  simp only [hk, hb, hfollow, decide_true, Bool.true_and] at hnext
  rw [hconsume, hrules]
  simp only [List.mem_cons, List.not_mem_nil, or_false] at hopened
  cases hahead : c.scanner.examplesFollow ahead <;> rw [hahead] at hnext <;>
    obtain ⟨rfl, rfl⟩ := Prod.mk.inj (Option.some.inj hnext) <;>
    rcases hopened with rfl | rfl | rfl <;> rfl

/-- Behind tags of examples a title of examples closes them, and its block becomes part of the
definition that they have opened. -/
theorem consume_title {outer : List Rule} (hq : c.state = .examplesTags)
    (hrules : c.rules = .tags :: .examplesDefinition :: outer)
    (hskip : c.scanner.skips next = false) (h : c.scanner.accepts (.title .examples) next)
    (ahead : List Item) :
    ∃ t, c.scanner.read t.kind next = .token t c.scanner ∧ t.kind = .title .examples ∧
      c.consume next ahead = ⟨[.closed .tags, .opened .examples, .token t],
        ⟨.title .examples, c.scanner, .examples :: .examplesDefinition :: outer⟩⟩ := by
  obtain ⟨t, hclass, hk⟩ := classify_of_examplesTags hq hskip h
  obtain ⟨actions, state, hnext, hconsume⟩ := consume_of_token hclass ahead
  rw [hq, hk] at hnext
  obtain ⟨rfl, rfl⟩ := Prod.mk.inj (Option.some.inj hnext)
  refine ⟨t, (Scanner.classify_eq_token hclass).2, hk, ?_⟩
  rw [hconsume, hrules]
  rfl

end Cursor

/-! ## The engine -/

namespace Engine

variable {σ τ : Type _}

def takeAll (b : Builder σ) (k : Sink τ) : List Item → List Item → Engine σ τ → Reply σ τ
  | [], _, g => (g, none)
  | item :: items, behind, g =>
    (g.consume b k item (items ++ behind)).andThen (takeAll b k items behind)

variable {b : Builder σ} {k : Sink τ} {g : Engine σ τ} {c : Cursor} {item next : Item}
  {passed : List Item} {opened : List Rule} {t : Token} {scanner : Scanner}

theorem takeAll_append (items more behind : List Item) (g : Engine σ τ) :
    g.takeAll b k (items ++ more) behind =
      (g.takeAll b k items (more ++ behind)).andThen (takeAll b k more behind) := by
  induction items generalizing g with
  | nil => rfl
  | cons item items ih =>
    rw [List.cons_append, takeAll, takeAll, List.append_assoc]
    rcases g.consume b k item (items ++ (more ++ behind)) with ⟨g', _ | stop⟩
    · exact ih g'
    · rfl

/-- What each line keeps, if it stops nothing, is kept by any number of lines. -/
theorem takeAll_induction (P : List Item → Engine σ τ → Prop)
    (hstep : ∀ {taken : List Item} {g g' : Engine σ τ} {l : Line} {ahead : List Item},
      P taken g → g.consume b k (.line l) ahead = (g', none) → P (taken ++ [.line l]) g')
    (taken : List Item) {behind : List Item} {g g' : Engine σ τ} (h : P taken g) {lines : List Line}
    (hg : g.takeAll b k (lines.map .line) behind = (g', none)) :
    P (taken ++ lines.map .line) g' := by
  induction lines generalizing g taken with
  | nil =>
    obtain ⟨rfl, -⟩ := Prod.mk.inj hg
    rwa [List.map_nil, List.append_nil]
  | cons l lines ih =>
    rw [List.map_cons, takeAll] at hg
    rcases hc : g.consume b k (.line l) (lines.map .line ++ behind) with ⟨g₁, _ | stop⟩
    · rw [hc] at hg
      rw [List.map_cons, ← List.singleton_append, ← List.append_assoc]
      exact ih _ (hstep h hc) hg
    · rw [hc] at hg
      cases hg

theorem run_append (items behind : List Item) (g : Engine σ τ) :
    g.run b k (items ++ behind) = (g.takeAll b k items behind).andThen (run b k behind) := by
  induction items generalizing g with
  | nil => rfl
  | cons item items ih =>
    rw [List.cons_append, run, takeAll]
    rcases g.consume b k item (items ++ behind) with ⟨g', _ | stop⟩
    · exact ih g'
    · rfl

theorem HandsOver.takeOne {events : List Event} {r : Reply σ τ} (h : g.HandsOver b k events c r)
    (item : Item) (behind : List Item) :
    g.HandsOver b k (events ++ (c.consume item behind).events) (c.consume item behind).cursor
      (r.andThen (takeAll b k [item] behind)) := by
  refine h.andThen fun g' hg' => ?_
  subst hg'
  rw [← List.append_nil (g'.toCursor.consume item behind).events]
  exact (handsOver_consume item behind g').andThen fun g'' hg'' => hg'' ▸ handsOver_nil g''

/-- Below tags, what the look ahead passes over is put where the tags are, line by line. -/
theorem handsOver_passed (hq : c.state = .scenarioTags ∨ c.state = .examplesTags)
    (h : ∀ item ∈ passed, c.scanner.skips item) (rest : List Item) :
    ∃ tokens, List.Forall₂ (fun item t => c.scanner.read t.kind item = .token t c.scanner)
        passed tokens ∧
      ∀ g : Engine σ τ, g.toCursor = c →
        g.HandsOver b k (tokens.map .token) c (g.takeAll b k passed rest) := by
  -- None of these lines moves the cursor, so all of them are taken where the first one is.
  induction passed with
  | nil => exact ⟨[], .nil, fun g hg => hg ▸ handsOver_nil g⟩
  | cons item passed ih =>
    obtain ⟨tokens, htokens, hands⟩ := ih fun other hm => h other (List.mem_cons_of_mem item hm)
    obtain ⟨t, hread, hconsume⟩ :=
      Cursor.consume_of_skips hq (h item List.mem_cons_self) (passed ++ rest)
    refine ⟨t :: tokens, .cons hread htokens, fun g hg => ?_⟩
    have hfirst := handsOver_consume (b := b) (k := k) item (passed ++ rest) g
    rw [hg, hconsume] at hfirst
    exact hfirst.andThen hands

section Tags

variable (hopened : opened ∈ [[], [Rule.description], [.examplesTable]])
  (hrules : g.rules = opened ++ [.examples, .examplesDefinition] ++ Rule.aroundExamples)
  (hclass : g.scanner.classify item g.state.expected = .token t scanner) (hk : t.kind = .tags)
  (hb : g.state.block? = some .examples) (hpassed : ∀ item ∈ passed, g.scanner.skips item)
  (hnext : g.scanner.skips next = false)

include hopened hrules hclass hk hb hpassed hnext

/-- From tags of examples to the title that the look ahead has seen, whoever is told. -/
theorem handsOver_examples_tags (h : g.scanner.accepts (.title .examples) next)
    (rest : List Item) :
    ∃ tokens title, List.Forall₂
        (fun item t => g.scanner.read t.kind item = .token t g.scanner) passed tokens ∧
      g.scanner.read (.title .examples) next = .token title g.scanner ∧
      g.HandsOver b k
        ((opened ++ [Rule.examples, .examplesDefinition]).map .closed ++
          .opened .examplesDefinition :: .opened .tags :: .token t ::
            (tokens.map .token ++ [.closed .tags, .opened .examples, .token title]))
        ⟨.title .examples, g.scanner, .examples :: .examplesDefinition :: Rule.aroundExamples⟩
        (g.takeAll b k (item :: passed ++ [next]) rest) := by
  have hfirst := handsOver_consume (b := b) (k := k) item (passed ++ ([next] ++ rest)) g
  rw [Cursor.consume_tags hopened hrules hclass hk hb, List.singleton_append,
    Scanner.examplesFollow_append hpassed hnext, if_pos h] at hfirst
  obtain ⟨tokens, htokens, hands⟩ := handsOver_passed (b := b) (k := k)
    (c := ⟨.examplesTags, g.scanner, .tags :: .examplesDefinition :: Rule.aroundExamples⟩)
    (.inr rfl) hpassed ([next] ++ rest)
  obtain ⟨title, hread, hkind, htitle⟩ := Cursor.consume_title
    (c := ⟨.examplesTags, g.scanner, .tags :: .examplesDefinition :: Rule.aroundExamples⟩)
    rfl rfl hnext h rest
  refine ⟨tokens, title, htokens, hkind ▸ hread, ?_⟩
  have hall := (hfirst.andThen hands).takeOne next rest
  rw [htitle] at hall
  rw [takeAll_append, takeAll]
  simpa only [List.append_assoc, List.cons_append, List.nil_append] using hall

/-- From tags of a scenario up to the first line that is not put to them, whoever is told. -/
theorem handsOver_scenario_tags (h : g.scanner.accepts (.title .examples) next = false)
    (rest : List Item) :
    ∃ tokens, List.Forall₂
        (fun item t => g.scanner.read t.kind item = .token t g.scanner) passed tokens ∧
      g.HandsOver b k
        ((opened ++ [Rule.examples, .examplesDefinition, .scenarioOutline,
            .scenarioDefinition]).map .closed ++
          .opened .scenarioDefinition :: .opened .tags :: .token t :: tokens.map .token)
        ⟨.scenarioTags, g.scanner, [.tags, .scenarioDefinition, .feature, .document]⟩
        (g.takeAll b k (item :: passed) (next :: rest)) := by
  have hfirst := handsOver_consume (b := b) (k := k) item (passed ++ next :: rest) g
  rw [Cursor.consume_tags hopened hrules hclass hk hb,
    Scanner.examplesFollow_append hpassed hnext, h, if_neg Bool.false_ne_true] at hfirst
  obtain ⟨tokens, htokens, hands⟩ := handsOver_passed (b := b) (k := k)
    (c := ⟨.scenarioTags, g.scanner, [.tags, .scenarioDefinition, .feature, .document]⟩)
    (.inl rfl) hpassed (next :: rest)
  refine ⟨tokens, htokens, ?_⟩
  rw [takeAll]
  simpa only [List.append_assoc, List.cons_append, List.nil_append] using hfirst.andThen hands

end Tags

end Engine

end FeaturePlan
