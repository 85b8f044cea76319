import FeaturePlan.Proofs.Grammar.Beginnings
import FeaturePlan.Proofs.Scanner.Written

/-! # Lines that are turned away

A line that is turned away leaves the cursor where it was, so the lines behind it are read as if it
were not there. The one look ahead, from tags below an examples block, may see lines that are
turned away later; it comes to the same answer without them. -/

namespace FeaturePlan

/-! ## Titles and scanners -/

namespace Scanner

variable {s s' : Scanner} {t : Token} {kind : TokenKind} {item : Item}

theorem accepts_iff : s.accepts kind item ↔ ∃ t s', s.read kind item = .token t s' := by
  simp only [accepts]
  cases s.read kind item <;> simp

theorem read_of_not_accepts (hk : kind ≠ .language) (h : s.accepts kind item = false) :
    s.read kind item = .refused := by
  cases item with
  | line l => exact refused_of_not_accepts hk h
  | eof place =>
      by_cases he : kind = .eof
      · simp [accepts, read, keep, he] at h
      · simp [read, keep, he]

theorem classify_cons_of_accepts (h : s.accepts kind item) (kinds : List TokenKind) :
    s.classify item (kind :: kinds) = s.read kind item := by
  obtain ⟨t, s', hread⟩ := accepts_iff.mp h
  simp only [classify, hread]

theorem classify_cons_of_not_accepts (hk : kind ≠ .language) (h : s.accepts kind item = false)
    (kinds : List TokenKind) : s.classify item (kind :: kinds) = s.classify item kinds := by
  simp only [classify, read_of_not_accepts hk h]

/-- Only lines that name a language, and the ends of doc strings, change the scanner. -/
theorem scanner_of_read (h : s.read kind item = .token t s')
    (hk : kind ≠ .language ∧ kind ≠ .separator) : s' = s := by
  cases item with
  | eof place => exact (keep_eq_token h).2.1
  | line l =>
      cases kind with
      | eof => cases h
      | language => exact absurd rfl hk.1
      | separator => exact absurd rfl hk.2
      | other => exact (Reading.token.inj h).2.symm
      | _ => exact (keep_eq_token h).2.1

theorem sound_of_read (hs : s.dialect.Sound) (h : s.read kind item = .token t s') :
    s'.dialect.Sound := by
  by_cases hk : kind ≠ .language ∧ kind ≠ .separator
  · rwa [scanner_of_read h hk]
  cases item with
  | eof place => rwa [(keep_eq_token h).2.1]
  | line l =>
      cases kind with
      | language =>
          simp only [read, readLine, readLanguage] at h
          split at h <;> try split at h
          case h_2 d hfind =>
            obtain ⟨-, rfl⟩ := Reading.token.inj h
            exact (Dialect.sound_of_find? hfind).1
          all_goals cases h
      | separator =>
          simp only [read, readLine, readSeparator] at h
          split at h <;> split at h
          all_goals
            first
            | (obtain ⟨-, rfl⟩ := Reading.token.inj h; exact hs)
            | cases h
      | _ => simp at hk

theorem title_of_accepts {l : Line} {b : Block} (h : s.accepts (.title b) (.line l)) :
    ∃ k ∈ s.dialect.titles b, k.toList ++ [':'] <+: l.body := by
  obtain ⟨t, s', hread⟩ := accepts_iff.mp h
  obtain ⟨keyword, hm, hk⟩ := List.exists_of_findSome?_eq_some (keep_eq_token hread).1
  refine ⟨keyword, by cases b <;> exact hm, ?_⟩
  by_contra hp
  rw [titleAfter?_eq_none hp] at hk
  cases hk

theorem block_unique (hs : s.dialect.Sound) {b c : Block} (h : s.accepts (.title b) item)
    (h' : s.accepts (.title c) item) : b = c := by
  cases item with
  | eof place => simp [accepts, read, keep] at h
  | line l =>
      obtain ⟨k, hk, hp⟩ := title_of_accepts h
      obtain ⟨m, hm, hp'⟩ := title_of_accepts h'
      have hkm := title_unique (hs.titles_colon b k hk) (hs.titles_colon c m hm) hp hp'
      obtain rfl := String.toList_inj.mp hkm
      exact hs.titles_apart b c k hk hm

def skips (s : Scanner) (item : Item) : Bool :=
  s.accepts .empty item || s.accepts .comment item || s.accepts .tags item

theorem examplesFollow_cons_of_skips (h : s.skips item) (items : List Item) :
    s.examplesFollow (item :: items) = s.examplesFollow items :=
  if_pos h

theorem examplesFollow_cons_of_not_skips (h : s.skips item = false) (items : List Item) :
    s.examplesFollow (item :: items) = s.accepts (.title .examples) item :=
  if_neg (by simpa [skips] using h)

theorem classify_of_skips (h : s.skips item) (kinds : List TokenKind) :
    ∃ t, s.classify item (.empty :: .comment :: .tags :: kinds) = .token t s ∧
      t.kind ∈ [.empty, .comment, .tags] := by
  have hread : ∀ {kind} kinds, s.accepts kind item → kind ∈ [.empty, .comment, .tags] →
      ∃ t, s.classify item (kind :: kinds) = .token t s ∧ t.kind ∈ [.empty, .comment, .tags] := by
    intro kind kinds ha hm
    obtain ⟨t, s', hread⟩ := accepts_iff.mp ha
    obtain rfl := scanner_of_read hread (by constructor <;> (rintro rfl; simp at hm))
    exact ⟨t, by rw [classify_cons_of_accepts ha, hread], kind_of_read hread ▸ hm⟩
  cases hempty : s.accepts .empty item with
  | true => exact hread _ hempty (by simp)
  | false =>
      rw [classify_cons_of_not_accepts (by simp) hempty]
      cases hcomment : s.accepts .comment item with
      | true => exact hread _ hcomment (by simp)
      | false =>
          rw [classify_cons_of_not_accepts (by simp) hcomment]
          exact hread _ (by simpa [skips, hempty, hcomment] using h) (by simp)

theorem classify_of_not_skips (h : s.skips item = false) (kinds : List TokenKind) :
    s.classify item (.empty :: .comment :: .tags :: kinds) = s.classify item kinds := by
  simp only [skips, Bool.or_eq_false_iff] at h
  rw [classify_cons_of_not_accepts (by simp) h.1.1, classify_cons_of_not_accepts (by simp) h.1.2,
    classify_cons_of_not_accepts (by simp) h.2]

end Scanner

/-! ## What is kept -/

/-- The number of the line that is turned away where the event happens. -/
def Event.rejectedLine? : Event → Option Nat
  | error e => e.rejectedLine?
  | _ => none

def Stride.rejects (s : Stride) : Bool :=
  s.events.any fun e => e.rejectedLine?.isSome

namespace Cursor

def kept : Cursor → List Item → List Item
  | _, [] => []
  | c, item :: ahead =>
    let stride := c.consume item ahead
    if stride.rejects then stride.cursor.kept ahead else item :: stride.cursor.kept ahead

variable {c : Cursor} {item : Item} {ahead : List Item}

theorem kept_cons_of_rejects (h : (c.consume item ahead).rejects) :
    c.kept (item :: ahead) = (c.consume item ahead).cursor.kept ahead :=
  if_pos h

theorem kept_cons_of_not_rejects (h : (c.consume item ahead).rejects = false) :
    c.kept (item :: ahead) = item :: (c.consume item ahead).cursor.kept ahead :=
  if_neg (by simp [h])

theorem not_rejects_performAll (t : Token) (rules : List Rule) (actions : List Action)
    (c : Cursor) : (⟨(Action.performAll t rules actions).1, c⟩ : Stride).rejects = false := by
  refine List.any_eq_false.mpr fun e he => ?_
  cases e with
  | error error => exact absurd he (Action.error_notMem_performAll t rules actions error)
  | _ => simp [Event.rejectedLine?]

/-- A line of a class that is expected is put where it belongs. -/
theorem consume_of_token {t : Token} {scanner : Scanner}
    (h : c.scanner.classify item c.state.expected = .token t scanner) (ahead : List Item) :
    ∃ actions state, c.state.next (t.kind = .tags && c.state.block? = some .examples &&
        scanner.examplesFollow ahead) t.kind = some (actions, state) ∧
      c.consume item ahead = ⟨(Action.performAll t c.rules actions).1,
        ⟨state, scanner, (Action.performAll t c.rules actions).2⟩⟩ := by
  obtain ⟨actions, state, hn⟩ := exists_next h
    (t.kind = .tags && c.state.block? = some .examples && scanner.examplesFollow ahead)
  exact ⟨actions, state, hn, by simp only [consume, h, hn]⟩

theorem not_rejects_of_token {t : Token} {scanner : Scanner}
    (h : c.scanner.classify item c.state.expected = .token t scanner) (ahead : List Item) :
    (c.consume item ahead).rejects = false := by
  obtain ⟨actions, state, -, hconsume⟩ := consume_of_token h ahead
  rw [hconsume]
  exact not_rejects_performAll t c.rules actions _

/-- Only lines are turned away, and they leave nothing but their error. -/
theorem consume_of_rejects (h : (c.consume item ahead).rejects) :
    ∃ l e, item = .line l ∧ e.rejectedLine? = some l.number ∧
      c.consume item ahead = ⟨[.error e], c⟩ := by
  have hcases := c.consumes item ahead
  generalize c.consume item ahead = stride at h hcases ⊢
  cases hcases with
  | rejected he => exact ⟨_, _, rfl, he, rfl⟩
  | taken _ _ =>
      rw [not_rejects_performAll] at h
      cases h
  | ended _ => simp [Stride.rejects, reject, Event.rejectedLine?, ParseError.rejectedLine?] at h

theorem not_rejects_eof (c : Cursor) (place : Location) (ahead : List Item) :
    (c.consume (.eof place) ahead).rejects = false := by
  refine Bool.eq_false_iff.mpr fun h => ?_
  obtain ⟨l, e, hl, -, -⟩ := consume_of_rejects h
  cases hl

/-! ## The look ahead -/

/-- Below tags, what the look ahead passes over is put where the tags are. -/
theorem consume_of_skips (hq : c.state = .scenarioTags ∨ c.state = .examplesTags)
    (h : c.scanner.skips item) (ahead : List Item) :
    ∃ t, c.scanner.read t.kind item = .token t c.scanner ∧
      c.consume item ahead = ⟨[.token t], c⟩ := by
  obtain ⟨kinds, hexpected⟩ : ∃ kinds, c.state.expected = .empty :: .comment :: .tags :: kinds := by
    rcases hq with hq | hq <;> exact ⟨_, by rw [hq]; rfl⟩
  obtain ⟨t, hclass, hk⟩ := Scanner.classify_of_skips h kinds
  have hnext : ∀ examplesAhead, c.state.next examplesAhead t.kind = some ([.shift], c.state) := by
    intro examplesAhead
    simp only [List.mem_cons, List.not_mem_nil, or_false] at hk
    rcases hk with hk | hk | hk <;> rcases hq with hq | hq <;> rw [hk, hq] <;> rfl
  refine ⟨t, (Scanner.classify_eq_token hclass).2, ?_⟩
  simp only [consume, hexpected, hclass, hnext]
  rfl

/-- Below tags of examples a title of examples is taken for one. -/
theorem classify_of_examplesTags (hq : c.state = .examplesTags)
    (hskip : c.scanner.skips item = false) (h : c.scanner.accepts (.title .examples) item) :
    ∃ t, c.scanner.classify item c.state.expected = .token t c.scanner ∧
      t.kind = .title .examples := by
  obtain ⟨t, scanner, hread⟩ := Scanner.accepts_iff.mp h
  obtain rfl := Scanner.scanner_of_read hread (by simp)
  have hexpected : c.state.expected = [.empty, .comment, .tags, .title .examples] := by
    rw [hq]
    rfl
  refine ⟨t, ?_, Scanner.kind_of_read hread⟩
  rw [hexpected, Scanner.classify_of_not_skips hskip, Scanner.classify_cons_of_accepts h, hread]

/-- The look ahead finds the same title of examples among the items that are kept. -/
theorem examplesFollow_kept_of_examplesTags (hq : c.state = .examplesTags) (items : List Item)
    (h : c.scanner.examplesFollow items) : c.scanner.examplesFollow (c.kept items) := by
  induction items with
  | nil => cases h
  | cons item items ih =>
      cases hskip : c.scanner.skips item with
      | true =>
          obtain ⟨t, -, ht⟩ := consume_of_skips (.inr hq) hskip items
          rw [Scanner.examplesFollow_cons_of_skips hskip] at h
          rw [kept_cons_of_not_rejects (by rw [ht]; rfl),
            Scanner.examplesFollow_cons_of_skips hskip, ht]
          exact ih h
      | false =>
          rw [Scanner.examplesFollow_cons_of_not_skips hskip] at h
          obtain ⟨t, hclass, -⟩ := classify_of_examplesTags hq hskip h
          rw [kept_cons_of_not_rejects (not_rejects_of_token hclass items),
            Scanner.examplesFollow_cons_of_not_skips hskip]
          exact h

/-- Where a title of a scenario is expected, titles of examples are turned away. -/
theorem not_accepts_examples (hs : c.scanner.dialect.Sound) (hq : c.state = .scenarioTags)
    (hskip : c.scanner.skips item = false) (hkeep : (c.consume item ahead).rejects = false) :
    c.scanner.accepts (.title .examples) item = false := by
  have hcases := c.consumes item ahead
  generalize c.consume item ahead = stride at hkeep hcases
  cases hcases with
  | rejected he => simp [Stride.rejects, Event.rejectedLine?, he] at hkeep
  | ended _ => rfl
  | @taken item ahead t scanner actions state hclass _ =>
      have hexpected : c.state.expected =
          [.empty, .comment, .tags, .title .scenario, .title .outline] := by
        rw [hq]
        rfl
      rw [hexpected, Scanner.classify_of_not_skips hskip] at hclass
      obtain ⟨hk, hread⟩ := Scanner.classify_eq_token hclass
      have haccepts := Scanner.accepts_iff.mpr ⟨t, scanner, hread⟩
      refine Bool.eq_false_iff.mpr fun hexamples => ?_
      simp only [List.mem_cons, List.not_mem_nil, or_false] at hk
      rcases hk with hk | hk <;> rw [hk] at haccepts
      · cases Scanner.block_unique hs haccepts hexamples
      · cases Scanner.block_unique hs haccepts hexamples

/-- Where a title of a scenario is expected, no title of examples is kept before it. -/
theorem examplesFollow_kept_of_scenarioTags (hs : c.scanner.dialect.Sound)
    (hq : c.state = .scenarioTags) (items : List Item) :
    c.scanner.examplesFollow (c.kept items) = false := by
  induction items with
  | nil => rfl
  | cons item items ih =>
      cases hrejects : (c.consume item items).rejects with
      | true =>
          obtain ⟨l, e, -, -, hconsume⟩ := consume_of_rejects hrejects
          rw [kept_cons_of_rejects hrejects, hconsume]
          exact ih
      | false =>
          rw [kept_cons_of_not_rejects hrejects]
          cases hskip : c.scanner.skips item with
          | true =>
              obtain ⟨t, -, ht⟩ := consume_of_skips (.inl hq) hskip items
              rw [Scanner.examplesFollow_cons_of_skips hskip, ht]
              exact ih
          | false =>
              rw [Scanner.examplesFollow_cons_of_not_skips hskip]
              exact not_accepts_examples hs hq hskip hrejects

/-- Below an examples block tags lead to one of two states, as the look ahead says. -/
theorem state_of_tags {s s' : State} {examplesAhead : Bool} {actions : List Action}
    (hb : s.block? = some .examples)
    (h : s.next examplesAhead .tags = some (actions, s')) :
    s' = if examplesAhead then .examplesTags else .scenarioTags := by
  have hfollow : s.next examplesAhead .tags = State.follow .examples examplesAhead .tags := by
    cases s <;> first | rfl | (obtain rfl := Option.some.inj hb; rfl) | cases hb
  rw [hfollow] at h
  cases examplesAhead <;> exact (Prod.mk.inj (Option.some.inj h)).2.symm

/-- The look ahead from tags comes to the same answer when only what is kept follows. -/
theorem examplesFollow_kept (hs : c.scanner.dialect.Sound) {t : Token} {scanner : Scanner}
    (hclass : c.scanner.classify item c.state.expected = .token t scanner)
    (hk : t.kind = .tags) (hb : c.state.block? = some .examples) :
    scanner.examplesFollow ((c.consume item ahead).cursor.kept ahead) =
      scanner.examplesFollow ahead := by
  obtain ⟨actions, state, hnext, hconsume⟩ := consume_of_token hclass ahead
  have hread := (Scanner.classify_eq_token hclass).2
  obtain rfl := Scanner.scanner_of_read hread (by simp [hk])
  rw [hk] at hnext
  have hstate := state_of_tags hb hnext
  have hlook : (decide (TokenKind.tags = TokenKind.tags) &&
      decide (c.state.block? = some .examples) && c.scanner.examplesFollow ahead) =
        c.scanner.examplesFollow ahead := by simp [hb]
  rw [hlook] at hstate
  have hcursor : (c.consume item ahead).cursor.scanner = c.scanner ∧
      (c.consume item ahead).cursor.state = state := by rw [hconsume]; exact ⟨rfl, rfl⟩
  rw [← hcursor.1] at hs hstate ⊢
  cases hahead : (c.consume item ahead).cursor.scanner.examplesFollow ahead with
  | true =>
      rw [hahead] at hstate
      exact examplesFollow_kept_of_examplesTags (hcursor.2.trans hstate) ahead hahead
  | false =>
      rw [hahead] at hstate
      exact examplesFollow_kept_of_scenarioTags hs (hcursor.2.trans hstate) ahead

/-- An item is taken in the same way when only what is kept follows. -/
theorem consume_kept (hs : c.scanner.dialect.Sound) (item : Item) (ahead : List Item) :
    c.consume item ((c.consume item ahead).cursor.kept ahead) = c.consume item ahead := by
  have hlook : ∀ {t scanner}, c.scanner.classify item c.state.expected = .token t scanner →
      (t.kind = .tags && c.state.block? = some .examples &&
          scanner.examplesFollow ((c.consume item ahead).cursor.kept ahead)) =
        (t.kind = .tags && c.state.block? = some .examples && scanner.examplesFollow ahead) := by
    intro t scanner hclass
    by_cases hk : t.kind = .tags ∧ c.state.block? = some .examples
    · rw [examplesFollow_kept hs hclass hk.1 hk.2]
    · have hnone :
          (decide (t.kind = .tags) && decide (c.state.block? = some .examples)) = false := by
        simpa using hk
      rw [hnone]
      rfl
  generalize (c.consume item ahead).cursor.kept ahead = others at hlook ⊢
  cases hclass : c.scanner.classify item c.state.expected with
  | refused | unknownLanguage code place => simp only [consume, hclass]
  | token t scanner => simp only [consume, hclass, hlook hclass]

/-! ## Reading what is kept -/

theorem consume_sound (hs : c.scanner.dialect.Sound) (item : Item) (ahead : List Item) :
    (c.consume item ahead).cursor.scanner.dialect.Sound := by
  have h := c.consumes item ahead
  generalize c.consume item ahead = stride at h ⊢
  cases h with
  | taken hclass _ => exact Scanner.sound_of_read hs (Scanner.classify_eq_token hclass).2
  | rejected _ | ended _ => exact hs

/-- What is kept is read as it was, and nothing else happens. -/
theorem strides_kept (items : List Item) {c : Cursor} (hs : c.scanner.dialect.Sound) :
    (c.strides (c.kept items)).flatMap Stride.events =
      ((c.strides items).flatMap Stride.events).filter fun e => e.rejectedLine?.isNone := by
  induction items generalizing c with
  | nil => rfl
  | cons item ahead ih =>
      have hrest := ih (consume_sound hs item ahead)
      rw [strides, List.flatMap_cons, List.filter_append, ← hrest]
      cases hrejects : (c.consume item ahead).rejects with
      | false =>
          have hall : (c.consume item ahead).events.filter (fun e => e.rejectedLine?.isNone) =
              (c.consume item ahead).events := by
            refine List.filter_eq_self.mpr fun e he => ?_
            have hnot := List.any_eq_false.mp hrejects e he
            simpa using hnot
          rw [kept_cons_of_not_rejects hrejects, strides, List.flatMap_cons, consume_kept hs, hall]
      | true =>
          obtain ⟨l, e, rfl, he, hconsume⟩ := consume_of_rejects hrejects
          simp [kept_cons_of_rejects hrejects, hconsume, Event.rejectedLine?, he]

end Cursor

end FeaturePlan
