import FeaturePlan.Proofs.Document.Indentation
import FeaturePlan.Proofs.Grammar.LookAhead
import FeaturePlan.Proofs.Grammar.Nesting

/-! # Tags below examples

Wherever a reading comes to tags below a block of examples, the first line below that is neither
blank nor a comment nor tags decides whose they are. Up to that line everything is accepted. All
that can come in between is the table that the tags close: if its rows differ in width, its error
is reported before anything is opened, and a strict reading ends there. -/

namespace FeaturePlan

/-! ## What an assembly refuses -/

theorem Event.nest?_tokens (rules : List Rule) (tokens : List Token) :
    nest? rules (tokens.map token) = some rules := by
  induction tokens with
  | nil => rfl
  | cons t tokens ih => exact ih

namespace Assembly

variable {a : Assembly} {rule : Rule} {rules rules' opened : List Rule} {τ : Type _} {k : Sink τ}
  {u : τ}

/-- The error of the examples table that is open, if its rows differ in width. -/
def unevenTable? (a : Assembly) : Option ParseError :=
  match a.frames with
  | (.examplesTable, rows) :: _ => (Tree.unevenRow? rows).map .unevenRow
  | _ => none

/-- Looks the examples table over that is open: what becomes of the sink, and what it gives back. -/
def checkTable (k : Sink τ) (a : Assembly) (u : τ) : τ × Option ParseError :=
  match a.unevenTable? with
  | none => (u, none)
  | some e => k.report e u

theorem close_of_not_isTable (h : a.rules = rule :: rules) (ht : isTable rule = false) :
    a.close.2 = none := by
  obtain ⟨_ | ⟨⟨r, parts⟩, frames⟩, trees, waiting⟩ := a
  · rfl
  · obtain rfl : r = rule := (List.cons.inj h).1
    simp [close, ht]

theorem close_of_examplesTable (h : a.rules = .examplesTable :: rules) :
    a.close.2 = a.unevenTable? := by
  obtain ⟨_ | ⟨⟨r, parts⟩, frames⟩, trees, waiting⟩ := a
  · cases h
  · obtain rfl : r = .examplesTable := (List.cons.inj h).1
    simp only [close, unevenTable?, isTable, if_true]
    cases Tree.unevenRow? parts <;> rfl

theorem checkTable_of_ne (h : a.rules = rule :: rules) (hr : rule ≠ .examplesTable) :
    a.checkTable k u = (u, none) := by
  obtain ⟨_ | ⟨⟨r, parts⟩, frames⟩, trees, waiting⟩ := a
  · cases h
  · obtain rfl : r = rule := (List.cons.inj h).1
    simp [checkTable, unevenTable?, hr]

/-- Nothing is refused when each rule is closed as the innermost and none of them is a table. -/
theorem exists_hands {events : List Event} (h : Event.nest? a.rules events = some rules')
    (ht : ∀ rule, .closed rule ∈ events → isTable rule = false) (he : ∀ e, .error e ∉ events) :
    ∃ a', Hands events a a' := by
  -- The frames keep up with the open rules, so what is closed is what the frames say it is.
  induction events generalizing a with
  | nil => exact ⟨a, .nil a⟩
  | cons event events ih =>
    have ht' : ∀ rule, .closed rule ∈ events → isTable rule = false :=
      fun rule hm => ht rule (List.mem_cons_of_mem event hm)
    have he' : ∀ e, .error e ∉ events := fun e hm => he e (List.mem_cons_of_mem event hm)
    cases event with
    | error e => exact absurd List.mem_cons_self (he e)
    | opened rule =>
      obtain ⟨a', hands⟩ := ih (a := builder.opened rule a) h ht' he'
      exact ⟨a', .opened hands⟩
    | token t =>
      rw [Event.nest?, ← rules_addToken t a] at h
      obtain ⟨a', hands⟩ := ih (a := builder.token t a) h ht' he'
      exact ⟨a', .token hands⟩
    | closed rule =>
      cases hr : a.rules with
      | nil =>
        rw [hr] at h
        cases h
      | cons innermost outer =>
        rw [hr] at h
        by_cases heq : rule = innermost
        · subst heq
          simp only [Event.nest?, if_true] at h
          have hclose := close_of_not_isTable hr (ht rule List.mem_cons_self)
          obtain ⟨a', hands⟩ := ih (a := a.close.1) (by rw [rules_close, hr]; exact h) ht' he'
          exact ⟨a', .closed (Prod.ext rfl hclose) hands⟩
        · simp [Event.nest?, heq] at h

/-- While a line closes what a block of examples holds, the table is all that can be refused. -/
theorem run_of_examples (hopened : opened ∈ [[], [Rule.description], [.examplesTable]])
    (hrules : a.rules = opened ++ .examples :: rules) {events : List Event}
    (hnest : Event.nest? (.examples :: rules) events = some rules')
    (ht : ∀ rule, .closed rule ∈ events → isTable rule = false) (he : ∀ e, .error e ∉ events) :
    (∀ sink, a.checkTable k u = (sink, none) → ∃ a',
      Delivery.run builder k (opened.map .closed ++ events) a u =
        ⟨opened.map .closed ++ events, a', sink, none⟩) ∧
      ∀ sink stop, a.checkTable k u = (sink, some stop) → ∃ a',
        Delivery.run builder k (opened.map .closed ++ events) a u =
          ⟨[.closed .examplesTable], a', sink, some stop⟩ := by
  by_cases htable : opened = [.examplesTable]
  · -- the table is closed first, and is then the innermost rule
    subst htable
    have hclose := close_of_examplesTable hrules
    have hb : builder.closed .examplesTable a = a.close := rfl
    obtain ⟨a', hands⟩ := exists_hands (a := a.close.1)
      (by rw [rules_close, hrules]; exact hnest) ht he
    simp only [List.map_cons, List.map_nil, List.singleton_append, Delivery.run, hb, checkTable]
    rcases hc : a.close with ⟨b, _ | e⟩ <;> rw [hc] at hclose hands <;> rw [← hclose]
    · refine ⟨?_, by simp⟩
      rintro sink ⟨⟩
      exact ⟨a', by simp only [hands.run, Delivery.afterEvent]⟩
    · dsimp only
      rcases k.report e u with ⟨sink, _ | stop⟩
      · refine ⟨?_, by simp⟩
        rintro sink ⟨⟩
        exact ⟨a', by simp only [hands.run, Delivery.afterEvent]⟩
      · refine ⟨by simp, ?_⟩
        rintro sink stop ⟨⟩
        exact ⟨b, rfl⟩
  · obtain ⟨hnot, hcheck⟩ :
        (∀ rule ∈ opened, isTable rule = false) ∧ a.checkTable k u = (u, none) := by
      simp only [List.mem_cons, List.not_mem_nil, or_false] at hopened
      rcases hopened with rfl | rfl | rfl
      · exact ⟨by simp, checkTable_of_ne hrules (by decide)⟩
      · exact ⟨by simp [isTable], checkTable_of_ne hrules (by decide)⟩
      · exact absurd rfl htable
    obtain ⟨a', hands⟩ : ∃ a', Hands (opened.map .closed ++ events) a a' :=
      exists_hands (by rw [hrules, Event.nest?_append, Event.nest?_closed]; exact hnest)
        (by simpa [or_imp, forall_and] using ⟨hnot, ht⟩) (by simpa using he)
    rw [hcheck]
    refine ⟨?_, by simp⟩
    rintro sink ⟨⟩
    exact ⟨a', hands.run⟩

/-- As long as nothing stops the delivery, what is open is what the events say. -/
theorem rules_run (events : List Event) (a : Assembly) (u : τ)
    (h : (Delivery.run builder k events a u).stopped = none) :
    (Delivery.run builder k events a u).builder.rules =
      events.foldl Event.openRules a.rules := by
  induction events generalizing a u with
  | nil => rfl
  | cons event events ih =>
    cases event with
    | opened rule => exact ih _ u h
    | token t =>
      have hrest := ih (a.addToken t) u h
      rwa [rules_addToken] at hrest
    | error e =>
      simp only [Delivery.run] at h ⊢
      rcases hr : k.report e u with ⟨u', _ | stop⟩
      · rw [hr] at h
        exact ih a u' h
      · rw [hr] at h
        cases h
    | closed rule =>
      have hrules := rules_close a
      have hb : builder.closed rule a = a.close := rfl
      simp only [Delivery.run, hb] at h ⊢
      rcases hc : a.close with ⟨a', _ | e⟩
      · rw [hc] at h hrules
        rw [List.foldl_cons, Event.openRules, ← hrules]
        exact ih a' u h
      · rw [hc] at h hrules
        rw [List.foldl_cons, Event.openRules, ← hrules]
        dsimp only at h ⊢
        rcases hr : k.report e u with ⟨u', _ | stop⟩
        · rw [hr] at h
          exact ih a' u' h
        · rw [hr] at h
          cases h

end Assembly

/-! ## Engines between two lines -/

namespace Engine

variable {τ : Type _} {k : Sink τ} {g g' : Engine Assembly τ}

/-- What holds of an engine that assembles a document, whenever it has taken a line. -/
structure IsBetween (g : Engine Assembly τ) : Prop where
  consistent : g.toCursor.Consistent
  not_done : g.state ≠ .done
  no_steps : g.state.stepBlock? ≠ some .examples
  rules : g.builder.rules = g.rules

theorem isBetween_start (d : Dialect) (u : τ) :
    ((start d .empty u).enter Assembly.builder .document).IsBetween :=
  ⟨rfl, by simp [enter, start], by simp [enter, start, State.stepBlock?], rfl⟩

theorem IsBetween.consume (h : g.IsBetween) {l : Line} {ahead : List Item}
    (hg : g.consume Assembly.builder k (.line l) ahead = (g', none)) : g'.IsBetween := by
  have hcursor := toCursor_of_consume hg
  have hbegins := Cursor.consume_begins h.consistent h.not_done l ahead
  have hsteps := Cursor.stepBlock?_of_consume h.no_steps (.line l) ahead
  have hreply := (handsOver_consume (.line l) ahead g).reply
    (b := Assembly.builder) (k := k) rfl
  rw [hg] at hreply
  obtain ⟨-, hbuilder, -, hstop⟩ := hreply
  have hrules := Assembly.rules_run _ g.builder g.sink hstop.symm
  rw [← hbuilder, h.rules, ← hbegins.rules] at hrules
  rw [← hcursor] at hbegins hsteps hrules
  exact ⟨hbegins.consistent, hbegins.not_done, hsteps, hrules⟩

theorem IsBetween.takeAll {lines : List Line} (h : g.IsBetween) {behind : List Item}
    (hg : g.takeAll Assembly.builder k (lines.map .line) behind = (g', none)) : g'.IsBetween :=
  takeAll_induction (fun _ g => g.IsBetween) (fun h hg => h.consume hg) [] h hg

end Engine

/-! ## Tags -/

namespace Engine

variable {τ : Type _}

/-- The engine takes items, with others behind them, and nothing stops it. Meanwhile it tells the
builder of the events; then it stands at the cursor, and this has become of the sink. -/
def Takes (k : Sink τ) (g : Engine Assembly τ) (items behind : List Item) (events : List Event)
    (c : Cursor) (sink : τ) : Prop :=
  ∃ g', g.takeAll Assembly.builder k items behind = (g', none) ∧
    g'.told = events.reverse ++ g.told ∧ g'.toCursor = c ∧ g'.sink = sink

/-- What becomes of tags below a block of examples that holds the rules `opened`, where `next` is
the first item behind them that is not passed over. -/
structure SettlesTags (k : Sink τ) (g : Engine Assembly τ) (item : Item) (t : Token)
    (passed : List Item) (next : Item) (rest : List Item) (opened : List Rule) : Prop where
  /-- Blank lines, comments and tags are passed over. -/
  passed_skips : ∀ other ∈ passed, g.scanner.skips other
  next_skips : g.scanner.skips next = false
  /-- The look ahead is about the next item, and leaves the scanner as it is. -/
  lookAhead_eq : g.scanner.lookAhead (passed ++ next :: rest) =
    (g.scanner.accepts (.title .examples) next, g.scanner)
  opened_mem : opened ∈ [[], [Rule.description], [.examplesTable]]
  rules_eq : g.rules = opened ++ [.examples, .examplesDefinition] ++ Rule.aroundExamples
  /-- If the sink gives back the error of the table, that is the end, and nothing is opened. -/
  stopped : ∀ sink stop, g.builder.checkTable k g.sink = (sink, some stop) →
    ∃ g', g.consume Assembly.builder k item (passed ++ next :: rest) = (g', some stop) ∧
      g'.told = .closed .examplesTable :: g.told ∧ g'.sink = sink
  /-- If a title of examples is next, each line up to it is handed over, and no more is reported.
  The definition that the tags open, and the block of the title in it, are part of the outline. -/
  examples : ∀ sink, g.builder.checkTable k g.sink = (sink, none) →
    g.scanner.accepts (.title .examples) next →
    ∃ tokens title,
      List.Forall₂ (fun other t => g.scanner.read t.kind other = .token t g.scanner)
        passed tokens ∧
      g.scanner.read (.title .examples) next = .token title g.scanner ∧
      g.Takes k (item :: passed ++ [next]) rest
        ((opened ++ [Rule.examples, .examplesDefinition]).map .closed ++
          .opened .examplesDefinition :: .opened .tags :: .token t ::
            (tokens.map .token ++ [.closed .tags, .opened .examples, .token title]))
        ⟨.title .examples, g.scanner, .examples :: .examplesDefinition :: Rule.aroundExamples⟩ sink
  /-- If not, the outline is closed and the tags open the definition of a scenario. Each line up to
  the next is handed over, and no more is reported. -/
  scenario : ∀ sink, g.builder.checkTable k g.sink = (sink, none) →
    g.scanner.accepts (.title .examples) next = false →
    ∃ tokens,
      List.Forall₂ (fun other t => g.scanner.read t.kind other = .token t g.scanner)
        passed tokens ∧
      g.Takes k (item :: passed) (next :: rest)
        ((opened ++ [Rule.examples, .examplesDefinition, .scenarioOutline,
            .scenarioDefinition]).map .closed ++
          .opened .scenarioDefinition :: .opened .tags :: .token t :: tokens.map .token)
        ⟨.scenarioTags, g.scanner, [.tags, .scenarioDefinition, .feature, .document]⟩ sink

section Examples

variable {k : Sink τ} {g : Engine Assembly τ} {item next : Item} {t : Token} {scanner : Scanner}
  {passed : List Item} {opened : List Rule} (h : g.IsBetween)
  (hopened : opened ∈ [[], [Rule.description], [.examplesTable]])
  (hrules : g.rules = opened ++ [.examples, .examplesDefinition] ++ Rule.aroundExamples)

include h hopened hrules

/-- Events that close the block and no table but the one that it holds are all told, unless the sink
gives back the error of that table. -/
theorem IsBetween.reply_of_handsOver {closing outer rules : List Rule} {more : List Event}
    {c : Cursor} {r : Reply Assembly τ}
    (hands : g.HandsOver Assembly.builder k ((opened ++ closing).map Event.closed ++ more) c r)
    (hclosing : closing ++ outer = .examples :: .examplesDefinition :: Rule.aroundExamples)
    (hnest : Event.nest? outer more = some rules)
    (ht : ∀ rule, .closed rule ∈ more → Assembly.isTable rule = false)
    (he : ∀ e, .error e ∉ more) :
    (∀ sink, g.builder.checkTable k g.sink = (sink, none) →
      r.2 = none ∧ r.1.told = ((opened ++ closing).map Event.closed ++ more).reverse ++ g.told ∧
        r.1.toCursor = c ∧ r.1.sink = sink) ∧
      ∀ sink stop, g.builder.checkTable k g.sink = (sink, some stop) →
        r.2 = some stop ∧ r.1.told = .closed .examplesTable :: g.told ∧ r.1.sink = sink := by
  rw [List.append_assoc, List.cons_append] at hrules
  have hblock : ∀ rule ∈ .examples :: .examplesDefinition :: Rule.aroundExamples,
      Assembly.isTable rule = false := by decide
  have hnot : ∀ rule ∈ closing, Assembly.isTable rule = false :=
    fun rule hm => hblock rule (hclosing ▸ List.mem_append_left outer hm)
  have hnest' : Event.nest? (.examples :: .examplesDefinition :: Rule.aroundExamples)
      (closing.map .closed ++ more) = some rules := by
    rw [← hclosing, Event.nest?_append, Event.nest?_closed]
    exact hnest
  obtain ⟨hgo, hstop⟩ := Assembly.run_of_examples (k := k) (u := g.sink) hopened
    (h.rules.trans hrules) hnest' (by simpa [or_imp, forall_and] using ⟨hnot, ht⟩)
    (by simpa using he)
  rw [List.map_append, List.append_assoc] at hands ⊢
  constructor
  · intro sink hcheck
    obtain ⟨a, hrun⟩ := hgo sink hcheck
    obtain ⟨htold, -, hsink, hnone⟩ := hands.reply hrun
    exact ⟨hnone, htold, hands.cursor hnone, hsink⟩
  · intro sink stop hcheck
    obtain ⟨a, hrun⟩ := hstop sink stop hcheck
    obtain ⟨htold, -, hsink, hsome⟩ := hands.reply hrun
    exact ⟨hsome, htold, hsink⟩

theorem IsBetween.settlesTags
    (hclass : g.scanner.classify item g.state.expected = .token t scanner) (hk : t.kind = .tags)
    (hb : g.state.block? = some .examples) (hpassed : ∀ other ∈ passed, g.scanner.skips other)
    (hnext : g.scanner.skips next = false) (rest : List Item) :
    g.SettlesTags k item t passed next rest opened where
  passed_skips := hpassed
  next_skips := hnext
  lookAhead_eq := by
    rw [Scanner.lookAhead_eq, Scanner.examplesFollow_append hpassed hnext]
  opened_mem := hopened
  rules_eq := hrules
  stopped := by
    intro sink stop hcheck
    have hands := handsOver_consume (b := Assembly.builder) (k := k) item
      (passed ++ next :: rest) g
    rw [Cursor.consume_tags hopened hrules hclass hk hb] at hands
    generalize g.consume Assembly.builder k item (passed ++ next :: rest) = r at hands ⊢
    have hreply : r.2 = some stop ∧ r.1.told = .closed .examplesTable :: g.told ∧
        r.1.sink = sink := by
      split at hands
      · exact (h.reply_of_handsOver hopened hrules hands rfl rfl (by simp) (by simp)).2
          sink stop hcheck
      · exact (h.reply_of_handsOver hopened hrules hands rfl rfl (by simp) (by simp)).2
          sink stop hcheck
    exact ⟨r.1, Prod.ext rfl hreply.1, hreply.2⟩
  examples := by
    intro sink hcheck haccepts
    obtain ⟨tokens, title, htokens, htitle, hands⟩ := handsOver_examples_tags
      (b := Assembly.builder) (k := k) hopened hrules hclass hk hb hpassed hnext haccepts rest
    obtain ⟨hnone, htold, hcursor, hsink⟩ := (h.reply_of_handsOver hopened hrules hands rfl
      (by simp only [Event.nest?, Event.nest?_append, Event.nest?_tokens]; rfl)
      (by simp [Assembly.isTable]) (by simp)).1 sink hcheck
    exact ⟨tokens, title, htokens, htitle, _, Prod.ext rfl hnone, htold, hcursor, hsink⟩
  scenario := by
    intro sink hcheck haccepts
    obtain ⟨tokens, htokens, hands⟩ := handsOver_scenario_tags
      (b := Assembly.builder) (k := k) hopened hrules hclass hk hb hpassed hnext haccepts rest
    obtain ⟨hnone, htold, hcursor, hsink⟩ := (h.reply_of_handsOver hopened hrules hands rfl
      (Event.nest?_tokens _ tokens) (by simp) (by simp)).1 sink hcheck
    exact ⟨tokens, htokens, _, Prod.ext rfl hnone, htold, hcursor, hsink⟩

end Examples

/-- In whatever reading of whatever text a line is taken for tags below a block of examples: whose
they are is decided by the first line below that is neither blank nor a comment nor tags. -/
theorem tags_below_examples (d : Dialect) (text : String) (k : Sink τ) (u : τ)
    {above ahead : List Item} {item : Item} {g : Engine Assembly τ} {t : Token}
    {scanner : Scanner} (htext : Item.ofText text = above ++ item :: ahead)
    (habove : ((start d .empty u).enter Assembly.builder .document).takeAll Assembly.builder k
      above (item :: ahead) = (g, none))
    (hclass : g.scanner.classify item g.state.expected = .token t scanner) (hkind : t.kind = .tags)
    (hblock : g.state.block? = some .examples) :
    deliver d text Assembly.builder k .empty u =
        (g.run Assembly.builder k (item :: ahead)).delivery ∧
      scanner = g.scanner ∧
      ∃ passed next rest opened, ahead = passed ++ next :: rest ∧
        g.SettlesTags k item t passed next rest opened := by
  have hread := (Scanner.classify_eq_token hclass).2
  obtain ⟨lines, m, below, rfl, hbelow⟩ := Item.exists_of_number htext
  have hg : g.IsBetween := (isBetween_start d u).takeAll habove
  obtain ⟨opened, hopened, hrules⟩ := hg.consistent.rules_of_examples hblock hg.no_steps
  obtain ⟨passed, next, rest, rfl, hpassed, hnext⟩ : ∃ passed next rest,
      ahead = passed ++ next :: rest ∧ (∀ other ∈ passed, g.scanner.skips other) ∧
        g.scanner.skips next = false := by
    cases below with
    | nil =>
      -- tags are not the end of the text
      obtain ⟨rfl, -⟩ := List.cons.inj hbelow
      rw [Scanner.kind_eq_eof hread] at hkind
      cases hkind
    | cons raw below =>
      obtain ⟨-, rfl⟩ := List.cons.inj hbelow
      exact g.scanner.exists_next (m + 1) below
  refine ⟨?_, Scanner.scanner_of_read hread (by simp [hkind]), passed, next, rest, opened, rfl,
    hg.settlesTags hopened hrules hclass hkind hblock hpassed hnext rest⟩
  rw [deliver, htext, run_append, habove]
  rfl

/-- Tags of examples, with a blank line, a comment and further tags before the title, close a table
with a row that is too long. The reading keeps its error and goes on. -/
theorem tags_below_examples_behind_uneven_table :
    let items := Item.ofText
      "Feature: F\nScenario Outline: O\nGiven <a>\nExamples:\n|a|\n|1|2|\n@t\n\n#c\n@u\nExamples:\n"
    let tags : Item := .line ⟨7, ['@', 't']⟩
    let t : Token := ⟨⟨7, 1⟩, .english, .tags [⟨1, "@t"⟩]⟩
    let r := ((start .english .empty []).enter Assembly.builder .document).takeAll
      Assembly.builder .collect (items.take 6) (tags :: items.drop 7)
    items = items.take 6 ++ tags :: items.drop 7 ∧ r.2 = none ∧
      r.1.scanner.classify tags r.1.state.expected = .token t r.1.scanner ∧ t.kind = .tags ∧
      r.1.state.block? = some .examples ∧
      r.1.builder.checkTable .collect r.1.sink = ([.unevenRow ⟨6, 1⟩], none) ∧
      ∃ passed next rest opened, items.drop 7 = passed ++ next :: rest ∧
        r.1.SettlesTags .collect tags t passed next rest opened := by
  intro items tags t r
  have hrun : items = items.take 6 ++ tags :: items.drop 7 ∧ r.2 = none ∧
      r.1.scanner.classify tags r.1.state.expected = .token t r.1.scanner ∧
      r.1.state.block? = some .examples ∧
      r.1.builder.checkTable .collect r.1.sink = ([.unevenRow ⟨6, 1⟩], none) := by
    decide +kernel
  obtain ⟨hitems, hgo, hclass, hblock, htable⟩ := hrun
  obtain ⟨-, -, h⟩ := tags_below_examples .english _ .collect [] hitems (Prod.ext rfl hgo) hclass
    rfl hblock
  exact ⟨hitems, hgo, hclass, rfl, hblock, htable, h⟩

/-- Tags of examples open nothing where the table above them ends a strict reading. And where a
stray line hides the title from the look ahead, tags of a scenario turn the title away, which
tags of examples would not. -/
theorem tags_below_examples_not_decisive :
    (let items := Item.ofText
        "Feature: F\nScenario Outline: O\nGiven <a>\nExamples:\n|a|\n|1|2|\n@t\nExamples:\n"
      let tags : Item := .line ⟨7, ['@', 't']⟩
      let r := ((start .english .empty ()).enter Assembly.builder .document).takeAll
        Assembly.builder .failFast (items.take 6) (tags :: items.drop 7)
      let r' := r.1.consume Assembly.builder .failFast tags (items.drop 7)
      items = items.take 6 ++ tags :: items.drop 7 ∧ r.2 = none ∧
        r.1.scanner.classify tags r.1.state.expected =
          .token ⟨⟨7, 1⟩, .english, .tags [⟨1, "@t"⟩]⟩ r.1.scanner ∧
        r.1.state.block? = some .examples ∧ r.1.scanner.examplesFollow (items.drop 7) = true ∧
        r'.2 = some (.unevenRow ⟨6, 1⟩) ∧ r'.1.told = .closed .examplesTable :: r.1.told) ∧
      let items := Item.ofText
        "Feature: F\nScenario Outline: O\nGiven <a>\nExamples:\n|a|\n@t\nother\nExamples:\n|a|\n"
      let tags : Item := .line ⟨6, ['@', 't']⟩
      let title : Item := .line ⟨8, "Examples:".toList⟩
      let r := ((start .english .empty []).enter Assembly.builder .document).takeAll
        Assembly.builder .collect (items.take 5) (tags :: items.drop 6)
      let r' := r.1.takeAll Assembly.builder .collect [tags, .line ⟨7, "other".toList⟩, title]
        (items.drop 8)
      items = items.take 5 ++ [tags, .line ⟨7, "other".toList⟩, title] ++ items.drop 8 ∧
        r.2 = none ∧
        r.1.scanner.classify tags r.1.state.expected =
          .token ⟨⟨6, 1⟩, .english, .tags [⟨1, "@t"⟩]⟩ r.1.scanner ∧
        r.1.state.block? = some .examples ∧ r.1.scanner.accepts (.title .examples) title = true ∧
        r'.1.sink = [.unexpectedLine ⟨7, 1⟩ State.scenarioTags.expected "other",
          .unexpectedLine ⟨8, 1⟩ State.scenarioTags.expected "Examples:"] ∧
        ((⟨.examplesTags, r.1.scanner, .tags :: .examplesDefinition :: Rule.aroundExamples⟩ :
          Cursor).consume title (items.drop 8)).rejects = false := by
  constructor <;> decide +kernel

end Engine

end FeaturePlan
