import FeaturePlan.Proofs.Document.Reader
import FeaturePlan.Proofs.Scanner.Written
import Mathlib.Data.List.Forall2

/-! # Headings and steps, read back

A reader stands in a block when closing what is open inside leaves the block's rule with known
parts. Comments, steps and descriptions keep it there. -/

namespace FeaturePlan

/-! ## States of a block -/

theorem Block.follows_language (b : Block) : b.follows .language = false := by
  cases b <;> rfl

namespace State

variable {s : State} {b : Block}

structure Stands (s : State) (b : Block) : Prop where
  block : s.block? = some b
  outside : ∀ c, s ≠ docString c

theorem Stands.accepts (h : s.Stands b) :
    s.accepts .comment = true ∧ s.accepts .language = false ∧
      ∀ kind, b.follows kind = true → s.accepts kind = true := by
  obtain ⟨hb, ho⟩ := h
  cases s with
  | docString c => exact absurd rfl (ho c)
  | start | headerLanguage | headerTags | scenarioTags | examplesTags | done =>
      simp [block?] at hb
  | _ =>
      obtain rfl := Option.some.inj hb
      exact ⟨by simp [State.accepts], by simp [State.accepts, Block.follows_language],
        fun kind hk => by simp [State.accepts, hk]⟩

/-- A line that begins another part of the block, or another block. -/
theorem Stands.next {kind : TokenKind} {actions : List Action} {s' : State} {ahead : Bool}
    (h : s.Stands b) (hk : kind ≠ .row) (hf : follow b ahead kind = some (actions, s')) :
    s.next ahead kind = some (actions, s') := by
  obtain ⟨hb, ho⟩ := h
  have hfollow : s.followBlock ahead kind = some (actions, s') := by
    rw [followBlock, hb]
    exact hf
  cases kind with
  | title c =>
      cases c with
      | feature => simp [follow] at hf
      | _ => cases s <;> first | exact hfollow | simp [block?] at hb
  | tags => cases s <;> first | exact hfollow | simp [block?] at hb
  | step => exact hfollow
  | row => exact absurd rfl hk
  | _ => simp [follow] at hf

theorem Stands.next_comment (h : s.Stands b) (ahead : Bool) :
    ∃ actions s', s.next ahead .comment = some (actions, s') ∧ s'.Stands b ∧
      (actions = [.shift] ∨ actions = [.leaveTo b.rule, .shift]) := by
  obtain ⟨hb, ho⟩ := h
  cases s with
  | docString c => exact absurd rfl (ho c)
  | start | headerLanguage | headerTags | scenarioTags | examplesTags | done =>
      simp [block?] at hb
  | title c =>
      obtain rfl := Option.some.inj hb
      exact ⟨_, _, rfl, ⟨rfl, by simp⟩, .inl rfl⟩
  | description c =>
      obtain rfl := Option.some.inj hb
      exact ⟨_, _, rfl, ⟨rfl, by simp⟩, .inr rfl⟩
  | _ => exact ⟨_, _, rfl, ⟨hb, ho⟩, .inl rfl⟩

end State

/-! ## Readers in a block -/

def innerRules : List Rule :=
  [.description, .step, .dataTable, .docString, .examplesTable]

theorem Block.rule_notMem_innerRules (b : Block) : b.rule ∉ innerRules := by
  cases b <;> decide

namespace Reader

/-- The reader stands in a block that has the given parts once everything inside is closed. -/
structure At (r : Reader) (d : Dialect) (b : Block) (parts : List Tree) (outer : Parts)
    (w : List Comment) : Prop where
  scanner : r.scanner = .start d
  state : r.state.Stands b
  assembly : ∃ inner own, r.assembly = .within (inner ++ (b.rule, own) :: outer) w ∧
    (∀ f ∈ inner, f.1 ∈ innerRules ∧ Assembly.Closable f) ∧ own ++ Tree.wrap [] inner = parts

variable {r : Reader} {d : Dialect} {b : Block} {parts : List Tree} {outer : Parts}
  {w : List Comment} {t : Token} {actions : List Action} {a : Assembly}

theorem At.leaveTo_block (h : r.At d b parts outer w)
    (hp : Assembly.Performs t actions (.within ((b.rule, parts) :: outer) w) a) :
    Assembly.Performs t (.leaveTo b.rule :: actions) r.assembly a := by
  obtain ⟨inner, own, ha, hi, rfl⟩ := h.assembly
  rw [ha]
  refine .leaveTo inner (fun f hf => ⟨?_, (hi f hf).2⟩) hp
  rintro heq
  exact b.rule_notMem_innerRules (heq ▸ (hi f hf).1)

theorem At.leaveTo (mid : Parts) {rest : Parts} {level : Rule} {ps : List Tree}
    (h : r.At d b parts (mid ++ (level, ps) :: rest) w) (hl : level ∉ innerRules)
    (hb : b.rule ≠ level) (hm : ∀ f ∈ mid, f.1 ≠ level ∧ Assembly.isTable f.1 = false)
    (hp : Assembly.Performs t actions
      (.within ((level, ps ++ Tree.wrap [.node b.rule parts] mid) :: rest) w) a) :
    Assembly.Performs t (.leaveTo level :: actions) r.assembly a := by
  obtain ⟨inner, own, ha, hi, rfl⟩ := h.assembly
  have hframes : inner ++ (b.rule, own) :: (mid ++ (level, ps) :: rest) =
      (inner ++ (b.rule, own) :: mid) ++ (level, ps) :: rest := by simp
  have hwrap : Tree.wrap [] (inner ++ (b.rule, own) :: mid) =
      Tree.wrap [.node b.rule (own ++ Tree.wrap [] inner)] mid := by
    rw [Tree.wrap_append]
    rfl
  have htable : Assembly.isTable b.rule = false := by cases b <;> rfl
  rw [ha, hframes]
  refine .leaveTo (inner ++ (b.rule, own) :: mid) ?_ (hwrap ▸ hp)
  intro f hf
  rcases List.mem_append.mp hf with hf | hf
  · refine ⟨?_, (hi f hf).2⟩
    rintro rfl
    exact hl (hi f hf).1
  · rcases List.mem_cons.mp hf with rfl | hf
    · exact ⟨hb, fun ht => by simp [htable] at ht⟩
    · exact ⟨(hm f hf).1, fun ht => by simp [(hm f hf).2] at ht⟩

/-! ## Comments -/

theorem At.comment (h : r.At d b parts outer w) {c : Comment} (hc : c.IsLegal) :
    r.After [c.text.toList] fun r' => ∃ place, r'.At d b parts outer (w ++ [⟨place, c.text⟩]) := by
  refine .line fun l hl => ?_
  have hbegins : Scanner.Begins l '#' := by
    rw [Scanner.Begins, Line.body, hl]
    exact hc.2
  obtain ⟨hcomment, hlanguage, -⟩ := h.state.accepts
  obtain ⟨actions, s', hn, hs', hactions⟩ := h.state.next_comment false
  have hread := (Scanner.reads_comment (s := r.scanner) hbegins).classify hcomment hlanguage
  rw [hl, String.ofList_toList] at hread
  obtain ⟨inner, own, ha, hi, hparts⟩ := h.assembly
  rcases hactions with rfl | rfl
  · refine ⟨_, _, _, _, _, hread, .inl (by simp [Token.kind, Content.kind]), hn, ?_,
      l.margin, h.scanner, hs', inner, own, rfl, hi, hparts⟩
    rw [ha]
    exact .shift_comment (.nil _)
  · refine ⟨_, _, _, _, _, hread, .inl (by simp [Token.kind, Content.kind]), hn,
      h.leaveTo_block (.shift_comment (.nil _)), l.margin, h.scanner, hs', [], parts, rfl,
      by simp, by simp [Tree.wrap]⟩

theorem At.comments (h : r.At d b parts outer []) {cs : List Comment} (hc : ∀ c ∈ cs, c.IsLegal) :
    r.After (Comment.lines cs) fun r' => ∃ w, r'.At d b parts outer w ∧
      w.map (Comment.relocate nowhere) = cs.map (Comment.relocate nowhere) := by
  refine after_map (P := fun done r' => ∃ w, r'.At d b parts outer w ∧
    w.map (Comment.relocate nowhere) = done.map (Comment.relocate nowhere)) ?_ []
    ⟨[], h, rfl⟩
  rintro done c hm r' ⟨w, hr', hw⟩
  refine (hr'.comment (hc c hm)).mono ?_
  rintro r'' ⟨place, hr''⟩
  refine ⟨_, hr'', ?_⟩
  simp [hw, Comment.relocate, nowhere]

/-! ## Descriptions -/

def titled (d : Dialect) (b : Block) (ps : List Tree) (outer : Parts) : Reader :=
  ⟨.title b, .start d, .within ((b.rule, ps) :: outer) []⟩

def describing (d : Dialect) (b : Block) (leaves ps : List Tree) (outer : Parts) : Reader :=
  ⟨.description b, .start d, .within ((.description, leaves) :: (b.rule, ps) :: outer) []⟩

variable {ps leaves : List Tree}

theorem after_description_first {line : List Char} (hl : d.IsFree line) :
    (titled d b ps outer).After [line] fun r' =>
      ∃ leaves, r' = describing d b leaves ps outer ∧ Tree.freeLines leaves = [.ofList line] := by
  refine .line fun l hr => ?_
  subst hr
  have hread := (Scanner.reads_free hl).classify (q := .title b)
    (by simp [State.accepts, Token.kind, Content.kind])
    (by simp [State.accepts, Block.follows_language])
  refine ⟨_, _, _, _, _, hread, .inl (by simp [Token.kind, Content.kind]), rfl,
    .enter (.shift (by simp [Token.kind, Content.kind]) rfl (.nil _)), ⟨_, rfl, rfl⟩⟩

theorem after_description_line (hd : d.Sound) {line : List Char}
    (hl : Text.isInvisible line ∨ d.IsFree line) :
    (describing d b leaves ps outer).After [line] fun r' =>
      ∃ more, r' = describing d b more ps outer ∧
        Tree.freeLines more = Tree.freeLines leaves ++ [.ofList line] := by
  refine .line fun l hr => ?_
  subst hr
  have hread : (Scanner.start d).classify (.line l) (State.description b).expected =
      .token ⟨l.margin, d, .other (.ofList l.raw)⟩ (.start d) := by
    have hother : (State.description b).accepts .other = true := by simp [State.accepts]
    have hlanguage : (State.description b).accepts .language = false := by
      simp [State.accepts, Block.follows_language]
    rcases hl with hl | hl
    · have hempty : (State.description b).accepts .empty = false := by
        cases b <;> rfl
      exact Scanner.classify_invisible hd hl hother hempty hlanguage
    · exact (Scanner.reads_free hl).classify hother hlanguage
  refine ⟨_, _, _, _, _, hread, .inl (by simp [Token.kind, Content.kind]), rfl,
    .shift (by simp [Token.kind, Content.kind]) rfl (.nil _), ⟨_, rfl, ?_⟩⟩
  rw [Tree.freeLines_append]
  rfl

theorem after_description (hd : d.Sound) {text : Option String}
    (hl : ∀ s ∈ text, d.IsDescription s) :
    (titled d b ps outer).After (text.toList.flatMap textLines) fun r' =>
      ∃ ts, r'.At d b (ps ++ ts) outer [] ∧ Tree.HoldDescription text ts ∧
        (r'.state = .title b ∨ r'.state = .description b) := by
  cases text with
  | none =>
      refine .nil ⟨[], ⟨rfl, ⟨rfl, by simp [titled]⟩, [], ps, rfl, by simp, by simp [Tree.wrap]⟩,
        rfl, .inl rfl⟩
  | some text =>
      obtain ⟨hall, hfirst, -⟩ := hl text rfl
      obtain ⟨first, rest, hlines⟩ : ∃ first rest, textLines text = first :: rest :=
        List.exists_cons_of_ne_nil (List.splitOn_ne_nil _ _)
      have hfree : d.IsFree first :=
        (hall first (by simp [hlines])).2.resolve_left (hfirst first (by simp [hlines]))
      have hsplit : (some text).toList.flatMap textLines = [first] ++ rest.map id := by
        simp [hlines]
      rw [hsplit]
      refine (after_description_first hfree).append ?_
      rintro r₁ ⟨leaves, rfl, hleaves⟩
      have hloop : (describing d b leaves ps outer).After (rest.map id) fun r' => ∃ leaves,
          r' = describing d b leaves ps outer ∧
            Tree.freeLines leaves = ([first] ++ rest).map String.ofList := by
        refine after_map (P := fun done r' => ∃ leaves, r' = describing d b leaves ps outer ∧
          Tree.freeLines leaves = done.map String.ofList) ?_ [first] ⟨leaves, rfl, hleaves⟩
        rintro done line hm r' ⟨leaves, rfl, hleaves⟩
        refine (after_description_line hd (hall line (by simp [hlines, hm])).2).mono ?_
        rintro r'' ⟨more, rfl, hmore⟩
        exact ⟨more, rfl, by simp [hmore, hleaves]⟩
      · refine hloop.mono ?_
        rintro r₂ ⟨leaves, rfl, hleaves⟩
        refine ⟨[.node .description leaves], ⟨rfl, ⟨rfl, by simp [describing]⟩,
          [(.description, leaves)], ps, rfl, ?_, by simp [Tree.wrap]⟩, ⟨leaves, rfl, ?_⟩, .inr rfl⟩
        · intro f hf
          obtain rfl := List.mem_singleton.mp hf
          exact ⟨by simp [innerRules], fun ht => by simp [Assembly.isTable] at ht⟩
        · rw [hleaves, hlines]
          rfl

/-! ## Tables -/

/-- The rows of a table, in a rule that the first of them opens. -/
theorem after_rows (hd : d.Sound) (rule : Rule) (frames : Parts) {s : State}
    (hr : r.scanner = .start d) (hrow : r.state.accepts .row = true)
    (hlanguage : r.state.accepts .language = false)
    (hn : r.state.next false .row = some (actions, s))
    (hp : ∀ t : Token, t.kind = .row → Assembly.Performs t actions r.assembly
      (.within ((rule, [.leaf t []]) :: frames) []))
    (hs : s.accepts .row = true ∧ s.accepts .language = false ∧
      s.next false .row = some ([.shift], s))
    {rows : List TableRow} (hne : rows ≠ []) (hl : TableRow.AreLegal rows) :
    r.After (rows.map TableRow.line) fun r' => ∃ leaves,
      r' = ⟨s, .start d, .within ((rule, leaves) :: frames) []⟩ ∧ Tree.HoldRows rows leaves := by
  obtain ⟨first, rest, rfl⟩ := List.exists_cons_of_ne_nil hne
  have hfirst : r.After [first.line] fun r' => ∃ leaves,
      r' = ⟨s, .start d, .within ((rule, leaves) :: frames) []⟩ ∧
        Tree.HoldRows [first] leaves := by
    refine .line fun l hline => ?_
    obtain ⟨cells, hread, hvalues⟩ := Scanner.reads_row hd (hl.2 first List.mem_cons_self) hline
    rw [hr]
    exact ⟨_, _, _, _, _, hread.classify hrow hlanguage, .inl (by simp [Token.kind, Content.kind]),
      hn, hp _ rfl, _, rfl, Tree.holdRows_leaf hvalues⟩
  rw [List.map_cons, ← List.singleton_append]
  refine hfirst.append ?_
  rintro r₁ ⟨leaves, rfl, hleaves⟩
  refine after_map (P := fun done r' => ∃ leaves,
    r' = ⟨s, .start d, .within ((rule, leaves) :: frames) []⟩ ∧ Tree.HoldRows done leaves) ?_
    [first] ⟨leaves, rfl, hleaves⟩
  rintro done row hm r' ⟨leaves, rfl, hleaves⟩
  refine .line fun l hline => ?_
  obtain ⟨cells, hread, hvalues⟩ :=
    Scanner.reads_row hd (hl.2 row (List.mem_cons_of_mem first hm)) hline
  exact ⟨_, _, _, _, _, hread.classify hs.1 hs.2.1, .inl (by simp [Token.kind, Content.kind]),
    hs.2.2, .shift (by simp [Token.kind, Content.kind]) rfl (.nil _), _, rfl,
    hleaves.append (Tree.holdRows_leaf hvalues)⟩

/-! ## Arguments of steps -/

def stepped (d : Dialect) (b : Block) (ps parts : List Tree) (outer : Parts) : Reader :=
  ⟨.step b, .start d, .within ((.step, ps) :: (b.rule, parts) :: outer) []⟩

theorem closable_of_not_table {f : Rule × List Tree} (h : Assembly.isTable f.1 = false) :
    Assembly.Closable f := by
  intro ht
  simp [h] at ht

/-- The leaves of the lines of a doc string that stand for its content. -/
def contentLeaves (d : Dialect) (contents : List (List Char)) (inner : List Line) : List Tree :=
  List.zipWith (fun content l => .leaf ⟨l.margin, d, .other (.ofList content)⟩ []) contents inner

/-- The parts of a doc string, with its first and its last line. -/
def docStringParts (d : Dialect) (m : Delimiter) (type : String) (opening closing : Line)
    (contents : List (List Char)) (inner : List Line) : List Tree :=
  .leaf ⟨opening.start, d, .separator m type⟩ [] ::
    contentLeaves d contents inner ++ [.leaf ⟨closing.start, d, .separator m ""⟩ []]

theorem freeLines_contentLeaves {contents : List (List Char)} {inner : List Line}
    (h : contents.length = inner.length) :
    Tree.freeLines (contentLeaves d contents inner) = contents.map String.ofList := by
  induction contents generalizing inner with
  | nil => rfl
  | cons content contents ih =>
      obtain _ | ⟨l, inner⟩ := inner
      · simp at h
      · exact congrArg (String.ofList content :: ·) (ih (Nat.succ.inj h))

/-- The lines inside a doc string, indented as its delimiter is. -/
theorem takes_contents {m : Delimiter} {w : List Char} (hw : ∀ c ∈ w, Text.isBlank c)
    {contents : List (List Char)} {inner : List Line}
    (hl : ∀ content ∈ contents, ¬m.escapedChars <:+: content)
    (h : List.Forall₂ (fun content l => Scanner.StandsFor m w content l.raw) contents inner)
    (frames : Parts) :
    Reader.Takes
      ⟨.docString b, ⟨d, some ⟨m, w.length⟩⟩, .within ((.docString, leaves) :: frames) []⟩
      inner ⟨.docString b, ⟨d, some ⟨m, w.length⟩⟩,
        .within ((.docString, leaves ++ contentLeaves d contents inner) :: frames) []⟩ := by
  induction h generalizing leaves with
  | nil =>
      rw [contentLeaves, List.zipWith_nil_left, List.append_nil]
      exact .nil _
  | @cons content l contents inner hline _ ih =>
      obtain ⟨hcontent, hl⟩ := List.forall_mem_cons.mp hl
      have hread := Scanner.classify_content (d := d) b hw hcontent hline
      refine .cons hread (fun _ => rfl)
        (.shift (by simp [Token.kind, Content.kind]) rfl (.nil _)) ?_
      have hleaves : leaves ++ contentLeaves d (content :: contents) (l :: inner) =
          leaves ++ [.leaf ⟨l.margin, d, .other (.ofList content)⟩ []] ++
            contentLeaves d contents inner := by
        rw [List.append_assoc]
        rfl
      rw [hleaves]
      exact ih hl

theorem takes_docString (hd : d.Sound) {m : Delimiter} {w : List Char}
    (hw : ∀ c ∈ w, Text.isBlank c) {type : String} (ht : Text.IsName type)
    {opening closing : Line} (ho : opening.raw = w ++ (m.chars ++ type.toList))
    (hc : closing.raw = w ++ m.chars) {contents : List (List Char)} {inner : List Line}
    (hl : ∀ content ∈ contents, ¬m.escapedChars <:+: content)
    (h : List.Forall₂ (fun content l => Scanner.StandsFor m w content l.raw) contents inner)
    (frames : Parts) :
    Reader.Takes ⟨.step b, .start d, .within ((.step, ps) :: frames) []⟩
      (opening :: (inner ++ [closing])) ⟨.afterDocString b, .start d,
        .within ((.step, ps ++
          [.node .docString (docStringParts d m type opening closing contents inner)]) :: frames)
          []⟩ := by
  have hopen := (Scanner.reads_separator hd hw ht ho).classify (q := .step b)
    (by simp [State.accepts, Token.kind, Content.kind])
    (by simp [State.accepts, Block.follows_language])
  refine .cons hopen (fun _ => rfl)
    (.enter (.shift (by simp [Token.kind, Content.kind]) rfl (.nil _))) ?_
  refine (takes_contents hw hl h ((.step, ps) :: frames)).append ?_
  exact .cons (Scanner.classify_closing b w.length hw hc) (fun _ => rfl)
    (.shift (by simp [Token.kind, Content.kind]) rfl
      (.leave (closable_of_not_table rfl) (.nil _))) (.nil _)

theorem after_docString (hd : d.Sound) {s : DocString} (hs : s.IsLegal) :
    (stepped d b ps parts outer).After s.lines fun r' => ∃ ts,
      r'.At d b (parts ++ [.node .step (ps ++ ts)]) outer [] ∧
        Tree.HoldArgument (some (.docString s)) ts := by
  have htype : Text.IsName (s.contentType.getD "") := by
    cases htype : s.contentType with
    | none => exact ⟨by decide, by decide⟩
    | some type => exact (hs.1 type htype).2
  intro ls hls
  obtain ⟨opening, rest, rfl, hopen, hrest⟩ := List.map_eq_cons_iff.mp hls
  obtain ⟨inner, last, rfl, hinner, hlast⟩ := List.map_eq_append_iff.mp hrest
  obtain ⟨closing, rfl, hclose⟩ := List.map_eq_singleton_iff.mp hlast
  have hstands : List.Forall₂ (fun content l => Scanner.StandsFor s.delimiter [] content l.raw)
      (textLines s.content) inner := by
    rw [← List.forall₂_map_right_iff (R := Scanner.StandsFor s.delimiter []), hinner,
      List.forall₂_map_right_iff]
    exact List.forall₂_same.mpr fun content _ => .inl rfl
  have hcontents := fun content hm => (hs.2 content hm).2
  have hhold : Tree.HoldArgument (some (.docString s)) [.node .docString (docStringParts d
      s.delimiter (s.contentType.getD "") opening closing (textLines s.content) inner)] :=
    Tree.holdArgument_docString hs rfl rfl (freeLines_contentLeaves hstands.length_eq)
  refine ⟨_, takes_docString hd (w := []) (by simp) htype hopen hclose hcontents hstands _, [_],
    ⟨rfl, ⟨rfl, by simp⟩, [(.step, ps ++ [_])], parts, rfl, ?_, ?_⟩, hhold⟩
  · intro f hf
    obtain rfl := List.mem_singleton.mp hf
    exact ⟨by simp [innerRules], closable_of_not_table rfl⟩
  · simp [Tree.wrap]

theorem after_argument (hd : d.Sound) {argument : Option StepArgument}
    (hl : ∀ a ∈ argument, a.IsLegal) :
    (stepped d b ps parts outer).After (argument.toList.flatMap StepArgument.lines) fun r' => ∃ ts,
      r'.At d b (parts ++ [.node .step (ps ++ ts)]) outer [] ∧ Tree.HoldArgument argument ts := by
  have hstep : ∀ ts : List Tree, ∀ f ∈ [(Rule.step, ts)], f.1 ∈ innerRules ∧
      Assembly.Closable f := by
    intro ts f hf
    obtain rfl := List.mem_singleton.mp hf
    exact ⟨by simp [innerRules], closable_of_not_table rfl⟩
  cases argument with
  | none =>
      exact .nil ⟨[], ⟨rfl, ⟨rfl, by simp [stepped]⟩, [(.step, ps)], parts, rfl, hstep ps,
        by simp [Tree.wrap]⟩, Tree.holdArgument_none⟩
  | some argument =>
      have hlines : (some argument).toList.flatMap StepArgument.lines = argument.lines := by simp
      rw [hlines]
      cases argument with
      | docString s => exact after_docString hd (hl _ rfl)
      | table table =>
          obtain ⟨hne, hrows⟩ : table.rows ≠ [] ∧ TableRow.AreLegal table.rows := hl _ rfl
          have htable := after_rows (r := stepped d b ps parts outer) (s := .dataTable b) hd
            .dataTable ((.step, ps) :: (b.rule, parts) :: outer) rfl
            (by simp [stepped, State.accepts])
            (by simp [stepped, State.accepts, Block.follows_language]) rfl
            (fun t ht => .enter (.shift (by simp [ht]) (by rw [ht]; rfl) (.nil _)))
            ⟨by simp [State.accepts], by simp [State.accepts, Block.follows_language], rfl⟩
            hne hrows
          refine htable.mono ?_
          rintro r' ⟨leaves, rfl, hleaves⟩
          refine ⟨[.node .dataTable leaves], ⟨rfl, ⟨rfl, by simp⟩,
            [(.dataTable, leaves), (.step, ps)], parts, rfl, ?_, by simp [Tree.wrap]⟩,
            Tree.holdArgument_table hne hleaves⟩
          intro f hf
          rcases List.mem_cons.mp hf with rfl | hf
          · exact ⟨by simp [innerRules], fun _ => hleaves.unevenRow? hrows⟩
          · exact hstep ps f hf

/-! ## Steps -/

theorem At.step_line (hd : d.Sound) (hb : b.follows .step = true) (h : r.At d b parts outer w)
    {s : Step} (hs : s.IsLegal d) :
    r.After [(s.keyword ++ s.text).toList] fun r' => ∃ place,
      r' = stepped d b [.leaf ⟨place, d, .step s.keyword s.text⟩ w] parts outer := by
  refine .line fun l hline => ?_
  obtain ⟨-, hlanguage, hfollows⟩ := h.state.accepts
  rw [h.scanner]
  exact ⟨_, _, _, _, _, (Scanner.reads_step hd hs hline).classify (hfollows _ hb) hlanguage,
    .inl (by simp [Token.kind, Content.kind]),
    h.state.next (by simp [Token.kind, Content.kind]) rfl,
    h.leaveTo_block (.enter (.shift_owner rfl (.nil _))), l.start, rfl⟩

theorem At.step (hd : d.Sound) (hb : b.follows .step = true) (h : r.At d b parts outer [])
    {s : Step} (hs : s.IsLegal d) :
    r.After s.lines fun r' => ∃ ts, r'.At d b (parts ++ ts) outer [] ∧ Tree.HoldSteps d [s] ts := by
  have hlines : s.lines = Comment.lines s.comments ++ ([(s.keyword ++ s.text).toList] ++
      s.argument.toList.flatMap StepArgument.lines) := by
    simp [Step.lines]
  rw [hlines]
  refine (h.comments hs.2.2.2.2).append ?_
  rintro r₁ ⟨w, hr₁, hw⟩
  refine (hr₁.step_line hd hb hs).append ?_
  rintro r₂ ⟨place, rfl⟩
  refine (after_argument hd hs.2.2.2.1).mono ?_
  rintro r₃ ⟨ts, hr₃, hts⟩
  exact ⟨_, hr₃, Tree.holdSteps_step hw hts⟩

theorem At.steps (hd : d.Sound) (hb : b.follows .step = true) (h : r.At d b parts outer [])
    {steps : List Step} (hs : ∀ s ∈ steps, s.IsLegal d) :
    r.After (steps.flatMap Step.lines) fun r' =>
      ∃ ts, r'.At d b (parts ++ ts) outer [] ∧ Tree.HoldSteps d steps ts := by
  refine after_flatMap (P := fun done r' => ∃ ts,
    r'.At d b (parts ++ ts) outer [] ∧ Tree.HoldSteps d done ts) ?_ []
    ⟨[], by simpa using h, Tree.holdSteps_nil d⟩
  rintro done s hm r' ⟨ts, hr', hts⟩
  refine (hr'.step hd hb (hs s hm)).mono ?_
  rintro r'' ⟨more, hr'', hmore⟩
  exact ⟨ts ++ more, by simpa using hr'', hts.append hmore⟩

end Reader

end FeaturePlan
