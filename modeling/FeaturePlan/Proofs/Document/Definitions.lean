import FeaturePlan.Proofs.Document.Blocks

/-! # Definitions, read back

Scenarios, outlines and blocks of examples open with tags and a title. Whose tags they are is known
only when the title has been seen. -/

namespace FeaturePlan

/-! ## Looking ahead -/

namespace Scanner

variable {s s' : Scanner} {l : Line} {t : Token} {d : Dialect}

theorem Reads.accepts (h : s.Reads l t s') : s.accepts t.kind (.line l) = true := by
  have hread : s.read t.kind (.line l) = .token t s' := h.token
  rw [Scanner.accepts, hread]

theorem not_accepts {kind : TokenKind} (h : s.readLine l kind = .refused) :
    s.accepts kind (.line l) = false := by
  have hread : s.read kind (.line l) = .refused := h
  rw [Scanner.accepts, hread]

/-- Tags lead to a block of examples just when the title behind them does. -/
theorem examplesFollow_title (hd : d.Sound) {b : Block} {keyword name : String}
    (hk : keyword ∈ d.titles b) (hn : Text.IsName name) {tags : List Tag}
    (ht : ∀ t ∈ tags, t.IsLegal) {ls : List Line}
    (hls : ls.map (·.raw) = Tag.lines tags ++ [(keyword ++ ": " ++ name).toList])
    (ahead : List Item) :
    (start d).examplesFollow (ls.map .line ++ ahead) = decide (b = .examples) := by
  induction tags generalizing ls with
  | nil =>
      obtain ⟨l, rfl, hl⟩ := List.map_eq_singleton_iff.mp hls
      have hread := reads_title hd hk hn hl
      have hskip : ∀ kind ∈ [TokenKind.empty, .comment, .tags],
          (start d).accepts kind (.line l) = false := by
        intro kind hkind
        have hcases : kind = .empty ∨ kind = .comment ∨ kind = .tags := by simpa using hkind
        have hbefore : ∀ b, ∀ k ∈ [TokenKind.empty, .comment, .tags],
            k ∈ (TokenKind.title b).before := by decide
        refine not_accepts (hread.refused kind (hbefore b kind hkind) ?_)
        rcases hcases with rfl | rfl | rfl <;> decide
      have hends : (start d).accepts (.title .examples) (.line l) = decide (b = .examples) := by
        by_cases hb : b = .examples
        · subst hb
          exact hread.accepts
        · rw [not_accepts (refuses_other_titles hd hk hl (Ne.symm hb))]
          simp [hb]
      rw [List.map_singleton, List.singleton_append, examplesFollow, hends]
      simp [hskip]
  | cons t tags ih =>
      obtain ⟨l, ls, rfl, hl, hrest⟩ := List.map_eq_cons_iff.mp hls
      obtain ⟨column, hread⟩ := reads_tag (s := start d) (ht t List.mem_cons_self) hl
      have htag : (start d).accepts .tags (.line l) = true := hread.accepts
      have hnext := ih (fun t htm => ht t (List.mem_cons_of_mem _ htm)) hrest
      simp [examplesFollow, htag, hnext]

end Scanner

/-! ## Where definitions stand -/

namespace Block

def isDefined : Block → Bool
  | scenario | outline | examples => true
  | feature | background => false

def level : Block → Rule
  | examples => .scenarioOutline
  | _ => .feature

def wrapper : Block → Rule
  | examples => .examplesDefinition
  | _ => .scenarioDefinition

def tagged : Block → State
  | examples => .examplesTags
  | _ => .scenarioTags

variable {b c : Block}

theorem follows_tags (b : Block) : b.follows .tags = true := by
  cases b <;> rfl

theorem follow_title (hb : b.isDefined = true) (ahead : Bool) :
    State.follow c ahead (.title b) =
      some ([.leaveTo b.level, .enter b.wrapper, .enter b.rule, .shift], .title b) := by
  cases b <;> first | rfl | simp [isDefined] at hb

theorem follow_tags (hb : b.isDefined = true) (hc : c.follows (.title b) = true) {ahead : Bool}
    (ha : ahead = (decide (c = .examples) && decide (b = .examples))) :
    State.follow c ahead .tags =
      some ([.leaveTo b.level, .enter b.wrapper, .enter .tags, .shift], b.tagged) := by
  subst ha
  cases b <;> cases c <;> first | rfl | exact absurd hb (by decide) | exact absurd hc (by decide)

theorem tagged_title (hb : b.isDefined = true) :
    b.tagged.accepts (.title b) = true ∧ b.tagged.next false (.title b) =
      some ([.leaveTo b.wrapper, .enter b.rule, .shift], .title b) := by
  cases b <;> first | exact ⟨rfl, rfl⟩ | simp [isDefined] at hb

end Block

structure State.Collects (q : State) : Prop where
  accepts : q.accepts .tags = true
  language : q.accepts .language = false
  block : q.block? = none
  next : q.next false .tags = some ([.shift], q)

theorem Block.tagged_collects (b : Block) : b.tagged.Collects := by
  cases b <;> exact ⟨rfl, rfl, rfl, rfl⟩

namespace Reader

variable {r : Reader} {d : Dialect} {b : Block} {parts ps : List Tree} {outer : Parts}
  {w : List Comment} {actions : List Action} {a : Assembly}

/-- A title takes the comments above it, of which examples have none. -/
theorem performs_title {place : Location} {keyword name : String} {rule : Rule} {frames : Parts}
    (hw : b = .examples → w = [])
    (h : Assembly.Performs ⟨place, d, .title b keyword name⟩ actions
      (.within ((rule, parts ++ [.leaf ⟨place, d, .title b keyword name⟩ w]) :: frames) []) a) :
    Assembly.Performs ⟨place, d, .title b keyword name⟩ (.shift :: actions)
      (.within ((rule, parts) :: frames) w) a := by
  by_cases hb : b = .examples
  · obtain rfl := hw hb
    subst hb
    exact .shift (by simp [Token.kind, Content.kind]) rfl h
  · refine .shift_owner ?_ h
    cases b <;> first | rfl | exact absurd rfl hb

/-- A definition of the block may follow, in a rule with the given parts. -/
structure Under (r : Reader) (d : Dialect) (b : Block) (ps : List Tree) (outer : Parts)
    (w : List Comment) : Prop where
  scanner : r.scanner = .start d
  state : ∃ c, r.state.Stands c ∧ c.follows (.title b) = true
  leave : ∀ {t actions a}, Assembly.Performs t actions (.within ((b.level, ps) :: outer) w) a →
    Assembly.Performs t (.leaveTo b.level :: actions) r.assembly a

def tagging (d : Dialect) (q : State) (leaves : List Tree) (frames : Parts) (w : List Comment) :
    Reader :=
  ⟨q, .start d, .within ((.tags, leaves) :: frames) w⟩

theorem after_tags {q : State} (hq : q.Collects) {leaves : List Tree} {frames : Parts}
    {first tags : List Tag} (ht : ∀ t ∈ tags, t.IsLegal)
    (h : Tree.HoldTags first [.node .tags leaves]) :
    (tagging d q leaves frames w).After (Tag.lines tags) fun r' => ∃ leaves,
      r' = tagging d q leaves frames w ∧ Tree.HoldTags (first ++ tags) [.node .tags leaves] := by
  refine after_map (P := fun done r' => ∃ leaves,
    r' = tagging d q leaves frames w ∧ Tree.HoldTags done [.node .tags leaves]) ?_ first
    ⟨leaves, rfl, h⟩
  rintro done t hm r' ⟨leaves, rfl, hleaves⟩
  refine .line fun l hl => ?_
  obtain ⟨column, hread⟩ := Scanner.reads_tag (s := .start d) (ht t hm) hl
  exact ⟨_, _, _, _, _, hread.classify hq.accepts hq.language, .inr (by simp [tagging, hq.block]),
    hq.next, .shift (by simp [Token.kind, Content.kind]) rfl (.nil _), _, rfl, hleaves.concat⟩

variable {keyword name : String}

theorem after_tagged_title (hd : d.Sound) (hb : b.isDefined = true) (hk : keyword ∈ d.titles b)
    (hn : Text.IsName name) (hw : b = .examples → w = []) {leaves : List Tree} :
    (tagging d b.tagged leaves ((b.wrapper, []) :: outer) w).After
      [(keyword ++ ": " ++ name).toList] fun r' => ∃ place,
        r' = titled d b [.leaf ⟨place, d, .title b keyword name⟩ w]
          ((b.wrapper, [.node .tags leaves]) :: outer) := by
  refine .line fun l hl => ?_
  obtain ⟨htitle, hnext⟩ := Block.tagged_title hb
  have hread := Scanner.reads_title hd hk hn hl
  refine ⟨_, _, _, _, _, hread.classify htitle b.tagged_collects.language,
    .inl (by simp [Token.kind, Content.kind]), hnext, ?_, l.start, rfl⟩
  have hinner : ∀ f ∈ [(Rule.tags, leaves)], f.1 ≠ b.wrapper ∧ Assembly.Closable f := by
    intro f hf
    obtain rfl := List.mem_singleton.mp hf
    exact ⟨by cases b <;> simp [Block.wrapper], closable_of_not_table rfl⟩
  have hleave : Assembly.Performs ⟨l.start, d, .title b keyword name⟩
      [.leaveTo b.wrapper, .enter b.rule, .shift]
      (.within ([(.tags, leaves)] ++ (b.wrapper, []) :: outer) w)
      (titled d b [.leaf ⟨l.start, d, .title b keyword name⟩ w]
        ((b.wrapper, [.node .tags leaves]) :: outer)).assembly := by
    refine .leaveTo _ hinner ?_
    have hwrap : [] ++ Tree.wrap [] [(Rule.tags, leaves)] = [.node .tags leaves] := by
      simp [Tree.wrap]
    rw [hwrap]
    exact .enter (performs_title hw (.nil _))
  exact hleave

theorem Under.after_title (hd : d.Sound) (hb : b.isDefined = true) (h : r.Under d b ps outer w)
    (hk : keyword ∈ d.titles b) (hn : Text.IsName name) (hw : b = .examples → w = [])
    {tags : List Tag} (ht : ∀ t ∈ tags, t.IsLegal) :
    r.After (Tag.lines tags ++ [(keyword ++ ": " ++ name).toList]) fun r' => ∃ place tparts,
      r' = titled d b [.leaf ⟨place, d, .title b keyword name⟩ w]
        ((b.wrapper, tparts) :: (b.level, ps) :: outer) ∧ Tree.HoldTags tags tparts := by
  obtain ⟨c, hc, hfollows⟩ := h.state
  obtain ⟨-, hlanguage, haccepts⟩ := hc.accepts
  cases tags with
  | nil =>
      refine .line fun l hl => ?_
      rw [h.scanner]
      have hread := Scanner.reads_title hd hk hn hl
      exact ⟨_, _, _, _, _, hread.classify (haccepts _ hfollows) hlanguage,
        .inl (by simp [Token.kind, Content.kind]),
        hc.next (by simp [Token.kind, Content.kind]) (Block.follow_title hb false),
        h.leave (.enter (.enter (performs_title hw (.nil _)))), l.start, [], rfl,
        Tree.holdTags_nil⟩
  | cons t tags =>
      refine .cons fun l hl => ?_
      obtain ⟨column, hread⟩ := Scanner.reads_tag (s := .start d) (ht t List.mem_cons_self) hl
      rw [h.scanner]
      refine ⟨_, _, [.leaveTo b.level, .enter b.wrapper, .enter .tags, .shift], b.tagged, _,
        hread.classify (haccepts _ (Block.follows_tags c)) hlanguage, ?_,
        h.leave (.enter (.enter (.shift (by simp [Token.kind, Content.kind]) rfl (.nil _)))), ?_⟩
      · intro ls hls ahead
        have hlook := Scanner.examplesFollow_title hd hk hn
          (fun t htm => ht t (List.mem_cons_of_mem _ htm)) hls ahead
        refine hc.next (by simp [Token.kind, Content.kind]) (Block.follow_tags hb hfollows ?_)
        rw [hlook, hc.block]
        simp [Token.kind, Content.kind]
      · have hfirst : Tree.HoldTags [t] [.node .tags [.leaf
            ⟨l.start, d, .tags [⟨column, t.name⟩]⟩ []]] :=
          have hnone : Tree.HoldTags [] [.node .tags []] := ⟨by simp [Tree.rule?], rfl⟩
          hnone.concat
        refine (after_tags b.tagged_collects (fun t htm => ht t (List.mem_cons_of_mem _ htm))
          hfirst).append ?_
        rintro r₁ ⟨leaves, rfl, hleaves⟩
        refine (after_tagged_title hd hb hk hn hw).mono ?_
        rintro r₂ ⟨place, rfl⟩
        exact ⟨place, _, rfl, hleaves⟩

/-- The tags, the title and the description of a definition. -/
theorem Under.heading (hd : d.Sound) (hb : b.isDefined = true) (h : r.Under d b ps outer w)
    {x : Heading} (hx : x.IsLegal d b) (hw : b = .examples → w = []) (comments : List Comment)
    (hc : w.map (Comment.relocate nowhere) = comments.map (Comment.relocate nowhere))
    {tags : List Tag} (ht : ∀ t ∈ tags, t.IsLegal) :
    r.After (Tag.lines tags ++ x.lines) fun r' => ∃ tparts hparts,
      r'.At d b hparts ((b.wrapper, tparts) :: (b.level, ps) :: outer) [] ∧
        Tree.HoldTags tags tparts ∧ Tree.HoldHeading d b x comments hparts ∧
        (r'.state = .title b ∨ r'.state = .description b) := by
  have hlines : Tag.lines tags ++ x.lines =
      (Tag.lines tags ++ [(x.keyword ++ ": " ++ x.name).toList]) ++
        x.description.toList.flatMap textLines := by
    simp [Heading.lines]
  rw [hlines]
  refine (h.after_title hd hb hx.1 hx.2.1 hw ht).append ?_
  rintro r₁ ⟨place, tparts, rfl, htparts⟩
  refine (after_description hd hx.2.2).mono ?_
  rintro r₂ ⟨dparts, hr₂, hdparts, hstate⟩
  exact ⟨tparts, _, hr₂, htparts, Tree.holdHeading_title hx hc hdparts, hstate⟩

/-! ## Examples -/

/-- The reader stands in a block of examples, in an outline with the given parts. -/
def InExamples (r : Reader) (d : Dialect) (ps : List Tree) (outer : Parts) : Prop :=
  ∃ own eparts tparts, r.At d .examples eparts
      ((.examplesDefinition, tparts) :: (.scenarioOutline, own) :: outer) [] ∧
    own ++ [.node .examplesDefinition (tparts ++ [.node .examples eparts])] = ps

theorem At.under_examples (h : r.At d .outline ps outer []) : r.Under d .examples ps outer [] where
  scanner := h.scanner
  state := ⟨.outline, h.state, rfl⟩
  leave hp := h.leaveTo_block hp

theorem InExamples.under (h : r.InExamples d ps outer) : r.Under d .examples ps outer [] := by
  obtain ⟨own, eparts, tparts, hat, rfl⟩ := h
  refine ⟨hat.scanner, ⟨.examples, hat.state, rfl⟩, fun hp => ?_⟩
  refine At.leaveTo [(.examplesDefinition, tparts)] hat (by decide) (by decide) ?_ hp
  intro f hf
  obtain rfl := List.mem_singleton.mp hf
  exact ⟨by simp [Block.level], rfl⟩

/-- The table of a block of examples, directly below its heading. -/
theorem At.examples_table (hd : d.Sound) {hparts : List Tree} (h : r.At d .examples hparts outer [])
    (hstate : r.state = .title .examples ∨ r.state = .description .examples)
    {rows : List TableRow} (hl : TableRow.AreLegal rows) :
    r.After (rows.map TableRow.line) fun r' => ∃ ts,
      r'.At d .examples (hparts ++ ts) outer [] ∧ Tree.HoldTable rows ts := by
  by_cases hne : rows = []
  · subst hne
    exact .nil ⟨[], by simpa using h, .inl ⟨rfl, rfl⟩⟩
  · obtain ⟨-, hlanguage, hfollows⟩ := h.state.accepts
    have hnext : r.state.next false .row =
        some ([.leaveTo .examples, .enter .examplesTable, .shift], .examplesTable) := by
      rcases hstate with hs | hs <;> rw [hs] <;> rfl
    refine (after_rows hd .examplesTable ((.examples, hparts) :: outer) h.scanner
      (hfollows .row rfl) hlanguage hnext ?_ ⟨rfl, rfl, rfl⟩ hne hl).mono ?_
    · intro t ht
      exact h.leaveTo_block (.enter (.shift (by simp [ht]) (by rw [ht]; rfl) (.nil _)))
    · rintro r' ⟨leaves, rfl, hleaves⟩
      refine ⟨[.node .examplesTable leaves], ⟨rfl, ⟨rfl, by simp⟩, [(.examplesTable, leaves)],
        hparts, rfl, ?_, by simp [Tree.wrap]⟩, .inr ⟨leaves, rfl, hleaves⟩⟩
      intro f hf
      obtain rfl := List.mem_singleton.mp hf
      exact ⟨by simp [innerRules], fun _ => hleaves.unevenRow? hl⟩

theorem Under.examples (hd : d.Sound) (h : r.Under d .examples ps outer []) {e : Examples}
    (he : e.IsLegal d) :
    r.After e.lines fun r' => ∃ ts,
      r'.InExamples d (ps ++ ts) outer ∧ Tree.HoldExamples [e] ts := by
  refine (h.heading hd rfl he.1 (fun _ => rfl) [] rfl he.2.1).append ?_
  rintro r₁ ⟨tparts, hparts, hr₁, htparts, hhparts, hstate⟩
  refine (hr₁.examples_table hd hstate he.2.2.2).mono ?_
  rintro r₂ ⟨rparts, hr₂, hrparts⟩
  exact ⟨_, ⟨ps, _, tparts, hr₂, rfl⟩, Tree.holdExamples_definition he htparts hhparts hrparts⟩

theorem At.all_examples (hd : d.Sound) (h : r.At d .outline ps outer []) {es : List Examples}
    (hne : es ≠ []) (he : ∀ e ∈ es, e.IsLegal d) :
    r.After (es.flatMap Examples.lines) fun r' => ∃ ts,
      r'.InExamples d (ps ++ ts) outer ∧ Tree.HoldExamples es ts := by
  obtain ⟨first, rest, rfl⟩ := List.exists_cons_of_ne_nil hne
  rw [List.flatMap_cons]
  refine (h.under_examples.examples hd (he first List.mem_cons_self)).append ?_
  rintro r₁ ⟨ts, hr₁, hts⟩
  refine after_flatMap (P := fun done r' => ∃ ts,
    r'.InExamples d (ps ++ ts) outer ∧ Tree.HoldExamples done ts) ?_ [first] ⟨ts, hr₁, hts⟩
  rintro done e hm r' ⟨ts, hr', hts⟩
  refine (hr'.under.examples hd (he e (List.mem_cons_of_mem first hm))).mono ?_
  rintro r'' ⟨more, hr'', hmore⟩
  exact ⟨ts ++ more, by simpa using hr'', hts.append hmore⟩

/-! ## Children of a feature -/

/-- The reader stands in a feature with the given parts, and a definition may follow. -/
def InFeature (r : Reader) (d : Dialect) (ps : List Tree) (w : List Comment) : Prop :=
  ∃ b parts mid own, r.At d b parts (mid ++ [(.feature, own), (.document, [])]) w ∧
    b ≠ .outline ∧ (∀ f ∈ mid, f.1 ≠ .feature ∧ f.1 ≠ .document ∧ Assembly.isTable f.1 = false) ∧
    own ++ Tree.wrap [.node b.rule parts] mid = ps

theorem InFeature.comments (h : r.InFeature d ps []) {cs : List Comment}
    (hc : ∀ c ∈ cs, c.IsLegal) :
    r.After (Comment.lines cs) fun r' => ∃ w, r'.InFeature d ps w ∧
      w.map (Comment.relocate nowhere) = cs.map (Comment.relocate nowhere) := by
  obtain ⟨b, parts, mid, own, hat, hrest⟩ := h
  refine (hat.comments hc).mono ?_
  rintro r' ⟨w, hr', hw⟩
  exact ⟨w, ⟨b, parts, mid, own, hr', hrest⟩, hw⟩

theorem InFeature.under (h : r.InFeature d ps w) (hb : b = .scenario ∨ b = .outline) :
    r.Under d b ps [(.document, [])] w := by
  obtain ⟨c, parts, mid, own, hat, hc, hmid, rfl⟩ := h
  have hlevel : b.level = .feature := by
    rcases hb with rfl | rfl <;> rfl
  refine ⟨hat.scanner, ⟨c, hat.state, ?_⟩, fun hp => ?_⟩
  · rcases hb with rfl | rfl <;> cases c <;> first | rfl | exact absurd rfl hc
  · rw [hlevel] at hp ⊢
    exact At.leaveTo mid hat (by decide) (by cases c <;> decide)
      (fun f hf => ⟨(hmid f hf).1, (hmid f hf).2.2⟩) hp

theorem InFeature.scenario (hd : d.Sound) (h : r.InFeature d ps []) {c : Scenario}
    (hc : c.IsLegal d) :
    r.After (Child.scenario c).lines fun r' => ∃ ts,
      r'.InFeature d (ps ++ ts) [] ∧ Tree.HoldChildren [.scenario c] ts := by
  obtain ⟨hheading, htags, hsteps, hcomments⟩ := hc
  have hlines : (Child.scenario c).lines = Comment.lines c.comments ++
      ((Tag.lines c.tags ++ c.toHeading.lines) ++ c.steps.flatMap Step.lines) := by
    simp [Child.lines]
  rw [hlines]
  refine (h.comments hcomments).append ?_
  rintro r₁ ⟨w, hr₁, hw⟩
  refine ((hr₁.under (.inl rfl)).heading hd rfl hheading (by simp) _ hw htags).append ?_
  rintro r₂ ⟨tparts, hparts, hr₂, htparts, hhparts, -⟩
  refine (hr₂.steps hd rfl hsteps.1).mono ?_
  rintro r₃ ⟨sparts, hr₃, hsparts⟩
  refine ⟨_, ⟨.scenario, _, [(.scenarioDefinition, tparts)], ps, hr₃, by simp, ?_, rfl⟩,
    Tree.holdChildren_scenario ⟨hheading, htags, hsteps, hcomments⟩ htparts hhparts hsparts⟩
  intro f hf
  obtain rfl := List.mem_singleton.mp hf
  exact ⟨by simp, by simp, rfl⟩

theorem InFeature.outline (hd : d.Sound) (h : r.InFeature d ps []) {c : Outline}
    (hc : c.IsLegal d) :
    r.After (Child.outline c).lines fun r' => ∃ ts,
      r'.InFeature d (ps ++ ts) [] ∧ Tree.HoldChildren [.outline c] ts := by
  obtain ⟨hheading, htags, hsteps, hcomments, hne, hexamples⟩ := hc
  have hlines : (Child.outline c).lines = Comment.lines c.comments ++
      ((Tag.lines c.tags ++ c.toHeading.lines) ++ (c.steps.flatMap Step.lines ++
        c.examples.flatMap Examples.lines)) := by
    simp [Child.lines]
  rw [hlines]
  refine (h.comments hcomments).append ?_
  rintro r₁ ⟨w, hr₁, hw⟩
  refine ((hr₁.under (.inr rfl)).heading hd rfl hheading (by simp) _ hw htags).append ?_
  rintro r₂ ⟨tparts, hparts, hr₂, htparts, hhparts, -⟩
  refine (hr₂.steps hd rfl hsteps.1).append ?_
  rintro r₃ ⟨sparts, hr₃, hsparts⟩
  refine (hr₃.all_examples hd hne hexamples).mono ?_
  rintro r₄ ⟨eparts, ⟨own, inner, tags, hr₄, hown⟩, heparts⟩
  refine ⟨_, ⟨.examples, inner, [(.examplesDefinition, tags), (.scenarioOutline, own),
    (.scenarioDefinition, tparts)], ps, hr₄, by simp, ?_, ?_⟩,
    Tree.holdChildren_outline ⟨hheading, htags, hsteps, hcomments, hne, hexamples⟩ htparts hhparts
      hsparts heparts⟩
  · intro f hf
    have hcases : f = (.examplesDefinition, tags) ∨ f = (.scenarioOutline, own) ∨
        f = (.scenarioDefinition, tparts) := by
      simpa using hf
    rcases hcases with rfl | rfl | rfl <;> exact ⟨by simp, by simp, rfl⟩
  · simp only [Tree.wrap, Block.rule, hown]

theorem InFeature.definition (hd : d.Sound) (h : r.InFeature d ps []) {c : Child}
    (hc : c.IsLegal d) (hdef : c.isDefinition = true) :
    r.After c.lines fun r' => ∃ ts, r'.InFeature d (ps ++ ts) [] ∧ Tree.HoldChildren [c] ts := by
  cases c with
  | background c => simp [Child.isDefinition] at hdef
  | scenario c => exact h.scenario hd hc
  | outline c => exact h.outline hd hc

theorem InFeature.definitions (hd : d.Sound) (h : r.InFeature d ps []) {cs : List Child}
    (hc : ∀ c ∈ cs, c.IsLegal d ∧ c.isDefinition = true) :
    r.After (cs.flatMap Child.lines) fun r' => ∃ ts,
      r'.InFeature d (ps ++ ts) [] ∧ Tree.HoldChildren cs ts := by
  refine after_flatMap (P := fun done r' => ∃ ts,
    r'.InFeature d (ps ++ ts) [] ∧ Tree.HoldChildren done ts) ?_ []
    ⟨[], by simpa using h, rfl⟩
  rintro done c hm r' ⟨ts, hr', hts⟩
  refine (hr'.definition hd (hc c hm).1 (hc c hm).2).mono ?_
  rintro r'' ⟨more, hr'', hmore⟩
  exact ⟨ts ++ more, by simpa using hr'', hts.append hmore⟩

end Reader

end FeaturePlan
