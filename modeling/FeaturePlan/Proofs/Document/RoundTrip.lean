import FeaturePlan.Proofs.Document.Definitions
import FeaturePlan.Proofs.Document.Lines
import FeaturePlan.Proofs.Grammar.Engine

/-! # Documents are read back

The text of a legal document is read without an error, in whatever dialect the reading starts, and
gives the document back but for the places. -/

namespace FeaturePlan

namespace Reader

variable {r : Reader} {d : Dialect} {ps : List Tree} {w : List Comment}

/-! ## The header of a feature -/

def aroundHeader : Parts :=
  [(.feature, []), (.document, [])]

def headed (d : Dialect) (ps : List Tree) (w : List Comment) : Reader :=
  ⟨.headerLanguage, .start d, .within ((.featureHeader, ps) :: aroundHeader) w⟩

def atStart (d : Dialect) : Reader :=
  ⟨.start, .start d, .within [(.document, [])] []⟩

theorem after_language (start : Dialect) {code : String} (hf : Dialect.find? code = some d) :
    (atStart start).After [("# language: " ++ code).toList] fun r' => ∃ place,
      r' = headed d [.leaf ⟨place, d, .language code⟩ []] [] := by
  refine .line fun l hl => ?_
  exact ⟨_, _, _, _, _, Scanner.classify_language (s := .start start) hf hl,
    .inl (by simp [Token.kind, Content.kind]), rfl,
    .enter (.enter (.shift (by simp [Token.kind, Content.kind]) rfl (.nil _))), l.start, rfl⟩

theorem after_header_comments {cs : List Comment} (hc : ∀ c ∈ cs, c.IsLegal) :
    (headed d ps []).After (Comment.lines cs) fun r' => ∃ w, r' = headed d ps w ∧
      w.map (Comment.relocate nowhere) = cs.map (Comment.relocate nowhere) := by
  refine after_map (P := fun done r' => ∃ w, r' = headed d ps w ∧
    w.map (Comment.relocate nowhere) = done.map (Comment.relocate nowhere)) ?_ [] ⟨[], rfl, rfl⟩
  rintro done c hm r' ⟨w, rfl, hw⟩
  refine .line fun l hl => ?_
  have hbegins : Scanner.Begins l '#' := by
    rw [Scanner.Begins, Line.body, hl]
    exact (hc c hm).2
  have hread := (Scanner.reads_comment (s := .start d) hbegins).classify (q := .headerLanguage)
    rfl rfl
  rw [hl, String.ofList_toList] at hread
  refine ⟨_, _, _, _, _, hread, .inl (by simp [Token.kind, Content.kind]), rfl,
    .shift_comment (.nil _), _, rfl, ?_⟩
  simp [hw, Comment.relocate, nowhere]

theorem headerTags_collects : State.headerTags.Collects :=
  ⟨rfl, rfl, rfl, rfl⟩

variable {keyword name : String}

theorem after_header_title (hd : d.Sound) (hk : keyword ∈ d.titles .feature)
    (hn : Text.IsName name) {leaves : List Tree} :
    (tagging d .headerTags leaves ((.featureHeader, ps) :: aroundHeader) w).After
      [(keyword ++ ": " ++ name).toList] fun r' => ∃ place,
        r' = titled d .feature (ps ++ [.node .tags leaves] ++
          [.leaf ⟨place, d, .title .feature keyword name⟩ w]) aroundHeader := by
  refine .line fun l hl => ?_
  have hread := Scanner.reads_title hd hk hn hl
  refine ⟨_, _, [.leaveTo .featureHeader, .shift], .title .feature,
    .within ((.featureHeader, ps ++ Tree.wrap [] [(.tags, leaves)] ++
      [.leaf ⟨l.start, d, .title .feature keyword name⟩ w]) :: aroundHeader) [],
    hread.classify rfl rfl, .inl (by simp [Token.kind, Content.kind]), rfl, ?_, l.start, ?_⟩
  · refine Assembly.Performs.leaveTo [(.tags, leaves)] ?_ (.shift_owner rfl (.nil _))
    intro f hf
    obtain rfl := List.mem_singleton.mp hf
    exact ⟨by simp, closable_of_not_table rfl⟩
  · simp [titled, Tree.wrap, Block.rule]

theorem after_header (hd : d.Sound) {x : Heading} (hx : x.IsLegal d .feature)
    {comments : List Comment}
    (hc : w.map (Comment.relocate nowhere) = comments.map (Comment.relocate nowhere))
    {tags : List Tag} (ht : ∀ t ∈ tags, t.IsLegal) :
    (headed d ps w).After (Tag.lines tags ++ x.lines) fun r' => ∃ tparts hparts,
      r'.At d .feature (ps ++ (tparts ++ hparts)) aroundHeader [] ∧ Tree.HoldTags tags tparts ∧
        Tree.HoldHeading d .feature x comments hparts := by
  obtain ⟨hk, hn, hdesc⟩ := hx
  have htitle : (headed d ps w).After (Tag.lines tags ++ [(x.keyword ++ ": " ++ x.name).toList])
      fun r' => ∃ place tparts, r' = titled d .feature (ps ++ tparts ++
        [.leaf ⟨place, d, .title .feature x.keyword x.name⟩ w]) aroundHeader ∧
          Tree.HoldTags tags tparts := by
    cases tags with
    | nil =>
        refine .line fun l hl => ?_
        have hread := Scanner.reads_title hd hk hn hl
        refine ⟨_, _, [.leaveTo .featureHeader, .shift], _, _, hread.classify rfl rfl,
          .inl (by simp [Token.kind, Content.kind]), rfl,
          Assembly.Performs.leaveTo [] (by simp) (.shift_owner rfl (.nil _)),
          l.start, [], rfl, Tree.holdTags_nil⟩
    | cons t tags =>
        rw [Tag.lines, List.map_cons, List.cons_append, ← List.singleton_append]
        have hfirst : (headed d ps w).After [t.name.toList] fun r' => ∃ leaves,
            r' = tagging d .headerTags leaves ((.featureHeader, ps) :: aroundHeader) w ∧
              Tree.HoldTags [t] [.node .tags leaves] := by
          refine .line fun l hl => ?_
          obtain ⟨column, hread⟩ := Scanner.reads_tag (s := .start d) (ht t List.mem_cons_self) hl
          have hnone : Tree.HoldTags [] [.node .tags []] := ⟨by simp [Tree.rule?], rfl⟩
          exact ⟨_, _, _, _, _, hread.classify rfl rfl, .inr (by simp [headed, State.block?]), rfl,
            .enter (.shift (by simp [Token.kind, Content.kind]) rfl (.nil _)), _, rfl,
            hnone.concat⟩
        refine hfirst.append ?_
        rintro r₁ ⟨leaves, rfl, hleaves⟩
        refine (after_tags headerTags_collects (fun t htm => ht t (List.mem_cons_of_mem _ htm))
          hleaves).append ?_
        rintro r₂ ⟨more, rfl, hmore⟩
        refine (after_header_title hd hk hn).mono ?_
        rintro r₃ ⟨place, rfl⟩
        exact ⟨place, [.node .tags more], rfl, hmore⟩
  have hlines : Tag.lines tags ++ x.lines = (Tag.lines tags ++
      [(x.keyword ++ ": " ++ x.name).toList]) ++ x.description.toList.flatMap textLines := by
    simp [Heading.lines]
  rw [hlines]
  refine htitle.append ?_
  rintro r₁ ⟨place, tparts, rfl, htparts⟩
  refine (after_description hd hdesc).mono ?_
  rintro r₂ ⟨dparts, hr₂, hdparts, -⟩
  exact ⟨tparts, _, by simpa using hr₂, htparts, Tree.holdHeading_title ⟨hk, hn, hdesc⟩ hc hdparts⟩

/-! ## The children of a feature -/

theorem At.in_feature {own parts : List Tree}
    (h : r.At d .feature parts [(.feature, own), (.document, [])] []) :
    r.InFeature d (own ++ [.node .featureHeader parts]) [] :=
  ⟨.feature, parts, [], own, h, by simp, by simp, rfl⟩

theorem At.background (hd : d.Sound) {own parts : List Tree}
    (h : r.At d .feature parts [(.feature, own), (.document, [])] []) {c : Background}
    (hc : c.IsLegal d) :
    r.After (Child.background c).lines fun r' => ∃ ts,
      r'.InFeature d (own ++ [.node .featureHeader parts] ++ ts) [] ∧
        Tree.HoldChildren [.background c] ts := by
  obtain ⟨hheading, hsteps, hcomments⟩ := hc
  have hlines : (Child.background c).lines = Comment.lines c.comments ++
      ([(c.keyword ++ ": " ++ c.name).toList] ++ (c.description.toList.flatMap textLines ++
        c.steps.flatMap Step.lines)) := by
    simp [Child.lines, Heading.lines]
  rw [hlines]
  refine (h.comments hcomments).append ?_
  rintro r₁ ⟨w, hr₁, hw⟩
  have htitle : r₁.After [(c.keyword ++ ": " ++ c.name).toList] fun r' => ∃ place,
      r' = titled d .background [.leaf ⟨place, d, .title .background c.keyword c.name⟩ w]
        [(.feature, own ++ [.node .featureHeader parts]), (.document, [])] := by
    refine .line fun l hl => ?_
    obtain ⟨-, hlanguage, hfollows⟩ := hr₁.state.accepts
    rw [hr₁.scanner]
    exact ⟨_, _, _, _, _, (Scanner.reads_title hd hheading.1 hheading.2.1 hl).classify
        (hfollows _ rfl) hlanguage, .inl (by simp [Token.kind, Content.kind]),
      hr₁.state.next (by simp [Token.kind, Content.kind]) rfl,
      At.leaveTo [] hr₁ (by decide) (by decide) (by simp)
        (.enter (.shift_owner rfl (.nil _))), l.start, rfl⟩
  refine htitle.append ?_
  rintro r₂ ⟨place, rfl⟩
  refine (after_description hd hheading.2.2).append ?_
  rintro r₃ ⟨dparts, hr₃, hdparts, -⟩
  refine (hr₃.steps hd rfl hsteps.1).mono ?_
  rintro r₄ ⟨sparts, hr₄, hsparts⟩
  exact ⟨_, ⟨.background, _, [], _, hr₄, by simp, by simp, rfl⟩,
    Tree.holdChildren_background ⟨hheading, hsteps, hcomments⟩
      (Tree.holdHeading_title hheading hw hdparts) hsparts⟩

/-- The children of a feature, a background among them only in front. -/
theorem At.children (hd : d.Sound) {own parts : List Tree}
    (h : r.At d .feature parts [(.feature, own), (.document, [])] []) {cs : List Child}
    (hc : ∀ c ∈ cs, c.IsLegal d) (htail : ∀ c ∈ cs.tail, c.isDefinition = true) :
    r.After (cs.flatMap Child.lines) fun r' => ∃ ts,
      r'.InFeature d (own ++ [.node .featureHeader parts] ++ ts) [] ∧
        Tree.HoldChildren cs ts := by
  cases cs with
  | nil => exact .nil ⟨[], by simpa using h.in_feature, rfl⟩
  | cons first rest =>
      have hfirst : r.After first.lines fun r' => ∃ ts,
          r'.InFeature d (own ++ [.node .featureHeader parts] ++ ts) [] ∧
            Tree.HoldChildren [first] ts := by
        cases first with
        | background c => exact h.background hd (hc _ List.mem_cons_self)
        | scenario c => exact h.in_feature.scenario hd (hc _ List.mem_cons_self)
        | outline c => exact h.in_feature.outline hd (hc _ List.mem_cons_self)
      rw [List.flatMap_cons]
      refine hfirst.append ?_
      rintro r₁ ⟨ts, hr₁, hts⟩
      refine (hr₁.definitions hd fun c hm => ⟨hc c (List.mem_cons_of_mem _ hm), htail c hm⟩).mono ?_
      rintro r₂ ⟨more, hr₂, hmore⟩
      exact ⟨ts ++ more, by simpa using hr₂, hts.append hmore⟩

/-- A feature, from the line that names its language to its last child. -/
theorem after_feature (start : Dialect) {f : Feature} (hf : Dialect.find? f.language = some d)
    (h : f.IsLegal d) :
    (atStart start).After f.lines fun r' => ∃ t tparts hparts cparts,
      r'.InFeature d (.node .featureHeader (.leaf t [] :: (tparts ++ hparts)) :: cparts) [] ∧
        t.kind = .language ∧ Tree.HoldTags f.tags tparts ∧
        Tree.HoldHeading d .feature f.toHeading f.comments hparts ∧
        Tree.HoldChildren f.children cparts := by
  obtain ⟨hd, -⟩ := Dialect.sound_of_find? hf
  obtain ⟨hheading, htags, hcomments, hchildren, htail⟩ := h
  have hlines : f.lines = [("# language: " ++ f.language).toList] ++ (Comment.lines f.comments ++
      ((Tag.lines f.tags ++ f.toHeading.lines) ++ f.children.flatMap Child.lines)) := by
    simp [Feature.lines]
  rw [hlines]
  refine (after_language start hf).append ?_
  rintro r₁ ⟨place, rfl⟩
  refine (after_header_comments hcomments).append ?_
  rintro r₂ ⟨w, rfl, hw⟩
  refine (after_header hd hheading hw htags).append ?_
  rintro r₃ ⟨tparts, hparts, hr₃, htparts, hhparts⟩
  refine (At.children hd hr₃ hchildren htail).mono ?_
  rintro r₄ ⟨cparts, hr₄, hcparts⟩
  exact ⟨⟨place, d, .language f.language⟩, tparts, hparts, cparts, hr₄, rfl, htparts, hhparts,
    hcparts⟩

/-! ## The end of the text -/

theorem InFeature.finish (h : r.InFeature d ps []) (place : Location) :
    ∃ es, (r.cursor.strides [.eof place]).flatMap Stride.events = es ∧
      Assembly.Hands es r.assembly ⟨[], [.node .document [.node .feature ps]], []⟩ := by
  obtain ⟨b, parts, mid, own, hat, hb, hmid, rfl⟩ := h
  have hfollows : b.follows .eof = true := by
    cases b <;> first | rfl | exact absurd rfl hb
  obtain ⟨-, -, haccepts⟩ := hat.state.accepts
  have hread := Scanner.classify_eof (s := r.scanner) place (haccepts .eof hfollows)
  have hclose : Assembly.Performs ⟨place, r.scanner.dialect, .eof⟩
      [.leaveTo .document, .shift, .leave] r.assembly ⟨[], [.node .document [.node .feature
        (own ++ Tree.wrap [.node b.rule parts] mid)]], []⟩ := by
    have hframes : mid ++ [(Rule.feature, own), (.document, [])] =
        (mid ++ [(.feature, own)]) ++ (.document, []) :: [] := by simp
    have hwrap : Tree.wrap [.node b.rule parts] (mid ++ [(.feature, own)]) =
        [.node .feature (own ++ Tree.wrap [.node b.rule parts] mid)] := by
      rw [Tree.wrap_append]
      rfl
    rw [hframes] at hat
    refine At.leaveTo _ hat (by decide) (by cases b <;> decide) ?_ ?_
    · intro f hf
      rcases List.mem_append.mp hf with hf | hf
      · exact (hmid f hf).2
      · obtain rfl := List.mem_singleton.mp hf
        exact ⟨by simp, rfl⟩
    · rw [hwrap]
      exact .cons rfl (.token (.nil _)) (.cons rfl (.closed rfl (.nil _)) (.nil _))
  obtain ⟨es, hes, hh⟩ := hclose.events
  have hstride : r.cursor.consume (.eof place) [] = ⟨es, ⟨.done, r.scanner, []⟩⟩ :=
    Cursor.consume_eq (c := r.cursor) hread rfl hes
  refine ⟨es, ?_, hh⟩
  simp [Cursor.strides, hstride]

end Reader

/-! ## Whole texts -/

/-- The items of a text are its lines, wherever they are numbered from, and its end. -/
theorem Item.number_eq (n : Nat) (raws : List (List Char)) :
    ∃ (ls : List Line) (place : Location), Item.number n raws = ls.map .line ++ [.eof place] ∧
      ls.map (·.raw) = raws := by
  induction raws generalizing n with
  | nil => exact ⟨[], _, rfl, rfl⟩
  | cons raw raws ih =>
      obtain ⟨ls, place, hnumber, hls⟩ := ih (n + 1)
      exact ⟨⟨n, raw⟩ :: ls, place, by simp [Item.number, hnumber], by simp [hls]⟩

/-- A text whose events are handed over is read without an error. -/
theorem Document.parse_of_hands {d : Dialect} {text : String} {a : Assembly}
    (h : Assembly.Hands (eventsOf d text) .empty a) : Document.parse d text = .ok a.document := by
  simp only [Document.parse, Document.strictly, deliver_eq_run, h.run]

/-- The text of a legal document is read back: the same document, but for the places. -/
theorem Document.parse_render (start : Dialect) {doc : Document} (h : doc.IsLegal) :
    ∃ parsed, Document.parse start doc.render = .ok parsed ∧ parsed.SameText doc := by
  obtain ⟨f, hfeature, d, hf, hlegal⟩ := h
  obtain rfl : doc = ⟨some f⟩ := by
    cases doc
    exact congrArg Document.mk hfeature
  have hlines : Text.lines (Document.render ⟨some f⟩).toList = f.lines := by
    have hdoc : (⟨some f⟩ : Document).lines = f.lines := by simp [Document.lines]
    rw [Document.render, String.toList_ofList, hdoc,
      Text.lines_flatMap (Feature.isLine_of_mem_lines hf hlegal)]
  obtain ⟨ls, place, hnumber, hls⟩ := Item.number_eq 1 f.lines
  obtain ⟨r, htakes, t, tparts, hparts, cparts, hr, ht, htparts, hhparts, hcparts⟩ :=
    Reader.after_feature start hf hlegal ls hls
  obtain ⟨es, hes, hhands⟩ := htakes.strides [.eof place]
  obtain ⟨fs, hfs, hend⟩ := hr.finish place
  have hevents : eventsOf start (Document.render ⟨some f⟩) =
      .opened .document :: (es ++ fs) := by
    rw [eventsOf, stridesOf, Item.ofText, hlines, hnumber, ← hfs, ← hes]
    rfl
  have hall : Assembly.Hands (eventsOf start (Document.render ⟨some f⟩)) .empty
      ⟨[], [.node .document [.node .feature
        (.node .featureHeader (.leaf t [] :: (tparts ++ hparts)) :: cparts)]], []⟩ := by
    rw [hevents]
    exact .opened (hhands.append hend)
  exact ⟨_, Document.parse_of_hands hall,
    Tree.document_feature (Dialect.sound_of_find? hf).2 ht htparts hhparts hcparts⟩

/-- A German document with a background, tables, a doc string that holds delimiters, and tags that
belong to examples or to the scenario behind them. -/
theorem Document.parse_render_german :
    let here : Location := ⟨1, 1⟩
    let row (values : List String) : TableRow := ⟨here, values.map fun v => ⟨here, v⟩⟩
    let feature : Feature :=
      { place := here, keyword := "Funktion", name := "Rechnen", language := "de"
        description := some "Eine Zeile\n\n  und # noch eine"
        tags := [⟨here, "@a"⟩, ⟨here, "@b#c"⟩]
        comments := [⟨here, "# language: fr"⟩]
        children :=
          [.background
            { place := here, keyword := "Grundlage", name := "", description := none
              comments := []
              steps := [⟨here, "Angenommen ", .given, "ein Text", some (.docString
                ⟨here, .quotes, some "md", "\"\"\"\"\n  \\\"x\n@tag"⟩), []⟩] },
          .scenario
            { place := here, keyword := "Szenario", name := "eins", description := none, tags := []
              comments := [⟨here, "  # Grund"⟩]
              steps :=
                [⟨here, "* ", .given, "Liste", some (.table
                  ⟨here, [row ["a|b", "\n"], row ["", "\\n"]]⟩), []⟩,
                ⟨here, "Wenn ", .when, "", none, [⟨here, "#x"⟩, ⟨here, "#y"⟩]⟩,
                ⟨here, "Und ", .when, "z", none, []⟩] },
          .outline
            { place := here, keyword := "Szenarien", name := "zwei", description := some "Text"
              tags := [⟨here, "@t"⟩], comments := []
              steps := [⟨here, "Dann ", .then, "<x>", none, []⟩]
              examples :=
                [{ place := here, keyword := "Beispiele", name := "", description := none
                   tags := [], header := none, body := [] },
                { place := here, keyword := "Beispiele", name := "n", description := some "d"
                  tags := [⟨here, "@u"⟩, ⟨here, "@v"⟩], header := some (row ["x"])
                  body := [row ["1"]] }] },
          .scenario
            { place := here, keyword := "Beispiel", name := "drei", description := none
              tags := [⟨here, "@w"⟩], comments := [⟨here, "#k"⟩], steps := [] }] }
    Document.IsLegal ⟨some feature⟩ ∧ ∃ parsed,
      Document.parse .english (Document.render ⟨some feature⟩) = .ok parsed ∧
        parsed.SameText ⟨some feature⟩ := by
  intro here row feature
  have h : Document.IsLegal ⟨some feature⟩ := by decide +kernel
  exact ⟨h, Document.parse_render .english h⟩

end FeaturePlan
