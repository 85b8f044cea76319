import FeaturePlan.Proofs.Pattern.Engine
import FeaturePlan.Proofs.Plan.Compiled

/-! # Tags that are ids

A tag should be an id when the configured expression matches all of it. The expression is put
between anchors as a text, so this holds of a text that is an expression by itself and does not end
in a comment, whatever the engine that does what its manual says of groups and anchors. -/

namespace FeaturePlan.Compiler

open RegexEngine

variable {engine : RegexEngine} {m : Manual} {text : String}

theorem between_anchors (text : String) :
    "^(?:" ++ text ++ ")$" = "^" ++ grouped text ++ "$" :=
  String.toList_inj.mp (by simp [grouped])

/-- Searching for an expression between anchors is matching it with the whole text. -/
theorem test_iff_matchesAll (hdoc : engine.IsDocumentedBy m) (he : m.IsExpression text)
    (hgroup : m.IsExpression (grouped text)) {test : String → Bool}
    (htest : engine.compile? ("^(?:" ++ text ++ ")$") = some test) (tag : String) :
    test tag = true ↔ m.MatchesAll text tag := by
  rw [between_anchors] at htest
  rw [hdoc.searches _ _ _ htest]
  simp only [hdoc.dollar _ _ _ _ he hgroup, hdoc.caret _ _ _ _ he hgroup,
    hdoc.group _ _ _ _ he hgroup]
  constructor
  · rintro ⟨i, j, ⟨rfl, h⟩, rfl⟩
    exact h
  · intro h
    exact ⟨0, _, ⟨rfl, h⟩, rfl⟩

/-- A parenthesis behind which a text could have ended stands in the text or behind it. -/
theorem eq_or_exists_of_append {e after : String} (h : text ++ ")$" = e ++ ")" ++ after) :
    text = e ∨ ∃ rest, text = e ++ ")" ++ rest := by
  have hlist : text.toList ++ [')', '$'] = e.toList ++ ')' :: after.toList := by
    simpa using congrArg String.toList h
  rcases List.append_eq_append_iff.mp hlist with ⟨more, he, hmore⟩ | ⟨more, htext, hmore⟩
  · -- the parenthesis behind the text, since no other character is one
    cases more with
    | nil => exact .inl (String.toList_inj.mp (by simpa using he.symm))
    | cons c more => cases more <;> simp at hmore
  · cases more with
    | nil => exact .inl (String.toList_inj.mp (by simpa using htext))
    | cons c more =>
      obtain ⟨rfl, -⟩ := List.cons.inj hmore
      exact .inr ⟨.ofList more, String.toList_inj.mp (by simp [htext])⟩

theorem ofConfig_of_badIdPattern {c : Config} (htext : c.idTagPattern = some text)
    (h : ¬∃ test, engine.compile? ("^(?:" ++ text ++ ")$") = some test) :
    ofConfig engine c = .error (.badIdPattern text) := by
  have hnone : engine.compile? ("^(?:" ++ text ++ ")$") = none := by
    simpa [Option.eq_none_iff_forall_ne_some] using h
  simp only [ofConfig, htext, idTest, hnone]
  rfl

theorem idTest_of_ofConfig {c : Config} {compiler : Compiler}
    (h : ofConfig engine c = .ok compiler) : idTest engine c.idTagPattern = .ok compiler.isId := by
  obtain ⟨isId, hid, h⟩ := Except.exists_of_bind_eq_ok h
  obtain ⟨filter, -, h⟩ := Except.exists_of_bind_eq_ok h
  obtain rfl := Except.ok.inj h
  exact hid

/-- A text that is an expression by itself, and does not end in a comment, is accepted when it is
within the limits between its anchors, and then a tag is an id when the expression matches all of
it. A text that ends in a comment is refused. A text that is no expression by itself is refused as
well, unless one of its closing parentheses has an expression in front of it. -/
theorem ids_match_in_full {engine : RegexEngine} {m : Manual} (hdoc : engine.IsDocumentedBy m)
    {c : Config} {text : String} (htext : c.idTagPattern = some text) :
    (m.IsExpression text → ¬m.EndsInComment text →
      (m.IsWithinLimits ("^(?:" ++ text ++ ")$") →
        (∃ isId, ofConfig engine c = (filterOf c.tagFilter).map fun filter => ⟨isId, filter⟩) ∧
        ∀ compiler, ofConfig engine c = .ok compiler →
          (∀ tag, compiler.isId tag = true ↔ m.MatchesAll text tag) ∧
          ∀ kind resource e language inherited l,
            compiler.label kind resource e language inherited = .ok l →
            ∀ tag, l.id = some tag ↔ tag ∈ Tag.names e.tags ∧ m.MatchesAll text tag) ∧
      (¬m.IsWithinLimits ("^(?:" ++ text ++ ")$") →
        ofConfig engine c = .error (.badIdPattern text))) ∧
    (m.IsExpression text → m.EndsInComment text →
      ofConfig engine c = .error (.badIdPattern text)) ∧
    (¬m.IsExpression text → ofConfig engine c = .error (.badIdPattern text) ∨
      ∃ before after, text = before ++ ")" ++ after ∧ m.IsExpression before) := by
  have haccepts := hdoc.accepts ("^(?:" ++ text ++ ")$")
  refine ⟨fun he hcomment => ?_, fun he hcomment => ?_, fun hnot => ?_⟩
  · have hgroup := hdoc.groups text he hcomment
    have hanchored : m.IsExpression ("^(?:" ++ text ++ ")$") :=
      between_anchors text ▸ hdoc.anchors text he hgroup
    refine ⟨fun hlimits => ?_, fun hlimits => ?_⟩
    · obtain ⟨test, hcompile⟩ := haccepts.mpr ⟨hanchored, hlimits⟩
      have htest : idTest engine (some text) = .ok test := by simp only [idTest, hcompile]
      refine ⟨⟨test, ?_⟩, fun compiler hcompiler => ?_⟩
      · rw [ofConfig, htext, htest]
        cases filterOf c.tagFilter <;> rfl
      · have hid (tag : String) : compiler.isId tag = true ↔ m.MatchesAll text tag := by
          have hisId := idTest_of_ofConfig hcompiler
          rw [htext, htest] at hisId
          rw [← Except.ok.inj hisId]
          exact test_iff_matchesAll hdoc he hgroup hcompile tag
        refine ⟨hid, fun kind resource e language inherited l hl tag => ?_⟩
        rw [label_id hl, hid]
    · exact ofConfig_of_badIdPattern htext fun hcompile => hlimits (haccepts.mp hcompile).2
  · refine ofConfig_of_badIdPattern htext fun hcompile => ?_
    have hanchored := (haccepts.mp hcompile).1
    rw [between_anchors] at hanchored
    exact hdoc.comment text "$" he hcomment (by decide) hanchored
  · by_cases hcompile : ∃ test, engine.compile? ("^(?:" ++ text ++ ")$") = some test
    · have hanchored := (haccepts.mp hcompile).1
      rw [String.append_assoc] at hanchored
      obtain ⟨e, after, hafter, he⟩ := hdoc.closes _ hanchored
      rcases eq_or_exists_of_append hafter with rfl | ⟨rest, hrest⟩
      · exact absurd he hnot
      · exact .inr ⟨e, rest, hrest, he⟩
    · exact .inl (ofConfig_of_badIdPattern htext hcompile)

/-- The standard pattern is accepted, and a tag with something in front of `ID` is no id. -/
theorem ids_match_in_full_standard :
    Config.standard.idTagPattern = some "ID-(.*)" ∧ Pattern.engine.IsDocumentedBy Pattern.manual ∧
      ∃ compiler, ofConfig Pattern.engine .standard = .ok compiler ∧
        (∀ tag, compiler.isId tag = true ↔ Pattern.manual.MatchesAll "ID-(.*)" tag) ∧
        compiler.isId "ID-7" = true ∧ compiler.isId "xID-7" = false := by
  have hstandard : Config.standard.idTagPattern = some "ID-(.*)" := rfl
  obtain ⟨haccepted, -⟩ := ids_match_in_full Pattern.engine_isDocumented hstandard
  have hlimits : Pattern.manual.IsWithinLimits ("^(?:" ++ "ID-(.*)" ++ ")$") := by
    have hall : (Pattern.read? ("^(?:" ++ "ID-(.*)" ++ ")$")).all (fun part =>
        decide (part.depth ≤ Pattern.maxDepth ∧ part.pattern.fits = true)) = true := by
      decide +kernel
    intro part hpart
    rw [hpart] at hall
    exact of_decide_eq_true hall
  obtain ⟨⟨isId, hconfig⟩, hids⟩ := (haccepted (by decide +kernel) (by decide +kernel)).1 hlimits
  obtain ⟨hid, -⟩ := hids _ hconfig
  let pattern := (Pattern.parse? ("^(?:" ++ "ID-(.*)" ++ ")$")).get (by decide +kernel)
  have htest : idTest Pattern.engine (some "ID-(.*)") = .ok pattern.occursIn := by
    have hpattern : Pattern.parse? ("^(?:" ++ "ID-(.*)" ++ ")$") = some pattern :=
      (Option.some_get _).symm
    simp only [idTest, Pattern.engine, hpattern, Option.map_some]
  obtain rfl : isId = pattern.occursIn :=
    Except.ok.inj ((idTest_of_ofConfig hconfig).symm.trans htest)
  exact ⟨hstandard, Pattern.engine_isDocumented, _, hconfig, hid, by decide +kernel,
    by decide +kernel⟩

/-- A text that is no expression by itself is accepted, and makes an id of a tag that it is only the
beginning of; and an expression that ends in a comment is refused. -/
theorem id_pattern_leaves_its_group :
    Pattern.engine.IsDocumentedBy Pattern.manual ∧
      (¬Pattern.manual.IsExpression "a)|(?:b" ∧
        ∃ compiler, ofConfig Pattern.engine
            { Config.standard with idTagPattern := some "a)|(?:b" } = .ok compiler ∧
          compiler.isId "axyz" = true) ∧
      Pattern.manual.IsExpression "(?x)ab # two letters" ∧
        ofConfig Pattern.engine
            { Config.standard with idTagPattern := some "(?x)ab # two letters" } =
          .error (.badIdPattern "(?x)ab # two letters") := by
  let pattern := (Pattern.parse? ("^(?:" ++ "a)|(?:b" ++ ")$")).get (by decide +kernel)
  have hpattern : Pattern.parse? ("^(?:" ++ "a)|(?:b" ++ ")$") = some pattern :=
    (Option.some_get _).symm
  have hcomment : Pattern.parse? ("^(?:" ++ "(?x)ab # two letters" ++ ")$") = none := by
    decide +kernel
  refine ⟨Pattern.engine_isDocumented, ⟨by decide +kernel, ⟨pattern.occursIn, none⟩, ?_,
    by decide +kernel⟩, by decide +kernel, ?_⟩
  · simp only [ofConfig, idTest, Config.standard, Pattern.engine, hpattern, Option.map_some]
    rfl
  · refine ofConfig_of_badIdPattern rfl ?_
    rintro ⟨test, htest⟩
    simp only [Pattern.engine, hcomment, Option.map_none, reduceCtorEq] at htest

end FeaturePlan.Compiler
