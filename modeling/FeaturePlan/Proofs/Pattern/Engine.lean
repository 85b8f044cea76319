import FeaturePlan.Proofs.Pattern.Groups
import FeaturePlan.Proofs.Pattern.Search

/-! # The engine and its manual

Texts that can be read are the expressions of this engine, and they match what the patterns match
that are read of them. An expression in a group is read as it is by itself, unless it ends in a
comment; and whatever is read between the parentheses of a group could be read by itself. -/

namespace FeaturePlan.Pattern

open Reader RegexEngine

def manual : Manual where
  IsExpression e := (read? e).isSome = true
  IsWithinLimits e := ∀ part, read? e = some part → part.depth ≤ maxDepth ∧ part.pattern.fits = true
  Matches e text i j := ∃ part, read? e = some part ∧ i ≤ text.toList.length ∧
    Pattern.Matches text.toList part.pattern i j

instance (e : String) : Decidable (manual.IsExpression e) :=
  inferInstanceAs (Decidable (_ = true))

instance (e : String) : Decidable (manual.EndsInComment e) :=
  inferInstanceAs (Decidable (_ = true))

variable {e : String} {part : Part} {g : Group}

theorem read?_eq_some_iff : read? e = some part ↔ ∃ r rest, Reads .start e.toList r rest ∧
    r.group.flags.skip rest = [] ∧ r.outer = [] ∧ r.group.whole = part :=
  run?_eq_some_iff (Nat.lt_succ_self _)

theorem isExpression_iff : manual.IsExpression e ↔ ∃ part, read? e = some part :=
  Option.isSome_iff_exists

theorem endsInComment_iff : manual.EndsInComment e ↔ ∃ part, read? (e ++ ")") = some part :=
  Option.isSome_iff_exists

theorem matches_of_read? (h : read? e = some part) {text : String} {i j : Nat} :
    manual.Matches e text i j ↔
      i ≤ text.toList.length ∧ Pattern.Matches text.toList part.pattern i j := by
  simp [manual, h]

/-- A text can be read when its end is where reading stops, outside of all groups. -/
theorem read?_of_reads {r : Reader} {rest : List Char} (h : Reads .start e.toList r rest)
    (hstuck : r.step? rest = none) : read? e =
      if r.group.flags.skip rest = [] ∧ r.outer = [] then some r.group.whole else none := by
  refine Option.ext fun part => ?_
  rw [read?_eq_some_iff, Option.ite_none_right_eq_some, Option.some_inj]
  constructor
  · rintro ⟨r', rest', hreads, hnil, houter, hwhole⟩
    obtain ⟨rfl, rfl⟩ := h.unique hstuck hreads (step?_of_nil hnil)
    exact ⟨⟨hnil, houter⟩, hwhole⟩
  · rintro ⟨⟨hnil, houter⟩, hwhole⟩
    exact ⟨r, rest, h, hnil, houter, hwhole⟩

theorem isOrdered_of_read? (h : read? e = some part) : part.pattern.IsOrdered := by
  obtain ⟨r, rest, hreads, -, -, rfl⟩ := read?_eq_some_iff.mp h
  have hstart : Reader.start.IsOrdered :=
    List.forall_mem_cons.mpr ⟨Group.isOrdered_start _ _, by simp [Reader.start]⟩
  have hr := hreads.isOrdered hstart
  exact (hr r.group List.mem_cons_self).whole

/-- What has been read outside of all groups is no group that is counted. -/
theorem Reader.Reads.part_eq {cs rest : List Char} {r : Reader} (h : Reads .start cs r rest)
    (houter : r.outer = []) : r.group.part = ⟨r.group.whole.pattern, r.group.whole.depth + 1⟩ := by
  have hlast := h.getLast?_numbers
  simp only [numbers, houter] at hlast
  exact Group.part_of_unnumbered (Option.some.inj hlast)

/-! ## An expression in a group -/

theorem toList_grouped (e : String) :
    (grouped e).toList = '(' :: '?' :: ':' :: (e.toList ++ [')']) := by
  simp [grouped, String.toList_append]

/-- Before an expression, its group is opened inside another one that has set no flags. -/
theorem reads_opening (hg : g.flags = .none) (cs : List Char) :
    Reads ⟨g, [], 0, []⟩ ('(' :: '?' :: ':' :: cs) (Reader.start.under g) cs := by
  obtain ⟨number, alternatives, parts, flags⟩ := g
  obtain rfl : flags = .none := hg
  exact .step rfl (.done _ _)

/-- Between the parentheses of a group an expression is read as by itself, unless it ends in a
comment. -/
theorem reads_grouped (hg : g.flags = .none) (h : read? e = some part)
    (hcomment : ¬manual.EndsInComment e) (after : List Char) :
    ∃ numbered names, Reads ⟨g, [], 0, []⟩ ((grouped e).toList ++ after)
      ⟨g.add ⟨part.pattern, part.depth + 1⟩, [], numbered, names⟩ after := by
  obtain ⟨r, rest, hreads, hnil, houter, rfl⟩ := read?_eq_some_iff.mp h
  rcases hreads.extend hnil with hextend | hextend
  · obtain ⟨rest', hinside, hskip⟩ := hextend after
    have hclose : Reads (r.under g) rest' ⟨g.add r.group.part, [], r.numbered, r.names⟩ after :=
      .step (step?_under_atEnd ⟨houter, hskip⟩ g) (.done _ _)
    rw [hreads.part_eq houter] at hclose
    refine ⟨r.numbered, r.names, ?_⟩
    rw [toList_grouped]
    simpa using ((reads_opening hg _).trans (hinside.under g)).trans hclose
  · -- the parenthesis would have been lost in a comment
    obtain ⟨rest', hinside, hskip⟩ := hextend [] (by simp)
    refine absurd (endsInComment_iff.mpr ⟨r.group.whole, ?_⟩) hcomment
    exact read?_eq_some_iff.mpr ⟨r, rest', by simpa using hinside, hskip, houter, rfl⟩

/-- An expression that ends in a comment takes what follows on its line into it. -/
theorem reads_grouped_of_endsInComment (hg : g.flags = .none) (h : read? e = some part)
    (hcomment : manual.EndsInComment e) (after : List Char) (hline : '\n' ∉ after) :
    ∃ r rest, Reads ⟨g, [], 0, []⟩ ((grouped e).toList ++ after) r rest ∧
      r.group.flags.skip rest = [] ∧ r.outer ≠ [] := by
  obtain ⟨r, rest, hreads, hnil, houter, rfl⟩ := read?_eq_some_iff.mp h
  rcases hreads.extend hnil with hextend | hextend
  · obtain ⟨rest', hinside, hskip⟩ := hextend []
    obtain ⟨part, hpart⟩ := endsInComment_iff.mp hcomment
    have hreads : Reads .start (e ++ ")").toList r rest' := by simpa using hinside
    rw [read?_of_reads hreads (step?_atEnd ⟨houter, hskip⟩)] at hpart
    simp [hskip] at hpart
  · obtain ⟨rest', hinside, hskip⟩ := hextend after hline
    refine ⟨r.under g, rest', ?_, hskip, by simp⟩
    rw [toList_grouped]
    simpa using (reads_opening hg _).trans (hinside.under g)

def afterCaret : Group :=
  (Group.start none .none).add ⟨.anchor .textStart, 0⟩

theorem reads_caret (cs : List Char) : Reads .start ('^' :: cs) ⟨afterCaret, [], 0, []⟩ cs :=
  .step rfl (.done _ _)

/-- A text is read when its last character has been, outside of all groups. -/
theorem read?_of_reads_nil {r : Reader} (h : Reads .start e.toList r []) (houter : r.outer = []) :
    read? e = some r.group.whole := by
  have hnil : r.group.flags.skip [] = [] := List.suffix_nil.mp (skip_suffix _ _)
  exact read?_eq_some_iff.mpr ⟨r, [], h, hnil, houter, rfl⟩

section
variable (h : read? e = some part) (hcomment : ¬manual.EndsInComment e)
include h hcomment

theorem read?_grouped :
    ∃ whole, read? (grouped e) = some whole ∧ whole.pattern = concat [part.pattern] := by
  obtain ⟨numbered, names, hreads⟩ := reads_grouped (g := .start none .none) rfl h hcomment []
  rw [List.append_nil] at hreads
  exact ⟨_, read?_of_reads_nil hreads rfl, rfl⟩

theorem read?_caret_grouped : ∃ whole, read? ("^" ++ grouped e) = some whole ∧
    whole.pattern = concat [.anchor .textStart, part.pattern] := by
  obtain ⟨numbered, names, hreads⟩ := reads_grouped (g := afterCaret) rfl h hcomment []
  have hcaret := (reads_caret _).trans hreads
  exact ⟨_, read?_of_reads_nil (by simpa using hcaret) rfl, rfl⟩

theorem read?_anchored : ∃ whole, read? ("^" ++ grouped e ++ "$") = some whole ∧
    whole.pattern = concat [.anchor .textStart, part.pattern, .anchor .textEnd] := by
  obtain ⟨numbered, names, hreads⟩ := reads_grouped (g := afterCaret) rfl h hcomment ['$']
  have hdollar := (reads_caret _).trans (hreads.trans (.step rfl (.done _ [])))
  exact ⟨_, read?_of_reads_nil (by simpa using hdollar) rfl, rfl⟩

end

theorem read?_caret_of_endsInComment (h : read? e = some part) (hcomment : manual.EndsInComment e)
    {after : String} (hline : '\n' ∉ after.toList) : read? ("^" ++ grouped e ++ after) = none := by
  obtain ⟨r, rest, hreads, hnil, houter⟩ :=
    reads_grouped_of_endsInComment (g := afterCaret) rfl h hcomment _ hline
  have hcaret := (reads_caret _).trans hreads
  rw [read?_of_reads (by simpa using hcaret) (step?_of_nil hnil), if_neg fun hend => houter hend.2]

theorem read?_grouped_of_endsInComment (h : read? e = some part)
    (hcomment : manual.EndsInComment e) : read? (grouped e) = none := by
  obtain ⟨r, rest, hreads, hnil, houter⟩ :=
    reads_grouped_of_endsInComment (g := .start none .none) rfl h hcomment [] (by simp)
  rw [List.append_nil] at hreads
  have hstart : Reads .start (grouped e).toList r rest := hreads
  rw [read?_of_reads hstart (step?_of_nil hnil), if_neg fun hend => houter hend.2]

/-- What stands between the parentheses of a group could be read by itself. -/
theorem exists_of_read?_opening {rest : String} (h : read? ("^(?:" ++ rest) = some part) :
    ∃ e after inner, rest = e ++ ")" ++ after ∧ read? e = some inner := by
  obtain ⟨r', rest', hreads, hnil, houter, -⟩ := read?_eq_some_iff.mp h
  have hopening :
      Reads .start ("^(?:" ++ rest).toList (Reader.start.under afterCaret) rest.toList := by
    simpa using (reads_caret _).trans (reads_opening (g := afterCaret) rfl rest.toList)
  have hinside := hopening.of_reads hreads (step?_of_nil hnil)
  obtain ⟨r, rest₁, after, hreads, ⟨houter, hskip⟩, -⟩ := hinside.of_under houter
  obtain ⟨cs, hcs⟩ : ')' :: after <:+ rest.toList := hskip ▸ (skip_suffix _ _).trans hreads.suffix
  rw [← hcs] at hreads
  obtain ⟨rest₂, hread, hnil⟩ := hreads.shorten hskip
  refine ⟨.ofList cs, .ofList after, r.group.whole, String.toList_inj.mp (by simp [← hcs]), ?_⟩
  exact read?_eq_some_iff.mpr ⟨r, rest₂, by simpa using hread, hnil, houter, rfl⟩

/-! ## The manual -/

/-- A group is left open by an expression that ends in a comment. -/
theorem not_endsInComment (he : manual.IsExpression e) (hgroup : manual.IsExpression (grouped e)) :
    ¬manual.EndsInComment e := by
  intro hcomment
  obtain ⟨part, hpart⟩ := isExpression_iff.mp he
  obtain ⟨whole, hwhole⟩ := isExpression_iff.mp hgroup
  rw [read?_grouped_of_endsInComment hpart hcomment] at hwhole
  cases hwhole

theorem exists_compile?_iff : (∃ test, engine.compile? e = some test) ↔
    manual.IsExpression e ∧ manual.IsWithinLimits e := by
  simp only [engine, ← Option.isSome_iff_exists, Option.isSome_map, parse?]
  cases hread : read? e with
  | none => simp [isExpression_iff, hread]
  | some part => simp [manual, hread, apply_ite]

theorem compile?_eq_some {test : String → Bool} (h : engine.compile? e = some test) :
    ∃ part, read? e = some part ∧ part.pattern.occursIn = test := by
  obtain ⟨p, hparse, rfl⟩ := Option.map_eq_some_iff.mp h
  obtain ⟨part, hread, hpart⟩ := Option.bind_eq_some_iff.mp hparse
  obtain ⟨-, hp⟩ := Option.ite_none_right_eq_some.mp hpart
  exact ⟨part, hread, congrArg occursIn (Option.some.inj hp)⟩

theorem engine_isDocumented : engine.IsDocumentedBy manual where
  accepts e := exists_compile?_iff
  searches e test text h := by
    obtain ⟨part, hread, rfl⟩ := compile?_eq_some h
    simp only [matches_of_read? hread, occursIn_iff (isOrdered_of_read? hread)]
  groups e he hcomment := by
    obtain ⟨part, hpart⟩ := isExpression_iff.mp he
    obtain ⟨whole, hwhole, -⟩ := read?_grouped hpart hcomment
    exact isExpression_iff.mpr ⟨whole, hwhole⟩
  group e text i j he hgroup := by
    obtain ⟨part, hpart⟩ := isExpression_iff.mp he
    obtain ⟨whole, hwhole, hpattern⟩ := read?_grouped hpart (not_endsInComment he hgroup)
    simp [matches_of_read? hpart, matches_of_read? hwhole, hpattern, matches_concat_iff]
  anchors e he hgroup := by
    obtain ⟨part, hpart⟩ := isExpression_iff.mp he
    obtain ⟨whole, hwhole, -⟩ := read?_anchored hpart (not_endsInComment he hgroup)
    exact isExpression_iff.mpr ⟨whole, hwhole⟩
  caret e text i j he hgroup := by
    obtain ⟨part, hpart⟩ := isExpression_iff.mp he
    have hcomment := not_endsInComment he hgroup
    obtain ⟨inner, hinner, hpattern⟩ := read?_grouped hpart hcomment
    obtain ⟨whole, hwhole, hpattern'⟩ := read?_caret_grouped hpart hcomment
    rw [matches_of_read? hinner, matches_of_read? hwhole, hpattern, hpattern', matches_concat_iff,
      matches_concat_iff, and_left_comm]
    exact and_congr_right fun hi => matchesRow_textStart_iff hi
  dollar e text i j he hgroup := by
    obtain ⟨part, hpart⟩ := isExpression_iff.mp he
    have hcomment := not_endsInComment he hgroup
    obtain ⟨inner, hinner, hpattern⟩ := read?_caret_grouped hpart hcomment
    obtain ⟨whole, hwhole, hpattern'⟩ := read?_anchored hpart hcomment
    rw [matches_of_read? hinner, matches_of_read? hwhole, hpattern, hpattern', matches_concat_iff,
      matches_concat_iff, and_assoc, ← String.length_toList]
    exact and_congr_right fun hi =>
      matchesRow_textEnd_iff [.anchor .textStart, part.pattern] hi
  comment e after he hcomment hline h := by
    obtain ⟨part, hpart⟩ := isExpression_iff.mp he
    obtain ⟨whole, hwhole⟩ := isExpression_iff.mp h
    rw [read?_caret_of_endsInComment hpart hcomment hline] at hwhole
    cases hwhole
  closes rest h := by
    obtain ⟨part, hpart⟩ := isExpression_iff.mp h
    obtain ⟨e, after, inner, hrest, hinner⟩ := exists_of_read?_opening hpart
    exact ⟨e, after, hrest, isExpression_iff.mpr ⟨inner, hinner⟩⟩

end FeaturePlan.Pattern
