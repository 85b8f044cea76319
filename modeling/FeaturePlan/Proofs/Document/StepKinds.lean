import FeaturePlan.Proofs.Document.Language
import FeaturePlan.Proofs.Scanner.Keywords

/-! # Keywords and categories of steps

A step takes the longest keyword that begins its line. Its category is that of the last keyword of
its block, up to its own, that has one by itself: a conjunction goes on with what stands above it,
and is a given where nothing does. -/

namespace FeaturePlan

/-! ## Categories of a block -/

namespace StepKind

def primary? (kind : StepKind) : Option StepKind :=
  if kind.isConjunction then none else some kind

/-- Each step of a block takes the category of the last one up to itself that continues no other. -/
theorem getElem?_resolveAll (last : Option StepKind) (kinds : List StepKind) {i : Nat}
    (hi : i < kinds.length) : (resolveAll last kinds)[i]? =
      some (((kinds.take (i + 1)).reverse.findSome? primary?).getD (last.getD .given)) := by
  induction kinds generalizing last i with
  | nil => exact absurd hi (Nat.not_lt_zero i)
  | cons kind kinds ih =>
    cases i with
    | zero => cases hkind : kind.isConjunction <;> simp [resolveAll, resolve, primary?, hkind]
    | succ i =>
      have hrest := ih (resolve last kind).2 (Nat.lt_of_succ_lt_succ hi)
      rw [resolveAll, List.getElem?_cons_succ, hrest, List.take_succ_cons, List.reverse_cons,
        List.findSome?_append]
      cases (kinds.take (i + 1)).reverse.findSome? primary? with
      | some kind' => rfl
      | none => cases hkind : kind.isConjunction <;> simp [resolve, primary?, hkind]

end StepKind

namespace Dialect

/-- The category of a keyword that is listed as a given, a when or a then. -/
def primaryKind? (d : Dialect) (keyword : String) : Option StepKind :=
  if keyword ∈ d.givens then some .given
  else if keyword ∈ d.whens then some .when
  else if keyword ∈ d.thens then some .then
  else none

theorem primary?_stepKind (d : Dialect) (keyword : String) :
    (d.stepKind keyword).primary? = d.primaryKind? keyword := by
  rw [stepKind, primaryKind?]
  split_ifs <;> rfl

theorem isConjunction_of_primaryKind? {d : Dialect} {keyword : String} {kind : StepKind}
    (h : d.primaryKind? keyword = some kind) : kind.isConjunction = false := by
  rw [primaryKind?] at h
  split_ifs at h <;> obtain rfl := Option.some.inj h <;> rfl

end Dialect

namespace Tree

variable {ts : List Tree}

theorem map_kind_resolveKinds (last : Option StepKind) (steps : List Step) :
    (resolveKinds last steps).map Step.kind = StepKind.resolveAll last (steps.map Step.kind) := by
  induction steps generalizing last with
  | nil => rfl
  | cons s steps ih => simp only [resolveKinds, StepKind.resolveAll, List.map_cons, ih]

theorem map_keyword_resolveKinds (last : Option StepKind) (steps : List Step) :
    (resolveKinds last steps).map Step.keyword = steps.map Step.keyword := by
  induction steps generalizing last with
  | nil => rfl
  | cons s steps ih => simp only [resolveKinds, List.map_cons, ih]

def AreIn (e : Dialect) (ts : List Tree) : Prop :=
  ∀ t comments, leaf t comments ∈ subtreesAll ts → t.dialect = e

/-- What the steps of a block have for their categories, from their keywords alone. -/
theorem map_kind_steps {e : Dialect} (h : AreIn e ts) :
    (steps ts).map Step.kind =
      StepKind.resolveAll none (((steps ts).map Step.keyword).map e.stepKind) := by
  have hraw : (ts.filterMap step?).map Step.kind =
      ((ts.filterMap step?).map Step.keyword).map e.stepKind := by
    rw [List.map_map]
    refine List.map_congr_left fun s hs => ?_
    obtain ⟨tree, hm, htree⟩ := List.mem_filterMap.mp hs
    cases tree with
    | leaf t comments => cases htree
    | node rule parts =>
      obtain ⟨-, t, hleaf, -, -, -, hkind⟩ := exists_leaf_of_step? htree
      have hsub := subtreesAll_subset ts (mem_subtreesAll_of_mem hm)
      rw [hkind, h t _ (hsub (mem_subtreesAll_of_mem hleaf))]
      rfl
  rw [steps, map_kind_resolveKinds, map_keyword_resolveKinds, hraw]

end Tree

/-! ## Documents -/

namespace Diagnostics

variable {d : Dialect} {text : String} {f : Feature} {c : Child}

/-- The language of a feature is that of the dialect in which its lines are read. -/
theorem language_eq (h : f ∈ (ofText d text).document.feature) :
    f.language = (d.namedIn (eventsOf d text)).code := by
  obtain ⟨o, hsettled⟩ := d.settled_eventsOf text
  rw [document_eq] at h
  obtain ⟨t, hm, -, -, hlanguage⟩ := (Tree.exists_of_mem_feature h).1
  rw [hlanguage, hsettled.dialect_of_mem_trees hm]

/-- The categories of a block depend on nothing but its own keywords. -/
theorem map_kind_steps (h : f ∈ (ofText d text).document.feature) (hc : c ∈ f.children) :
    c.steps.map Step.kind = StepKind.resolveAll none
      ((c.steps.map Step.keyword).map (d.namedIn (eventsOf d text)).stepKind) := by
  obtain ⟨o, hsettled⟩ := d.settled_eventsOf text
  rw [document_eq] at h
  obtain ⟨rule, parts, hparts, hchild⟩ := (Tree.exists_of_mem_feature h).2 c hc
  obtain ⟨inner, hinner, hsteps, -⟩ := Tree.exists_of_child? hchild
  rw [hsteps]
  exact Tree.map_kind_steps fun t comments ht =>
    hsettled.dialect_of_mem_trees (Tree.subtreesAll_subset _ hparts (hinner ht))

/-- Each step has the category of the last keyword up to its own that has one by itself. -/
theorem kind_eq (h : f ∈ (ofText d text).document.feature) (hc : c ∈ f.children) {i : Nat}
    (hi : i < c.steps.length) :
    c.steps[i].kind = (((c.steps.map Step.keyword).take (i + 1)).reverse.findSome?
      (d.namedIn (eventsOf d text)).primaryKind?).getD .given := by
  have hprimary : StepKind.primary? ∘ (d.namedIn (eventsOf d text)).stepKind =
      (d.namedIn (eventsOf d text)).primaryKind? :=
    funext fun keyword => Dialect.primary?_stepKind _ keyword
  have hkind : (c.steps.map Step.kind)[i]? = some c.steps[i].kind := by
    rw [List.getElem?_map, List.getElem?_eq_getElem hi, Option.map_some]
  rw [map_kind_steps h hc, StepKind.getElem?_resolveAll none _ (by simpa using hi),
    ← List.map_take, ← List.map_reverse, List.findSome?_map, hprimary] at hkind
  exact (Option.some.inj hkind).symm

end Diagnostics

/-- Whatever the table, a line is a step if and only if a keyword of the table or the bullet begins
it, and the step takes the longest. In each block of each document, from whatever text and with
whatever errors, the category of a step is that of the last keyword up to its own that is listed as
a given, a when or a then; where there is none it is a given. -/
theorem step_keyword_longest_and_kind_nearest (k : Keywords) (s : Scanner) (l : Line) (d : Dialect)
    (text : String) (document : Document) (hs : s.dialect = .ofKeywords k)
    (hdocument : document = (Diagnostics.ofText d text).document ∨
      Document.parse d text = .ok document) :
    (((∃ t s', s.readLine l .step = .token t s') ↔
        ∃ keyword ∈ k.steps, keyword.toList <+: l.body) ∧
      ∀ t s', s.readLine l .step = .token t s' →
        s' = s ∧ ∃ keyword rest, l.OpensWithLongest k.steps keyword ∧
          l.body = keyword.toList ++ rest ∧
          t = ⟨l.start, s.dialect, .step keyword (.ofList (Text.trim rest))⟩) ∧
    ∀ f ∈ document.feature,
      f.language = (d.namedIn (eventsOf d text)).code ∧
      ∀ c ∈ f.children, ∀ i (hi : i < c.steps.length),
        c.steps[i].kind = (((c.steps.map Step.keyword).take (i + 1)).reverse.findSome?
          (d.namedIn (eventsOf d text)).primaryKind?).getD .given ∧
        c.steps[i].kind.isConjunction = false := by
  refine ⟨Scanner.readLine_step_ofKeywords hs, fun f hf => ?_⟩
  obtain rfl : document = (Diagnostics.ofText d text).document :=
    hdocument.elim id fun h => Document.eq_of_parse h
  refine ⟨Diagnostics.language_eq hf, fun c hc i hi => ?_⟩
  have hkind := Diagnostics.kind_eq hf hc hi
  refine ⟨hkind, ?_⟩
  rw [hkind]
  cases hfind : ((c.steps.map Step.keyword).take (i + 1)).reverse.findSome?
      (d.namedIn (eventsOf d text)).primaryKind? with
  | none => rfl
  | some kind =>
    obtain ⟨keyword, -, hkeyword⟩ := List.exists_of_findSome?_eq_some hfind
    exact Dialect.isConjunction_of_primaryKind? hkeyword

/-- A keyword that is listed twice begins another one, which the line takes. The background ends
with a when; the scenario below starts with a conjunction, which is a given all the same. -/
theorem step_keyword_longest_and_kind_nearest_below_background :
    let k : Keywords :=
      { (default : Keywords) with givens := ["Sachant ", "Sachant que ", "Sachant "] }
    let s := Scanner.start (.ofKeywords k)
    let l : Line := ⟨1, "  Sachant que  x ".toList⟩
    let text := "Feature: F\nBackground:\nWhen a\nScenario: S\nAnd b\nThen c\nBut d\n"
    let document := (Diagnostics.ofText .english text).document
    s.dialect = .ofKeywords k ∧
    (∃ t, s.readLine l .step = .token t s ∧ t.content = .step "Sachant que " "x") ∧
    ∃ f ∈ document.feature, f.language = "en" ∧
      ∃ c ∈ f.children, c.steps.map Step.keyword = ["And ", "Then ", "But "] ∧
        c.steps.map Step.kind = [.given, .then, .then] := by
  intro k s l text document
  let f := document.feature.getD default
  let c := f.children[1]?.getD default
  have hdocument : f ∈ document.feature ∧ c ∈ f.children ∧
      c.steps.map Step.keyword = ["And ", "Then ", "But "] ∧
      Dialect.english.namedIn (eventsOf .english text) = .english := by
    decide +kernel
  obtain ⟨hf, hc, hkeywords, hnamed⟩ := hdocument
  obtain ⟨⟨hiff, htoken⟩, hblocks⟩ :=
    step_keyword_longest_and_kind_nearest k s l .english text document rfl (.inl rfl)
  obtain ⟨hlanguage, hsteps⟩ := hblocks f hf
  rw [hnamed] at hlanguage hsteps
  refine ⟨rfl, ?_, f, hf, hlanguage, c, hc, hkeywords, ?_⟩
  · obtain ⟨t, s', ht⟩ := hiff.mpr ⟨"Sachant que ", by decide +kernel, by decide +kernel⟩
    obtain ⟨rfl, keyword, rest, hopens, hrest, rfl⟩ := htoken t s' ht
    refine ⟨_, ht, ?_⟩
    have hlength := hopens.longest "Sachant que " (by decide +kernel) (by decide +kernel)
    obtain rfl : keyword = "Sachant que " := by
      have hshort : ∀ other ∈ ["Sachant ", "Sachant que ", "Sachant ", "* "],
          "Sachant que ".length ≤ other.length → other = "Sachant que " := by decide +kernel
      exact hshort keyword hopens.mem hlength
    have hbody : l.body = "Sachant que ".toList ++ " x ".toList := by decide +kernel
    obtain rfl := List.append_cancel_left (hrest.symm.trans hbody)
    decide +kernel
  · have hlength : c.steps.length = 3 := by
      rw [← List.length_map Step.keyword, hkeywords]
      rfl
    refine List.ext_getElem (by simp [hlength]) fun i hi hi' => ?_
    rw [List.getElem_map, (hsteps c hc i _).1, hkeywords]
    clear hi
    decide +revert +kernel

end FeaturePlan
