import FeaturePlan.Proofs.Plan.Compiled
import Mathlib.Data.List.Basic

/-! # Tag filters

A filter is asked only after a scenario has been compiled with all its tags, and it changes nothing
that it lets through. So it makes no difference whether children are left out while a feature is
compiled or afterwards. -/

namespace FeaturePlan

/-- The only reason, if there is one, is an element with several ids. -/
def PlanError.OnlyAmbiguous {α : Type _} (x : Except PlanError α) : Prop :=
  ∀ error, x = .error error → ∃ name locator tags, error = .ambiguousId name locator tags

namespace Compiler

open PlanError

variable {c : Compiler} {resource : String}

/-! ## Errors -/

theorem onlyAmbiguous_bind {α β : Type _} {x : Except PlanError α} {next : α → Except PlanError β}
    (hx : OnlyAmbiguous x) (hnext : ∀ a, OnlyAmbiguous (next a)) : OnlyAmbiguous (x >>= next) := by
  cases x with
  | error e => exact fun error h => hx error (Except.error.inj h ▸ rfl)
  | ok a => exact hnext a

theorem onlyAmbiguous_ok {α : Type _} (a : α) : OnlyAmbiguous (.ok a) := by
  rintro error ⟨⟩

theorem onlyAmbiguous_label (kind : NodeKind) (e : Element) (language : String)
    (inherited : List String × Properties) :
    OnlyAmbiguous (c.label kind resource e language inherited) := by
  refine onlyAmbiguous_bind (fun error h => ?_) fun id => onlyAmbiguous_ok _
  simp only [Compiler.id] at h
  split at h
  · cases h
  · cases h
  · exact ⟨_, _, _, (Except.error.inj h).symm⟩

theorem onlyAmbiguous_children (background : Option Background) (parent : Label)
    (children : List Child) :
    OnlyAmbiguous (c.children resource background parent children) := by
  induction children with
  | nil => exact onlyAmbiguous_ok []
  | cons child rest ih =>
    have hrest (n : Node) : OnlyAmbiguous (do
        let ns ← c.children resource background parent rest
        return if c.selects n then n :: ns else ns) :=
      onlyAmbiguous_bind ih fun ns => onlyAmbiguous_ok _
    cases child with
    | background b => exact ih
    | scenario s =>
      refine onlyAmbiguous_bind ?_ hrest
      exact onlyAmbiguous_bind (onlyAmbiguous_label _ _ _ _) fun l => onlyAmbiguous_ok _
    | outline o =>
      refine onlyAmbiguous_bind ?_ hrest
      exact onlyAmbiguous_bind (onlyAmbiguous_label _ _ _ _) fun l => onlyAmbiguous_ok _

theorem onlyAmbiguous_compile (d : Document) : OnlyAmbiguous (c.compile resource d) := by
  rw [compile_eq]
  cases d.feature with
  | none => exact onlyAmbiguous_ok none
  | some f =>
    have hlabel : OnlyAmbiguous (c.featureLabel resource f) :=
      onlyAmbiguous_bind (onlyAmbiguous_label _ _ _ _) fun l => onlyAmbiguous_ok _
    have hfeature : OnlyAmbiguous (c.feature resource f) :=
      onlyAmbiguous_bind hlabel fun l =>
        onlyAmbiguous_bind (onlyAmbiguous_children _ _ _) fun ns => onlyAmbiguous_ok _
    intro error h
    cases hf : c.feature resource f with
    | error e => exact hfeature error (by simpa [hf, Except.map] using h)
    | ok n => simp [hf, Except.map] at h

/-! ## Children -/

def unfiltered (c : Compiler) : Compiler :=
  { c with filter := none }

theorem children_eq_filter (c : Compiler) (background : Option Background) (parent : Label)
    (children : List Child) :
    c.children resource background parent children =
      (c.unfiltered.children resource background parent children).map (List.filter c.selects) := by
  -- Errors come before the filter: what comes of a child is known before it is kept or left out.
  have hcons (x : Except PlanError Node) (xs : Except PlanError (List Node)) :
      (do
        let n ← x
        let ns ← xs.map (List.filter c.selects)
        return if c.selects n then n :: ns else ns) =
      (do
        let n ← x
        let ns ← xs
        return if c.unfiltered.selects n then n :: ns else ns).map (List.filter c.selects) := by
    have hall (n : Node) : c.unfiltered.selects n = true := rfl
    cases x with
    | error e => rfl
    | ok n =>
      cases xs with
      | error e => rfl
      | ok ns =>
        cases hn : c.selects n <;>
          simp [hn, hall, bind, Except.bind, pure, Except.pure, Except.map]
  induction children with
  | nil => rfl
  | cons child rest ih =>
    cases child with
    | background b => exact ih
    | scenario s =>
      simp only [Compiler.children, ih]
      exact hcons (c.scenario resource background parent s) _
    | outline o =>
      simp only [Compiler.children, ih]
      exact hcons (c.outline resource background parent o) _

/-- The feature with those of its children that the filter lets through. -/
def restrict (c : Compiler) (n : Node) : Node :=
  { n with children := n.children.filter c.selects }

theorem feature_eq_restrict (c : Compiler) (f : Feature) :
    c.feature resource f = (c.unfiltered.feature resource f).map c.restrict := by
  have hlabel : c.unfiltered.featureLabel resource f = c.featureLabel resource f := rfl
  simp only [feature, hlabel, children_eq_filter c]
  cases c.featureLabel resource f with
  | error e => rfl
  | ok l =>
    simp only [bind, Except.bind]
    cases c.unfiltered.children resource f.background? l f.children <;> rfl

/-! ## Features -/

theorem compile_error_iff (d : Document) (error : PlanError) :
    c.compile resource d = .error error ↔ c.unfiltered.compile resource d = .error error := by
  rw [compile_eq, compile_eq]
  cases d.feature with
  | none => simp
  | some f =>
    simp only [feature_eq_restrict c]
    cases c.unfiltered.feature resource f <;> simp [Except.map]

theorem compile_ok {d : Document} {result : Option Node}
    (h : c.unfiltered.compile resource d = .ok result) :
    c.compile resource d = .ok ((result.map c.restrict).bind nonLeaf?) := by
  rw [compile_eq] at h ⊢
  cases hd : d.feature with
  | none =>
    simp only [hd] at h ⊢
    rw [← Except.ok.inj h]
    rfl
  | some f =>
    simp only [hd, feature_eq_restrict c] at h ⊢
    cases hf : c.unfiltered.feature resource f with
    | error e => simp [hf, Except.map] at h
    | ok n =>
      simp only [hf, Except.map, Except.ok.injEq] at h ⊢
      subst h
      cases hn : n.children <;> simp [nonLeaf?, Node.isLeaf, restrict, hn]

/-- A filter commutes with compilation, whichever tags are ids: of two configurations that differ in
it, both are refused or both tell ids in the same way. With the filter, compiling fails for the same
reason as without it, and otherwise gives the same feature with those of its children of whose tags
the filter is true. -/
theorem compile_filtered {text : String} {e : TagExpr} (hparse : TagExpr.parse text = .ok e) :
    (∀ (engine : RegexEngine) (config : Config),
      ofConfig engine { config with tagFilter := some text } =
        (ofConfig engine { config with tagFilter := none }).map fun all =>
          { all with filter := some e }) ∧
    ∀ (isId : String → Bool) (resource : String) (d : Document),
      let all : Compiler := ⟨isId, none⟩
      let chosen : Compiler := ⟨isId, some e⟩
      (∀ error, chosen.compile resource d = .error error ↔
        all.compile resource d = .error error) ∧
      (∀ error, all.compile resource d = .error error →
        ∃ name locator tags, error = .ambiguousId name locator tags) ∧
      ∀ result, all.compile resource d = .ok result →
        let kept := (result.toList.flatMap (·.children)).filter fun n => e.holds n.tags
        (chosen.compile resource d = .ok none ↔ d.feature = none ∨ kept = []) ∧
        (∀ n, chosen.compile resource d = .ok (some n) ↔
          ∃ m, result = some m ∧ kept ≠ [] ∧ n = { m with children := kept }) ∧
        ∀ m, result = some m → ∀ n ∈ m.children, ∀ tag ∈ m.tags, tag ∈ n.tags := by
  refine ⟨fun engine config => ?_, fun isId resource d =>
    ⟨compile_error_iff d, onlyAmbiguous_compile d, ?_⟩⟩
  · simp only [ofConfig, filterOf, hparse]
    cases idTest engine config.idTagPattern <;> rfl
  intro result hresult kept
  have hok := compile_ok (c := ⟨isId, some e⟩) hresult
  have hselects : selects ⟨isId, some e⟩ = fun n => e.holds n.tags := rfl
  refine ⟨?_, fun n => ?_, ?_⟩
  · rw [hok]
    cases result with
    | none => simp [kept]
    | some m =>
      obtain ⟨f, hf, -⟩ := compile_eq_ok_some_iff.mp hresult
      simp [kept, hf, nonLeaf?, Node.isLeaf, restrict, hselects]
  · rw [hok]
    cases result with
    | none => simp
    | some m =>
      have hkept : kept = m.children.filter fun n => e.holds n.tags := by simp [kept]
      have hchildren : (restrict ⟨isId, some e⟩ m).children = kept := hkept.symm
      rw [Option.map_some, Option.bind_some, Except.ok.injEq, nonLeaf?_eq_some_iff, hchildren]
      simp only [Option.some.injEq, exists_eq_left', restrict, hselects, hkept, eq_comm]
  · rintro m rfl n hn
    exact (Node.IsCompiled.isChild ⟨_, resource, d, hresult⟩ hn).inherits

/-- Of two scenarios below a tag of the feature the filter leaves one. A scenario with two ids is an
error, although the filter would leave it out. -/
theorem compile_filtered_web :
    let tag (name : String) : Tag := ⟨⟨1, 1⟩, "@" ++ name⟩
    let scenario (name : String) (tags : List String) : Child :=
      .scenario ⟨⟨⟨1, 1⟩, "Scenario", name, none⟩, tags.map tag, [], []⟩
    let document (children : List Child) : Document :=
      ⟨some ⟨⟨⟨1, 1⟩, "Feature", "F", none⟩, [tag "web"], "en", children, []⟩⟩
    let e : TagExpr := .and (.tag "web") (.not (.tag "slow"))
    let chosen : Compiler := ⟨["ID-1", "ID-2"].contains, some e⟩
    TagExpr.parse "@web and not @slow" = .ok e ∧
      (∃ n, chosen.compile "r" (document [scenario "A" ["slow"], scenario "B" []]) = .ok (some n) ∧
        n.children.map (·.name) = ["B"]) ∧
      chosen.compile "r" (document [scenario "A" ["slow", "ID-1", "ID-2"], scenario "B" []]) =
        .error (.ambiguousId "A" "r[1,1]" ["ID-1", "ID-2"]) := by
  intro tag scenario document e chosen
  have hparse : TagExpr.parse "@web and not @slow" = .ok e := by decide +kernel
  let isId : String → Bool := ["ID-1", "ID-2"].contains
  let children : List Child := [scenario "A" ["slow"], scenario "B" []]
  let n := ((⟨isId, none⟩ : Compiler).compile "r" (document children)).toOption.join.getD default
  have hn : (⟨isId, none⟩ : Compiler).compile "r" (document children) = .ok (some n) := by
    decide +kernel
  obtain ⟨-, hcompile⟩ := compile_filtered hparse
  obtain ⟨-, -, hok⟩ := hcompile isId "r" (document children)
  obtain ⟨-, hkept, -⟩ := hok _ hn
  obtain ⟨herror, -⟩ := hcompile isId "r"
    (document [scenario "A" ["slow", "ID-1", "ID-2"], scenario "B" []])
  exact ⟨hparse, ⟨_, (hkept _).mpr ⟨n, rfl, by decide +kernel, rfl⟩, by decide +kernel⟩,
    (herror _).mpr (by decide +kernel)⟩

end Compiler

end FeaturePlan
