import FeaturePlan.Proofs.Plan.Candidates
import FeaturePlan.Proofs.Plan.Conservation
import Mathlib.Data.List.Basic
import Mathlib.Data.List.ProdSigma

/-! # The faults of a plan

What makes a redefinition fail can be read off the plan as it is before the first pass: ids that
come twice, definitions without an implementation, and scenarios that cannot be merged. -/

namespace FeaturePlan

/-! ## Merging two scenarios -/

namespace Merge

/-- A step map has no more entries than the definition has steps outside of its background. -/
def MapFits (property : String) (definition implementation : Node) : Prop :=
  ∀ raw ∈ implementation.properties.get? property,
    (raw.toList.splitOn '-').length ≤ (definition.children.filter fun s => !s.background).length

/-- There is a step for the steps that no run takes: one of the definition, or the one that holds
the background of the implementation. None is needed where the implementation has no steps. -/
def HasPlace (definition implementation : Node) : Prop :=
  definition.children ≠ [] ∨ (∃ s ∈ implementation.children, s.background = true) ∨
    implementation.children = []

/-- The entries of a step map add up to less than a machine word holds. -/
def SumFits (property : String) (implementation : Node) : Prop :=
  ∀ raw entries, implementation.properties.get? property = some raw →
    StepMap.counts (raw.toList.splitOn '-') = .ok entries → entries.sum < Text.wordLimit

/-- The runs in force, which a map gives or the number of steps, add up to less than a machine word
holds. -/
def RunsFit (property : String) (definition implementation : Node) : Prop :=
  ∀ runs log, runsFor property implementation
      (definition.children.filter fun s => !s.background).length = .ok (runs, log) →
    runs.sum < Text.wordLimit

instance (property : String) (definition implementation : Node) :
    Decidable (MapFits property definition implementation) :=
  inferInstanceAs (Decidable (∀ _ ∈ _, _))

instance (definition implementation : Node) : Decidable (HasPlace definition implementation) :=
  inferInstanceAs (Decidable (_ ∨ _ ∨ _))

instance (property : String) (definition implementation : Node) :
    Decidable (RunsFit property definition implementation) :=
  match h : runsFor property implementation
      (definition.children.filter fun s => !s.background).length with
  | .error _ => isTrue (by simp [RunsFit, h])
  | .ok (runs, _) => decidable_of_iff (runs.sum < Text.wordLimit) (by simp [RunsFit, h])

/-- Where a map cannot be read, one run is in force for each step. -/
theorem SumFits.runsFit {property : String} {definition implementation : Node}
    (h : SumFits property implementation) (hlen : definition.children.length < Text.wordLimit) :
    RunsFit property definition implementation := by
  intro runs log hruns
  exact sum_runsFor_lt hruns h ((List.length_filter_le _ _).trans_lt hlen)

theorem exists_runsFor_eq_ok {property : String} {implementation : Node} {steps : Nat} :
    (∃ result, runsFor property implementation steps = .ok result) ↔
      ∀ raw ∈ implementation.properties.get? property,
        (raw.toList.splitOn '-').length ≤ steps := by
  simp only [runsFor]
  cases implementation.properties.get? property with
  | none => simp
  | some raw =>
    simp only [StepMap.read, Option.mem_def, Option.some.injEq, forall_eq']
    by_cases hlong : steps < (raw.toList.splitOn '-').length
    · simp [hlong]
    · cases StepMap.counts (raw.toList.splitOn '-') <;> simp [hlong, Nat.le_of_not_lt]

theorem distribute_cons {w : Arithmetic} {given steps : List Node} {step : Node}
    {taken total : Nat} {runs : List Nat} {served : List Node} :
    distribute w given taken runs (step :: steps) = some (served, total) ↔
      ∃ next rest, w.add? taken (runs.headD 0) = some next ∧
        distribute w given next runs.tail steps = some (rest, total) ∧
        attach step ((given.drop taken).take (runs.headD 0)) :: rest = served := by
  simp only [distribute, Option.bind_eq_bind, Option.bind_eq_some_iff, Prod.exists, Option.pure_def,
    Option.some.injEq, Prod.mk.injEq]
  grind

theorem length_distribute {w : Arithmetic} {given steps : List Node} {taken total : Nat}
    {runs : List Nat} {served : List Node}
    (h : distribute w given taken runs steps = some (served, total)) :
    served.length = steps.length := by
  induction steps generalizing taken runs served with
  | nil =>
      obtain ⟨rfl, -⟩ := Prod.mk.inj (Option.some.inj h)
      rfl
  | cons step steps ih =>
      obtain ⟨next, rest, -, hrest, rfl⟩ := distribute_cons.mp h
      simp [ih hrest]

/-- Steps are given out to the end, unless checked arithmetic stops at a sum too large. -/
theorem exists_distribute_iff {w : Arithmetic} {steps : List Node} {taken : Nat} {runs : List Nat}
    (given : List Node) (ht : taken < Text.wordLimit) (hl : runs.length = steps.length) :
    (∃ served, distribute w given taken runs steps = some served) ↔
      (w = .checked → taken + runs.sum < Text.wordLimit) := by
  induction steps generalizing taken runs with
  | nil =>
      obtain rfl : runs = [] := List.length_eq_zero_iff.mp hl
      simp [distribute, ht]
  | cons step steps ih =>
      obtain _ | ⟨run, runs⟩ := runs
      · simp at hl
      have hl : runs.length = steps.length := by simpa using hl
      have hnext :
          (∃ served, distribute w given taken (run :: runs) (step :: steps) = some served) ↔
            ∃ next, w.add? taken run = some next ∧
              ∃ served, distribute w given next runs steps = some served := by
        simp only [Prod.exists, distribute_cons, List.headD_cons, List.tail_cons]
        grind
      rw [hnext, List.sum_cons, ← Nat.add_assoc]
      by_cases hlt : taken + run < Text.wordLimit
      · rw [add?_of_lt w hlt]
        simpa using ih hlt hl
      · cases w with
        | checked =>
            have hle : ¬taken + run + runs.sum < Text.wordLimit := by omega
            simp [add?_checked_of_le (Nat.le_of_not_lt hlt), hle]
        | wrapping =>
            rw [add?_wrapping]
            simpa using ih (Nat.mod_lt _ (by decide)) hl

theorem exists_served_iff {w : Arithmetic} {property : String} {definition implementation : Node}
    {runs : List Nat} {log : List LogEvent}
    (hruns : runsFor property implementation (own definition.children).length = .ok (runs, log)) :
    (∃ served, distribute w (own implementation.children) 0 runs (own definition.children) =
      some served) ↔ (w = .checked → runs.sum < Text.wordLimit) := by
  have hzero : 0 < Text.wordLimit := by decide
  simpa using exists_distribute_iff (own implementation.children) hzero (runsFor_spec hruns).1

theorem attachLast?_eq_none {steps more : List Node} :
    attachLast? steps more = none ↔ steps = [] ∧ more ≠ [] := by
  cases more <;> simp [attachLast?]

theorem backgroundStep_eq_nil {implementation : List Node} :
    backgroundStep implementation = [] ↔ ∀ s ∈ implementation, s.background = false := by
  have hnil : background implementation = [] ↔ ∀ s ∈ implementation, s.background = false := by
    simp [background]
  rw [← hnil]
  cases h : background implementation <;> simp [backgroundStep, h]

theorem own_eq_self {steps : List Node} (h : ∀ s ∈ steps, s.background = false) :
    own steps = steps := by
  simpa [own] using h

theorem background_own_eq_nil {steps : List Node} :
    background steps = [] ∧ own steps = [] ↔ steps = [] := by
  refine ⟨fun ⟨hb, ho⟩ => ?_, fun h => by simp [h, background, own]⟩
  refine List.eq_nil_iff_forall_not_mem.mpr fun s hs => ?_
  have hb := List.filter_eq_nil_iff.mp hb s hs
  have ho := List.filter_eq_nil_iff.mp ho s hs
  simp_all

/-- A rebuilt scenario without children has taken nothing, so that all steps of the implementation
are left. -/
theorem attachLast?_eq_none_iff {w : Arithmetic} {definition implementation : Node}
    {runs : List Nat} {served : List Node} {total : Nat}
    (hdistribute : distribute w (own implementation.children) 0 runs (own definition.children) =
      some (served, total)) :
    attachLast?
        (backgroundStep implementation.children ++ background definition.children ++ served)
        ((own implementation.children).drop total) = none ↔
      ¬HasPlace definition implementation := by
  have hserved : served = [] ↔ own definition.children = [] := by
    rw [← List.length_eq_zero_iff, length_distribute hdistribute, List.length_eq_zero_iff]
  have htotal : own definition.children = [] → total = 0 := by
    intro ho
    rw [ho] at hdistribute
    exact (Prod.mk.inj (Option.some.inj hdistribute)).2.symm
  have hplace : ¬HasPlace definition implementation ↔
      (background definition.children = [] ∧ own definition.children = []) ∧
        (∀ s ∈ implementation.children, s.background = false) ∧ implementation.children ≠ [] := by
    simp [HasPlace, background_own_eq_nil]
  rw [attachLast?_eq_none, List.append_eq_nil_iff, List.append_eq_nil_iff, backgroundStep_eq_nil,
    hserved, hplace]
  constructor
  · rintro ⟨⟨⟨hi, hb⟩, ho⟩, hleft⟩
    refine ⟨⟨hb, ho⟩, hi, ?_⟩
    simpa only [htotal ho, own_eq_self hi, List.drop_zero] using hleft
  · rintro ⟨⟨hb, ho⟩, hi, hleft⟩
    refine ⟨⟨⟨hi, hb⟩, ho⟩, ?_⟩
    simpa only [htotal ho, own_eq_self hi, List.drop_zero] using hleft

/-- Two scenarios can be merged if the step map fits and no step is left without a place. With
checked arithmetic the runs have to fit into a word as well. -/
theorem scenario_error {w : Arithmetic} {property : String} {definition implementation : Node} :
    (scenario w property definition implementation).error = none ↔
      MapFits property definition implementation ∧ HasPlace definition implementation ∧
        (w = .checked → RunsFit property definition implementation) := by
  have hfits : (∃ result, runsFor property implementation (own definition.children).length =
      .ok result) ↔ MapFits property definition implementation := exists_runsFor_eq_ok
  have hsum : RunsFit property definition implementation ↔
      ∀ result, runsFor property implementation (own definition.children).length = .ok result →
        result.1.sum < Text.wordLimit := by
    rw [Prod.forall]
    rfl
  rw [← hfits, hsum]
  simp only [scenario]
  cases hruns : runsFor property implementation (own definition.children).length with
  | error e => simp
  | ok result =>
    obtain ⟨runs, log⟩ := result
    have hall := exists_served_iff (w := w) hruns
    simp only [Except.ok.injEq, exists_eq', true_and, forall_eq']
    cases hdistribute : distribute w (own implementation.children) 0 runs
        (own definition.children) with
    | none =>
      have hnot : ¬(w = .checked → runs.sum < Text.wordLimit) := by simp [← hall, hdistribute]
      simp [hnot]
    | some served =>
      obtain ⟨served, total⟩ := served
      have hsums : w = .checked → runs.sum < Text.wordLimit := hall.mp ⟨_, hdistribute⟩
      have hnone := attachLast?_eq_none_iff hdistribute
      simp only [iff_true_intro hsums, and_true]
      split
      · rename_i hfail
        simpa using hnone.mp hfail
      · rename_i children hok
        have hplace : HasPlace definition implementation := by
          by_contra hplace
          exact Option.some_ne_none children (hok.symm.trans (hnone.mpr hplace))
        simpa using hplace

/-- Where the runs in force add up to more than a word holds, checked arithmetic stops the merge. -/
theorem scenario_panics {property : String} {definition implementation : Node} {runs : List Nat}
    {log : List LogEvent}
    (hruns : runsFor property implementation (own definition.children).length = .ok (runs, log))
    (hsum : Text.wordLimit ≤ runs.sum) :
    scenario .checked property definition implementation =
      ⟨{ definition with children := [] }, log, some .panic⟩ := by
  have hnone : distribute .checked (own implementation.children) 0 runs
      (own definition.children) = none := by
    rw [Option.eq_none_iff_forall_ne_some]
    intro served hserved
    have hlt := (exists_served_iff hruns).mp ⟨served, hserved⟩ rfl
    omega
  simp only [scenario, hruns, hnone]

theorem scenario_shell (w : Arithmetic) (property : String) (definition implementation : Node) :
    (scenario w property definition implementation).node.shell = definition.shell := by
  simp only [scenario]
  split
  · rfl
  · split
    · rfl
    · split <;> rfl

theorem scenario_toLabel (w : Arithmetic) (property : String) (definition implementation : Node) :
    (scenario w property definition implementation).node.toLabel = definition.toLabel :=
  Node.toLabel_eq_of_shell_eq (scenario_shell w property definition implementation)

/-! ## Merging two outlines -/

/-- The scenarios that the examples of a defining outline make of the implementing outline. -/
def regenerated (definition implementation : Node) : List Node :=
  implementation.expand (implementation.outline.getD ⟨[], [], []⟩)
    ((definition.outline.map (·.examples)).getD [])

theorem pairwise_error {w : Arithmetic} {property : String}
    {definitions implementations : List Node} :
    (pairwise w property definitions implementations).2.2 = none ↔
      ∀ p ∈ definitions.zip implementations, (scenario w property p.1 p.2).error = none := by
  induction definitions generalizing implementations with
  | nil => simp [pairwise]
  | cons d ds ih =>
    cases implementations with
    | nil => simp [pairwise]
    | cons i is =>
      rw [List.zip_cons_cons, List.forall_mem_cons, ← ih]
      simp only [pairwise]
      split
      · rename_i e he
        simp [he]
      · rename_i he
        simp [he]

theorem outline_error {w : Arithmetic} {property : String} {definition implementation : Node} :
    (outline w property definition implementation).error = none ↔
      ∀ p ∈ definition.children.zip (regenerated definition implementation),
        (scenario w property p.1 p.2).error = none := by
  rw [← pairwise_error]
  simp only [outline, regenerated]
  cases definition.outline <;> rfl

theorem scenariosFrom_cleared (implementation : Node) (t : Template Node) (number : Nat)
    (rows : List (ExamplesTable × List String)) :
    ({ implementation with children := [] } : Node).scenariosFrom t number rows =
      implementation.scenariosFrom t number rows := by
  induction rows generalizing number with
  | nil => rfl
  | cons row rows ih => exact congrArg _ (ih (number + 1))

/-- What an outline is expanded to does not depend on the scenarios that it had. -/
theorem outline_cleared (w : Arithmetic) (property : String) (definition implementation : Node) :
    outline w property definition { implementation with children := [] } =
      outline w property definition implementation := by
  simp only [outline, Node.expand, scenariosFrom_cleared]

end Merge

/-! ## Faultless plans -/

namespace Redefinition

def bearers (features : List Node) (kind : NodeKind) (tag : String) : List Node :=
  (features.flatMap (·.children)).filter fun n => n.kind = kind && n.hasTag tag

/-- The definitions of a kind, each with the implementations that have its id. -/
def matched (c : RedefinitionConfig) (features : List Node) (kind : NodeKind) :
    List (Node × Node) :=
  (bearers features kind c.definitionTag ×ˢ bearers features kind c.implementationTag).filter
    fun p => p.1.id.isSome && p.1.id = p.2.id

/-- The scenarios that are merged: those with one id, and those of outlines with one id, row by
row. -/
def mergedPairs (c : RedefinitionConfig) (features : List Node) : List (Node × Node) :=
  matched c features .scenario ++
    (matched c features .outline).flatMap fun p => p.1.children.zip (Merge.regenerated p.1 p.2)

structure Faultless (c : RedefinitionConfig) (features : List Node) : Prop where
  /-- No id comes twice among the nodes of one kind and tag. -/
  unique : ∀ kind ∈ [NodeKind.scenario, .outline],
    ∀ tag ∈ [c.definitionTag, c.implementationTag],
      ((bearers features kind tag).filterMap (·.id)).Nodup
  /-- Every definition with an id has an implementation of its kind, in whatever feature. -/
  implemented : ∀ kind ∈ [NodeKind.scenario, .outline],
    ∀ d ∈ bearers features kind c.definitionTag, d.id.isSome = true →
      ∃ i ∈ bearers features kind c.implementationTag, i.id = d.id
  mapsFit : ∀ p ∈ mergedPairs c features, Merge.MapFits c.stepMapProperty p.1 p.2
  places : ∀ p ∈ mergedPairs c features, Merge.HasPlace p.1 p.2

instance (c : RedefinitionConfig) (features : List Node) : Decidable (Faultless c features) :=
  decidable_of_iff (_ ∧ _ ∧ _ ∧ _)
    ⟨fun ⟨h₁, h₂, h₃, h₄⟩ => ⟨h₁, h₂, h₃, h₄⟩, fun ⟨h₁, h₂, h₃, h₄⟩ => ⟨h₁, h₂, h₃, h₄⟩⟩

/-! ## Entries and nodes -/

theorem mem_bearers {features : List Node} {kind : NodeKind} {tag : String} {n : Node} :
    n ∈ bearers features kind tag ↔
      (∃ f ∈ features, n ∈ f.children) ∧ n.kind = kind ∧ n.hasTag tag = true := by
  simp [bearers]

theorem mem_matched {c : RedefinitionConfig} {features : List Node} {kind : NodeKind}
    {p : Node × Node} : p ∈ matched c features kind ↔
      (p.1 ∈ bearers features kind c.definitionTag ∧
        p.2 ∈ bearers features kind c.implementationTag) ∧
      p.1.id.isSome = true ∧ p.1.id = p.2.id := by
  obtain ⟨d, i⟩ := p
  simp [matched]

theorem mk_mem_matched {c : RedefinitionConfig} {features : List Node} {kind : NodeKind}
    {d i : Node} : (d, i) ∈ matched c features kind ↔
      (d ∈ bearers features kind c.definitionTag ∧ i ∈ bearers features kind c.implementationTag) ∧
      d.id.isSome = true ∧ d.id = i.id :=
  mem_matched

theorem mem_carriers {features : List Node} {kind : NodeKind} {tag : String}
    {e : Address × Node} : e ∈ carriers features kind tag ↔
      e ∈ addressed 0 features ∧ e.2.kind = kind ∧ e.2.hasTag tag = true := by
  simp [carriers]

theorem map_snd_carriers (features : List Node) (kind : NodeKind) (tag : String) :
    (carriers features kind tag).map Prod.snd = bearers features kind tag := by
  rw [bearers, ← map_snd_addressed 0, List.filter_map]
  rfl

theorem ids_carriers (features : List Node) (kind : NodeKind) (tag : String) :
    ids (carriers features kind tag) = (bearers features kind tag).filterMap (·.id) := by
  rw [← map_snd_carriers, List.filterMap_map]
  rfl

theorem forall_carriers {features : List Node} {kind : NodeKind} {tag : String}
    {p : Node → Prop} :
    (∀ e ∈ carriers features kind tag, p e.2) ↔ ∀ n ∈ bearers features kind tag, p n := by
  rw [← map_snd_carriers, List.forall_mem_map]

theorem exists_carriers {features : List Node} {kind : NodeKind} {tag : String}
    {p : Node → Prop} :
    (∃ e ∈ carriers features kind tag, p e.2) ↔ ∃ n ∈ bearers features kind tag, p n := by
  rw [← map_snd_carriers]
  constructor
  · rintro ⟨e, he, hp⟩
    exact ⟨e.2, List.mem_map_of_mem he, hp⟩
  · rintro ⟨n, hn, hp⟩
    obtain ⟨e, he, rfl⟩ := List.mem_map.mp hn
    exact ⟨e, he, hp⟩

/-- Candidates are the nodes of their kind that have the tag and an id. -/
theorem mem_addresses_iff {features : List Node} {kind : NodeKind} {tag : String} {a : Address}
    {n : Node} (hn : (a, n) ∈ addressed 0 features) :
    a ∈ ((carriers features kind tag).filterMap candidate).map (·.address) ↔
      n.kind = kind ∧ n.hasTag tag = true ∧ n.id.isSome = true := by
  constructor
  · intro ha
    obtain ⟨c, hc, rfl⟩ := List.mem_map.mp ha
    obtain ⟨⟨a, m⟩, hm, hid, hcm⟩ := mem_candidates.mp hc
    obtain ⟨haddressed, hkind, htag⟩ := mem_carriers.mp hm
    rw [hcm] at hn
    obtain rfl := node_unique haddressed hn
    exact ⟨hkind, htag, Option.isSome_iff_exists.mpr ⟨_, hid⟩⟩
  · rintro ⟨hkind, htag, hsome⟩
    obtain ⟨id, hid⟩ := Option.isSome_iff_exists.mp hsome
    have hcarrier : (a, n) ∈ carriers features kind tag := mem_carriers.mpr ⟨hn, hkind, htag⟩
    exact List.mem_map.mpr ⟨⟨id, a, n.ref⟩, mem_candidates.mpr ⟨_, hcarrier, hid, rfl⟩, rfl⟩

/-- Where ids are unique there is one implementation to choose. -/
theorem exists_implementation_iff {c : RedefinitionConfig} {features : List Node}
    {kind : NodeKind} (ok : Node → Node → Prop)
    (hids : ((bearers features kind c.implementationTag).filterMap (·.id)).Nodup) :
    (∀ d ∈ bearers features kind c.definitionTag, d.id.isSome = true →
        ∃ i ∈ bearers features kind c.implementationTag, i.id = d.id ∧ ok d i) ↔
      (∀ d ∈ bearers features kind c.definitionTag, d.id.isSome = true →
        ∃ i ∈ bearers features kind c.implementationTag, i.id = d.id) ∧
      ∀ p ∈ matched c features kind, ok p.1 p.2 := by
  constructor
  · intro h
    refine ⟨fun d hd hsome => ?_, fun p hp => ?_⟩
    · obtain ⟨i, hi, hid, -⟩ := h d hd hsome
      exact ⟨i, hi, hid⟩
    · obtain ⟨d, i⟩ := p
      obtain ⟨⟨hd, hi⟩, hsome, hid⟩ := mk_mem_matched.mp hp
      obtain ⟨i', hi', hid', hok⟩ := h d hd hsome
      obtain ⟨id, hdid⟩ := Option.isSome_iff_exists.mp hsome
      rw [id_unique hids hi hi' (hid.symm.trans hdid) (hid'.trans hdid)]
      exact hok
  · rintro ⟨himplemented, hok⟩ d hd hsome
    obtain ⟨i, hi, hid⟩ := himplemented d hd hsome
    exact ⟨i, hi, hid, hok (d, i) (mk_mem_matched.mpr ⟨⟨hd, hi⟩, hsome, hid.symm⟩)⟩

/-! ## Success -/

section
variable {w : Arithmetic} {c : RedefinitionConfig} {features : List Node}

/-- The plan when its scenarios are merged: the outlines that implement have lost theirs. -/
def cleared (c : RedefinitionConfig) (features : List Node) : List Node :=
  clear features ((carriers features .outline c.implementationTag).filterMap candidate)

def mergeKind (c : RedefinitionConfig) (features : List Node) (kind : NodeKind)
    (merge : Node → Node → Merge) (missing : String → NodeRef → RedefinitionError)
    (now : List Node) : Redefinition :=
  mergeEach merge missing ((carriers features kind c.implementationTag).filterMap candidate)
    ((carriers features kind c.definitionTag).filterMap candidate) now

def scenarioMerges (w : Arithmetic) (c : RedefinitionConfig) (features : List Node) :
    Redefinition :=
  mergeKind c features .scenario (Merge.scenario w c.stepMapProperty) .missingImplementation
    (cleared c features)

def outlineMerges (w : Arithmetic) (c : RedefinitionConfig) (features : List Node) :
    Redefinition :=
  mergeKind c features .outline (Merge.outline w c.stepMapProperty) .missingOutline
    (scenarioMerges w c features).features

theorem labels_cleared : labels (cleared c features) = labels features :=
  labels_clear _ _

theorem labels_scenarioMerges : labels (scenarioMerges w c features).features = labels features :=
  (labels_mergeEach (Merge.scenario_toLabel _ _) _ _ _).trans labels_cleared

theorem run_error (henabled : c.enabled = true) :
    (run w c features).error = none ↔
      (ids (carriers features .outline c.implementationTag)).Nodup ∧
      (ids (carriers features .scenario c.implementationTag)).Nodup ∧
      (ids (carriers features .scenario c.definitionTag)).Nodup ∧
      (scenarioMerges w c features).error = none ∧
      (ids (carriers features .outline c.definitionTag)).Nodup ∧
      (outlineMerges w c features).error = none := by
  simp only [run, henabled, Bool.not_true, Bool.false_eq_true, if_false]
  refine (withCandidates_error rfl _ _ _).trans (and_congr_right fun _ => ?_)
  refine (withCandidates_error labels_cleared _ _ _).trans (and_congr_right fun _ => ?_)
  refine (withCandidates_error labels_cleared _ _ _).trans (and_congr_right fun _ => ?_)
  refine (andThen_error _ _).trans (and_congr_right fun _ => ?_)
  refine (withCandidates_error labels_scenarioMerges _ _ _).trans (and_congr_right fun _ => ?_)
  exact (andThen_error _ _).trans (and_iff_left rfl)

/-- In the end implementations are removed from the plan as the merges leave it. -/
theorem run_removes (henabled : c.enabled = true) (herror : (run w c features).error = none) :
    (run w c features).features =
      removeTagged c.implementationTag (outlineMerges w c features).features := by
  simp only [run, henabled, Bool.not_true, Bool.false_eq_true, if_false] at herror ⊢
  have hscenarios := ((withCandidates_error rfl _ _ _).mp herror).2
  have hdefinitions := ((withCandidates_error labels_cleared _ _ _).mp hscenarios).2
  have hmerges := ((withCandidates_error labels_cleared _ _ _).mp hdefinitions).2
  have houtlines := ((andThen_error _ _).mp hmerges).2
  have hremoval := ((withCandidates_error labels_scenarioMerges _ _ _).mp houtlines).2
  rw [withCandidates_features rfl herror]
  refine (withCandidates_features labels_cleared hscenarios).trans ?_
  refine (withCandidates_features labels_cleared hdefinitions).trans ?_
  refine (andThen_features hmerges).trans ?_
  refine (withCandidates_features labels_scenarioMerges houtlines).trans ?_
  exact andThen_features hremoval

/-- A node as the plan holds it when nodes of its kind are merged: an implementing outline that
takes part has lost its scenarios. -/
def atMerging (c : RedefinitionConfig) (n : Node) : Node :=
  if n.kind = .outline ∧ n.hasTag c.implementationTag = true ∧ n.id.isSome = true then
    { n with children := [] }
  else n

theorem atMerging_shell (n : Node) : (atMerging c n).shell = n.shell := by
  simp only [atMerging]
  split <;> rfl

@[simp] theorem atMerging_toLabel (n : Node) : (atMerging c n).toLabel = n.toLabel :=
  Node.toLabel_eq_of_shell_eq (atMerging_shell n)

theorem atMerging_of_ne_outline {n : Node} (h : n.kind ≠ .outline) : atMerging c n = n := by
  simp [atMerging, h]

theorem atMerging_of_not_hasTag {n : Node} (h : ¬n.hasTag c.implementationTag = true) :
    atMerging c n = n := by
  simp [atMerging, h]

/-- An outline is merged in the same way whether the implementing one has its scenarios or not. -/
theorem outline_atMerging (property : String) (definition implementation : Node) :
    Merge.outline w property definition (atMerging c implementation) =
      Merge.outline w property definition implementation := by
  simp only [atMerging]
  split
  · exact Merge.outline_cleared w property definition implementation
  · rfl

theorem node?_cleared {a : Address} {n : Node} (hn : (a, n) ∈ addressed 0 features) :
    node? (cleared c features) a = some (atMerging c n) := by
  simp only [cleared, node?_clear, mem_addresses_iff hn, mem_addressed_iff.mp hn, atMerging]
  split <;> rfl

/-- The merges of a kind go through when every definition is implemented, and can be merged with
the implementation as the plan now holds it. -/
theorem mergeKind_error {kind : NodeKind} {merge : Node → Node → Merge}
    {missing : String → NodeRef → RedefinitionError} {now : List Node}
    (hd : (ids (carriers features kind c.definitionTag)).Nodup)
    (hi : (ids (carriers features kind c.implementationTag)).Nodup)
    (hnow : ∀ e ∈ addressed 0 features, e.2.kind = kind →
      node? now e.1 = some (atMerging c e.2)) :
    (mergeKind c features kind merge missing now).error = none ↔
      (∀ d ∈ bearers features kind c.definitionTag, d.id.isSome = true →
        ∃ i ∈ bearers features kind c.implementationTag, i.id = d.id) ∧
      ∀ p ∈ matched c features kind,
        (merge (atMerging c p.1) (atMerging c p.2)).error = none := by
  have hcarriers {tag : String} (e : Address × Node) (he : e ∈ carriers features kind tag) :
      node? now e.1 = some (atMerging c e.2) :=
    hnow e (mem_carriers.mp he).1 (mem_carriers.mp he).2.1
  have hids := (ids_carriers features kind c.implementationTag) ▸ hi
  have hiff := exists_implementation_iff (c := c)
    (fun d i => (merge (atMerging c d) (atMerging c i)).error = none) hids
  rw [← hiff, ← forall_carriers, mergeKind,
    mergeEach_candidates (fun n => by simp) hd hi hcarriers hcarriers]
  refine forall₃_congr fun d _ _ => ?_
  exact exists_carriers
    (p := fun i => i.id = d.2.id ∧ (merge (atMerging c d.2) (atMerging c i)).error = none)

/-- Where the merges of a kind go through, the plan holds every definition of the kind merged with
its implementation. -/
theorem node?_mergeKind {kind : NodeKind} {merge : Node → Node → Merge}
    {missing : String → NodeRef → RedefinitionError} {now : List Node}
    (hd : (ids (carriers features kind c.definitionTag)).Nodup)
    (hi : (ids (carriers features kind c.implementationTag)).Nodup)
    (hnow : ∀ e ∈ addressed 0 features, e.2.kind = kind →
      node? now e.1 = some (atMerging c e.2))
    (herror : (mergeKind c features kind merge missing now).error = none)
    {a : Address} {n i : Node} (hn : (a, n) ∈ addressed 0 features) (hkind : n.kind = kind)
    (htag : n.hasTag c.definitionTag = true) (hsome : n.id.isSome = true)
    (himem : i ∈ bearers features kind c.implementationTag) (hid : i.id = n.id) :
    node? (mergeKind c features kind merge missing now).features a =
      some (merge (atMerging c n) (atMerging c i)).node := by
  have hcarriers {tag : String} (e : Address × Node) (he : e ∈ carriers features kind tag) :
      node? now e.1 = some (atMerging c e.2) :=
    hnow e (mem_carriers.mp he).1 (mem_carriers.mp he).2.1
  rw [← map_snd_carriers] at himem
  obtain ⟨e, he, rfl⟩ := List.mem_map.mp himem
  have hdefinition : (a, n) ∈ carriers features kind c.definitionTag :=
    mem_carriers.mpr ⟨hn, hkind, htag⟩
  exact node?_mergeEach_candidates (fun n => by simp) hd hi hcarriers hcarriers herror
    hdefinition he hsome hid

theorem node?_mergeKind_of_not {kind : NodeKind} {merge : Node → Node → Merge}
    {missing : String → NodeRef → RedefinitionError} {now : List Node} {a : Address} {n : Node}
    (hn : (a, n) ∈ addressed 0 features)
    (hnot : ¬(n.kind = kind ∧ n.hasTag c.definitionTag = true ∧ n.id.isSome = true)) :
    node? (mergeKind c features kind merge missing now).features a = node? now a :=
  node?_mergeEach _ _ _ (mt (mem_addresses_iff hn).mp hnot)

theorem node?_scenarioMerges {a : Address} {n : Node} (hn : (a, n) ∈ addressed 0 features)
    (hkind : n.kind = .outline) :
    node? (scenarioMerges w c features).features a = some (atMerging c n) := by
  rw [scenarioMerges, node?_mergeKind_of_not hn (by simp [hkind])]
  exact node?_cleared hn

/-- No child of a feature is a definition and an implementation. -/
def Apart (c : RedefinitionConfig) (features : List Node) : Prop :=
  ∀ f ∈ features, ∀ n ∈ f.children,
    ¬(n.hasTag c.definitionTag = true ∧ n.hasTag c.implementationTag = true)

instance : Decidable (Apart c features) :=
  inferInstanceAs (Decidable (∀ _ ∈ _, ∀ _ ∈ _, ¬_))

theorem Apart.not_both (hapart : Apart c features) {kind : NodeKind} {n : Node}
    (hn : n ∈ bearers features kind c.definitionTag) : ¬n.hasTag c.implementationTag = true := by
  obtain ⟨⟨f, hf, hchild⟩, -, hd⟩ := mem_bearers.mp hn
  exact fun hi => hapart f hf n hchild ⟨hd, hi⟩

theorem scenarioMerges_error
    (hd : (ids (carriers features .scenario c.definitionTag)).Nodup)
    (hi : (ids (carriers features .scenario c.implementationTag)).Nodup) :
    (scenarioMerges w c features).error = none ↔
      (∀ d ∈ bearers features .scenario c.definitionTag, d.id.isSome = true →
        ∃ i ∈ bearers features .scenario c.implementationTag, i.id = d.id) ∧
      ∀ p ∈ matched c features .scenario,
        (Merge.scenario w c.stepMapProperty p.1 p.2).error = none := by
  refine (mergeKind_error hd hi fun e he _ => node?_cleared he).trans (and_congr_right fun _ => ?_)
  refine forall₂_congr fun p hp => ?_
  obtain ⟨⟨hd, hi⟩, -⟩ := mem_matched.mp hp
  have hdkind := (mem_bearers.mp hd).2.1
  have hikind := (mem_bearers.mp hi).2.1
  rw [atMerging_of_ne_outline (by simp [hdkind]), atMerging_of_ne_outline (by simp [hikind])]

theorem outlineMerges_error (hapart : Apart c features)
    (hd : (ids (carriers features .outline c.definitionTag)).Nodup)
    (hi : (ids (carriers features .outline c.implementationTag)).Nodup) :
    (outlineMerges w c features).error = none ↔
      (∀ d ∈ bearers features .outline c.definitionTag, d.id.isSome = true →
        ∃ i ∈ bearers features .outline c.implementationTag, i.id = d.id) ∧
      ∀ p ∈ matched c features .outline,
        (Merge.outline w c.stepMapProperty p.1 p.2).error = none := by
  refine (mergeKind_error hd hi fun e he hkind => node?_scenarioMerges he hkind).trans
    (and_congr_right fun _ => ?_)
  refine forall₂_congr fun p hp => ?_
  obtain ⟨⟨hbearer, -⟩, -⟩ := mem_matched.mp hp
  rw [outline_atMerging, atMerging_of_not_hasTag (hapart.not_both hbearer)]

/-- A redefinition succeeds on the plans without fault, and on no others: where no child of a
feature is a definition and an implementation, all that matters can be read off the plan as it is
given, however the passes rewrite it. With checked arithmetic the runs in force have to fit into
words as well; so they do where the entries of each step map add up to less than a word holds, as no
list in memory is longer. -/
theorem run_succeeds_iff_faultless (w : Arithmetic) (henabled : c.enabled = true)
    (hapart : Apart c features) :
    ((run w c features).error = none ↔ Faultless c features ∧
      (w = .checked → ∀ p ∈ mergedPairs c features, Merge.RunsFit c.stepMapProperty p.1 p.2)) ∧
    ((∀ p ∈ mergedPairs c features, Merge.SumFits c.stepMapProperty p.2) →
      (∀ p ∈ mergedPairs c features, p.1.children.length < Text.wordLimit) →
      ((run w c features).error = none ↔ Faultless c features)) := by
  have hpairs : (∀ p ∈ mergedPairs c features,
      (Merge.scenario w c.stepMapProperty p.1 p.2).error = none) ↔
        (∀ p ∈ matched c features .scenario,
          (Merge.scenario w c.stepMapProperty p.1 p.2).error = none) ∧
        ∀ p ∈ matched c features .outline,
          (Merge.outline w c.stepMapProperty p.1 p.2).error = none := by
    simp only [mergedPairs, List.forall_mem_append, List.forall_mem_flatMap, Merge.outline_error]
  have hiff : (run w c features).error = none ↔ Faultless c features ∧
      (w = .checked → ∀ p ∈ mergedPairs c features, Merge.RunsFit c.stepMapProperty p.1 p.2) := by
    rw [run_error henabled]
    constructor
    · rintro ⟨hoi, hsi, hsd, hscenarios, hod, houtlines⟩
      obtain ⟨hs, hspairs⟩ := (scenarioMerges_error hsd hsi).mp hscenarios
      obtain ⟨ho, hopairs⟩ := (outlineMerges_error hapart hod hoi).mp houtlines
      have hmerges := hpairs.mpr ⟨hspairs, hopairs⟩
      simp only [ids_carriers] at hoi hsi hsd hod
      refine ⟨{
        unique := by simp [hoi, hsi, hsd, hod]
        implemented := by simpa using ⟨hs, ho⟩
        mapsFit := fun p hp => (Merge.scenario_error.mp (hmerges p hp)).1
        places := fun p hp => (Merge.scenario_error.mp (hmerges p hp)).2.1 },
        fun hw p hp => (Merge.scenario_error.mp (hmerges p hp)).2.2 hw⟩
    · rintro ⟨⟨hunique, himplemented, hmaps, hplaces⟩, hruns⟩
      obtain ⟨hspairs, hopairs⟩ := hpairs.mp fun p hp =>
        Merge.scenario_error.mpr ⟨hmaps p hp, hplaces p hp, fun hw => hruns hw p hp⟩
      simp only [← ids_carriers] at hunique
      have hsd := hunique .scenario (by simp) c.definitionTag (by simp)
      have hsi := hunique .scenario (by simp) c.implementationTag (by simp)
      have hod := hunique .outline (by simp) c.definitionTag (by simp)
      have hoi := hunique .outline (by simp) c.implementationTag (by simp)
      exact ⟨hoi, hsi, hsd,
        (scenarioMerges_error hsd hsi).mpr ⟨himplemented .scenario (by simp), hspairs⟩, hod,
        (outlineMerges_error hapart hod hoi).mpr ⟨himplemented .outline (by simp), hopairs⟩⟩
  refine ⟨hiff, fun hmaps hlen => hiff.trans (and_iff_left fun _ p hp => ?_)⟩
  exact (hmaps p hp).runsFit (hlen p hp)

end

/-- The definitions stand in one feature and their implementations in another. Each implementation
of the outline's one row has a step for the step of the definition. -/
theorem run_succeeds_across_features :
    let c := RedefinitionConfig.standard
    let step (name : String) : Node := ⟨.plain .step name, [], none⟩
    let node (kind : NodeKind) (id tag : String) (properties : Properties) (steps : List Node)
        (outline : Option (Template Node)) : Node :=
      ⟨{ Label.plain kind id with id := some id, tags := [tag], properties }, steps, outline⟩
    let map (runs : String) := Properties.empty.insert c.stepMapProperty runs
    let row := node .scenario "o_1" "row" .empty [step "c 1"] none
    let definitions :=
      [node .scenario "s" c.definitionTag .empty [step "a", step "b"] none,
        node .outline "o" c.definitionTag .empty [row]
          (some ⟨[step "c <x>"], [⟨[], ["x"], [["1"]]⟩], []⟩)]
    let implementations :=
      [node .scenario "s" c.implementationTag (map "0-2") [step "d", step "e"] none,
        node .outline "o" c.implementationTag (map "1") [] (some ⟨[step "f <x>"], [], []⟩)]
    let features : List Node :=
      [⟨.plain .feature "F", definitions, none⟩, ⟨.plain .feature "G", implementations, none⟩]
    (mergedPairs c features).length = 2 ∧ Faultless c features ∧
      (run .checked c features).error = none := by
  intro c step node map row definitions implementations features
  have hfaultless : Faultless c features := by decide +kernel
  have hruns : ∀ p ∈ mergedPairs c features, Merge.RunsFit c.stepMapProperty p.1 p.2 := by
    decide +kernel
  exact ⟨by decide +kernel, hfaultless,
    (run_succeeds_iff_faultless .checked rfl (by decide +kernel)).1.mpr
      ⟨hfaultless, fun _ => hruns⟩⟩

end Redefinition

end FeaturePlan
