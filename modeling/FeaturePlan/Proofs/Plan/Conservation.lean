import FeaturePlan.Proofs.Plan.StepMap
import Mathlib.Algebra.GroupWithZero.Nat
import Mathlib.Data.List.Basic
import Mathlib.Data.List.ModifyLast
import Mathlib.Data.List.SplitLengths

/-! # Merging keeps every step

The steps of an implementation are cut into the pieces that the step map asks for. Put together
again the pieces are the implementation, as long as the total of the map fits into a machine
word. -/

namespace FeaturePlan.Merge

/-! ## Step maps -/

/-- The runs in force: one for each step of the definition, and their total is that of the map, or
the number of steps where no map can be read. -/
theorem runsFor_spec {property : String} {implementation : Node} {steps : Nat} {runs : List Nat}
    {log : List LogEvent} (h : runsFor property implementation steps = .ok (runs, log)) :
    runs.length = steps ∧
      (runs.sum = steps ∨
        ∃ raw entries, implementation.properties.get? property = some raw ∧
          StepMap.counts (raw.toList.splitOn '-') = .ok entries ∧ runs.sum = entries.sum) := by
  have hyields := yields_runsFor property implementation steps
  rw [h] at hyields
  refine ⟨hyields.length_eq, ?_⟩
  generalize implementation.properties.get? property = text at hyields ⊢
  cases hyields with
  | missing => exact .inl (by simp)
  | faulty => exact .inl (by simp)
  | runs hfits hentries =>
    exact .inr ⟨_, _, rfl, StepMap.counts_eq_ok_iff.mpr hentries, by simp⟩

theorem sum_runsFor_lt {property : String} {implementation : Node} {steps : Nat} {runs : List Nat}
    {log : List LogEvent} (h : runsFor property implementation steps = .ok (runs, log))
    (hmap : ∀ raw entries, implementation.properties.get? property = some raw →
      StepMap.counts (raw.toList.splitOn '-') = .ok entries → entries.sum < Text.wordLimit)
    (hsteps : steps < Text.wordLimit) : runs.sum < Text.wordLimit := by
  obtain ⟨-, hsum | ⟨raw, entries, hraw, hcounts, hsum⟩⟩ := runsFor_spec h
  · exact hsum ▸ hsteps
  · exact hsum ▸ hmap raw entries hraw hcounts

/-! ## Sums -/

section
variable {m n : Nat}

theorem add?_of_lt (w : Arithmetic) (h : m + n < Text.wordLimit) : w.add? m n = some (m + n) :=
  if_pos h

theorem add?_checked_of_le (h : Text.wordLimit ≤ m + n) : Arithmetic.checked.add? m n = none :=
  if_neg h.not_gt

theorem add?_wrapping (m n : Nat) :
    Arithmetic.wrapping.add? m n = some ((m + n) % Text.wordLimit) := by
  unfold Arithmetic.add?
  split
  · rw [Nat.mod_eq_of_lt ‹_›]
  · rfl

end

/-! ## Pieces -/

@[simp] theorem attach_nil (step : Node) : attach step [] = step := by
  cases step
  simp [attach]

theorem attach_attach (step : Node) (some more : List Node) :
    attach (attach step some) more = attach step (some ++ more) := by
  simp [attach]

/-- As long as the total fits into a word, each step is given the next piece. -/
theorem distribute_eq (w : Arithmetic) (given steps : List Node) (runs : List Nat) (taken : Nat)
    (hl : runs.length = steps.length) (hsum : taken + runs.sum < Text.wordLimit) :
    distribute w given taken runs steps = some
      (List.zipWith attach steps (runs.splitLengths (given.drop taken)), taken + runs.sum) := by
  induction steps generalizing runs taken with
  | nil =>
      obtain rfl : runs = [] := List.length_eq_zero_iff.mp hl
      simp [distribute]
  | cons step steps ih =>
      obtain _ | ⟨run, runs⟩ := runs
      · simp at hl
      · simp only [List.length_cons, Nat.add_right_cancel_iff, List.sum_cons] at hl hsum
        have hadd := add?_of_lt w (m := taken) (n := run) (by omega)
        have hrest := ih runs (taken + run) hl (by omega)
        simp [distribute, hadd, hrest, Nat.add_assoc]

theorem length_modifyLast (f : List Node → List Node) (pieces : List (List Node)) :
    (pieces.modifyLast f).length = pieces.length := by
  rcases List.eq_nil_or_concat' pieces with rfl | ⟨pieces, piece, rfl⟩
  · rfl
  · simp [List.modifyLast_concat]

theorem attachLast?_zipWith {before children : List Node} {pieces : List (List Node)}
    {more : List Node} (hl : before.length = pieces.length)
    (h : attachLast? (List.zipWith attach before pieces) more = some children) :
    children = List.zipWith attach before (pieces.modifyLast (· ++ more)) ∧
      (pieces.modifyLast (· ++ more)).flatten = pieces.flatten ++ more := by
  rcases List.eq_nil_or_concat' pieces with rfl | ⟨pieces, piece, rfl⟩
  · obtain rfl := List.length_eq_zero_iff.mp hl
    obtain rfl : more = [] := by
      cases more with
      | nil => rfl
      | cons n more => simp [attachLast?] at h
    simp only [attachLast?, List.zipWith_nil_left, List.isEmpty_nil, if_true,
      Option.some.injEq] at h
    subst h
    exact ⟨rfl, rfl⟩
  · obtain ⟨before, last, rfl⟩ : ∃ bs b, before = bs ++ [b] := by
      rcases List.eq_nil_or_concat' before with rfl | ⟨bs, b, rfl⟩
      · simp at hl
      · exact ⟨bs, b, rfl⟩
    have hl' : before.length = pieces.length := by simpa using hl
    have hzip (p : List Node) : List.zipWith attach (before ++ [last]) (pieces ++ [p]) =
        List.zipWith attach before pieces ++ [attach last p] := by
      simp [List.zipWith_append hl']
    rw [List.modifyLast_concat, hzip]
    refine ⟨?_, by simp⟩
    rw [hzip] at h
    simp only [attachLast?] at h
    split at h
    · obtain rfl : more = [] := List.isEmpty_iff.mp (by assumption)
      simpa using h.symm
    · simpa [attach_attach] using h.symm

/-! ## Merging -/

/-- A step as it stands in the merged scenario: with `more` below what stood there before, or with
a virtual step where nothing would stand. -/
def rebuild (step : Node) (more : List Node) : Node :=
  { step with
    children :=
      if (step.children ++ more).isEmpty then [Node.virtual "void"] else step.children ++ more }

theorem fillVoid_attach (step : Node) (more : List Node) :
    fillVoid (attach step more) = rebuild step more := by
  cases step with
  | mk label children outline =>
      cases children <;> cases more <;> simp [fillVoid, attach, rebuild, Node.isLeaf, voidName]

/-- What the rebuilt children receive: nothing above the steps of the definition, to each of these
the steps of its run as far as they last, and to the last child what no run takes. -/
def received (above : Nat) (runs : List Nat) (given : List Node) : List (List Node) :=
  (List.replicate above [] ++ runs.splitLengths given).modifyLast (· ++ given.drop runs.sum)

/-- The virtual step above the steps of the definition, for an implementation with a background. -/
def wrapper (implementation : Node) : List Node :=
  let steps := implementation.children.filter fun s => s.background
  if steps.isEmpty then []
  else [{ Node.virtual "<background>" with background := true, children := steps }]

theorem backgroundStep_eq (implementation : Node) :
    backgroundStep implementation.children = wrapper implementation := by
  simp only [backgroundStep, wrapper, background, backgroundName]
  split <;> simp_all

theorem flatten_splitLengths_append_drop (runs : List Nat) (given : List Node) :
    (runs.splitLengths given).flatten ++ given.drop runs.sum = given := by
  induction runs generalizing given with
  | nil => simp
  | cons run runs ih =>
      have h := ih (given.drop run)
      rw [List.drop_drop] at h
      simp [h]

/-- What a merge that succeeds makes of the pieces given out: the children above the steps of the
definition receive none of them, and the last child has what is left. -/
theorem scenario_of_pieces {w : Arithmetic} {property : String} {definition implementation : Node}
    {runs : List Nat} {log : List LogEvent} {pieces : List (List Node)} {total : Nat}
    (hruns : runsFor property implementation (own definition.children).length = .ok (runs, log))
    (hpieces : distribute w (own implementation.children) 0 runs (own definition.children) =
      some (List.zipWith attach (own definition.children) pieces, total))
    (hl : pieces.length = (own definition.children).length)
    (hok : (scenario w property definition implementation).error = none) :
    let above := wrapper implementation ++ background definition.children
    let steps := own definition.children
    let handed := (List.replicate above.length [] ++ pieces).modifyLast
      (· ++ (own implementation.children).drop total)
    handed.length = (above ++ steps).length ∧
      handed.flatten = pieces.flatten ++ (own implementation.children).drop total ∧
      (scenario w property definition implementation).node =
        { definition with children := List.zipWith rebuild (above ++ steps) handed } := by
  intro above steps handed
  have hserved : above ++ List.zipWith attach steps pieces =
      List.zipWith attach (above ++ steps) (List.replicate above.length [] ++ pieces) := by
    rw [List.zipWith_append (by simp)]
    congr 1
    exact (List.ext_getElem (by simp) (by simp)).symm
  have habove :
      backgroundStep implementation.children ++ background definition.children = above := by
    rw [backgroundStep_eq]
  simp only [scenario, hruns, hpieces, habove] at hok ⊢
  rw [hserved] at hok ⊢
  split at hok
  · simp at hok
  · rename_i children hchildren
    obtain ⟨rfl, hflat⟩ := attachLast?_zipWith (by simp [steps, hl]) hchildren
    refine ⟨by simp [handed, steps, length_modifyLast, hl], by simpa [handed] using hflat, ?_⟩
    simp [handed, List.map_zipWith, fillVoid_attach]

/-- Merging a definition with its implementation loses, doubles and reorders no step. The offset
into the implementation is a machine word: the map adds up to less, and no list in memory is as
long. -/
theorem scenario_conserves_steps (w : Arithmetic) (property : String)
    (definition implementation : Node)
    (hmap : ∀ raw entries, implementation.properties.get? property = some raw →
      StepMap.counts (raw.toList.splitOn '-') = .ok entries → entries.sum < Text.wordLimit)
    (hlen : definition.children.length < Text.wordLimit)
    (hok : (scenario w property definition implementation).error = none) :
    let steps := definition.children.filter fun s => !s.background
    let above := wrapper implementation ++ definition.children.filter fun s => s.background
    let given := implementation.children.filter fun s => !s.background
    ∃ runs log, runsFor property implementation steps.length = .ok (runs, log) ∧
      runs.length = steps.length ∧
      (received above.length runs given).length = (above ++ steps).length ∧
      (received above.length runs given).flatten = given ∧
      (scenario w property definition implementation).node =
        { definition with
          children :=
            List.zipWith rebuild (above ++ steps) (received above.length runs given) } := by
  intro steps above given
  cases hruns : runsFor property implementation steps.length with
  | error e =>
      have herror : runsFor property implementation (own definition.children).length =
          .error e := hruns
      simp [scenario, herror] at hok
  | ok result =>
      obtain ⟨runs, log⟩ := result
      have hl : runs.length = steps.length := (runsFor_spec hruns).1
      have hsum := sum_runsFor_lt hruns hmap ((List.length_filter_le _ _).trans_lt hlen)
      have hpieces := distribute_eq w given steps runs 0 hl (by omega)
      rw [Nat.zero_add, List.drop_zero] at hpieces
      obtain ⟨hlength, hflatten, hnode⟩ :=
        scenario_of_pieces hruns hpieces ((List.length_splitLengths _ _).trans hl) hok
      refine ⟨runs, log, rfl, hl, hlength, ?_, hnode⟩
      exact hflatten.trans (flatten_splitLengths_append_drop runs given)

/-- The first step takes nothing, and the second takes two steps and the one that is left. -/
theorem scenario_conserves_steps_with_map :
    let step (name : String) (background : Bool) : Node :=
      ⟨{ Label.plain .step name with background }, [], none⟩
    let definition : Node :=
      ⟨.plain .scenario "d", [step "a" false, step "b" true, step "c" false], none⟩
    let implementation : Node :=
      ⟨{ Label.plain .scenario "i" with properties := Properties.empty.insert "map" "0-1" },
        [step "x" false, step "y" true, step "z" false], none⟩
    (scenario .checked "map" definition implementation).error = none ∧
      (scenario .checked "map" definition implementation).node.children =
        wrapper implementation ++ [rebuild (step "b" true) [], rebuild (step "a" false) [],
          rebuild (step "c" false) [step "x" false, step "z" false]] := by
  intro step definition implementation
  have hok : (scenario .checked "map" definition implementation).error = none := by
    decide +kernel
  have hmap : ∀ raw entries, implementation.properties.get? "map" = some raw →
      StepMap.counts (raw.toList.splitOn '-') = .ok entries → entries.sum < Text.wordLimit := by
    intro raw entries hraw hc
    obtain rfl : "0-1" = raw := Option.some.inj hraw
    obtain rfl : [0, 1] = entries := Except.ok.inj hc
    decide
  obtain ⟨runs, log, hruns, -, -, -, hnode⟩ :=
    scenario_conserves_steps .checked "map" definition implementation hmap (by decide) hok
  obtain rfl : [0, 1] = runs := congrArg Prod.fst (Except.ok.inj hruns)
  exact ⟨hok, hnode ▸ rfl⟩

end FeaturePlan.Merge
