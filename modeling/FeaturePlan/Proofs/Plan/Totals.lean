import FeaturePlan.Proofs.Plan.Faults

/-! # Totals beyond a machine word

Each number of a step map fits into a word, and their sum need not. Where it does not, a program
with overflow checks panics. Without them the total starts again from a small number, and from there
on the steps of the implementation are given out once more. -/

namespace FeaturePlan

namespace Merge

theorem runsFor_lt {property : String} {implementation : Node} {steps : Nat} {runs : List Nat}
    {log : List LogEvent} (h : runsFor property implementation steps = .ok (runs, log)) :
    ∀ run ∈ runs, run < Text.wordLimit := by
  have hones : ∀ run ∈ List.replicate steps 1, run < Text.wordLimit := by
    intro run hrun
    obtain rfl : run = 1 := List.eq_of_mem_replicate hrun
    decide
  have hyields := yields_runsFor property implementation steps
  rw [h] at hyields
  generalize implementation.properties.get? property = text at hyields
  cases hyields with
  | missing => exact hones
  | faulty => exact hones
  | runs hfits hentries =>
    intro run hrun
    cases List.mem_append.mp hrun with
    | inl hread => exact StepMap.lt_of_forall₂_isEntry hentries run hread
    | inr hzero =>
      obtain rfl := List.eq_of_mem_replicate hzero
      decide

/-! ## Running totals -/

def addRun (total run : Nat) : Nat :=
  (total + run) % Text.wordLimit

theorem addRun_of_lt {taken run : Nat} (h : taken + run < Text.wordLimit) :
    addRun taken run = taken + run :=
  Nat.mod_eq_of_lt h

theorem addRun_of_le {taken run : Nat} (ht : taken < Text.wordLimit) (hr : run < Text.wordLimit)
    (h : Text.wordLimit ≤ taken + run) : addRun taken run = taken + run - Text.wordLimit := by
  rw [addRun, Nat.mod_eq_sub_mod h]
  exact Nat.mod_eq_of_lt (by omega)

theorem addRun_lt (taken run : Nat) : addRun taken run < Text.wordLimit :=
  Nat.mod_lt _ (by decide)

/-- The total that is kept when the step with a number is reached. -/
def totalBefore (taken : Nat) (runs : List Nat) (k : Nat) : Nat :=
  (runs.take k).foldl addRun taken

@[simp] theorem totalBefore_zero (taken : Nat) (runs : List Nat) :
    totalBefore taken runs 0 = taken := by
  simp [totalBefore]

@[simp] theorem totalBefore_succ (taken run : Nat) (runs : List Nat) (k : Nat) :
    totalBefore taken (run :: runs) (k + 1) = totalBefore (addRun taken run) runs k := rfl

/-- What each step of the definition is given: the steps behind the total of the runs before. -/
def shares (given : List Node) (taken : Nat) (runs : List Nat) : List (List Node) :=
  runs.mapIdx fun k run => (given.drop (totalBefore taken runs k)).take run

theorem shares_cons (given : List Node) (taken run : Nat) (runs : List Nat) :
    shares given taken (run :: runs) =
      (given.drop taken).take run :: shares given (addRun taken run) runs := by
  simp [shares, List.mapIdx_cons]

@[simp] theorem length_shares (given : List Node) (taken : Nat) (runs : List Nat) :
    (shares given taken runs).length = runs.length := by
  simp [shares]

theorem distribute_wrapping (given steps : List Node) (runs : List Nat) (taken : Nat)
    (hl : runs.length = steps.length) :
    distribute .wrapping given taken runs steps = some
      (List.zipWith attach steps (shares given taken runs),
        totalBefore taken runs runs.length) := by
  induction steps generalizing runs taken with
  | nil =>
      obtain rfl : runs = [] := List.length_eq_zero_iff.mp hl
      simp [distribute]
  | cons step steps ih =>
      obtain _ | ⟨run, runs⟩ := runs
      · simp at hl
      · have hrest := ih runs (addRun taken run) (by simpa using hl)
        have hadd : Arithmetic.wrapping.add? taken run = some (addRun taken run) :=
          add?_wrapping taken run
        simp [distribute, hadd, hrest, shares_cons]

/-! ## Starting again -/

/-- The totals that are left where a sum does not fit into a word. -/
def restarts (taken : Nat) : List Nat → List Nat
  | [] => []
  | run :: runs =>
    if taken + run < Text.wordLimit then restarts (taken + run) runs
    else (taken + run - Text.wordLimit) :: restarts (taken + run - Text.wordLimit) runs

section

variable {taken : Nat} {runs : List Nat}

/-- Totals start again once for each time that a word is filled. -/
theorem length_restarts (ht : taken < Text.wordLimit) (hr : ∀ run ∈ runs, run < Text.wordLimit) :
    (restarts taken runs).length = (taken + runs.sum) / Text.wordLimit := by
  induction runs generalizing taken with
  | nil => simp [restarts, Nat.div_eq_of_lt ht]
  | cons run runs ih =>
      obtain ⟨hrun, hr⟩ := List.forall_mem_cons.mp hr
      rw [List.sum_cons, ← Nat.add_assoc, restarts]
      split
      · rename_i hlt
        exact ih hlt hr
      · rename_i hle
        have hsum : taken + run + runs.sum =
            taken + run - Text.wordLimit + runs.sum + Text.wordLimit := by omega
        rw [List.length_cons, ih (by omega) hr, hsum, Nat.add_div_right _ (by decide)]

theorem totals_fit_iff_restarts (ht : taken < Text.wordLimit)
    (hr : ∀ run ∈ runs, run < Text.wordLimit) :
    (∀ (k : Nat) (h : k < runs.length), totalBefore taken runs k + runs[k] < Text.wordLimit) ↔
      restarts taken runs = [] := by
  induction runs generalizing taken with
  | nil => simp [restarts]
  | cons run runs ih =>
      obtain ⟨hrun, hr⟩ := List.forall_mem_cons.mp hr
      constructor
      · intro hfit
        have hlt : taken + run < Text.wordLimit := hfit 0 (Nat.succ_pos _)
        rw [restarts, if_pos hlt]
        refine (ih hlt hr).mp fun k hk => ?_
        rw [← addRun_of_lt hlt]
        exact hfit (k + 1) (Nat.succ_lt_succ hk)
      · intro hnil
        have hlt : taken + run < Text.wordLimit := by
          by_contra hle
          simp [restarts, hle] at hnil
        rw [restarts, if_pos hlt] at hnil
        rintro (_ | k) hk
        · exact hlt
        · rw [totalBefore_succ, addRun_of_lt hlt]
          exact (ih hlt hr).mpr hnil k (Nat.lt_of_succ_lt_succ hk)

/-- Every total that is kept is exact if, and only if, the sum of all runs fits into a word. -/
theorem totals_fit_iff_sum_lt (ht : taken < Text.wordLimit)
    (hr : ∀ run ∈ runs, run < Text.wordLimit) :
    (∀ (k : Nat) (h : k < runs.length), totalBefore taken runs k + runs[k] < Text.wordLimit) ↔
      taken + runs.sum < Text.wordLimit := by
  rw [totals_fit_iff_restarts ht hr, ← List.length_eq_zero_iff, length_restarts ht hr,
    Nat.div_eq_zero_iff]
  simp [show Text.wordLimit ≠ 0 by decide]

/-- Together the shares are the rest of the implementation, and from each total that starts again
all of it that stands behind that total. -/
theorem flatten_shares {given : List Node} (hlen : given.length ≤ Text.wordLimit)
    (ht : taken < Text.wordLimit) (hr : ∀ run ∈ runs, run < Text.wordLimit) :
    (shares given taken runs).flatten ++ given.drop (totalBefore taken runs runs.length) =
      given.drop taken ++ (restarts taken runs).flatMap given.drop := by
  induction runs generalizing taken with
  | nil => simp [shares, restarts]
  | cons run runs ih =>
      obtain ⟨hrun, hr⟩ := List.forall_mem_cons.mp hr
      rw [shares_cons, restarts, List.length_cons, totalBefore_succ, List.flatten_cons,
        List.append_assoc, ih (addRun_lt taken run) hr]
      split
      · rename_i hlt
        rw [addRun_of_lt hlt, ← List.append_assoc, ← List.drop_drop, List.take_append_drop]
      · rename_i hle
        -- The share reaches beyond the last step, so it is all that is left.
        rw [addRun_of_le ht hrun (by omega), List.take_of_length_le (by simp; omega),
          List.flatMap_cons]

end

/-! ## Merging -/

/-- What the rebuilt children receive, with the totals as they are kept. -/
def handedOut (above : Nat) (runs : List Nat) (given : List Node) : List (List Node) :=
  (List.replicate above [] ++ shares given 0 runs).modifyLast
    (· ++ given.drop (totalBefore 0 runs runs.length))

/-- Where the runs fit into a word, it makes no difference how larger sums would be computed. -/
theorem scenario_eq_of_sum_lt {property : String} {definition implementation : Node}
    {runs : List Nat} {log : List LogEvent}
    (hruns : runsFor property implementation (own definition.children).length = .ok (runs, log))
    (hsum : runs.sum < Text.wordLimit) (w w' : Arithmetic) :
    scenario w property definition implementation =
      scenario w' property definition implementation := by
  have hl := (runsFor_spec hruns).1
  have hfits : 0 + runs.sum < Text.wordLimit := by omega
  simp only [scenario, hruns, distribute_eq _ _ _ _ _ hl hfits]

theorem scenario_error_ne_panic {w : Arithmetic} {property : String}
    {definition implementation : Node} {runs : List Nat} {log : List LogEvent}
    (hruns : runsFor property implementation (own definition.children).length = .ok (runs, log))
    (hsum : runs.sum < Text.wordLimit) :
    (scenario w property definition implementation).error ≠ some .panic := by
  obtain ⟨served, hserved⟩ := (exists_served_iff (w := w) hruns).mpr fun _ => hsum
  simp only [scenario, hruns, hserved]
  split <;> simp

/-- The totals kept while a definition is merged stay within a machine word if, and only if, the
runs in force add up to less than one holds. Otherwise a program that checks its arithmetic panics,
and leaves the definition without children. One that does not check it hands the implementation out
once more for each time that the sum fills a word, from the total that is left on. No list in memory
is longer than a word counts. -/
theorem scenario_panics_or_hands_out_again (property : String) (definition implementation : Node)
    (runs : List Nat) (log : List LogEvent)
    (hruns : runsFor property implementation (own definition.children).length = .ok (runs, log))
    (hlen : implementation.children.length ≤ Text.wordLimit) :
    let steps := definition.children.filter fun s => !s.background
    let above := wrapper implementation ++ definition.children.filter fun s => s.background
    let given := implementation.children.filter fun s => !s.background
    let checked := scenario .checked property definition implementation
    let wrapped := scenario .wrapping property definition implementation
    (Text.wordLimit ≤ runs.sum →
        checked = ⟨{ definition with children := [] }, log, some .panic⟩) ∧
      (runs.sum < Text.wordLimit → checked.error ≠ some .panic ∧ checked = wrapped) ∧
      ((∀ (k : Nat) (h : k < runs.length), totalBefore 0 runs k + runs[k] < Text.wordLimit) ↔
        runs.sum < Text.wordLimit) ∧
      (restarts 0 runs).length = runs.sum / Text.wordLimit ∧
      (wrapped.error = none →
        (handedOut above.length runs given).length = (above ++ steps).length ∧
        (handedOut above.length runs given).flatten =
          given ++ (restarts 0 runs).flatMap given.drop ∧
        wrapped.node =
          { definition with
            children :=
              List.zipWith rebuild (above ++ steps) (handedOut above.length runs given) }) := by
  intro steps above given checked wrapped
  have hr := runsFor_lt hruns
  have hl : runs.length = steps.length := (runsFor_spec hruns).1
  have hzero : 0 < Text.wordLimit := by decide
  refine ⟨scenario_panics hruns,
    fun hsum => ⟨scenario_error_ne_panic hruns hsum, scenario_eq_of_sum_lt hruns hsum _ _⟩,
    by simpa using totals_fit_iff_sum_lt hzero hr, by simpa using length_restarts hzero hr,
    fun hok => ?_⟩
  have hpieces := distribute_wrapping given steps runs 0 hl
  obtain ⟨hlength, hflatten, hnode⟩ :=
    scenario_of_pieces hruns hpieces ((length_shares _ _ _).trans hl) hok
  have hfew : given.length ≤ Text.wordLimit := (List.length_filter_le _ _).trans hlen
  exact ⟨hlength, hflatten.trans (flatten_shares hfew hzero hr), hnode⟩

/-- The second step of the definition fills the word. Where that is no reason to panic, the first
one has both steps of the implementation by then, and the third and the fourth are given them
again. -/
theorem scenario_panics_or_hands_out_again_twice :
    let step (name : String) : Node := ⟨.plain .step name, [], none⟩
    let definition : Node :=
      ⟨.plain .scenario "d", [step "a", step "b", step "c", step "d"], none⟩
    let implementation : Node :=
      ⟨{ Label.plain .scenario "i" with
          properties := Properties.empty.insert "map" "2-18446744073709551614-1-1" },
        [step "x", step "y"], none⟩
    scenario .checked "map" definition implementation =
        ⟨{ definition with children := [] }, [], some .panic⟩ ∧
      (scenario .wrapping "map" definition implementation).node =
        { definition with
          children := [rebuild (step "a") [step "x", step "y"], rebuild (step "b") [],
            rebuild (step "c") [step "x"], rebuild (step "d") [step "y"]] } := by
  intro step definition implementation
  have hruns : runsFor "map" implementation (own definition.children).length =
      .ok ([2, 18446744073709551614, 1, 1], []) := by decide +kernel
  have hok : (scenario .wrapping "map" definition implementation).error = none := by
    decide +kernel
  obtain ⟨hpanic, -, -, -, hmerged⟩ := scenario_panics_or_hands_out_again "map" definition
    implementation _ _ hruns (by decide)
  obtain ⟨-, -, hnode⟩ := hmerged hok
  refine ⟨hpanic (by decide), ?_⟩
  rw [hnode]
  decide +kernel

/-- Each of these numbers can be read and there is one for each step, but the first two fill a word.
That is a panic, or the only step of the implementation ends up below the first step and again below
the last. -/
theorem scenario_leaves_word :
    let step (name : String) : Node := ⟨.plain .step name, [], none⟩
    let definition : Node := ⟨.plain .scenario "d", [step "a", step "b", step "c"], none⟩
    let implementation : Node :=
      ⟨{ Label.plain .scenario "i" with
          properties := Properties.empty.insert "map" "18446744073709551615-1-1" },
        [step "x"], none⟩
    let runs := [18446744073709551615, 1, 1]
    runsFor "map" implementation (own definition.children).length = .ok (runs, []) ∧
      (¬ ∀ (k : Nat) (h : k < runs.length), totalBefore 0 runs k + runs[k] < Text.wordLimit) ∧
      (scenario .checked "map" definition implementation).error = some .panic ∧
      (scenario .wrapping "map" definition implementation).error = none ∧
      (scenario .wrapping "map" definition implementation).node.children =
        [rebuild (step "a") [step "x"], rebuild (step "b") [], rebuild (step "c") [step "x"]] := by
  refine ⟨by decide +kernel, fun hfit => ?_, by decide +kernel, by decide +kernel,
    by decide +kernel⟩
  have hsecond := hfit 1 (by decide)
  exact absurd hsecond (by decide)

end Merge

end FeaturePlan
