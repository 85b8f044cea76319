import FeaturePlan.Proofs.Plan.Faults

/-! # Steps that no run takes

The steps of an implementation that no run takes go to the last child of the merged scenario. That
is a step of the definition wherever it has one. A definition without any step leaves them to the
virtual step that is there for the background of the implementation. -/

namespace FeaturePlan.Merge

/-! ## Pieces -/

theorem add?_le {w : Arithmetic} {m n total : Nat} (h : w.add? m n = some total) :
    total ≤ m + n := by
  unfold Arithmetic.add? at h
  split at h
  · exact (Option.some.inj h).ge
  · cases w with
    | checked => cases h
    | wrapping => exact Option.some.inj h ▸ Nat.mod_le _ _

/-- However sums are computed, each step receives steps of the implementation, and none of these is
passed over: a total that starts again starts at a smaller number. -/
theorem exists_pieces {w : Arithmetic} {given steps served : List Node} {taken total : Nat}
    {runs : List Nat} (h : distribute w given taken runs steps = some (served, total)) :
    ∃ pieces : List (List Node), pieces.length = steps.length ∧
      served = List.zipWith attach steps pieces ∧
      (∀ piece ∈ pieces, ∀ s ∈ piece, s ∈ given) ∧
      ∀ s ∈ given.drop taken, s ∈ pieces.flatten ∨ s ∈ given.drop total := by
  induction steps generalizing taken runs served with
  | nil =>
      obtain ⟨rfl, rfl⟩ := Prod.mk.inj (Option.some.inj h)
      exact ⟨[], rfl, rfl, by simp, fun s hs => .inr hs⟩
  | cons step steps ih =>
      obtain ⟨next, rest, hnext, hrest, rfl⟩ := distribute_cons.mp h
      obtain ⟨pieces, hlength, rfl, hgiven, hall⟩ := ih hrest
      refine ⟨(given.drop taken).take (runs.headD 0) :: pieces, by simp [hlength], rfl, ?_,
        fun s hs => ?_⟩
      · refine List.forall_mem_cons.mpr ⟨fun s hs => ?_, hgiven⟩
        exact List.mem_of_mem_drop (List.mem_of_mem_take hs)
      · rw [← List.take_append_drop (runs.headD 0) (given.drop taken), List.drop_drop] at hs
        rw [List.flatten_cons]
        rcases List.mem_append.mp hs with hs | hs
        · exact .inl (List.mem_append_left _ hs)
        · have hsmaller := List.drop_subset_drop_left given (add?_le hnext) hs
          exact (hall s hsmaller).imp_left (List.mem_append_right _)

theorem attachLast?_append {before steps : List Node} (more : List Node) (h : steps ≠ []) :
    attachLast? (before ++ steps) more = (attachLast? steps more).map (before ++ ·) := by
  obtain ⟨steps, last, rfl⟩ := (List.eq_nil_or_concat' steps).resolve_left h
  cases more <;> simp [attachLast?, ← List.append_assoc]

/-! ## Rebuilt steps -/

theorem map_fillVoid (steps : List Node) :
    steps.map fillVoid = steps.map fun step => rebuild step [] := by
  refine List.map_congr_left fun step _ => ?_
  rw [← fillVoid_attach, attach_nil]

theorem fillVoid_of_ne_nil {step : Node} (h : step.children ≠ []) : fillVoid step = step :=
  if_neg (by simpa [Node.isLeaf] using h)

theorem wrapper_of_eq_nil {implementation : Node} (h : background implementation.children = []) :
    wrapper implementation = [] := by
  change (implementation.children.filter fun s => s.background) = [] at h
  simp only [wrapper, h, List.isEmpty_nil, if_true]

theorem wrapper_of_ne_nil {implementation : Node} (h : background implementation.children ≠ []) :
    wrapper implementation =
      [{ Node.virtual "<background>" with
          background := true
          children := background implementation.children }] :=
  if_neg fun hempty => h (List.isEmpty_iff.mp hempty)

/-- The virtual step is there for the sake of the steps below it, so that it is never void. -/
theorem map_rebuild_wrapper (implementation : Node) :
    (wrapper implementation).map (fun w => rebuild w []) = wrapper implementation := by
  by_cases h : background implementation.children = []
  · simp [wrapper_of_eq_nil h]
  · simp [wrapper_of_ne_nil h, rebuild, h]

section

variable {w : Arithmetic} {property : String} {definition implementation : Node}

/-- What a scenario is merged to once its steps are given out: there may be no child that could take
what is left. -/
theorem scenario_of_served {runs : List Nat} {log : List LogEvent} {served : List Node}
    {total : Nat}
    (hruns : runsFor property implementation (own definition.children).length = .ok (runs, log))
    (hserved : distribute w (own implementation.children) 0 runs (own definition.children) =
      some (served, total))
    {attached : Option (List Node)}
    (hattached : attachLast?
      (wrapper implementation ++ background definition.children ++ served)
      ((own implementation.children).drop total) = attached) :
    (scenario w property definition implementation).error =
        (if attached.isSome then none else some (.error (.noSteps definition.ref))) ∧
      (scenario w property definition implementation).node.children =
        (attached.getD []).map fillVoid := by
  simp only [scenario, hruns, hserved, backgroundStep_eq, hattached]
  cases attached <;> exact ⟨rfl, rfl⟩

/-- Where the step map fits, and the sum of the runs or the arithmetic, all steps are given out. -/
theorem exists_served (hfits : MapFits property definition implementation)
    (hsum : w = .checked → RunsFit property definition implementation) :
    ∃ runs log served total,
      runsFor property implementation (own definition.children).length = .ok (runs, log) ∧
      distribute w (own implementation.children) 0 runs (own definition.children) =
        some (served, total) := by
  obtain ⟨⟨runs, log⟩, hruns⟩ := exists_runsFor_eq_ok.mpr hfits
  have hruns : runsFor property implementation (own definition.children).length =
      .ok (runs, log) := hruns
  obtain ⟨⟨served, total⟩, hserved⟩ :=
    (exists_served_iff hruns).mpr fun hw => hsum hw runs log hruns
  exact ⟨runs, log, served, total, hruns, hserved⟩

/-- Checked arithmetic panics where the runs do not fit into a word. -/
theorem scenario_of_not_runsFit (hsum : ¬RunsFit property definition implementation) :
    (scenario .checked property definition implementation).error = some .panic := by
  obtain ⟨runs, log, hruns, hle⟩ : ∃ runs log, runsFor property implementation
      (own definition.children).length = .ok (runs, log) ∧ Text.wordLimit ≤ runs.sum := by
    simpa [RunsFit, own] using hsum
  rw [scenario_panics hruns hle]

/-- A definition with steps of its own receives all steps of an implementation below these. -/
theorem scenario_of_own_steps (hfits : MapFits property definition implementation)
    (hsum : w = .checked → RunsFit property definition implementation)
    (hsteps : own definition.children ≠ []) :
    (scenario w property definition implementation).error = none ∧
      ∃ pieces : List (List Node), pieces.length = (own definition.children).length ∧
        (∀ s, s ∈ own implementation.children ↔ ∃ piece ∈ pieces, s ∈ piece) ∧
        (scenario w property definition implementation).node.children =
          wrapper implementation ++
            (background definition.children).map (fun step => rebuild step []) ++
            List.zipWith rebuild (own definition.children) pieces := by
  obtain ⟨runs, log, served, total, hruns, hdistribute⟩ := exists_served hfits hsum
  obtain ⟨pieces, hpieces, rfl, hgiven, hall⟩ := exists_pieces hdistribute
  let given := own implementation.children
  let served := List.zipWith attach (own definition.children) pieces
  have hserved : served ≠ [] := by
    rw [← List.length_pos_iff, List.length_zipWith, hpieces, Nat.min_self]
    exact List.length_pos_iff.mpr hsteps
  obtain ⟨last, hlast⟩ : ∃ children, attachLast? served (given.drop total) = some children := by
    rw [← Option.ne_none_iff_exists', ne_eq, attachLast?_eq_none]
    exact fun h => hserved h.1
  obtain ⟨rfl, hflat⟩ := attachLast?_zipWith hpieces.symm hlast
  obtain ⟨herror, hchildren⟩ := scenario_of_served hruns hdistribute
    ((attachLast?_append _ hserved).trans (congrArg _ hlast))
  refine ⟨herror, pieces.modifyLast (· ++ given.drop total), ?_, fun s => ?_, ?_⟩
  · rw [length_modifyLast, hpieces]
  · rw [← List.mem_flatten, hflat, List.mem_append]
    constructor
    · exact fun hs => hall s hs
    · rintro (hs | hs)
      · obtain ⟨piece, hpiece, hs⟩ := List.mem_flatten.mp hs
        exact hgiven piece hpiece s hs
      · exact List.mem_of_mem_drop hs
  · rw [hchildren]
    simp [map_fillVoid, map_rebuild_wrapper, List.map_zipWith, fillVoid_attach]

/-- Where a definition has no step outside of its background, no run takes anything. -/
theorem scenario_of_no_own_steps (hfits : MapFits property definition implementation)
    (hsum : w = .checked → RunsFit property definition implementation)
    (hsteps : own definition.children = []) {attached : Option (List Node)}
    (hattached : attachLast? (wrapper implementation ++ background definition.children)
      (own implementation.children) = attached) :
    (scenario w property definition implementation).error =
        (if attached.isSome then none else some (.error (.noSteps definition.ref))) ∧
      (scenario w property definition implementation).node.children =
        (attached.getD []).map fillVoid := by
  obtain ⟨runs, log, served, total, hruns, hserved⟩ := exists_served hfits hsum
  obtain ⟨rfl, rfl⟩ : [] = served ∧ 0 = total := by simpa [hsteps, distribute] using hserved
  exact scenario_of_served hruns hserved (by simpa using hattached)

end

/-- A merge that succeeds has a step map that fits and, with checked arithmetic, runs that add up to
less than a machine word holds; a larger sum is a panic. Then the virtual step for the background of
an implementation holds nothing else, and all other steps end up below steps of the definition,
wherever the definition has a step: those outside of its background share them, and where there are
none the last step of its background takes all. If the definition has no step at all, an
implementation with a background leaves everything to the virtual step, and only one without a
background is refused. -/
theorem wrapper_holds_background_unless_alone (w : Arithmetic) (property : String)
    (definition implementation : Node) :
    let flagged := implementation.children.filter fun s => s.background
    let given := implementation.children.filter fun s => !s.background
    let before := definition.children.filter fun s => s.background
    let steps := definition.children.filter fun s => !s.background
    let merged := scenario w property definition implementation
    (merged.error = none → MapFits property definition implementation ∧
      (w = .checked → RunsFit property definition implementation)) ∧
    (w = .checked → ¬RunsFit property definition implementation → merged.error = some .panic) ∧
    (MapFits property definition implementation →
      (w = .checked → RunsFit property definition implementation) →
      (steps ≠ [] → merged.error = none ∧
        ∃ pieces : List (List Node), pieces.length = steps.length ∧
          (∀ s, s ∈ given ↔ ∃ piece ∈ pieces, s ∈ piece) ∧
          merged.node.children = wrapper implementation ++
            before.map (fun step => rebuild step []) ++ List.zipWith rebuild steps pieces) ∧
      (∀ above last, steps = [] → before = above ++ [last] → merged.error = none ∧
        merged.node.children = wrapper implementation ++
          above.map (fun step => rebuild step []) ++ [rebuild last given]) ∧
      (definition.children = [] → flagged ≠ [] → merged.error = none ∧
        merged.node.children =
          [{ Node.virtual "<background>" with
              background := true
              children := flagged ++ given }]) ∧
      (definition.children = [] → flagged = [] → given ≠ [] →
        merged.error = some (.error (.noSteps definition.ref)))) := by
  intro flagged given before steps merged
  refine ⟨fun hmerged => ?_, fun hw hsum => ?_, fun hfits hsum => ?_⟩
  · obtain ⟨hfits, -, hsum⟩ := scenario_error.mp hmerged
    exact ⟨hfits, hsum⟩
  · subst hw
    exact scenario_of_not_runsFit hsum
  refine ⟨scenario_of_own_steps hfits hsum, fun above last hsteps hbefore => ?_,
    fun hnone hsome => ?_, fun hnone hflagged hgiven => ?_⟩
  · have hattached : attachLast? (wrapper implementation ++ before) given =
        some (wrapper implementation ++ (above ++ [attach last given])) := by
      rw [attachLast?_append _ (by simp [hbefore]), hbefore]
      cases given <;> simp [attachLast?]
    obtain ⟨herror, hchildren⟩ := scenario_of_no_own_steps hfits hsum hsteps hattached
    refine ⟨herror, hchildren.trans ?_⟩
    simp [map_fillVoid, map_rebuild_wrapper, fillVoid_attach]
  · obtain ⟨hbefore, hsteps⟩ := background_own_eq_nil.mpr hnone
    have hattached : attachLast? (wrapper implementation ++ before) given =
        some ((wrapper implementation).map fun w => attach w given) := by
      rw [show before = [] from hbefore, List.append_nil, wrapper_of_ne_nil hsome]
      cases given <;> simp [attachLast?]
    obtain ⟨herror, hchildren⟩ := scenario_of_no_own_steps hfits hsum hsteps hattached
    have hheld : flagged ++ given ≠ [] := List.append_ne_nil_of_left_ne_nil hsome given
    refine ⟨herror, hchildren.trans ?_⟩
    rw [wrapper_of_ne_nil hsome]
    exact congrArg (fun w => [w]) (fillVoid_of_ne_nil hheld)
  · obtain ⟨hbefore, hsteps⟩ := background_own_eq_nil.mpr hnone
    have hattached : attachLast? (wrapper implementation ++ before) given = none := by
      rw [show before = [] from hbefore, wrapper_of_eq_nil hflagged]
      exact attachLast?_eq_none.mpr ⟨rfl, hgiven⟩
    exact (scenario_of_no_own_steps hfits hsum hsteps hattached).1

/-- The steps of an implementation with a background and a map, below the two steps of a definition
that has a background as well. -/
theorem wrapper_holds_background_unless_alone_with_map :
    let step (name : String) (background : Bool) : Node :=
      ⟨{ Label.plain .step name with background }, [], none⟩
    let definition : Node :=
      ⟨.plain .scenario "d", [step "a" true, step "b" false, step "c" false], none⟩
    let implementation : Node :=
      ⟨{ Label.plain .scenario "i" with properties := Properties.empty.insert "map" "2" },
        [step "w" true, step "x" false, step "y" false, step "z" false], none⟩
    MapFits "map" definition implementation ∧ RunsFit "map" definition implementation ∧
      (scenario .checked "map" definition implementation).error = none ∧
      ∃ pieces : List (List Node), pieces.length = 2 ∧
        (∀ s, s ∈ [step "x" false, step "y" false, step "z" false] ↔ ∃ piece ∈ pieces, s ∈ piece) ∧
        (scenario .checked "map" definition implementation).node.children =
          wrapper implementation ++ [rebuild (step "a" true) []] ++
            List.zipWith rebuild [step "b" false, step "c" false] pieces := by
  intro step definition implementation
  have hfits : MapFits "map" definition implementation := by decide +kernel
  have hsum : RunsFit "map" definition implementation := by decide +kernel
  obtain ⟨-, -, hmerged⟩ :=
    wrapper_holds_background_unless_alone .checked "map" definition implementation
  exact ⟨hfits, hsum, (hmerged hfits fun _ => hsum).1 (by decide +kernel)⟩

/-- The definition has no step, and the step of the implementation ends up with its background. -/
theorem wrapper_holds_more_than_background :
    let step (name : String) (background : Bool) : Node :=
      ⟨{ Label.plain .step name with background }, [], none⟩
    let definition : Node := ⟨.plain .scenario "d", [], none⟩
    let implementation : Node :=
      ⟨.plain .scenario "i", [step "w" true, step "x" false], none⟩
    (scenario .checked "map" definition implementation).error = none ∧
      ∃ w, (scenario .checked "map" definition implementation).node.children = [w] ∧
        w.name = backgroundName ∧ step "x" false ∈ w.children ∧
        w.children ≠ implementation.children.filter (fun s => s.background) ∧
        ¬ ∀ s ∈ w.children, s.background = true := by
  intro step definition implementation
  refine ⟨by decide +kernel,
    { Node.virtual "<background>" with
      background := true
      children := [step "w" true, step "x" false] }, ?_⟩
  decide +kernel

end FeaturePlan.Merge
