import FeaturePlan.Proofs.Plan.Faults
import Mathlib.Data.List.Perm.Basic

/-! # Warnings of a redefinition

Candidates without an id are passed over with a warning. Every pass looks for nodes of another kind
or in another role, and sees each of them once; merging and clearing warn of no ids. So there is
one warning for each role of a node without an id. -/

namespace FeaturePlan

def LogEvent.IsIdWarning (e : LogEvent) : Prop :=
  e.level = .warn ∧ e.message = "scenario not having a unique id; it will be ignored"

instance (e : LogEvent) : Decidable e.IsIdWarning :=
  inferInstanceAs (Decidable (_ ∧ _))

theorem LogEvent.isIdWarning_iff {e : LogEvent} :
    e.IsIdWarning ↔ ∃ source name, e = .idMissing source name := by
  cases e <;> simp [IsIdWarning, level, message]

def Node.idWarning? (n : Node) : Option LogEvent :=
  if n.id = none then some (.idMissing n.locator n.displayName) else none

def WarnsOfNoId (log : List LogEvent) : Prop :=
  ∀ e ∈ log, ¬e.IsIdWarning

theorem WarnsOfNoId.append {log more : List LogEvent} (h : WarnsOfNoId log)
    (hmore : WarnsOfNoId more) : WarnsOfNoId (log ++ more) :=
  List.forall_mem_append.mpr ⟨h, hmore⟩

theorem WarnsOfNoId.filter {log : List LogEvent} (h : WarnsOfNoId log) :
    log.filter (fun e => decide e.IsIdWarning) = [] :=
  List.filter_eq_nil_iff.mpr fun e he => by simpa using h e he

/-! ## Merges -/

namespace Merge

theorem warnsOfNoId_runsFor {property : String} {implementation : Node} {steps : Nat}
    {runs : List Nat} {log : List LogEvent}
    (h : runsFor property implementation steps = .ok (runs, log)) : WarnsOfNoId log := by
  rw [runsFor] at h
  split at h
  · obtain ⟨-, rfl⟩ := Prod.mk.inj (Except.ok.inj h)
    simp [WarnsOfNoId]
  · split at h
    · cases h
    · obtain ⟨-, rfl⟩ := Prod.mk.inj (Except.ok.inj h)
      simp [WarnsOfNoId, LogEvent.isIdWarning_iff]
    · obtain ⟨-, rfl⟩ := Prod.mk.inj (Except.ok.inj h)
      simp [WarnsOfNoId]

theorem warnsOfNoId_scenario (w : Arithmetic) (property : String)
    (definition implementation : Node) :
    WarnsOfNoId (scenario w property definition implementation).log := by
  simp only [scenario]
  split
  · simp [WarnsOfNoId]
  · rename_i runs log hruns
    have hlog : WarnsOfNoId log := warnsOfNoId_runsFor hruns
    split
    · exact hlog
    · split
      · exact hlog
      · exact hlog.append (by simp [WarnsOfNoId, LogEvent.isIdWarning_iff])

theorem warnsOfNoId_pairwise (w : Arithmetic) (property : String)
    (definitions implementations : List Node) :
    WarnsOfNoId (pairwise w property definitions implementations).2.1 := by
  induction definitions generalizing implementations with
  | nil => simp [pairwise, WarnsOfNoId]
  | cons d ds ih =>
    cases implementations with
    | nil => simp [pairwise, WarnsOfNoId]
    | cons i is =>
      have hfirst := warnsOfNoId_scenario w property d i
      simp only [pairwise]
      split
      · exact hfirst
      · exact hfirst.append (ih is)

theorem warnsOfNoId_outline (w : Arithmetic) (property : String)
    (definition implementation : Node) :
    WarnsOfNoId (outline w property definition implementation).log :=
  warnsOfNoId_pairwise w property _ _

end Merge

namespace Redefinition

theorem andThen_log {r : Redefinition} {next : List Node → Redefinition}
    (h : (r.andThen next).error = none) :
    (r.andThen next).log = r.log ++ (next r.features).log := by
  simp only [andThen, ((andThen_error r next).mp h).1]

theorem warnsOfNoId_mergeEach {merge : Node → Node → Merge}
    {missing : String → NodeRef → RedefinitionError}
    (hmerge : ∀ d i, WarnsOfNoId (merge d i).log) (implementations definitions : List Candidate)
    (fs : List Node) :
    WarnsOfNoId (mergeEach merge missing implementations definitions fs).log := by
  induction definitions generalizing fs with
  | nil => simp [mergeEach, unchanged, WarnsOfNoId]
  | cons d ds ih =>
    simp only [mergeEach]
    split
    · simp [WarnsOfNoId]
    · split
      · exact ih fs
      · simp only [andThen]
        split
        · exact hmerge _ _
        · exact (hmerge _ _).append (ih _)

/-! ## Collecting -/

/-- A collection that comes to its end has warned of all nodes without an id. -/
theorem collectFrom_log (tag : String) (entries : List (Address × Node)) (found : List Candidate)
    (h : (collectFrom tag found entries).2.2 = none) :
    (collectFrom tag found entries).2.1 = (entries.map Prod.snd).filterMap Node.idWarning? := by
  induction entries generalizing found with
  | nil => rfl
  | cons e entries ih =>
    obtain ⟨a, n⟩ := e
    cases hid : n.id with
    | none =>
      simp only [collectFrom, hid] at h ⊢
      simp [ih found h, Node.idWarning?, hid]
    | some id =>
      cases hfind : found.find? fun c => decide (c.id = id) with
      | some first => simp [collectFrom, hid, hfind] at h
      | none =>
        simp only [collectFrom, hid, hfind] at h ⊢
        simp [ih _ h, Node.idWarning?, hid]

/-- The warnings about the children of features of a kind that have a tag. -/
def passWarnings (features : List Node) (kind : NodeKind) (tag : String) : List LogEvent :=
  (bearers features kind tag).filterMap Node.idWarning?

section
variable {w : Arithmetic} {c : RedefinitionConfig} {features : List Node}

/-- The warnings of a pass are those about the nodes of its kind and tag, as the plan held them at
the beginning. -/
theorem withCandidates_log {now : List Node} (hlabels : labels now = labels features)
    {kind : NodeKind} {tag : String} {next : List Candidate → Redefinition}
    (h : (withCandidates now kind tag next).error = none) :
    (withCandidates now kind tag next).log = passWarnings features kind tag ++
      (next ((carriers features kind tag).filterMap candidate)).log := by
  obtain ⟨hnone, hfound⟩ := collectFrom_spec tag (carriers features kind tag) [] List.nodup_nil
  have hnodup := ((withCandidates_error hlabels kind tag next).mp h).1
  have hended := hnone.mpr (by simpa using hnodup)
  have hlog := collectFrom_log tag (carriers features kind tag) [] hended
  simp only [withCandidates, collect_eq hlabels] at h ⊢
  rw [andThen_log h, hlog, hfound hended, map_snd_carriers]
  rfl

theorem filter_passWarnings (features : List Node) (kind : NodeKind) (tag : String) :
    (passWarnings features kind tag).filter (fun e => decide e.IsIdWarning) =
      passWarnings features kind tag := by
  refine List.filter_eq_self.mpr fun e he => ?_
  obtain ⟨n, -, hn⟩ := List.mem_filterMap.mp he
  obtain ⟨-, hevent⟩ := Option.ite_none_right_eq_some.mp hn
  obtain rfl := Option.some.inj hevent
  exact decide_eq_true (LogEvent.isIdWarning_iff.mpr ⟨_, _, rfl⟩)

/-- The passes of a run and the merges between them, by their logs. -/
theorem run_log (henabled : c.enabled = true) (herror : (run w c features).error = none) :
    (run w c features).log =
      passWarnings features .outline c.implementationTag ++
      (passWarnings features .scenario c.implementationTag ++
      (passWarnings features .scenario c.definitionTag ++
      ((scenarioMerges w c features).log ++
      (passWarnings features .outline c.definitionTag ++
      (outlineMerges w c features).log)))) := by
  simp only [run, henabled, Bool.not_true, Bool.false_eq_true, if_false] at herror ⊢
  have hscenarios := ((withCandidates_error rfl _ _ _).mp herror).2
  have hdefinitions := ((withCandidates_error labels_cleared _ _ _).mp hscenarios).2
  have hmerges := ((withCandidates_error labels_cleared _ _ _).mp hdefinitions).2
  have houtlines := ((andThen_error _ _).mp hmerges).2
  have hremoval := ((withCandidates_error labels_scenarioMerges _ _ _).mp houtlines).2
  refine (withCandidates_log rfl herror).trans (congrArg _ ?_)
  refine (withCandidates_log labels_cleared hscenarios).trans (congrArg _ ?_)
  refine (withCandidates_log labels_cleared hdefinitions).trans (congrArg _ ?_)
  refine (andThen_log hmerges).trans (congrArg _ ?_)
  refine (withCandidates_log labels_scenarioMerges houtlines).trans (congrArg _ ?_)
  exact (andThen_log hremoval).trans (List.append_nil _)

/-! ## Nodes without an id -/

/-- The tags of the two roles that a scenario or an outline can have. -/
def roleTags (c : RedefinitionConfig) : List String :=
  [c.definitionTag, c.implementationTag]

/-- The warnings for a child of a feature: if it is a scenario or an outline and has no id, one for
each role whose tag it has. -/
def idWarnings (c : RedefinitionConfig) (n : Node) : List LogEvent :=
  if (n.kind = .scenario ∨ n.kind = .outline) ∧ n.id = none then
    ((roleTags c).filter n.hasTag).map fun _ => .idMissing n.locator n.displayName
  else []

def passWarning (kind : NodeKind) (tag : String) (n : Node) : List LogEvent :=
  if n.kind = kind ∧ n.hasTag tag = true then n.idWarning?.toList else []

theorem passWarnings_eq (features : List Node) (kind : NodeKind) (tag : String) :
    passWarnings features kind tag =
      (features.flatMap (·.children)).flatMap (passWarning kind tag) := by
  rw [passWarnings, bearers, List.filterMap_filter, List.filterMap_eq_flatMap_toList]
  refine List.flatMap_congr fun n _ => ?_
  by_cases h : n.kind = kind ∧ n.hasTag tag = true
  · simp [passWarning, h]
  · simp [passWarning, h]

theorem passWarning_perm (c : RedefinitionConfig) (n : Node) :
    (passWarning .outline c.implementationTag n ++ (passWarning .scenario c.implementationTag n ++
      (passWarning .scenario c.definitionTag n ++ passWarning .outline c.definitionTag n))).Perm
      (idWarnings c n) := by
  cases hid : n.id with
  | some id => simp [passWarning, idWarnings, Node.idWarning?, hid]
  | none =>
    cases hkind : n.kind with
    | scenario | outline =>
      cases hd : n.hasTag c.definitionTag <;> cases hi : n.hasTag c.implementationTag <;>
        simp [passWarning, idWarnings, Node.idWarning?, roleTags, hid, hkind, hd, hi]
    | _ => simp [passWarning, idWarnings, hkind]

end

/-- A run that goes through warns of ids that are missing once for each role of each scenario and
each outline without an id, and of nothing else: there is one warning for the node with each of the
two tags that it has. Only the children of features count, not the scenarios of outlines. -/
theorem run_warns_of_missing_ids {w : Arithmetic} {c : RedefinitionConfig} {features : List Node}
    (henabled : c.enabled = true) (herror : (run w c features).error = none) :
    ((run w c features).log.filter fun e => decide e.IsIdWarning).Perm
      (features.flatMap fun f => f.children.flatMap (idWarnings c)) := by
  have hscenarios : WarnsOfNoId (scenarioMerges w c features).log :=
    warnsOfNoId_mergeEach (Merge.warnsOfNoId_scenario _ _) _ _ _
  have houtlines : WarnsOfNoId (outlineMerges w c features).log :=
    warnsOfNoId_mergeEach (Merge.warnsOfNoId_outline _ _) _ _ _
  rw [run_log henabled herror]
  simp only [List.filter_append, filter_passWarnings, hscenarios.filter, houtlines.filter,
    List.nil_append, List.append_nil]
  rw [← List.flatMap_assoc]
  simp only [passWarnings_eq]
  generalize features.flatMap (·.children) = ns
  -- the passes one after the other, against one look at each child
  have hall := List.Perm.flatMap_left ns fun n _ => passWarning_perm c n
  refine .trans (.append_left _ ?_) ((List.flatMap_append_perm ns _ _).trans hall)
  refine .trans (.append_left _ ?_) (List.flatMap_append_perm ns _ _)
  exact List.flatMap_append_perm ns _ _

/-- An outline without an id that both implements and defines, with a scenario that has its tags,
and next to it a scenario with an id. -/
theorem run_warns_of_missing_ids_twice :
    let c := RedefinitionConfig.standard
    let label : Label :=
      { Label.plain .outline "O" with tags := [c.definitionTag, c.implementationTag] }
    let scenario : Node := ⟨{ label with kind := .scenario }, [], none⟩
    let outline : Node := ⟨label, [scenario], some ⟨[], [], []⟩⟩
    let other : Node := ⟨{ scenario.toLabel with id := some "1", tags := [] }, [], none⟩
    let features : List Node := [⟨.plain .feature "F", [outline, other], none⟩]
    let warning := LogEvent.idMissing outline.locator outline.displayName
    c.enabled = true ∧ (run .checked c features).error = none ∧
      ((run .checked c features).log.filter fun e => decide e.IsIdWarning).Perm
        [warning, warning] := by
  intro c label scenario outline other features warning
  have herror : (run .checked c features).error = none := by decide +kernel
  have hwarnings : (features.flatMap fun f => f.children.flatMap (idWarnings c)) =
      [warning, warning] := by
    decide +kernel
  exact ⟨rfl, herror, hwarnings ▸ run_warns_of_missing_ids rfl herror⟩

end Redefinition

end FeaturePlan
