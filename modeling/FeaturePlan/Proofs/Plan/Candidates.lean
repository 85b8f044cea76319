import FeaturePlan.Plan.Redefine
import Mathlib.Data.List.Nodup
import Mathlib.Data.List.Pairwise

/-! # The passes of a redefinition

Redefinition goes over one plan several times and rewrites it on the way. No pass changes what a
node says of itself, so every pass finds the candidates that stood in the plan at the beginning;
and a merge changes no node but its definition, so every merge reads the nodes as they were. -/

namespace FeaturePlan

def Node.shell (n : Node) : Node :=
  { n with children := [] }

theorem Node.toLabel_eq_of_shell_eq {m n : Node} (h : m.shell = n.shell) :
    m.toLabel = n.toLabel := by
  simp only [shell, mk.injEq] at h
  exact h.1

namespace Redefinition

/-! ## Addresses -/

theorem mem_numbered {feature k : Nat} {ns : List Node} {a : Address} {n : Node} :
    (a, n) ∈ numbered feature k ns ↔
      a.feature = feature ∧ k ≤ a.child ∧ ns[a.child - k]? = some n := by
  obtain ⟨i, j⟩ := a
  induction ns generalizing k with
  | nil => simp [numbered]
  | cons m ns ih =>
    rw [numbered, List.mem_cons, ih, Prod.mk.injEq, Address.mk.injEq]
    rcases Nat.lt_trichotomy j k with hlt | rfl | hlt
    · simp [show j ≠ k by omega, show ¬k + 1 ≤ j by omega, show ¬k ≤ j by omega]
    · simp only [Nat.not_succ_le_self, Nat.le_refl, Nat.sub_self, List.getElem?_cons_zero,
        Option.some.injEq, false_and, and_false, or_false, true_and, and_true, eq_comm (a := n)]
    · obtain ⟨d, rfl⟩ : ∃ d, j = k + 1 + d := ⟨j - k - 1, by omega⟩
      simp [show k + 1 + d ≠ k by omega, show k + 1 + d - k = d + 1 by omega,
        show k ≤ k + 1 + d by omega]

theorem mem_addressed {k : Nat} {fs : List Node} {a : Address} {n : Node} :
    (a, n) ∈ addressed k fs ↔
      k ≤ a.feature ∧ node? fs ⟨a.feature - k, a.child⟩ = some n := by
  obtain ⟨i, j⟩ := a
  induction fs generalizing k with
  | nil => simp [addressed, node?]
  | cons f fs ih =>
    rw [addressed, List.mem_append, mem_numbered, ih]
    rcases Nat.lt_trichotomy i k with hlt | rfl | hlt
    · simp [show i ≠ k by omega, show ¬k + 1 ≤ i by omega, show ¬k ≤ i by omega]
    · simp only [node?, Nat.not_succ_le_self, Nat.le_refl, Nat.zero_le, Nat.sub_self, Nat.sub_zero,
        List.getElem?_cons_zero, Option.bind_some, false_and, or_false, true_and]
    · obtain ⟨d, rfl⟩ : ∃ d, i = k + 1 + d := ⟨i - k - 1, by omega⟩
      simp [node?, show k + 1 + d ≠ k by omega, show k + 1 + d - k = d + 1 by omega,
        show k ≤ k + 1 + d by omega]

theorem mem_addressed_iff {fs : List Node} {a : Address} {n : Node} :
    (a, n) ∈ addressed 0 fs ↔ node? fs a = some n :=
  mem_addressed.trans (by simp)

theorem node_unique {fs : List Node} {a : Address} {m n : Node} (hm : (a, m) ∈ addressed 0 fs)
    (hn : (a, n) ∈ addressed 0 fs) : m = n :=
  Option.some.inj ((mem_addressed_iff.mp hm).symm.trans (mem_addressed_iff.mp hn))

theorem map_snd_numbered (feature k : Nat) (ns : List Node) :
    (numbered feature k ns).map Prod.snd = ns := by
  induction ns generalizing k with
  | nil => rfl
  | cons n ns ih => simp [numbered, ih]

theorem map_snd_addressed (k : Nat) (fs : List Node) :
    (addressed k fs).map Prod.snd = fs.flatMap (·.children) := by
  induction fs generalizing k with
  | nil => rfl
  | cons f fs ih => simp [addressed, map_snd_numbered, ih]

theorem node?_modify (fs : List Node) (a b : Address) (g : Node → Node) :
    node? (modify fs a g) b = if a = b then (node? fs b).map g else node? fs b := by
  obtain ⟨i, j⟩ := a
  obtain ⟨i', j'⟩ := b
  simp only [node?, modify, List.getElem?_modify, Address.mk.injEq]
  by_cases hi : i = i'
  · subst hi
    cases fs[i]? with
    | none => simp
    | some f =>
      by_cases hj : j = j' <;> simp [hj]
  · simp [hi]

theorem node?_modify_of_ne {fs : List Node} {a b : Address} {g : Node → Node} (h : a ≠ b) :
    node? (modify fs a g) b = node? fs b := by
  rw [node?_modify, if_neg h]

/-! ## Labels -/

def labels (features : List Node) : List (List Label) :=
  features.map fun f => f.children.map Node.toLabel

theorem map_toLabel_modify {g : Node → Node} (ns : List Node) (k : Nat)
    (hg : ∀ n, ns[k]? = some n → (g n).toLabel = n.toLabel) :
    (ns.modify k g).map Node.toLabel = ns.map Node.toLabel := by
  refine List.ext_getElem? fun j => ?_
  simp only [List.getElem?_map, List.getElem?_modify]
  by_cases hk : k = j
  · subst hk
    cases hn : ns[k]? with
    | none => simp
    | some n => simp [hg n hn]
  · simp [hk]

/-- A change that keeps the label of the node keeps all labels. -/
theorem labels_modify {g : Node → Node} (fs : List Node) (a : Address)
    (hg : ∀ n, node? fs a = some n → (g n).toLabel = n.toLabel) :
    labels (modify fs a g) = labels fs := by
  refine List.ext_getElem? fun i => ?_
  simp only [labels, modify, List.getElem?_map, List.getElem?_modify]
  by_cases hi : a.feature = i
  · subst hi
    cases hf : fs[a.feature]? with
    | none => simp
    | some f =>
      have hchildren := map_toLabel_modify f.children a.child fun n hn =>
        hg n (by simp [node?, hf, hn])
      simp [hchildren]
  · simp [hi]

def seen (e : Address × Node) : Address × Label :=
  (e.1, e.2.toLabel)

theorem seen_numbered {ns ms : List Node} (h : ns.map Node.toLabel = ms.map Node.toLabel)
    (feature k : Nat) :
    (numbered feature k ns).map seen = (numbered feature k ms).map seen := by
  induction ns generalizing ms k with
  | nil =>
    obtain rfl : ms = [] := by simpa using h.symm
    rfl
  | cons n ns ih =>
    cases ms with
    | nil => simp at h
    | cons m ms =>
      obtain ⟨hn, hns⟩ := List.cons.inj h
      simp only [numbered, List.map_cons, ih hns, seen, hn]

theorem seen_addressed {fs gs : List Node} (h : labels fs = labels gs) (k : Nat) :
    (addressed k fs).map seen = (addressed k gs).map seen := by
  induction fs generalizing gs k with
  | nil =>
    obtain rfl : gs = [] := by simpa [labels] using h.symm
    rfl
  | cons f fs ih =>
    cases gs with
    | nil => simp [labels] at h
    | cons g gs =>
      obtain ⟨hf, hfs⟩ := List.cons.inj h
      simp only [addressed, List.map_append, seen_numbered hf, ih hfs]

theorem seen_carriers {fs gs : List Node} (h : labels fs = labels gs) (kind : NodeKind)
    (tag : String) : (carriers fs kind tag).map seen = (carriers gs kind tag).map seen := by
  have hcarriers (hs : List Node) : (carriers hs kind tag).map seen =
      ((addressed 0 hs).map seen).filter fun e => e.2.kind = kind && e.2.tags.contains tag := by
    rw [List.filter_map]
    rfl
  rw [hcarriers, hcarriers, seen_addressed h]

/-! ## Collecting -/

def candidate (e : Address × Node) : Option Candidate :=
  e.2.id.map fun id => ⟨id, e.1, e.2.ref⟩

/-- The ids of nodes, those of some nodes that have none left out. -/
def ids (entries : List (Address × Node)) : List String :=
  entries.filterMap (·.2.id)

theorem map_id_candidates (entries : List (Address × Node)) :
    (entries.filterMap candidate).map (·.id) = ids entries := by
  simp only [ids, List.map_filterMap]
  congr 1
  funext e
  simp only [candidate]
  cases e.2.id <;> rfl

theorem collectFrom_congr (tag : String) {l l' : List (Address × Node)}
    (h : l.map seen = l'.map seen) (found : List Candidate) :
    collectFrom tag found l = collectFrom tag found l' := by
  induction l generalizing l' found with
  | nil =>
    obtain rfl : l' = [] := by simpa using h.symm
    rfl
  | cons e l ih =>
    cases l' with
    | nil => simp at h
    | cons e' l' =>
      obtain ⟨he, hl⟩ := List.cons.inj h
      obtain ⟨a, ⟨label, children, outline⟩⟩ := e
      obtain ⟨a', ⟨label', children', outline'⟩⟩ := e'
      obtain ⟨rfl, rfl⟩ := Prod.mk.inj he
      simp only [collectFrom, ih hl]
      rfl

theorem collectFrom_spec (tag : String) (l : List (Address × Node)) (found : List Candidate)
    (hfound : (found.map (·.id)).Nodup) :
    ((collectFrom tag found l).2.2 = none ↔ (found.map (·.id) ++ ids l).Nodup) ∧
      ((collectFrom tag found l).2.2 = none →
        (collectFrom tag found l).1 = found ++ l.filterMap candidate) := by
  induction l generalizing found with
  | nil => simp [collectFrom, ids, hfound]
  | cons e l ih =>
    obtain ⟨a, n⟩ := e
    cases hid : n.id with
    | none => simpa [collectFrom, hid, ids, candidate] using ih found hfound
    | some id =>
      cases hfind : found.find? fun c => decide (c.id = id) with
      | some first =>
        have hmem : id ∈ found.map (·.id) :=
          List.mem_map.mpr ⟨first, List.mem_of_find?_eq_some hfind,
            by simpa using List.find?_some hfind⟩
        have htwice : ¬(found.map (·.id) ++ ids ((a, n) :: l)).Nodup := by
          intro hnodup
          exact List.disjoint_of_nodup_append hnodup hmem (by simp [ids, hid])
        simp [collectFrom, hid, hfind, htwice]
      | none =>
        have hnew : id ∉ found.map (·.id) := by simpa using hfind
        have hnodup : ((found ++ [(⟨id, a, n.ref⟩ : Candidate)]).map (·.id)).Nodup := by
          simpa [List.nodup_append, hfound] using hnew
        have hrest := ih _ hnodup
        rw [List.map_append, List.append_assoc, List.append_assoc] at hrest
        simpa [collectFrom, hid, hfind, ids, candidate] using hrest

theorem andThen_error (r : Redefinition) (next : List Node → Redefinition) :
    (r.andThen next).error = none ↔ r.error = none ∧ (next r.features).error = none := by
  simp only [andThen]
  cases h : r.error <;> simp [h]

theorem andThen_features {r : Redefinition} {next : List Node → Redefinition}
    (h : (r.andThen next).error = none) :
    (r.andThen next).features = (next r.features).features := by
  simp only [andThen, ((andThen_error r next).mp h).1]

/-- Every pass collects the candidates of the plan at the beginning. -/
theorem collect_eq {features now : List Node} (h : labels now = labels features) (kind : NodeKind)
    (tag : String) : collect now kind tag = collectFrom tag [] (carriers features kind tag) :=
  collectFrom_congr tag (seen_carriers h kind tag) []

theorem withCandidates_error {features now : List Node} (h : labels now = labels features)
    (kind : NodeKind) (tag : String) (next : List Candidate → Redefinition) :
    (withCandidates now kind tag next).error = none ↔
      (ids (carriers features kind tag)).Nodup ∧
        (next ((carriers features kind tag).filterMap candidate)).error = none := by
  obtain ⟨herror, hfound⟩ := collectFrom_spec tag (carriers features kind tag) [] List.nodup_nil
  simp only [List.map_nil, List.nil_append] at herror hfound
  simp only [withCandidates, collect_eq h, andThen_error, Option.map_eq_none_iff, ← herror]
  exact and_congr_right fun hnone => by rw [hfound hnone]

theorem withCandidates_features {features now : List Node} (h : labels now = labels features)
    {kind : NodeKind} {tag : String} {next : List Candidate → Redefinition}
    (herror : (withCandidates now kind tag next).error = none) :
    (withCandidates now kind tag next).features =
      (next ((carriers features kind tag).filterMap candidate)).features := by
  obtain ⟨hnone, hfound⟩ := collectFrom_spec tag (carriers features kind tag) [] List.nodup_nil
  have hnodup := ((withCandidates_error h kind tag next).mp herror).1
  have hfound := hfound (hnone.mpr (by simpa using hnodup))
  simp only [withCandidates, collect_eq h] at herror ⊢
  rw [andThen_features herror, hfound]
  rfl

/-! ## Clearing -/

theorem labels_clear (found : List Candidate) (fs : List Node) :
    labels (clear fs found) = labels fs := by
  induction found generalizing fs with
  | nil => rfl
  | cons c found ih => exact (ih _).trans (labels_modify fs c.address fun _ _ => rfl)

theorem node?_clear (found : List Candidate) (fs : List Node) (a : Address) :
    node? (clear fs found) a =
      if a ∈ found.map (·.address) then (node? fs a).map fun n => { n with children := [] }
      else node? fs a := by
  induction found generalizing fs with
  | nil => rfl
  | cons c found ih =>
    have hstep : node? (clear fs (c :: found)) a =
        node? (clear (modify fs c.address fun n => { n with children := [] }) found) a := rfl
    rw [hstep, ih, node?_modify]
    by_cases hc : c.address = a
    · subst hc
      cases node? fs c.address <;> simp
    · simp [hc, Ne.symm hc]

/-! ## Merging -/

def bare (features : List Node) : List Node :=
  features.map Node.shell

theorem bare_modify (fs : List Node) (a : Address) (g : Node → Node) :
    bare (modify fs a g) = bare fs := by
  refine List.ext_getElem? fun i => ?_
  simp only [bare, modify, List.getElem?_map, List.getElem?_modify]
  cases fs[i]? with
  | none => simp
  | some f => by_cases hi : a.feature = i <;> simp [hi, Node.shell]

theorem bare_clear (found : List Candidate) (fs : List Node) : bare (clear fs found) = bare fs := by
  induction found generalizing fs with
  | nil => rfl
  | cons c found ih => exact (ih _).trans (bare_modify fs c.address _)

/-- The node with which the definition of an id is merged, as the plan holds it. -/
def source? (implementations : List Candidate) (features : List Node) (id : String) :
    Option Node :=
  (implementations.find? fun c => decide (c.id = id)).bind fun c => node? features c.address

/-- Definitions have ids and addresses of their own, and an implementation at the address of a
definition has its id. -/
structure Separate (implementations definitions : List Candidate) : Prop where
  ids : (definitions.map (·.id)).Nodup
  addresses : (definitions.map (·.address)).Nodup
  shared : ∀ i ∈ implementations, ∀ d ∈ definitions, i.address = d.address → i.id = d.id

theorem Separate.tail {implementations ds : List Candidate} {d : Candidate}
    (h : Separate implementations (d :: ds)) : Separate implementations ds where
  ids := (List.nodup_cons.mp h.ids).2
  addresses := (List.nodup_cons.mp h.addresses).2
  shared i hi e he := h.shared i hi e (List.mem_cons_of_mem d he)

theorem Separate.address_ne {implementations ds : List Candidate} {d e : Candidate}
    (h : Separate implementations (d :: ds)) (he : e ∈ ds) : d.address ≠ e.address := by
  intro heq
  exact (List.nodup_cons.mp h.addresses).1 (List.mem_map.mpr ⟨e, he, heq.symm⟩)

/-- A change of one definition does not reach what the others are merged with. -/
theorem Separate.source?_modify {implementations ds : List Candidate} {d e : Candidate}
    (h : Separate implementations (d :: ds)) (he : e ∈ ds) (fs : List Node) (g : Node → Node) :
    source? implementations (modify fs d.address g) e.id = source? implementations fs e.id := by
  simp only [source?]
  cases hc : implementations.find? fun c => decide (c.id = e.id) with
  | none => rfl
  | some c =>
    refine node?_modify_of_ne fun haddress => ?_
    have hce : c.id = e.id := by simpa using List.find?_some hc
    have hcd : c.id = d.id :=
      h.shared c (List.mem_of_find?_eq_some hc) d List.mem_cons_self haddress.symm
    exact (List.nodup_cons.mp h.ids).1 (List.mem_map.mpr ⟨e, he, hce.symm.trans hcd⟩)

section
variable {merge : Node → Node → Merge} {missing : String → NodeRef → RedefinitionError}

/-- What no single merge changes is the same after all of them. -/
theorem mergeEach_keeps {β : Type} (view : List Node → β)
    (hview : ∀ fs a target source, node? fs a = some target →
      view (modify fs a fun _ => (merge target source).node) = view fs)
    (implementations definitions : List Candidate) (fs : List Node) :
    view (mergeEach merge missing implementations definitions fs).features = view fs := by
  induction definitions generalizing fs with
  | nil => rfl
  | cons d ds ih =>
    simp only [mergeEach]
    split
    · rfl
    · rename_i source _
      split
      · exact ih fs
      · rename_i target htarget
        have hstep := hview fs d.address target source htarget
        simp only [andThen]
        split
        · exact hstep
        · exact (ih _).trans hstep

theorem labels_mergeEach (hmerge : ∀ d i, (merge d i).node.toLabel = d.toLabel)
    (implementations definitions : List Candidate) (fs : List Node) :
    labels (mergeEach merge missing implementations definitions fs).features = labels fs := by
  refine mergeEach_keeps labels (fun fs a target source htarget => ?_) _ _ _
  refine labels_modify fs a fun n hn => ?_
  obtain rfl : target = n := Option.some.inj (htarget.symm.trans hn)
  exact hmerge target source

theorem bare_mergeEach (implementations definitions : List Candidate) (fs : List Node) :
    bare (mergeEach merge missing implementations definitions fs).features = bare fs :=
  mergeEach_keeps bare (fun fs a _ _ _ => bare_modify fs a _) _ _ _

theorem node?_mergeEach (implementations definitions : List Candidate) (fs : List Node)
    {a : Address} (ha : a ∉ definitions.map (·.address)) :
    node? (mergeEach merge missing implementations definitions fs).features a = node? fs a := by
  induction definitions generalizing fs with
  | nil => rfl
  | cons d ds ih =>
    simp only [List.map_cons, List.mem_cons, not_or] at ha
    simp only [mergeEach]
    split
    · rfl
    · split
      · exact ih fs ha.2
      · simp only [andThen]
        split
        · exact node?_modify_of_ne (Ne.symm ha.1)
        · exact (ih _ ha.2).trans (node?_modify_of_ne (Ne.symm ha.1))

/-- A definition that has a source is merged with it, if it is still in the plan. -/
theorem mergeEach_cons_of_source {implementations ds : List Candidate} {d : Candidate}
    {fs : List Node} {source : Node} (h : source? implementations fs d.id = some source) :
    mergeEach merge missing implementations (d :: ds) fs =
      match node? fs d.address with
      | none => mergeEach merge missing implementations ds fs
      | some target =>
        (⟨modify fs d.address fun _ => (merge target source).node, (merge target source).log,
          (merge target source).error⟩ : Redefinition).andThen
            (mergeEach merge missing implementations ds) := by
  simp only [source?] at h
  cases htarget : node? fs d.address with
  | none => simp only [mergeEach, h, htarget]
  | some target => simp only [mergeEach, h, htarget]

/-- Merging goes through when every definition has an implementation with which it can be merged.
Nodes are read as they are before the first merge. -/
theorem mergeEach_error {implementations definitions : List Candidate}
    (h : Separate implementations definitions) (fs : List Node) :
    (mergeEach merge missing implementations definitions fs).error = none ↔
      ∀ d ∈ definitions, ∃ source, source? implementations fs d.id = some source ∧
        ∀ target, node? fs d.address = some target → (merge target source).error = none := by
  induction definitions generalizing fs with
  | nil => simp [mergeEach, unchanged]
  | cons d ds ih =>
    rw [List.forall_mem_cons]
    cases hsource : source? implementations fs d.id with
    | none =>
      rw [source?] at hsource
      simp [mergeEach, hsource]
    | some source =>
      rw [mergeEach_cons_of_source hsource]
      simp only [Option.some.injEq, exists_eq_left']
      cases htarget : node? fs d.address with
      | none => simp [ih h.tail fs]
      | some target =>
        simp only [Option.some.injEq, forall_eq', andThen_error, ih h.tail]
        refine and_congr_right fun _ => forall₂_congr fun e he => ?_
        rw [h.source?_modify he, node?_modify_of_ne (h.address_ne he)]

/-- After the merges the plan holds each definition merged with its implementation. -/
theorem node?_mergeEach_of_mem {implementations definitions : List Candidate}
    (h : Separate implementations definitions) (fs : List Node)
    (herror : (mergeEach merge missing implementations definitions fs).error = none)
    {d : Candidate} (hd : d ∈ definitions) {target source : Node}
    (htarget : node? fs d.address = some target)
    (hsource : source? implementations fs d.id = some source) :
    node? (mergeEach merge missing implementations definitions fs).features d.address =
      some (merge target source).node := by
  induction definitions generalizing fs with
  | nil => simp at hd
  | cons d' ds ih =>
    obtain ⟨source', hsource', hmerge⟩ := (mergeEach_error h fs).mp herror d' List.mem_cons_self
    rw [mergeEach_cons_of_source hsource'] at herror ⊢
    cases htarget' : node? fs d'.address with
    | none =>
      simp only [htarget'] at herror ⊢
      rcases List.mem_cons.mp hd with rfl | hd
      · simp [htarget] at htarget'
      · exact ih h.tail fs herror hd htarget hsource
    | some target' =>
      have hok := hmerge target' htarget'
      simp only [htarget', andThen_error] at herror ⊢
      simp only [andThen, hok]
      rcases List.mem_cons.mp hd with rfl | hd
      · -- No later definition stands at this address.
        obtain rfl : target' = target := Option.some.inj (htarget'.symm.trans htarget)
        obtain rfl : source' = source := Option.some.inj (hsource'.symm.trans hsource)
        rw [node?_mergeEach _ _ _ (List.nodup_cons.mp h.addresses).1, node?_modify, if_pos rfl,
          htarget]
        rfl
      · refine ih h.tail _ herror.2 hd ?_ ?_
        · rwa [node?_modify_of_ne (h.address_ne hd)]
        · rwa [h.source?_modify hd]

/-! ## Merging what was collected -/

theorem mem_candidates {entries : List (Address × Node)} {c : Candidate} :
    c ∈ entries.filterMap candidate ↔
      ∃ e ∈ entries, e.2.id = some c.id ∧ c = ⟨c.id, e.1, e.2.ref⟩ := by
  simp only [List.mem_filterMap, candidate, Option.map_eq_some_iff]
  refine exists_congr fun e => and_congr_right fun _ => ⟨?_, fun ⟨hid, hc⟩ => ⟨c.id, hid, hc.symm⟩⟩
  rintro ⟨id, hid, rfl⟩
  exact ⟨hid, rfl⟩

/-- Where no id comes twice, an id belongs to one member of the list. -/
theorem id_unique {α : Type} {id? : α → Option String} {l : List α} (h : (l.filterMap id?).Nodup)
    {x y : α} (hx : x ∈ l) (hy : y ∈ l) {id : String} (hxid : id? x = some id)
    (hyid : id? y = some id) : x = y := by
  by_contra hne
  have : Std.Symm fun x y => ∀ b, id? x = some b → ∀ b', id? y = some b' → b ≠ b' :=
    ⟨fun _ _ h b hb b' hb' => (h b' hb' b hb).symm⟩
  exact (List.pairwise_filterMap.mp h).forall hx hy hne id hxid id hyid rfl

theorem find?_candidates {entries : List (Address × Node)} (hids : (ids entries).Nodup)
    {id : String} {c : Candidate} :
    (entries.filterMap candidate).find? (fun c => decide (c.id = id)) = some c ↔
      ∃ e ∈ entries, e.2.id = some id ∧ c = ⟨id, e.1, e.2.ref⟩ := by
  constructor
  · intro h
    obtain rfl : c.id = id := by simpa using List.find?_some h
    exact mem_candidates.mp (List.mem_of_find?_eq_some h)
  · rintro ⟨e, he, hid, rfl⟩
    cases hfind : (entries.filterMap candidate).find? fun c => decide (c.id = id) with
    | none =>
      have hmem : (⟨id, e.1, e.2.ref⟩ : Candidate) ∈ entries.filterMap candidate :=
        mem_candidates.mpr ⟨e, he, hid, rfl⟩
      simpa using List.find?_eq_none.mp hfind _ hmem
    | some c =>
      obtain rfl : c.id = id := by simpa using List.find?_some hfind
      obtain ⟨e', he', hid', hc⟩ := mem_candidates.mp (List.mem_of_find?_eq_some hfind)
      obtain rfl := id_unique hids he he' hid hid'
      rw [hc]

/-- Entries whose nodes the plan holds have addresses of their own if they have ids of their own. -/
theorem nodup_addresses {entries : List (Address × Node)} {now : List Node}
    {current : Node → Node} (hcurrent : ∀ n, (current n).id = n.id) (hids : (ids entries).Nodup)
    (hnow : ∀ e ∈ entries, node? now e.1 = some (current e.2)) :
    ((entries.filterMap candidate).map (·.address)).Nodup := by
  have hnodup : ((entries.filterMap candidate).map (·.id)).Nodup := by
    rwa [map_id_candidates]
  refine List.pairwise_map.mpr ((List.pairwise_map.mp hnodup).imp_of_mem ?_)
  intro c c' hc hc' hne haddress
  obtain ⟨e, he, hid, hce⟩ := mem_candidates.mp hc
  obtain ⟨e', he', hid', hce'⟩ := mem_candidates.mp hc'
  have heq : e.1 = e'.1 := by
    rw [hce, hce'] at haddress
    exact haddress
  have hnode : current e.2 = current e'.2 :=
    Option.some.inj ((hnow e he).symm.trans ((congrArg _ heq).trans (hnow e' he')))
  rw [← hcurrent, hnode, hcurrent] at hid
  exact hne (Option.some.inj (hid.symm.trans hid'))

/-- The implementation of an id is the entry of that id, as the plan now holds it. -/
theorem source?_eq_some_iff {entries : List (Address × Node)} {now : List Node}
    {current : Node → Node} (hids : (ids entries).Nodup)
    (hnow : ∀ e ∈ entries, node? now e.1 = some (current e.2)) {id : String} {source : Node} :
    source? (entries.filterMap candidate) now id = some source ↔
      ∃ e ∈ entries, e.2.id = some id ∧ current e.2 = source := by
  simp only [source?, Option.bind_eq_some_iff, find?_candidates hids]
  constructor
  · rintro ⟨c, ⟨e, he, hid, rfl⟩, hnode⟩
    rw [hnow e he] at hnode
    exact ⟨e, he, hid, Option.some.inj hnode⟩
  · rintro ⟨e, he, hid, rfl⟩
    exact ⟨_, ⟨e, he, hid, rfl⟩, hnow e he⟩

section
variable {definitions implementations : List (Address × Node)} {fs : List Node}
  {current : Node → Node}

/-- What was collected from one plan is separate: the node at an address has one id. -/
theorem separate_candidates (hcurrent : ∀ n, (current n).id = n.id)
    (hd : (ids definitions).Nodup)
    (hdefinitions : ∀ e ∈ definitions, node? fs e.1 = some (current e.2))
    (himplementations : ∀ e ∈ implementations, node? fs e.1 = some (current e.2)) :
    Separate (implementations.filterMap candidate) (definitions.filterMap candidate) where
  ids := by rwa [map_id_candidates]
  addresses := nodup_addresses hcurrent hd hdefinitions
  shared := by
    intro c hc c' hc' haddress
    obtain ⟨i, hi, hid, hci⟩ := mem_candidates.mp hc
    obtain ⟨d, hd, hid', hcd⟩ := mem_candidates.mp hc'
    rw [hci, hcd] at haddress
    have hnode : current i.2 = current d.2 :=
      Option.some.inj ((himplementations i hi).symm.trans
        ((congrArg _ haddress).trans (hdefinitions d hd)))
    rw [← hcurrent, hnode, hcurrent] at hid
    exact Option.some.inj (hid.symm.trans hid')

/-- Merging the candidates of one pass goes through when every definition with an id has an
implementation of that id with which it can be merged. The plan holds the nodes that were collected
as `current` says. -/
theorem mergeEach_candidates (hcurrent : ∀ n, (current n).id = n.id)
    (hd : (ids definitions).Nodup) (hi : (ids implementations).Nodup)
    (hdefinitions : ∀ e ∈ definitions, node? fs e.1 = some (current e.2))
    (himplementations : ∀ e ∈ implementations, node? fs e.1 = some (current e.2)) :
    (mergeEach merge missing (implementations.filterMap candidate)
        (definitions.filterMap candidate) fs).error = none ↔
      ∀ d ∈ definitions, d.2.id.isSome = true →
        ∃ i ∈ implementations, i.2.id = d.2.id ∧
          (merge (current d.2) (current i.2)).error = none := by
  rw [mergeEach_error (separate_candidates hcurrent hd hdefinitions himplementations)]
  simp only [source?_eq_some_iff hi himplementations]
  constructor
  · intro h d hdmem hsome
    obtain ⟨id, hid⟩ := Option.isSome_iff_exists.mp hsome
    obtain ⟨_, ⟨i, himem, hiid, rfl⟩, hok⟩ :=
      h ⟨id, d.1, d.2.ref⟩ (mem_candidates.mpr ⟨d, hdmem, hid, rfl⟩)
    exact ⟨i, himem, hiid.trans hid.symm, hok _ (hdefinitions d hdmem)⟩
  · intro h c hc
    obtain ⟨d, hdmem, hid, hcd⟩ := mem_candidates.mp hc
    obtain ⟨i, himem, hiid, hok⟩ := h d hdmem (by simp [hid])
    refine ⟨current i.2, ⟨i, himem, hiid.trans hid, rfl⟩, fun target htarget => ?_⟩
    rw [hcd, hdefinitions d hdmem] at htarget
    exact Option.some.inj htarget ▸ hok

/-- After the merges of one pass the plan holds every definition with an id merged with its
implementation. -/
theorem node?_mergeEach_candidates (hcurrent : ∀ n, (current n).id = n.id)
    (hd : (ids definitions).Nodup) (hi : (ids implementations).Nodup)
    (hdefinitions : ∀ e ∈ definitions, node? fs e.1 = some (current e.2))
    (himplementations : ∀ e ∈ implementations, node? fs e.1 = some (current e.2))
    (herror : (mergeEach merge missing (implementations.filterMap candidate)
      (definitions.filterMap candidate) fs).error = none)
    {d i : Address × Node} (hdmem : d ∈ definitions) (himem : i ∈ implementations)
    (hsome : d.2.id.isSome = true) (hid : i.2.id = d.2.id) :
    node? (mergeEach merge missing (implementations.filterMap candidate)
        (definitions.filterMap candidate) fs).features d.1 =
      some (merge (current d.2) (current i.2)).node := by
  obtain ⟨id, hdid⟩ := Option.isSome_iff_exists.mp hsome
  have hcandidate : (⟨id, d.1, d.2.ref⟩ : Candidate) ∈ definitions.filterMap candidate :=
    mem_candidates.mpr ⟨d, hdmem, hdid, rfl⟩
  exact node?_mergeEach_of_mem (separate_candidates hcurrent hd hdefinitions himplementations) fs
    herror hcandidate (hdefinitions d hdmem)
    ((source?_eq_some_iff hi himplementations).mpr ⟨i, himem, hid.trans hdid, rfl⟩)

end

end

end Redefinition

end FeaturePlan
