import FeaturePlan.Proofs.Plan.WellFormed
import Mathlib.Data.Finset.Card
import Mathlib.Data.List.Induction

/-! # Elements with several ids

A document compiles unless an element of it has several ids. Only the element's own tags count,
each once. The elements are looked at from the top: the feature comes first, then its scenarios and
outlines, whether the filter lets them through or not. -/

namespace FeaturePlan

/-! ## Elements -/

def Tag.bare (t : Tag) : String :=
  String.ofList ((Text.after? ['@'] t.name.toList).getD t.name.toList)

/-- What the label of a child is made from. A background has none. -/
def Child.element? : Child → Option Element
  | .background _ => none
  | .scenario s => some ⟨s.toHeading, s.tags, s.comments⟩
  | .outline o => some ⟨o.toHeading, o.tags, o.comments⟩

def Feature.element (f : Feature) : Element :=
  ⟨f.toHeading, f.tags, f.comments⟩

/-- The elements of a document from its first line to its last. -/
def Document.elements (d : Document) : List Element :=
  match d.feature with
  | none => []
  | some f => f.element :: f.children.filterMap Child.element?

namespace Compiler

/-- One of the element's own tags has this name, and it is an id. -/
def IsIdOf (c : Compiler) (e : Element) (name : String) : Prop :=
  (∃ t ∈ e.tags, t.bare = name) ∧ c.isId name = true

def IsAmbiguous (c : Compiler) (e : Element) : Prop :=
  ∃ name other, c.IsIdOf e name ∧ c.IsIdOf e other ∧ name ≠ other

/-- The ids among the element's own tags, as they are met for the first time. -/
structure AreIdsOf (c : Compiler) (e : Element) (found : List String) : Prop where
  mem : ∀ name, name ∈ found ↔ c.IsIdOf e name
  order : found.Pairwise fun name later =>
    (e.tags.map Tag.bare).idxOf name < (e.tags.map Tag.bare).idxOf later

variable {c : Compiler} {resource : String} {e : Element} {error : PlanError}

/-! ## Names that are met for the first time -/

theorem pairwise_idxOf_eraseDups (names : List String) :
    names.eraseDups.Pairwise fun name later => names.idxOf name < names.idxOf later := by
  -- From the right: a name that is added at the end moves none of those that are there.
  induction names using List.reverseRecOn with
  | nil => exact .nil
  | append_singleton names last ih =>
    have hkept : ∀ {name}, name ∈ names.eraseDups →
        (names ++ [last]).idxOf name = names.idxOf name := fun h =>
      List.idxOf_append_of_mem (List.mem_eraseDups.mp h)
    have ih : names.eraseDups.Pairwise fun name later =>
        (names ++ [last]).idxOf name < (names ++ [last]).idxOf later :=
      ih.imp_of_mem fun hname hlater h => by rwa [hkept hname, hkept hlater]
    rw [List.eraseDups_append]
    by_cases hlast : last ∈ names
    · have hnone : [last].removeAll names = [] := by simp [List.removeAll, hlast]
      simpa [hnone] using ih
    · have hone : ([last].removeAll names).eraseDups = [last] := by
        simp [List.removeAll, hlast, List.eraseDups_cons]
      rw [hone]
      refine List.pairwise_append.mpr
        ⟨ih, List.pairwise_singleton _ _, fun name hname later h => ?_⟩
      obtain rfl := List.mem_singleton.mp h
      rw [hkept hname, List.idxOf_append_of_notMem hlast]
      exact Nat.lt_add_right _ (List.idxOf_lt_length_of_mem (List.mem_eraseDups.mp hname))

theorem areIdsOf_names (c : Compiler) (e : Element) :
    c.AreIdsOf e ((Tag.names e.tags).filter c.isId) where
  mem name := by
    simp only [List.mem_filter, IsIdOf, and_congr_left_iff]
    intro _
    exact List.mem_eraseDups.trans List.mem_map
  order := (pairwise_idxOf_eraseDups _).filter _

theorem isAmbiguous_iff_length :
    c.IsAmbiguous e ↔ 1 < ((Tag.names e.tags).filter c.isId).length := by
  have hmem := (areIdsOf_names c e).mem
  have hnodup : ((Tag.names e.tags).filter c.isId).Nodup := (Tag.nodup_names e.tags).filter _
  rw [← List.toFinset_card_of_nodup hnodup, Finset.one_lt_card]
  simp only [List.mem_toFinset, hmem, IsAmbiguous, exists_and_left]

/-! ## The first element with several ids -/

def refusal (c : Compiler) (resource : String) (e : Element) : PlanError :=
  .ambiguousId e.heading.name (Source.text ⟨resource, e.heading.place⟩)
    ((Tag.names e.tags).filter c.isId)

def Refuses (c : Compiler) (resource : String) (elements : List Element) (error : PlanError) :
    Prop :=
  ∃ before e after, elements = before ++ e :: after ∧ (∀ b ∈ before, ¬c.IsAmbiguous b) ∧
    c.IsAmbiguous e ∧ error = c.refusal resource e

theorem not_refuses_nil : ¬c.Refuses resource [] error := by
  rintro ⟨before, e, after, h, -⟩
  simp at h

theorem refuses_cons {elements : List Element} :
    c.Refuses resource (e :: elements) error ↔
      (c.IsAmbiguous e ∧ error = c.refusal resource e) ∨
        ¬c.IsAmbiguous e ∧ c.Refuses resource elements error := by
  constructor
  · rintro ⟨before, a, after, h, hbefore, ha, herror⟩
    cases before with
    | nil =>
      obtain ⟨rfl, rfl⟩ := List.cons.inj h
      exact .inl ⟨ha, herror⟩
    | cons b before =>
      obtain ⟨rfl, rfl⟩ := List.cons.inj h
      exact .inr ⟨hbefore _ List.mem_cons_self,
        before, a, after, rfl, fun b hb => hbefore b (List.mem_cons_of_mem _ hb), ha, herror⟩
  · rintro (⟨he, herror⟩ | ⟨he, before, a, after, rfl, hbefore, ha, herror⟩)
    · exact ⟨[], e, elements, rfl, by simp, he, herror⟩
    · exact ⟨e :: before, a, after, rfl, List.forall_mem_cons.mpr ⟨he, hbefore⟩, ha, herror⟩

theorem exists_refuses_iff (resource : String) {elements : List Element} :
    (∃ error, c.Refuses resource elements error) ↔ ∃ e ∈ elements, c.IsAmbiguous e := by
  induction elements with
  | nil => simp [not_refuses_nil]
  | cons e elements ih =>
    simp only [refuses_cons, exists_or, exists_and_left, exists_eq, and_true, ih,
      List.exists_mem_cons_iff]
    tauto

/-! ## Compilation -/

theorem bind_eq_error_iff {α β : Type _} {x : Except PlanError α} {next : α → Except PlanError β} :
    x >>= next = .error error ↔ x = .error error ∨ ∃ a, x = .ok a ∧ next a = .error error := by
  cases x <;> simp [bind, Except.bind]

theorem label_eq_error_iff {kind : NodeKind} {language : String}
    {inherited : List String × Properties} :
    c.label kind resource e language inherited = .error error ↔
      c.IsAmbiguous e ∧ error = c.refusal resource e := by
  have hpure : c.label kind resource e language inherited = .error error ↔
      c.id (Tag.names e.tags) e.heading.name ⟨resource, e.heading.place⟩ = .error error := by
    simp [label, bind_eq_error_iff, pure, Except.pure]
  rw [hpure, isAmbiguous_iff_length, id, refusal]
  split
  next hfound => simp [hfound]
  next hfound => simp [hfound]
  next hnone hone =>
    rcases hfound : (Tag.names e.tags).filter c.isId with _ | ⟨first, _ | ⟨second, found⟩⟩
    · exact absurd hfound hnone
    · exact absurd hfound (hone first)
    · simp [eq_comm]

/-- What is compiled of an element and put before others: it is refused with the element. -/
theorem bind_label_eq_error_iff {α : Type _} {x : Except PlanError Label}
    {next : Label → Except PlanError α} {rest : Prop}
    (hx : ∀ error, x = .error error ↔ c.IsAmbiguous e ∧ error = c.refusal resource e)
    (hnext : ∀ l, next l = .error error ↔ rest) :
    x >>= next = .error error ↔
      (c.IsAmbiguous e ∧ error = c.refusal resource e) ∨ ¬c.IsAmbiguous e ∧ rest := by
  rw [bind_eq_error_iff, hx]
  refine or_congr_right ?_
  cases hl : x with
  | error found =>
    have he : c.IsAmbiguous e := ((hx found).mp hl).1
    simp [he]
  | ok l =>
    have he : ¬c.IsAmbiguous e := fun he => by
      have := (hx _).mpr ⟨he, rfl⟩
      simp [hl] at this
    simp [he, hnext]

theorem children_eq_error_iff {background : Option Background} {parent : Label}
    {children : List Child} :
    c.children resource background parent children = .error error ↔
      c.Refuses resource (children.filterMap Child.element?) error := by
  -- Once it has a label, a child is compiled; and the filter refuses nothing.
  have hrest {n : Node} {rest : List Child} :
      (do
        let ns ← c.children resource background parent rest
        return if c.selects n then n :: ns else ns) = .error error ↔
      c.children resource background parent rest = .error error := by
    simp [bind_eq_error_iff, pure, Except.pure]
  induction children with
  | nil => simp [Compiler.children, not_refuses_nil]
  | cons child rest ih =>
    cases child with
    | background b => exact ih
    | scenario s =>
      simp only [List.filterMap_cons, Child.element?]
      rw [refuses_cons, Compiler.children, scenario, bind_assoc]
      refine bind_label_eq_error_iff (fun _ => label_eq_error_iff) fun l => ?_
      rw [pure_bind]
      exact hrest.trans ih
    | outline o =>
      simp only [List.filterMap_cons, Child.element?]
      rw [refuses_cons, Compiler.children, outline, bind_assoc]
      refine bind_label_eq_error_iff (fun _ => label_eq_error_iff) fun l => ?_
      rw [pure_bind]
      exact hrest.trans ih

theorem compile_eq_error_iff {d : Document} :
    c.compile resource d = .error error ↔ c.Refuses resource d.elements error := by
  rw [compile_eq, Document.elements]
  cases d.feature with
  | none => simp [not_refuses_nil]
  | some f =>
    have hmap {x : Except PlanError Node} : x.map nonLeaf? = .error error ↔ x = .error error := by
      cases x <;> simp [Except.map]
    rw [hmap, feature, featureLabel, refuses_cons, bind_assoc]
    refine bind_label_eq_error_iff (fun _ => label_eq_error_iff) fun l => ?_
    rw [pure_bind, bind_eq_error_iff, children_eq_error_iff]
    simp [pure, Except.pure]

def HasIdsOf (c : Compiler) (e : Element) (n : Node) : Prop :=
  ∀ name, n.id = some name ↔ c.IsIdOf e name

theorem isIdOf_of_label {kind : NodeKind} {language : String}
    {inherited : List String × Properties} {l : Label}
    (h : c.label kind resource e language inherited = .ok l) (name : String) :
    l.id = some name ↔ c.IsIdOf e name := by
  rw [label_id h, ← (areIdsOf_names c e).mem, List.mem_filter]

theorem hasIdsOf_feature {f : Feature} {n : Node} (h : c.feature resource f = .ok n) :
    c.HasIdsOf f.element n := by
  obtain ⟨l, hl, h⟩ := Except.exists_of_bind_eq_ok h
  obtain ⟨own, hown, hl⟩ := Except.exists_of_bind_eq_ok hl
  obtain rfl := Except.ok.inj hl
  obtain ⟨ns, -, h⟩ := Except.exists_of_bind_eq_ok h
  obtain rfl := Except.ok.inj h
  exact fun name => isIdOf_of_label hown name

theorem hasIdsOf_children {f : Feature} {n : Node} (h : c.feature resource f = .ok n) :
    List.Forall₂ (fun child n => ∃ e, child.element? = some e ∧ c.HasIdsOf e n)
      (f.children.filter (c.keeps n.tags)) n.children := by
  obtain ⟨l, hl, h⟩ := Except.exists_of_bind_eq_ok h
  obtain ⟨ns, hchildren, h⟩ := Except.exists_of_bind_eq_ok h
  obtain rfl := Except.ok.inj h
  obtain ⟨-, hlanguage, -, hnodup, -⟩ := featureLabel_spec hl
  refine forall₂_children_of hlanguage hnodup (fun hs => ?_) (fun ho => ?_) hchildren
  · obtain ⟨own, hown, hs⟩ := Except.exists_of_bind_eq_ok hs
    obtain rfl := Except.ok.inj hs
    exact ⟨_, rfl, isIdOf_of_label hown⟩
  · obtain ⟨own, hown, ho⟩ := Except.exists_of_bind_eq_ok ho
    obtain rfl := Except.ok.inj ho
    exact ⟨_, rfl, isIdOf_of_label hown⟩

/-- Compiling fails exactly when an element has several ids, and then says which are the ids of the
first such element. Otherwise the feature and each of its children that is kept has as its id the
one own tag that is an id, or none. Tags of the feature are no ids of what is below it. -/
theorem several_ids_refused (c : Compiler) (resource : String) (d : Document) :
    ((∃ name locator found, c.compile resource d = .error (.ambiguousId name locator found)) ↔
      ∃ e ∈ d.elements, c.IsAmbiguous e) ∧
    (∀ error, c.compile resource d = .error error →
      ∃ before e after found, d.elements = before ++ e :: after ∧
        (∀ b ∈ before, ¬c.IsAmbiguous b) ∧ c.IsAmbiguous e ∧ c.AreIdsOf e found ∧
        error = .ambiguousId e.heading.name (Source.text ⟨resource, e.heading.place⟩) found) ∧
    ∀ root, c.compile resource d = .ok (some root) →
      ∃ f, d.feature = some f ∧ c.HasIdsOf f.element root ∧
        List.Forall₂ (fun child n => ∃ e, child.element? = some e ∧ c.HasIdsOf e n)
          (f.children.filter (c.keeps root.tags)) root.children := by
  refine ⟨?_, fun error h => ?_, fun root h => ?_⟩
  · simp only [compile_eq_error_iff, ← exists_refuses_iff resource]
    constructor
    · rintro ⟨name, locator, found, h⟩
      exact ⟨_, h⟩
    · rintro ⟨error, before, e, after, h, hbefore, he, rfl⟩
      exact ⟨_, _, _, before, e, after, h, hbefore, he, rfl⟩
  · obtain ⟨before, e, after, h, hbefore, he, herror⟩ := compile_eq_error_iff.mp h
    exact ⟨before, e, after, _, h, hbefore, he, areIdsOf_names c e, herror⟩
  · obtain ⟨f, hf, hfeature, -⟩ := compile_eq_ok_some_iff.mp h
    exact ⟨f, hf, hasIdsOf_feature hfeature, hasIdsOf_children hfeature⟩

/-- Below a feature with an id a tag that stands twice is one id; and of two elements with several
ids the upper one is refused, its ids in the order in which they are met. -/
theorem several_ids_refused_second_scenario :
    let c : Compiler := ⟨(·.startsWith "ID"), none⟩
    let heading (line : Nat) (name : String) : Heading := ⟨⟨line, 3⟩, "", name, none⟩
    let tags (names : List String) : List Tag := names.map fun name => ⟨⟨1, 1⟩, "@" ++ name⟩
    let scenario (line : Nat) (name : String) (names : List String) : Child :=
      .scenario ⟨heading line name, tags names, [], []⟩
    let document (children : List Child) : Document :=
      ⟨some ⟨heading 1 "F", tags ["ID-0"], "en", children, []⟩⟩
    let plain := [scenario 2 "A" ["b"], scenario 3 "B" ["ID-1", "b", "ID-1"]]
    let refused := scenario 4 "C" ["ID-2", "b", "ID-1", "ID-2"]
    let d := document (plain ++ [refused, scenario 5 "D" ["ID-1", "ID-2"]])
    (∃ f root, c.compile "r" (document plain) = .ok (some root) ∧
      (document plain).feature = some f ∧ c.HasIdsOf f.element root ∧
      (root :: root.children).map (·.id) = [some "ID-0", none, some "ID-1"]) ∧
    c.compile "r" d = .error (.ambiguousId "C" "r[4,3]" ["ID-2", "ID-1"]) ∧
      ∃ before e after, d.elements = before ++ e :: after ∧
        (∀ b ∈ before, ¬c.IsAmbiguous b) ∧ c.AreIdsOf e ["ID-2", "ID-1"] := by
  intro c heading tags scenario document plain refused d
  let root := (c.compile "r" (document plain)).toOption.join.getD default
  have hroot : c.compile "r" (document plain) = .ok (some root) := by decide +kernel
  obtain ⟨-, -, hids⟩ := several_ids_refused c "r" (document plain)
  obtain ⟨f, hf, hfeature, -⟩ := hids root hroot
  have herror : c.compile "r" d = .error (.ambiguousId "C" "r[4,3]" ["ID-2", "ID-1"]) := by
    decide +kernel
  obtain ⟨-, hfirst, -⟩ := several_ids_refused c "r" d
  obtain ⟨before, e, after, found, hsplit, hbefore, -, hfound, heq⟩ := hfirst _ herror
  obtain ⟨-, -, rfl⟩ := PlanError.ambiguousId.inj heq
  exact ⟨⟨f, root, hroot, hf, hfeature, by decide +kernel⟩, herror,
    before, e, after, hsplit, hbefore, hfound⟩

end Compiler

end FeaturePlan
