import FeaturePlan.Proofs.Document.Growth

/-! # What a document is read off

A step of a document is read off one rule somewhere in its tree, and what has comments is read off
one line, which brings its comments along. -/

namespace FeaturePlan

namespace Tree

mutual

def subtrees : Tree → List Tree
  | leaf t comments => [leaf t comments]
  | node rule parts => node rule parts :: subtreesAll parts

def subtreesAll : List Tree → List Tree
  | [] => []
  | t :: ts => t.subtrees ++ subtreesAll ts

end

variable {ts more parts : List Tree} {rule : Rule} {block : Block}

@[simp] theorem subtreesAll_append :
    subtreesAll (ts ++ more) = subtreesAll ts ++ subtreesAll more := by
  induction ts with
  | nil => rfl
  | cons t ts ih => simp [subtreesAll, ih]

theorem self_mem_subtrees (t : Tree) : t ∈ t.subtrees := by
  cases t <;> exact List.mem_cons_self

theorem mem_subtreesAll {tree : Tree} : tree ∈ subtreesAll ts ↔ ∃ t ∈ ts, tree ∈ t.subtrees := by
  induction ts with
  | nil => simp [subtreesAll]
  | cons t ts ih => simp [subtreesAll, ih]

theorem mem_subtreesAll_of_mem {tree : Tree} (h : tree ∈ ts) : tree ∈ subtreesAll ts :=
  mem_subtreesAll.mpr ⟨tree, h, self_mem_subtrees tree⟩

mutual

theorem subtreesAll_subset_subtrees {rule : Rule} {parts : List Tree} :
    ∀ t : Tree, node rule parts ∈ t.subtrees → subtreesAll parts ⊆ t.subtrees
  | leaf _ _ => fun h => by simp [subtrees] at h
  | node r ps => fun h => by
    rcases List.mem_cons.mp h with h | h
    · obtain ⟨rfl, rfl⟩ := Tree.node.inj h
      exact List.subset_cons_self _ _
    · exact List.Subset.trans (subtreesAll_subset ps h) (List.subset_cons_self _ _)

/-- What stands in a rule stands in all that the rule stands in. -/
theorem subtreesAll_subset {rule : Rule} {parts : List Tree} :
    ∀ ts : List Tree, node rule parts ∈ subtreesAll ts → subtreesAll parts ⊆ subtreesAll ts
  | [] => fun h => by cases h
  | t :: ts => fun h => by
    rcases List.mem_append.mp h with h | h
    · exact List.subset_append_of_subset_left _ (subtreesAll_subset_subtrees t h)
    · exact List.subset_append_of_subset_right _ (subtreesAll_subset ts h)

end

mutual

theorem mem_tokens_of_mem_subtrees {token : Token} {comments : List Comment} :
    ∀ t : Tree, leaf token comments ∈ t.subtrees → token ∈ t.tokens
  | leaf _ _ => fun h => by
    obtain ⟨rfl, -⟩ := Tree.leaf.inj (List.mem_singleton.mp h)
    exact List.mem_singleton_self _
  | node _ parts => fun h => by
    rcases List.mem_cons.mp h with h | h
    · cases h
    · exact mem_tokensAll_of_mem_subtreesAll parts h

theorem mem_tokensAll_of_mem_subtreesAll {token : Token} {comments : List Comment} :
    ∀ ts : List Tree, leaf token comments ∈ subtreesAll ts → token ∈ tokensAll ts
  | [] => fun h => by cases h
  | t :: ts => fun h => by
    rcases List.mem_append.mp h with h | h
    · exact List.mem_append_left _ (mem_tokens_of_mem_subtrees t h)
    · exact List.mem_append_right _ (mem_tokensAll_of_mem_subtreesAll ts h)

end

theorem subtreesAll_subset_of_parts? (h : parts? rule ts = some parts) :
    subtreesAll parts ⊆ subtreesAll ts := by
  obtain ⟨tree, hm, htree⟩ := List.exists_of_findSome?_eq_some h
  cases tree with
  | leaf t comments => cases htree
  | node r ps =>
    simp only at htree
    split at htree
    · obtain rfl := Option.some.inj htree
      exact subtreesAll_subset ts (mem_subtreesAll_of_mem hm)
    · cases htree

/-! ## Steps -/

/-- A step is read off its line, with the comments of that line. -/
theorem exists_leaf_of_step? {s : Step} (h : step? (node rule parts) = some s) :
    rule = .step ∧ ∃ t, leaf t s.comments ∈ parts ∧ t.place = s.place ∧
      t.content = .step s.keyword s.text ∧ s.argument = argument? parts ∧
      s.kind = t.dialect.stepKind s.keyword := by
  cases rule with
  | step =>
    obtain ⟨tree, hm, htree⟩ := List.exists_of_findSome?_eq_some h
    cases tree with
    | node r ps => cases htree
    | leaf t comments =>
      obtain ⟨place, d, content⟩ := t
      cases content with
      | step keyword text =>
        obtain rfl := Option.some.inj htree
        exact ⟨rfl, _, hm, rfl, rfl, rfl, rfl⟩
      | _ => cases htree
  | _ => cases h

theorem exists_of_mem_resolveKinds {last : Option StepKind} {steps : List Step} {s : Step}
    (h : s ∈ resolveKinds last steps) : ∃ kind, { s with kind } ∈ steps := by
  induction steps generalizing last with
  | nil => cases h
  | cons first rest ih =>
    rcases List.mem_cons.mp h with rfl | h
    · exact ⟨first.kind, List.mem_cons_self⟩
    · obtain ⟨kind, hkind⟩ := ih h
      exact ⟨kind, List.mem_cons_of_mem _ hkind⟩

/-- A step is read off a rule that stands among the parts, but for the category that it takes after
the steps before it. -/
theorem exists_node_of_mem_steps {s : Step} (h : s ∈ steps ts) :
    ∃ kind ps, node .step ps ∈ ts ∧ step? (node .step ps) = some { s with kind } := by
  obtain ⟨kind, hs⟩ := exists_of_mem_resolveKinds h
  obtain ⟨tree, hm, htree⟩ := List.mem_filterMap.mp hs
  cases tree with
  | leaf t comments => cases htree
  | node r ps =>
    obtain ⟨rfl, -⟩ := exists_leaf_of_step? htree
    exact ⟨kind, ps, hm, htree⟩

end Tree

/-! ## Documents -/

/-- A place, and the comments that belong to what stands there. -/
structure Anchor where
  place : Location
  comments : List Comment
deriving DecidableEq, Repr

def Step.anchor (s : Step) : Anchor :=
  ⟨s.place, s.comments⟩

def Child.steps : Child → List Step
  | background b => b.steps
  | scenario s => s.steps
  | outline o => o.steps

def Child.anchor : Child → Anchor
  | background b => ⟨b.place, b.comments⟩
  | scenario s => ⟨s.place, s.comments⟩
  | outline o => ⟨o.place, o.comments⟩

/-- What can have comments in a child: the child, and its steps. -/
def Child.anchors (c : Child) : List Anchor :=
  c.anchor :: c.steps.map Step.anchor

def Document.steps (d : Document) : List Step :=
  d.feature.toList.flatMap fun f => f.children.flatMap Child.steps

/-- All that can have comments, in the order of the document: each block before its steps. -/
def Document.anchors (d : Document) : List Anchor :=
  d.feature.toList.flatMap fun f => ⟨f.place, f.comments⟩ :: f.children.flatMap Child.anchors

namespace Tree

variable {ts parts : List Tree} {block : Block}

theorem leaf_mem_of_title? {t : Token} {heading : Heading} {comments : List Comment}
    (h : title? block ts = some (t, heading, comments)) :
    leaf t comments ∈ ts ∧ t.place = heading.place ∧ t.kind = .title block := by
  obtain ⟨tree, hm, htree⟩ := List.exists_of_findSome?_eq_some h
  cases tree with
  | node r ps => cases htree
  | leaf token cs =>
    obtain ⟨place, d, content⟩ := token
    cases content with
    | title b keyword name =>
      simp only at htree
      split at htree
      · next hb =>
        obtain ⟨rfl, hrest⟩ := Prod.mk.inj (Option.some.inj htree)
        obtain ⟨rfl, rfl⟩ := Prod.mk.inj hrest
        exact ⟨hm, rfl, hb ▸ rfl⟩
      · cases htree
    | _ => cases htree

theorem leaf_mem_of_heading? {heading : Heading} {comments : List Comment}
    (h : heading? block ts = some (heading, comments)) :
    ∃ t, leaf t comments ∈ ts ∧ t.place = heading.place ∧ t.kind = .title block := by
  obtain ⟨⟨t, title, cs⟩, ht, hh⟩ := Option.map_eq_some_iff.mp h
  obtain ⟨rfl, rfl⟩ := Prod.mk.inj hh
  obtain ⟨hm, hplace, hk⟩ := leaf_mem_of_title? ht
  exact ⟨t, hm, hplace, hk⟩

/-- A child is read off its title line and the parts around it. -/
theorem exists_of_child? {rule : Rule} {c : Child} (h : child? (node rule parts) = some c) :
    ∃ inner, subtreesAll inner ⊆ subtreesAll parts ∧ c.steps = steps inner ∧
      ∃ t, leaf t c.anchor.comments ∈ inner ∧ t.place = c.anchor.place ∧
        Assembly.ownsComments t.kind := by
  cases rule with
  | background =>
    obtain ⟨⟨heading, comments⟩, hheading, rfl⟩ := Option.map_eq_some_iff.mp h
    obtain ⟨t, hm, hplace, hk⟩ := leaf_mem_of_heading? hheading
    exact ⟨parts, List.Subset.refl _, rfl, t, hm, hplace, by rw [hk]; rfl⟩
  | scenarioDefinition =>
    rw [child?] at h
    split at h
    · next inner hinner =>
      obtain ⟨⟨heading, comments⟩, hheading, rfl⟩ := Option.map_eq_some_iff.mp h
      obtain ⟨t, hm, hplace, hk⟩ := leaf_mem_of_heading? hheading
      exact ⟨inner, subtreesAll_subset_of_parts? hinner, rfl, t, hm, hplace, by rw [hk]; rfl⟩
    · obtain ⟨inner, hinner, h⟩ := Option.bind_eq_some_iff.mp h
      obtain ⟨⟨heading, comments⟩, hheading, h⟩ := Option.bind_eq_some_iff.mp h
      obtain rfl := Option.some.inj h
      obtain ⟨t, hm, hplace, hk⟩ := leaf_mem_of_heading? hheading
      exact ⟨inner, subtreesAll_subset_of_parts? hinner, rfl, t, hm, hplace, by rw [hk]; rfl⟩
  | _ => cases h

/-- The title line of a document's feature, and the rules that its children are read off. -/
theorem exists_of_mem_feature {f : Feature} (h : f ∈ (document ts).feature) :
    (∃ t, leaf t f.comments ∈ subtreesAll ts ∧ t.place = f.place ∧ t.kind = .title .feature ∧
        f.language = t.dialect.code) ∧
      ∀ c ∈ f.children, ∃ rule parts, node rule parts ∈ subtreesAll ts ∧
        child? (node rule parts) = some c := by
  obtain ⟨outer, houter, h⟩ := Option.bind_eq_some_iff.mp h
  obtain ⟨inner, hinner, h⟩ := Option.bind_eq_some_iff.mp h
  obtain ⟨header, hheader, h⟩ := Option.bind_eq_some_iff.mp h
  obtain ⟨⟨t, heading, comments⟩, htitle, h⟩ := Option.bind_eq_some_iff.mp h
  obtain rfl := Option.some.inj h
  have hsub : subtreesAll inner ⊆ subtreesAll ts :=
    List.Subset.trans (subtreesAll_subset_of_parts? hinner) (subtreesAll_subset_of_parts? houter)
  obtain ⟨hm, hplace, hk⟩ := leaf_mem_of_title? htitle
  refine ⟨⟨t, hsub (subtreesAll_subset_of_parts? hheader (mem_subtreesAll_of_mem hm)), hplace, hk,
    rfl⟩, fun c hc => ?_⟩
  obtain ⟨tree, htree, hchild⟩ := List.mem_filterMap.mp hc
  cases tree with
  | leaf t comments => cases hchild
  | node rule parts => exact ⟨rule, parts, hsub (mem_subtreesAll_of_mem htree), hchild⟩

/-- Each step of a document is read off a rule of its tree, but for the category that it takes after
the steps before it. -/
theorem exists_node_of_mem_document_steps {s : Step} (h : s ∈ (document ts).steps) :
    ∃ kind ps, node .step ps ∈ subtreesAll ts ∧ step? (node .step ps) = some { s with kind } := by
  obtain ⟨f, hf, h⟩ := List.mem_flatMap.mp h
  obtain ⟨c, hc, h⟩ := List.mem_flatMap.mp h
  obtain ⟨rule, parts, hparts, hchild⟩ :=
    (exists_of_mem_feature (Option.mem_toList.mp hf)).2 c hc
  obtain ⟨inner, hinner, hsteps, -⟩ := exists_of_child? hchild
  obtain ⟨kind, ps, hps, hstep⟩ := exists_node_of_mem_steps (hsteps ▸ h)
  have hin : node .step ps ∈ subtreesAll parts := hinner (mem_subtreesAll_of_mem hps)
  exact ⟨kind, ps, subtreesAll_subset ts hparts hin, hstep⟩

/-- All comments of a document come from the lines to which they belong. -/
theorem exists_leaf_of_mem_anchors {a : Anchor} (h : a ∈ (document ts).anchors) :
    ∃ t, leaf t a.comments ∈ subtreesAll ts ∧ t.place = a.place ∧
      Assembly.ownsComments t.kind := by
  obtain ⟨f, hf, h⟩ := List.mem_flatMap.mp h
  obtain ⟨⟨t, hm, hplace, hk, -⟩, hchildren⟩ := exists_of_mem_feature (Option.mem_toList.mp hf)
  rcases List.mem_cons.mp h with rfl | h
  · exact ⟨t, hm, hplace, by rw [hk]; rfl⟩
  obtain ⟨c, hc, h⟩ := List.mem_flatMap.mp h
  obtain ⟨rule, parts, hparts, hchild⟩ := hchildren c hc
  obtain ⟨inner, hinner, hsteps, t, hm, hplace, hk⟩ := exists_of_child? hchild
  have hin := List.Subset.trans hinner (subtreesAll_subset ts hparts)
  rcases List.mem_cons.mp h with rfl | h
  · exact ⟨t, hin (mem_subtreesAll_of_mem hm), hplace, hk⟩
  · obtain ⟨s, hs, rfl⟩ := List.mem_map.mp h
    obtain ⟨kind, ps, hps, hstep⟩ := exists_node_of_mem_steps (hsteps ▸ hs)
    obtain ⟨-, t, hm, hplace, hcontent, -⟩ := exists_leaf_of_step? hstep
    have hnode : node .step ps ∈ subtreesAll ts := hin (mem_subtreesAll_of_mem hps)
    exact ⟨t, subtreesAll_subset ts hnode (mem_subtreesAll_of_mem hm), hplace, by
      rw [Token.kind, hcontent]
      rfl⟩

/-! ## Refused tables -/

mutual

theorem subtrees_prune_subset : ∀ t : Tree, t.prune.subtrees ⊆ t.subtrees.map prune
  | leaf _ _ => List.Subset.refl _
  | node _ parts => List.cons_subset_cons _ (subtreesAll_pruneAll_subset parts)

theorem subtreesAll_pruneAll_subset :
    ∀ ts : List Tree, subtreesAll (pruneAll ts) ⊆ (subtreesAll ts).map prune
  | [] => List.Subset.refl _
  | t :: ts => by
    have hrest := subtreesAll_pruneAll_subset ts
    rw [subtreesAll, List.map_append, pruneAll]
    split
    · exact List.subset_append_of_subset_right _ hrest
    · exact List.append_subset_of_subset_of_subset
        (List.subset_append_of_subset_left _ (subtrees_prune_subset t))
        (List.subset_append_of_subset_right _ hrest)

end

theorem leaf_mem_of_mem_pruneAll {t : Token} {comments : List Comment}
    (h : leaf t comments ∈ pruneAll ts) : leaf t comments ∈ ts := by
  induction ts with
  | nil => exact h
  | cons tree ts ih =>
    rw [pruneAll] at h
    split at h
    · exact List.mem_cons_of_mem _ (ih h)
    · rcases List.mem_cons.mp h with h | h
      · cases tree with
        | leaf u cs => exact h ▸ List.mem_cons_self
        | node rule parts => cases h
      · exact List.mem_cons_of_mem _ (ih h)

theorem leaf_mem_of_pruneAll {t : Token} {comments : List Comment}
    (h : leaf t comments ∈ subtreesAll (pruneAll ts)) : leaf t comments ∈ subtreesAll ts := by
  obtain ⟨tree, hm, htree⟩ := List.mem_map.mp (subtreesAll_pruneAll_subset ts h)
  cases tree with
  | leaf u cs => exact htree ▸ hm
  | node rule parts => cases htree

theorem exists_node_of_pruneAll {rule : Rule} (h : node rule parts ∈ subtreesAll (pruneAll ts)) :
    ∃ whole, node rule whole ∈ subtreesAll ts ∧ parts = pruneAll whole := by
  obtain ⟨tree, hm, htree⟩ := List.mem_map.mp (subtreesAll_pruneAll_subset ts h)
  cases tree with
  | leaf t comments => cases htree
  | node r whole =>
    obtain ⟨rfl, rfl⟩ := Tree.node.inj htree
    exact ⟨whole, hm, rfl⟩

end Tree

end FeaturePlan
