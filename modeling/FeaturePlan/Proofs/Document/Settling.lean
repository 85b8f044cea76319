import FeaturePlan.Proofs.Document.Contents
import FeaturePlan.Proofs.Document.Subtrees

/-! # Rules that are settled

Once a rule has closed, no event adds to its parts. So whatever comes behind it, the rule that has a
certain line keeps the parts with which it closed. -/

namespace FeaturePlan

/-! ## Lines in trees -/

namespace Tree

variable {n : Nat} {parts ts : List Tree} {t : Token} {comments : List Comment}

def HasLine (n : Nat) (ts : List Tree) : Prop :=
  ∃ t comments, leaf t comments ∈ ts ∧ t.place.line = n

def Fixes (n : Nat) (parts ts : List Tree) : Prop :=
  ∀ rule ps, node rule ps ∈ subtreesAll ts → HasLine n ps → ps = parts

theorem subtreesAll_of_leaves (h : ∀ tree ∈ ts, ∃ t comments, tree = leaf t comments) :
    subtreesAll ts = ts := by
  induction ts with
  | nil => rfl
  | cons tree ts ih =>
    obtain ⟨⟨t, comments, rfl⟩, hrest⟩ := List.forall_mem_cons.mp h
    rw [subtreesAll, ih hrest]
    rfl

theorem pruneAll_of_leaves (h : ∀ tree ∈ ts, ∃ t comments, tree = leaf t comments) :
    pruneAll ts = ts := by
  induction ts with
  | nil => rfl
  | cons tree ts ih =>
    obtain ⟨⟨t, comments, rfl⟩, hrest⟩ := List.forall_mem_cons.mp h
    rw [pruneAll, ih hrest]
    rfl

end Tree

/-! ## Rules that are settled -/

namespace Assembly

open FeaturePlan.Tree

variable {a : Assembly} {n : Nat} {parts : List Tree}

/-- No open rule has the line among its parts, and a closed one that has it has the given parts. -/
structure Settles (a : Assembly) (n : Nat) (parts : List Tree) : Prop where
  frames : ∀ f ∈ a.frames, ¬HasLine n f.2
  fixes : Fixes n parts a.content

theorem settles_empty (n : Nat) (parts : List Tree) : empty.Settles n parts where
  frames := by simp [empty]
  fixes := by simp [Fixes, empty, content, subtreesAll]

theorem Settles.push (h : a.Settles n parts) {tree : Tree} (hline : ¬HasLine n [tree])
    (htree : Fixes n parts [tree]) : (a.push tree).Settles n parts where
  frames := by
    obtain ⟨_ | ⟨f, frames⟩, trees, w⟩ := a
    · exact h.frames
    · obtain ⟨hf, hframes⟩ := List.forall_mem_cons.mp h.frames
      refine List.forall_mem_cons.mpr ⟨?_, hframes⟩
      rintro ⟨t, comments, hm, ht⟩
      rcases List.mem_append.mp hm with hm | hm
      · exact hf ⟨t, comments, hm, ht⟩
      · exact hline ⟨t, comments, hm, ht⟩
  fixes := by
    intro rule ps hm
    rw [content_push, subtreesAll_append, List.mem_append] at hm
    exact hm.elim (h.fixes rule ps) (htree rule ps)

theorem Settles.of_waiting {frames : Parts} {trees : List Tree} {w : List Comment}
    (h : Settles ⟨frames, trees, w⟩ n parts) (w' : List Comment) :
    Settles ⟨frames, trees, w'⟩ n parts :=
  ⟨h.frames, h.fixes⟩

theorem Settles.push_node (h : a.Settles n parts) {rule : Rule} {ps : List Tree}
    (hown : HasLine n ps → ps = parts) (hinner : Fixes n parts ps) :
    (a.push (.node rule ps)).Settles n parts := by
  refine h.push ?_ fun r qs hm hline => ?_
  · rintro ⟨t, comments, hm, -⟩
    cases List.mem_singleton.mp hm
  · rw [subtreesAll, subtreesAll, List.append_nil, subtrees] at hm
    rcases List.mem_cons.mp hm with heq | hm
    · obtain ⟨rfl, rfl⟩ := Tree.node.inj heq
      exact hown hline
    · exact hinner r qs hm hline

theorem Settles.grow (h : a.Settles n parts) {e : Event}
    (he : ∀ t, e = .token t → t.place.line ≠ n) : (a.grow e).Settles n parts := by
  cases e with
  | error e => exact h
  | opened rule =>
    refine ⟨List.forall_mem_cons.mpr ⟨?_, h.frames⟩, ?_⟩
    · rintro ⟨t, comments, hm, -⟩
      cases hm
    · simpa [Assembly.grow, content] using h.fixes
  | token t =>
    have hleaf (comments : List Comment) : ¬HasLine n [.leaf t comments] := by
      rintro ⟨u, cs, hm, hu⟩
      obtain ⟨rfl, -⟩ := Tree.leaf.inj (List.mem_singleton.mp hm)
      exact he u rfl hu
    have hfixes (comments : List Comment) : Fixes n parts [.leaf t comments] := by
      rintro rule ps hm
      simp [subtreesAll, subtrees] at hm
    by_cases ht : holds t
    · rw [Assembly.grow, addToken_of_holds ht]
      split
      · exact (h.of_waiting []).push (hleaf _) (hfixes _)
      · exact h.push (hleaf _) (hfixes _)
    · obtain ⟨w, hw⟩ := addToken_of_not_holds ht a
      rw [Assembly.grow, show a.addToken t = ⟨a.frames, a.trees, w⟩ from hw _ _]
      exact h.of_waiting w
  | closed rule =>
    obtain ⟨_ | ⟨⟨r, ps⟩, frames⟩, trees, w⟩ := a
    · exact h
    · obtain ⟨hown, hframes⟩ := List.forall_mem_cons.mp h.frames
      have hcontent : content ⟨(r, ps) :: frames, trees, w⟩ = content ⟨frames, trees, w⟩ ++ ps := by
        simp [content]
      have hinner : Settles ⟨frames, trees, w⟩ n parts := by
        refine ⟨hframes, fun rule qs hm => h.fixes rule qs ?_⟩
        rw [hcontent, subtreesAll_append]
        exact List.mem_append_left _ hm
      refine hinner.push_node (fun hline => absurd hline hown) fun rule qs hm => h.fixes rule qs ?_
      rw [hcontent, subtreesAll_append]
      exact List.mem_append_right _ hm

theorem Settles.growAll (h : a.Settles n parts) {events : List Event}
    (he : ∀ t, .token t ∈ events → t.place.line ≠ n) : (a.growAll events).Settles n parts := by
  induction events generalizing a with
  | nil => exact h
  | cons e events ih =>
    rw [growAll_cons]
    exact ih (h.grow fun t ht => he t (ht ▸ List.mem_cons_self)) fun t ht =>
      he t (List.mem_cons_of_mem e ht)

/-- A rule that opens, takes its parts and closes is settled, whatever comes behind it. -/
theorem Settles.growAll_rule (h : a.Settles n parts) {rule : Rule} {es silent after : List Event}
    {w : List Comment} (hes : a.growAll es = ⟨(rule, parts) :: a.frames, a.trees, w⟩)
    (hsilent : silent.filter Event.isPart = [])
    (hafter : ∀ t, .token t ∈ after → t.place.line ≠ n) (hparts : Fixes n parts parts) :
    (a.growAll (es ++ (silent ++ .closed rule :: after))).Settles n parts := by
  obtain ⟨w', hw'⟩ : ∃ w', Assembly.growAll ⟨(rule, parts) :: a.frames, a.trees, w⟩ silent =
      ⟨(rule, parts) :: a.frames, a.trees, w'⟩ := growAll_of_filter_eq_nil hsilent
  have hframes : Settles ⟨a.frames, a.trees, w'⟩ n parts := h.of_waiting w'
  rw [growAll_append, hes, growAll_append, hw', growAll_cons]
  exact (hframes.push_node (fun _ => rfl) hparts).growAll hafter

/-! ## Assemblies beside trees -/

def beside (trees : List Tree) (a : Assembly) : Assembly :=
  { a with trees := trees ++ a.trees }

variable (trees : List Tree)

theorem push_beside (t : Tree) (a : Assembly) :
    (a.beside trees).push t = (a.push t).beside trees := by
  obtain ⟨_ | ⟨f, frames⟩, ts, w⟩ := a <;> simp [push, beside]

theorem addToken_beside (t : Token) (a : Assembly) :
    (a.beside trees).addToken t = (a.addToken t).beside trees := by
  by_cases h : holds t
  · rw [addToken_of_holds h, addToken_of_holds h]
    split
    · exact push_beside trees _ { a with waiting := [] }
    · exact push_beside trees _ a
  · obtain ⟨w, hw⟩ := addToken_of_not_holds h a
    rw [show a.addToken t = ⟨a.frames, a.trees, w⟩ from hw _ _]
    exact hw _ _

/-- What events hand over without a refusal grows the same, whatever stands in front. -/
theorem growAll_of_hands {es : List Event} {a a' : Assembly} (h : Hands es a a') :
    (a.beside trees).growAll es = a'.beside trees := by
  induction h with
  | nil => rfl
  | opened _ ih => exact ih
  | @token t a a' es _ ih =>
    rw [growAll_cons, ← ih]
    exact congrArg (Assembly.growAll · es) (addToken_beside trees t a)
  | @closed rule a b a' es hclose _ ih =>
    rw [growAll_cons, ← ih]
    refine congrArg (Assembly.growAll · es) ?_
    obtain ⟨_ | ⟨⟨r, ps⟩, frames⟩, ts, w⟩ := a
    · obtain ⟨rfl, -⟩ := Prod.mk.inj hclose
      rfl
    · simp only [close] at hclose
      split at hclose
      · cases (Prod.mk.inj hclose).2
      · obtain ⟨rfl, -⟩ := Prod.mk.inj hclose
        exact push_beside trees _ ⟨frames, ts, w⟩

end Assembly

end FeaturePlan
