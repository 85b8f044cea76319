import FeaturePlan.Proofs.Document.Shape

/-! # The order in which errors are found

A line that is turned away is reported at once, an uneven row only when its table closes. So either
kind of error is reported in the order of the lines, but an uneven row may be reported behind lines
that were turned away below it. -/

namespace FeaturePlan

open Assembly

/-! ## Where uneven rows are -/

namespace Tree

theorem mem_of_unevenRow? {parts : List Tree} {place : Location}
    (h : unevenRow? parts = some place) :
    ∃ token comments, leaf token comments ∈ parts ∧ token.place = place := by
  have hrow : ∃ row ∈ rows parts, row.place = place := by
    simp only [unevenRow?] at h
    split at h
    · cases h
    · rename_i first rest hrows
      obtain ⟨row, hrow, hplace⟩ := Option.map_eq_some_iff.mp h
      exact ⟨row, by rw [hrows]; exact List.mem_cons_of_mem _ (List.mem_of_find?_eq_some hrow),
        hplace⟩
  obtain ⟨row, hrow, rfl⟩ := hrow
  obtain ⟨t, ht, htree⟩ := List.mem_filterMap.mp hrow
  cases t with
  | node r ps => cases htree
  | leaf token comments =>
      refine ⟨token, comments, ht, ?_⟩
      dsimp only at htree
      split at htree
      · obtain rfl := Option.some.inj htree
        rfl
      · cases htree

theorem mem_tokensAll_of_leaf {ts : List Tree} {token : Token} {comments : List Comment}
    (h : leaf token comments ∈ ts) : token ∈ tokensAll ts := by
  induction ts with
  | nil => cases h
  | cons t ts ih =>
      rw [tokensAll, List.mem_append]
      rcases List.mem_cons.mp h with rfl | h
      · exact .inl (List.mem_singleton.mpr rfl)
      · exact .inr (ih h)

theorem mem_of_refusal? {rule : Rule} {parts : List Tree} {place : Location}
    (h : refusal? rule parts = some place) : ∃ token ∈ tokensAll parts, token.place = place := by
  rw [refusal?] at h
  split at h
  · obtain ⟨token, comments, hm, hplace⟩ := mem_of_unevenRow? h
    exact ⟨token, mem_tokensAll_of_leaf hm, hplace⟩
  · cases h

mutual

/-- A row at which a table is refused is a line of the tree. -/
theorem mem_tokens_of_mem_uneven {place : Location} :
    ∀ t : Tree, place ∈ t.uneven → ∃ token ∈ t.tokens, token.place = place
  | leaf _ _ => fun h => by cases h
  | node rule parts => fun h => by
      rcases List.mem_append.mp h with h | h
      · exact mem_tokensAll_of_mem_unevenAll parts h
      · exact mem_of_refusal? (Option.mem_toList.mp h)

theorem mem_tokensAll_of_mem_unevenAll {place : Location} :
    ∀ ts : List Tree, place ∈ unevenAll ts → ∃ token ∈ tokensAll ts, token.place = place
  | [] => fun h => by cases h
  | t :: ts => fun h => by
      rcases List.mem_append.mp h with h | h
      · obtain ⟨token, hm, hplace⟩ := mem_tokens_of_mem_uneven t h
        exact ⟨token, List.mem_append_left _ hm, hplace⟩
      · obtain ⟨token, hm, hplace⟩ := mem_tokensAll_of_mem_unevenAll ts h
        exact ⟨token, List.mem_append_right _ hm, hplace⟩

end

theorem unevenAll_of_leaves {ts : List Tree}
    (h : ∀ t ∈ ts, ∃ token comments, t = leaf token comments) :
    unevenAll ts = [] := by
  induction ts with
  | nil => rfl
  | cons t ts ih =>
      obtain ⟨token, comments, rfl⟩ := h t List.mem_cons_self
      rw [unevenAll, ih fun t ht => h t (List.mem_cons_of_mem _ ht)]
      rfl

end Tree

/-- No table holds another, so the rows at which tables are refused stand in the order of their
lines. -/
theorem Production.Forms.unevenAll_sublist {cut : Bool} {p : Production} {ts : List Tree}
    (h : p.Forms cut ts) :
    (Tree.unevenAll ts).Sublist ((Tree.tokensAll ts).map Token.place) := by
  induction h with
  | line _ | eof | refused _ | nothing | none | cut => exact List.nil_sublist _
  | left _ ih | right _ ih | first _ ih | again _ ih => exact ih
  | seq _ _ ihp ihq | more _ _ ihp ihq =>
      rw [Tree.unevenAll_append, Tree.tokensAll_append, List.map_append]
      exact ihp.append ihq
  | @rule cut r parts hforms ih =>
      have hnode : Tree.unevenAll [.node r parts] =
          Tree.unevenAll parts ++ (Tree.refusal? r parts).toList := by
        simp [Tree.unevenAll, Tree.uneven]
      have htokens : Tree.tokensAll [.node r parts] = Tree.tokensAll parts := by
        simp [Tree.tokensAll, Tree.tokens]
      rw [hnode, htokens]
      by_cases hr : isTable r
      · have hleaves := fun t ht =>
          (forms_table hr hforms t ht).imp fun _ h => h.imp fun _ h => h.1
        rw [Tree.unevenAll_of_leaves hleaves, List.nil_append]
        cases hrefusal : Tree.refusal? r parts with
        | none => exact List.nil_sublist _
        | some place =>
            obtain ⟨token, hm, rfl⟩ := Tree.mem_of_refusal? hrefusal
            exact List.singleton_sublist.mpr (List.mem_map_of_mem hm)
      · simpa [Tree.refusal?, hr] using ih

/-! ## Errors and the lines before them -/

theorem heldToken?_sublist_line? (events : List Event) :
    ((events.filterMap heldToken?).map fun t => t.place.line).Sublist
      (events.filterMap Event.line?) := by
  induction events with
  | nil => exact .slnil
  | cons e events ih =>
      cases e with
      | opened rule | closed rule => exact ih
      | error e => exact ih.cons _
      | token t =>
          simp only [List.filterMap_cons, heldToken?, Event.line?]
          split
          · exact ih.cons _
          · rename_i heq
            split at heq
            · obtain rfl := Option.some.inj heq
              exact ih.cons_cons _
            · cases heq

namespace Findings

variable {f : Findings} {events : List Event} {e : ParseError}

/-- Only an error among the events is an error of the order of lines. -/
theorem mem_of_mem_errors (he : e ∈ (f.after events).errors) (hs : e.isStructural = false) :
    e ∈ f.errors ∨ .error e ∈ events := by
  induction events generalizing f with
  | nil => exact .inl he
  | cons event events ih =>
      rcases ih he with h | h
      · cases event with
        | opened rule | token t => exact .inl h
        | error e' =>
            rcases List.mem_append.mp h with h | h
            · exact .inl h
            · exact .inr (List.mem_singleton.mp h ▸ List.mem_cons_self)
        | closed rule =>
            rcases List.mem_append.mp h with h | h
            · exact .inl h
            · rw [isStructural_of_close h] at hs
              cases hs
      · exact .inr (List.mem_cons_of_mem _ h)

/-- An error is about a line that was read before it was found. -/
theorem line_mem_of_mem_errors (hsyn : ∀ e, .error e ∈ events → e.isSyntax)
    (he : e ∈ (empty.after events).errors) : e.place.line ∈ events.filterMap Event.line? := by
  cases hs : e.isStructural with
  | false =>
      rcases mem_of_mem_errors he hs with h | h
      · cases h
      · exact List.mem_filterMap.mpr ⟨_, h, rfl⟩
  | true =>
      have hrows : unevenRows ⟨Assembly.empty.prune, []⟩ =
        Tree.unevenAll Assembly.empty.content := rfl
      have hplace : e.place ∈ (empty.after events).unevenRows :=
        List.mem_map_of_mem (List.mem_filter.mpr ⟨he, hs⟩)
      have hafter := unevenRows_after hrows hsyn
      rw [show (⟨Assembly.empty.prune, []⟩ : Findings) = empty from rfl] at hafter
      rw [hafter] at hplace
      obtain ⟨token, hm, hline⟩ := Tree.mem_tokensAll_of_mem_unevenAll _ hplace
      rw [tokens_growAll] at hm
      have hheld : token ∈ events.filterMap heldToken? := hm
      refine (heldToken?_sublist_line? events).mem ?_
      exact List.mem_map.mpr ⟨token, hheld, congrArg Location.line hline⟩

/-- Errors of the order of lines are found below all errors before them. -/
theorem errors_pairwise (hsyn : ∀ e, .error e ∈ events → e.isSyntax)
    (hlines : (events.filterMap Event.line?).Pairwise (· < ·)) :
    (empty.after events).errors.Pairwise fun e f =>
      e.place.line < f.place.line ∨ f.isStructural := by
  induction events using List.reverseRecOn with
  | nil => exact .nil
  | append_singleton events event ih =>
      have hbefore : ∀ e, .error e ∈ events → e.isSyntax := fun e he =>
        hsyn e (List.mem_append_left _ he)
      rw [List.filterMap_append, List.pairwise_append] at hlines
      obtain ⟨hlines, -, hlast⟩ := hlines
      have hfound := ih hbefore hlines
      rw [after_append, after_cons, after_nil]
      cases event with
      | opened rule | token t => exact hfound
      | closed rule =>
          refine List.pairwise_append.mpr
            ⟨hfound, ?_, fun e _ f hf => .inr (isStructural_of_close hf)⟩
          exact List.Pairwise.imp_of_mem (fun _ hf _ => .inr (isStructural_of_close hf))
            (List.pairwise_of_forall (R := fun _ _ => True) fun _ _ => trivial)
      | error f =>
          refine List.pairwise_append.mpr
            ⟨hfound, List.pairwise_singleton _ f, fun e he f' hf => ?_⟩
          obtain rfl := List.mem_singleton.mp hf
          exact .inl (hlast _ (line_mem_of_mem_errors hbefore he) _ (List.mem_singleton.mpr rfl))

end Findings

/-! ## Errors of a text -/

theorem line?_eventsOf_pairwise (d : Dialect) (text : String) :
    ((eventsOf d text).filterMap Event.line?).Pairwise (· < ·) := by
  have h := Cursor.filterMap_line?_strides (Text.lines text.toList) (.start d) 1
  have hopened : (eventsOf d text).filterMap Event.line? =
      ((stridesOf d text).flatMap Stride.events).filterMap Event.line? := rfl
  rw [hopened, stridesOf, Item.ofText, h]
  exact List.pairwise_lt_range'

/-- What a text grows into shows its uneven rows, in the order of their lines. -/
theorem Findings.unevenRows_pairwise (d : Dialect) (text : String) :
    (empty.after (eventsOf d text)).unevenRows.Pairwise fun p q => p.line < q.line := by
  obtain ⟨cut, parts, w, hgrown, hforms, -, hsyn⟩ := growAll_eventsOf d text
  have hafter := unevenRows_after_empty hsyn
  have hcontent : (Assembly.empty.growAll (eventsOf d text)).content = [.node .document parts] := by
    rw [hgrown]
    rfl
  have hsub := (Production.Forms.rule (r := .document) hforms).unevenAll_sublist.map Location.line
  have htokens := tokens_growAll (eventsOf d text) .empty
  rw [hcontent, show Tree.tokensAll Assembly.empty.content = [] from rfl, List.nil_append]
    at htokens
  rw [htokens, List.map_map] at hsub
  have hlines := (line?_eventsOf_pairwise d text).sublist
    (hsub.trans (heldToken?_sublist_line? _))
  rw [hcontent] at hafter
  rw [hafter]
  exact List.pairwise_map.mp hlines

/-- Errors are listed in the order of their lines, save that an uneven row may be listed behind
lines below it that were turned away. -/
theorem Diagnostics.errors_in_order (d : Dialect) (text : String) :
    (ofText d text).errors.Pairwise fun e f =>
      e.place.line < f.place.line ∨ e.isSyntax ∧ f.isStructural := by
  obtain ⟨-, -, -, -, -, -, hsyn⟩ := growAll_eventsOf d text
  have hbelow := Findings.errors_pairwise hsyn (line?_eventsOf_pairwise d text)
  have hrows := List.pairwise_filter.mp
    (List.pairwise_map.mp (Findings.unevenRows_pairwise d text))
  rw [ofText_eq]
  refine hbelow.imp₂ (fun e f hline hrow => ?_) hrows
  rcases hline with hline | hf
  · exact .inl hline
  · cases he : e.isStructural with
    | true => exact .inl (hrow he hf)
    | false =>
        have hs : e.isSyntax := by
          cases e <;> first | rfl | cases he
        exact .inr ⟨hs, hf⟩

def Location.NotBelow (place other : Location) : Prop :=
  place.line < other.line ∨ place.line = other.line ∧ place.column ≤ other.column

instance (place other : Location) : Decidable (place.NotBelow other) :=
  inferInstanceAs (Decidable (_ ∨ _))

/-- Here the table closes at the end of the text, behind a line that was turned away. -/
theorem Diagnostics.errors_not_in_source_order :
    ¬(ofText .english "Feature: F\nScenario: S\nGiven a\n|x|\n|y|z|\nand so on\n").errors.Pairwise
      fun e f => e.place.NotBelow f.place := by
  decide +kernel

end FeaturePlan
