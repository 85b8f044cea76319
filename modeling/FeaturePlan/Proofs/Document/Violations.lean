import FeaturePlan.Proofs.Document.Tables
import FeaturePlan.Proofs.Grammar.Nesting

/-! # The first violation

A text is refused for the first of its events that may not be: a line of the wrong class, an end
that comes too early, or the end of a table whose rows differ in width. What breaks the rules can be
seen from the events alone. -/

namespace FeaturePlan

open FeaturePlan.Tree

/-! ## Violations -/

namespace Event

def isFlat : Event → Bool
  | token _ | error _ => true
  | opened _ | closed _ => false

def row? : Event → Option TableRow
  | token ⟨place, _, .row cells⟩ =>
    some ⟨place, cells.map fun c => ⟨⟨place.line, c.column⟩, c.text⟩⟩
  | _ => none

/-- The event that comes next is an error, or it closes a table whose rows differ in width. -/
inductive Violates : List Event → Event → ParseError → Prop where
  | error {seen e} : Violates seen (.error e) e
  | table {before rule inner row} : Assembly.isTable rule → (∀ e ∈ inner, isFlat e) →
      TableRow.IsFirstUneven (inner.filterMap row?) row →
      Violates (before ++ .opened rule :: inner) (.closed rule) (.unevenRow row.place)

end Event

open Event

namespace Assembly

variable {a : Assembly} {rule : Rule} {parts : List Tree} {frames : Parts}

/-! ## The innermost rule -/

/-- A flat event may add a line to the innermost rule, and its row if it has one. -/
theorem grow_isFlat {e : Event} (he : e.isFlat) (ha : a.frames = (rule, parts) :: frames) :
    ∃ new, (a.grow e).frames = (rule, parts ++ new) :: frames ∧
      (∀ t ∈ new, t.rule? = none) ∧ rows new = e.row?.toList := by
  obtain ⟨_, trees, w⟩ := a
  obtain rfl : _ = (rule, parts) :: frames := ha
  cases e with
  | opened rule | closed rule => cases he
  | error e => exact ⟨[], by simp [grow], by simp, rfl⟩
  | token t =>
      have hleaf (comments : List Comment) :
          rows [.leaf t comments] = (row? (.token t)).toList := by
        obtain ⟨place, d, content⟩ := t
        cases content <;> rfl
      by_cases ht : holds t
      · rw [grow, addToken_of_holds ht]
        split <;> exact ⟨[.leaf t _], rfl, by simp [rule?], hleaf _⟩
      · obtain ⟨w', hw⟩ := addToken_of_not_holds ht ⟨(rule, parts) :: frames, trees, w⟩
        refine ⟨[], by rw [grow, hw, List.append_nil], by simp, ?_⟩
        obtain ⟨place, d, content⟩ := t
        cases content <;> first | rfl | simp [holds, Token.kind, Content.kind] at ht

/-- What stands in a rule that was opened and holds lines only. -/
theorem growAll_isFlat {inner : List Event} (hinner : ∀ e ∈ inner, e.isFlat)
    (ha : a.frames = (rule, parts) :: frames) :
    ∃ new, (a.growAll inner).frames = (rule, parts ++ new) :: frames ∧
      rows new = inner.filterMap row? := by
  induction inner generalizing a parts with
  | nil => exact ⟨[], by simp [growAll, ha], rfl⟩
  | cons e inner ih =>
      obtain ⟨he, hinner⟩ := List.forall_mem_cons.mp hinner
      obtain ⟨new, hnew, -, hrow⟩ := grow_isFlat he ha
      obtain ⟨more, hmore, hrows⟩ := ih hinner hnew
      refine ⟨new ++ more, ?_, ?_⟩
      · rw [growAll_cons, hmore, List.append_assoc]
      · rw [rows_append, hrow, hrows, List.filterMap_cons]
        cases e.row? <;> rfl

/-- The innermost rule behind a flat event was the innermost before it. -/
theorem exists_of_grow_isFlat {e : Event} (he : e.isFlat)
    (h : (a.grow e).frames = (rule, parts) :: frames) :
    ∃ old new, a.frames = (rule, old) :: frames ∧ parts = old ++ new ∧
      rows new = e.row?.toList := by
  cases ha : a.frames with
  | nil =>
      have hrules : (a.grow e).rules = [] := by
        rw [rules_grow, Assembly.rules, ha]
        cases e <;> first | rfl | cases he
      cases hrules.symm.trans (congrArg (List.map Prod.fst) h)
  | cons f fs =>
      obtain ⟨r, old⟩ := f
      obtain ⟨new, hnew, -, hrow⟩ := grow_isFlat he ha
      obtain ⟨hf, rfl⟩ := List.cons.inj (hnew.symm.trans h)
      obtain ⟨rfl, rfl⟩ := Prod.mk.inj hf
      exact ⟨old, new, rfl, rfl, hrow⟩

/-- When a rule holds lines only, nothing was opened or closed since it was opened itself. -/
theorem exists_opened {events : List Event}
    (h : (empty.growAll events).frames = (rule, parts) :: frames)
    (hleaves : ∀ t ∈ parts, t.rule? = none) :
    ∃ before inner, events = before ++ .opened rule :: inner ∧ (∀ e ∈ inner, e.isFlat) ∧
      rows parts = inner.filterMap row? := by
  -- The last event decides: a flat one leaves the question to those before it.
  induction events using List.reverseRecOn generalizing rule parts frames with
  | nil => cases h
  | append_singleton events e ih =>
      rw [growAll_append] at h
      have hflat : e.isFlat → ∃ before inner, events ++ [e] = before ++ .opened rule :: inner ∧
          (∀ e ∈ inner, e.isFlat) ∧ rows parts = inner.filterMap row? := by
        intro he
        obtain ⟨old, new, hold, rfl, hrow⟩ := exists_of_grow_isFlat he h
        obtain ⟨before, inner, rfl, hinner, hrows⟩ :=
          ih hold fun t ht => hleaves t (List.mem_append_left _ ht)
        refine ⟨before, inner ++ [e], by simp, ?_, ?_⟩
        · simpa [or_imp, forall_and, he] using hinner
        · rw [rows_append, hrows, hrow, List.filterMap_append]
          cases hr : e.row? <;> simp [hr]
      cases e with
      | token t | error e => exact hflat rfl
      | opened r =>
          obtain ⟨hr, -⟩ := List.cons.inj h
          obtain ⟨rfl, rfl⟩ := Prod.mk.inj hr
          exact ⟨events, [], rfl, by simp, rfl⟩
      | closed r =>
          -- A rule that closes is part of the rule around it, which then holds more than lines.
          generalize empty.growAll events = a at h
          obtain ⟨_ | ⟨⟨r', ps'⟩, _ | ⟨⟨q, ps⟩, fs⟩⟩, trees, w⟩ := a
          · cases h
          · cases h
          · obtain ⟨hf, -⟩ := List.cons.inj h
            obtain ⟨rfl, rfl⟩ := Prod.mk.inj hf
            have hnode := hleaves (.node r' ps') (by simp)
            cases hnode

/-! ## Tables that close -/

theorem subtreesAll_grow (a : Assembly) (e : Event) :
    subtreesAll a.content ⊆ subtreesAll (a.grow e).content := by
  cases e with
  | opened rule => simp [grow, content]
  | error e => exact List.Subset.refl _
  | token t =>
      by_cases ht : holds t
      · obtain ⟨comments, hc⟩ := content_addToken_of_holds ht a
        rw [grow, hc, subtreesAll_append]
        exact List.subset_append_left _ _
      · rw [grow, content_addToken_of_not_holds ht a]
        exact List.Subset.refl _
  | closed rule =>
      cases hf : a.frames with
      | nil => simp [grow, hf]
      | cons f frames =>
          obtain ⟨before, hb, hg⟩ := content_grow_closed rule hf
          rw [hb, hg, subtreesAll_append, subtreesAll_append]
          refine List.append_subset.mpr ⟨List.subset_append_left _ _, ?_⟩
          refine List.subset_append_of_subset_right _ ?_
          simp [subtreesAll, subtrees]

theorem subtreesAll_growAll (a : Assembly) (events : List Event) :
    subtreesAll a.content ⊆ subtreesAll (a.growAll events).content := by
  induction events generalizing a with
  | nil => exact List.Subset.refl _
  | cons e events ih => exact List.Subset.trans (subtreesAll_grow a e) (ih _)

end Assembly

/-- Each rule inside trees of a shape has the shape of its production. -/
theorem Production.Forms.of_mem_subtreesAll {cut : Bool} {p : Production} {ts parts : List Tree}
    {rule : Rule} (h : p.Forms cut ts) (hm : .node rule parts ∈ subtreesAll ts) :
    rule.production.Forms true parts := by
  induction h with
  | line _ => simp [subtreesAll, subtrees] at hm
  | eof | refused _ | nothing | none | cut => cases hm
  | @rule cut r ps hforms ih =>
      rw [subtreesAll, subtreesAll, List.append_nil, subtrees] at hm
      rcases List.mem_cons.mp hm with heq | hm
      · obtain ⟨rfl, rfl⟩ := Tree.node.inj heq
        exact hforms.begin
      · exact ih hm
  | seq _ _ ihp ihq | more _ _ ihp ihq =>
      rw [subtreesAll_append] at hm
      exact (List.mem_append.mp hm).elim ihp ihq
  | left _ ih | right _ ih | first _ ih | again _ ih => exact ih hm

/-- Rules that are nested are open in the order in which they were opened. -/
theorem Event.foldl_openRules_of_nest? {rules rules' : List Rule} {events : List Event}
    (h : nest? rules events = some rules') : events.foldl openRules rules = rules' := by
  induction events generalizing rules with
  | nil => exact Option.some.inj h
  | cons e events ih =>
      cases e with
      | opened rule | token t | error e => exact ih h
      | closed rule =>
          cases rules with
          | nil => cases h
          | cons innermost rules =>
              rw [nest?] at h
              split at h
              · exact ih h
              · cases h

theorem nest?_eventsOf (d : Dialect) (text : String) : nest? [] (eventsOf d text) = some [] := by
  obtain ⟨events, hevents, hnest, -⟩ :=
    Cursor.nested_strides (Text.lines text.toList) 1 (c := .start d) rfl (by simp [Cursor.start])
  rw [eventsOf, stridesOf, Item.ofText, hevents]
  exact hnest

section Closing

variable {d : Dialect} {text : String} {seen : List Event} {closing rule : Rule}
  {parts : List Tree} {frames : Parts}

theorem eq_of_closed (h : seen ++ [.closed closing] <+: eventsOf d text)
    (hf : (Assembly.empty.growAll seen).frames = (rule, parts) :: frames) : closing = rule := by
  obtain ⟨rest, hrest⟩ := h
  have hnest := nest?_eventsOf d text
  rw [← hrest, nest?_append, nest?_append] at hnest
  obtain ⟨after, hafter, -⟩ := Option.bind_eq_some_iff.mp hnest
  obtain ⟨rules, hrules, hclosed⟩ := Option.bind_eq_some_iff.mp hafter
  have hgrown := Assembly.rules_growAll seen .empty
  rw [show Assembly.empty.rules = [] from rfl, foldl_openRules_of_nest? hrules, Assembly.rules, hf]
    at hgrown
  rw [← hgrown, List.map_cons, nest?] at hclosed
  split at hclosed
  · assumption
  · cases hclosed

/-- A table that closes holds the rows that were handed over since it was opened. -/
theorem exists_table_of_closed (h : seen ++ [.closed closing] <+: eventsOf d text)
    (hf : (Assembly.empty.growAll seen).frames = (rule, parts) :: frames)
    (hr : Assembly.isTable rule) :
    ∃ before inner, seen = before ++ .opened rule :: inner ∧ (∀ e ∈ inner, e.isFlat) ∧
      rows parts = inner.filterMap row? := by
  obtain ⟨rest, hrest⟩ := h
  obtain ⟨cut, whole, w, hgrown, hforms, -⟩ := Assembly.growAll_eventsOf d text
  have hmem : .node rule parts ∈ subtreesAll [.node .document whole] := by
    obtain ⟨before, -, hcontent⟩ := Assembly.content_grow_closed closing hf
    have hsub := Assembly.subtreesAll_growAll
      ((Assembly.empty.growAll seen).grow (.closed closing)) rest
    have hall : ((Assembly.empty.growAll seen).grow (.closed closing)).growAll rest =
        Assembly.empty.growAll (eventsOf d text) := by
      rw [← hrest, Assembly.growAll_append, Assembly.growAll_append]
      rfl
    rw [hall, hgrown, hcontent] at hsub
    refine hsub (mem_subtreesAll_of_mem ?_)
    simp
  have hleaves := Production.forms_table hr ((Production.Forms.rule hforms).of_mem_subtreesAll hmem)
  refine Assembly.exists_opened hf fun t ht => ?_
  obtain ⟨token, comments, rfl, -⟩ := hleaves t ht
  rfl

end Closing

/-! ## What is found -/

theorem Tree.refusal?_eq_some_iff {rule : Rule} {parts : List Tree} {place : Location} :
    refusal? rule parts = some place ↔
      Assembly.isTable rule ∧ ∃ row, TableRow.IsFirstUneven (rows parts) row ∧
        row.place = place := by
  rw [refusal?]
  split
  · next hr => simp [hr, unevenRow?_eq, TableRow.firstUneven?_eq_some_iff]
  · next hr => simp [hr]

theorem Assembly.close_prune_of_frames {a : Assembly} {rule : Rule} {parts : List Tree}
    {frames : Parts} (hf : a.frames = (rule, parts) :: frames) :
    a.prune.close.2 = (refusal? rule parts).map .unevenRow := by
  obtain ⟨_, trees, w⟩ := a
  obtain rfl : _ = (rule, parts) :: frames := hf
  rw [close_prune]
  cases refusal? rule parts <;> rfl

/-- Closing a rule is refused just when it violates the rules of tables. -/
theorem close_eq_some_iff {d : Dialect} {text : String} {seen : List Event} {closing : Rule}
    (h : seen ++ [.closed closing] <+: eventsOf d text) (e : ParseError) :
    (Assembly.empty.growAll seen).prune.close.2 = some e ↔ Violates seen (.closed closing) e := by
  constructor
  · intro he
    cases hf : (Assembly.empty.growAll seen).frames with
    | nil => simp [Assembly.close, Assembly.prune, hf] at he
    | cons f frames =>
        obtain ⟨rule, parts⟩ := f
        obtain rfl := eq_of_closed h hf
        rw [Assembly.close_prune_of_frames hf] at he
        obtain ⟨place, hplace, rfl⟩ := Option.map_eq_some_iff.mp he
        obtain ⟨hr, row, hrow, rfl⟩ := refusal?_eq_some_iff.mp hplace
        obtain ⟨before, inner, rfl, hinner, hrows⟩ := exists_table_of_closed h hf hr
        exact .table hr hinner (hrows ▸ hrow)
  · intro he
    cases he with
    | @table before rule inner row hr hinner hrow =>
        obtain ⟨parts, hf, hrows⟩ := Assembly.growAll_isFlat hinner
          (a := (Assembly.empty.growAll before).grow (.opened closing)) rfl
        have hgrown : (Assembly.empty.growAll (before ++ .opened closing :: inner)).frames =
            (closing, parts) :: (Assembly.empty.growAll before).frames := by
          rw [Assembly.growAll_append]
          exact hf
        have hplace : refusal? closing parts = some row.place :=
          refusal?_eq_some_iff.mpr ⟨hr, row, hrows ▸ hrow, rfl⟩
        rw [Assembly.close_prune_of_frames hgrown, hplace, Option.map_some]

theorem Findings.errors_take (f : Findings) (e : Event) :
    (f.take e).errors = f.errors ++
      match e with
      | .closed _ => f.assembly.close.2.toList
      | .error e => [e]
      | _ => [] := by
  cases e <;> simp [Findings.take]

theorem errors_after_append {d : Dialect} {text : String} {seen : List Event} {next : Event}
    (h : seen ++ [next] <+: eventsOf d text) :
    ∃ new : Option ParseError,
      (Findings.empty.after (seen ++ [next])).errors =
        (Findings.empty.after seen).errors ++ new.toList ∧
      ∀ e, new = some e ↔ Violates seen next e := by
  rw [Findings.after_append, Findings.after_cons, Findings.after_nil, Findings.errors_take]
  cases next with
  | opened rule | token t =>
      refine ⟨none, rfl, fun e => ⟨fun he => ?_, fun he => ?_⟩⟩ <;> cases he
  | error e =>
      refine ⟨some e, rfl, fun e' => ⟨fun he => ?_, fun he => ?_⟩⟩
      · obtain rfl := Option.some.inj he
        exact .error
      · cases he
        rfl
  | closed closing =>
      have hassembly : (Findings.empty.after seen).assembly =
          (Assembly.empty.growAll seen).prune := Assembly.assembly_after seen .empty []
      exact ⟨_, by rw [hassembly], close_eq_some_iff h⟩

section Prefixes

variable {d : Dialect} {text : String} {seen : List Event}

theorem append_singleton_prefix_iff {before : List Event} {event next : Event} :
    before ++ [event] <+: seen ++ [next] ↔
      (before = seen ∧ event = next) ∨ before ++ [event] <+: seen := by
  rw [List.prefix_concat_iff, List.append_singleton_inj]

theorem errors_eq_nil_iff (h : seen <+: eventsOf d text) :
    (Findings.empty.after seen).errors = [] ↔
      ∀ before next, before ++ [next] <+: seen → ∀ e, ¬Violates before next e := by
  induction seen using List.reverseRecOn with
  | nil => simp [Findings.empty]
  | append_singleton seen next ih =>
      obtain ⟨new, herrors, hnew⟩ := errors_after_append h
      have hnone : new.toList = [] ↔ ∀ e, ¬Violates seen next e := by
        rw [Option.toList_eq_nil_iff, Option.eq_none_iff_forall_ne_some]
        exact forall_congr' fun e => not_congr (hnew e)
      rw [herrors, List.append_eq_nil_iff, ih ((List.prefix_append _ _).trans h), hnone]
      simp only [append_singleton_prefix_iff]
      constructor
      · rintro ⟨hseen, hnext⟩ before event (⟨rfl, rfl⟩ | hm)
        · exact hnext
        · exact hseen before event hm
      · exact fun hall => ⟨fun before event hm => hall before event (.inr hm),
          hall seen next (.inl ⟨rfl, rfl⟩)⟩

/-- The first error of a text is that of the first event that violates a rule. -/
theorem head?_errors_eq_some_iff (h : seen <+: eventsOf d text) (e : ParseError) :
    (Findings.empty.after seen).errors.head? = some e ↔
      ∃ before next, before ++ [next] <+: seen ∧ Violates before next e ∧
        ∀ earlier event, earlier ++ [event] <+: before → ∀ e', ¬Violates earlier event e' := by
  -- What is seen grows by one event, which matters only if nothing was found before.
  induction seen using List.reverseRecOn with
  | nil => simp [Findings.empty]
  | append_singleton seen next ih =>
      have hseen : seen <+: eventsOf d text := (List.prefix_append _ _).trans h
      obtain ⟨new, herrors, hnew⟩ := errors_after_append h
      rw [herrors]
      cases hfound : (Findings.empty.after seen).errors with
      | nil =>
          have hnone := (errors_eq_nil_iff hseen).mp hfound
          have hhead : ([] ++ new.toList).head? = some e ↔ Violates seen next e := by
            rw [List.nil_append, ← hnew]
            cases new <;> simp
          rw [hhead]
          constructor
          · exact fun hv => ⟨seen, next, List.prefix_refl _, hv, hnone⟩
          · rintro ⟨before, event, hm, hv, -⟩
            rcases append_singleton_prefix_iff.mp hm with ⟨rfl, rfl⟩ | hm
            · exact hv
            · exact absurd hv (hnone before event hm e)
      | cons first more =>
          rw [hfound] at ih
          rw [List.cons_append, List.head?_cons, ← List.head?_cons (l := more), ih hseen]
          constructor
          · rintro ⟨before, event, hm, hv⟩
            exact ⟨before, event, append_singleton_prefix_iff.mpr (.inr hm), hv⟩
          · rintro ⟨before, event, hm, hv, hfirst⟩
            rcases append_singleton_prefix_iff.mp hm with ⟨rfl, rfl⟩ | hm
            · have hnil := (errors_eq_nil_iff hseen).mpr hfirst
              rw [hnil] at hfound
              cases hfound
            · exact ⟨before, event, hm, hv, hfirst⟩

end Prefixes

/-- Strict reading ends with the error of the first event that violates a rule. -/
theorem Document.parse_eq_error_iff (d : Dialect) (text : String) (e : ParseError) :
    parse d text = .error e ↔
      ∃ before next, before ++ [next] <+: eventsOf d text ∧ Violates before next e ∧
        ∀ earlier event, earlier ++ [event] <+: before → ∀ e', ¬Violates earlier event e' := by
  rw [← head?_errors_eq_some_iff (List.prefix_refl _) e, parse_eq, Diagnostics.ofText_eq]
  cases (Findings.empty.after (eventsOf d text)).errors <;> simp

/-- It ends with a row just when the first violation is the end of a table in which that row is the
first to differ in width. -/
theorem Document.parse_eq_unevenRow_iff (d : Dialect) (text : String) (place : Location) :
    parse d text = .error (.unevenRow place) ↔
      ∃ before rule inner row,
        before ++ .opened rule :: inner ++ [.closed rule] <+: eventsOf d text ∧
        Assembly.isTable rule ∧ (∀ e ∈ inner, isFlat e) ∧
        TableRow.IsFirstUneven (inner.filterMap row?) row ∧ row.place = place ∧
        ∀ earlier event, earlier ++ [event] <+: before ++ .opened rule :: inner →
          ∀ e, ¬Violates earlier event e := by
  rw [parse_eq_error_iff]
  constructor
  · rintro ⟨seen, next, hm, hv, hfirst⟩
    generalize he : ParseError.unevenRow place = e at hv
    cases hv with
    | error =>
        obtain ⟨-, -, -, -, -, -, hsyn⟩ := Assembly.growAll_eventsOf d text
        have hsyntax := hsyn e (hm.subset (List.mem_append_right _ (List.mem_singleton.mpr rfl)))
        rw [← he] at hsyntax
        cases hsyntax
    | @table before rule inner row hr hinner hrow =>
        exact ⟨before, rule, inner, row, hm, hr, hinner, hrow, (ParseError.unevenRow.inj he).symm,
          hfirst⟩
  · rintro ⟨before, rule, inner, row, hm, hr, hinner, hrow, rfl, hfirst⟩
    exact ⟨_, _, hm, .table hr hinner hrow, hfirst⟩

end FeaturePlan
