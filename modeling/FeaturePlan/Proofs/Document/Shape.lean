import FeaturePlan.Proofs.Document.Growth
import FeaturePlan.Proofs.Grammar.Beginnings

/-! # The shape of what is assembled

Events that a production derives grow into trees of a shape that the production gives. Where the end
of a text cuts them off, the trees are those of a part of the production: everything up to some
place, and nothing behind it. -/

namespace FeaturePlan

open Assembly Event

namespace Production

/-- The trees are those that the production stands for, save that a table may be missing. If they
may be cut off, they can also be the beginning of such trees. -/
inductive Forms : Bool → Production → List Tree → Prop where
  | line {cut kind t comments} : t.kind = kind → Forms cut (.line kind) [.leaf t comments]
  | eof {cut} : Forms cut (.line .eof) []
  | rule {cut r parts} : Forms cut r.production parts → Forms cut (.rule r) [.node r parts]
  | refused {cut r} : isTable r → Forms cut (.rule r) []
  | nothing {cut} : Forms cut .nothing []
  | seq {cut p q ts us} : Forms false p ts → Forms cut q us → Forms cut (.seq p q) (ts ++ us)
  | left {cut p q ts} : Forms cut p ts → Forms cut (.either p q) ts
  | right {cut p q ts} : Forms cut q ts → Forms cut (.either p q) ts
  | none {cut p} : Forms cut (.many p) []
  | more {cut p ts us} : Forms false p ts → Forms cut (.many p) us →
      Forms cut (.many p) (ts ++ us)
  | cut {p} : Forms true p []
  | first {p q ts} : Forms true p ts → Forms true (.seq p q) ts
  | again {p ts} : Forms true p ts → Forms true (.many p) ts

/-! ## What trees of a shape are -/

variable {cut : Bool} {p q : Production} {r : Rule} {kind : TokenKind} {ts : List Tree}

theorem Forms.weaken (h : p.Forms false ts) (cut : Bool) : p.Forms cut ts := by
  cases cut with
  | false => exact h
  | true =>
      generalize hwhole : false = whole at h
      induction h with
      | line hk => exact .line hk
      | eof => exact .eof
      | rule _ ih => exact .rule (ih hwhole)
      | refused ht => exact .refused ht
      | nothing => exact .nothing
      | seq hp _ _ ihq => exact .seq hp (ihq hwhole)
      | left _ ih => exact .left (ih hwhole)
      | right _ ih => exact .right (ih hwhole)
      | none => exact .none
      | more hp _ _ ihq => exact .more hp (ihq hwhole)
      | cut | first | again => cases hwhole

theorem Forms.begin (h : p.Forms cut ts) : p.Forms true ts := by
  cases cut with
  | false => exact h.weaken true
  | true => exact h

theorem forms_line (h : (Production.line kind).Forms cut ts) :
    ts = [] ∧ (cut ∨ kind = .eof) ∨ ∃ t comments, ts = [.leaf t comments] ∧ t.kind = kind := by
  cases h with
  | line hk => exact .inr ⟨_, _, rfl, hk⟩
  | eof => exact .inl ⟨rfl, .inr rfl⟩
  | cut => exact .inl ⟨rfl, .inl rfl⟩

theorem forms_rule (h : (Production.rule r).Forms cut ts) :
    ts = [] ∧ (cut ∨ isTable r) ∨ ∃ parts, ts = [.node r parts] ∧ r.production.Forms cut parts := by
  cases h with
  | rule hr => exact .inr ⟨_, rfl, hr⟩
  | refused ht => exact .inl ⟨rfl, .inr ht⟩
  | cut => exact .inl ⟨rfl, .inl rfl⟩

theorem forms_rule_of_not_isTable (h : (Production.rule r).Forms cut ts) (hr : isTable r = false) :
    ts = [] ∧ cut ∨ ∃ parts, ts = [.node r parts] ∧ r.production.Forms cut parts := by
  rcases forms_rule h with ⟨rfl, hcut⟩ | h
  · exact .inl ⟨rfl, by simpa [hr] using hcut⟩
  · exact .inr h

theorem forms_nothing (h : nothing.Forms cut ts) : ts = [] := by
  cases h <;> rfl

theorem forms_seq (h : (seq p q).Forms cut ts) :
    (∃ us vs, ts = us ++ vs ∧ p.Forms false us ∧ q.Forms cut vs) ∨ cut ∧ p.Forms cut ts := by
  cases h with
  | seq hp hq => exact .inl ⟨_, _, rfl, hp, hq⟩
  | cut => exact .inr ⟨rfl, .cut⟩
  | first hp => exact .inr ⟨rfl, hp⟩

theorem forms_split (h : (seq p q).Forms cut ts) :
    ∃ us vs, ts = us ++ vs ∧ p.Forms cut us ∧ q.Forms cut vs := by
  rcases forms_seq h with ⟨us, vs, rfl, hp, hq⟩ | ⟨rfl, hp⟩
  · exact ⟨us, vs, rfl, hp.weaken cut, hq⟩
  · exact ⟨ts, [], by rw [List.append_nil], hp, .cut⟩

theorem forms_either (h : (either p q).Forms cut ts) : p.Forms cut ts ∨ q.Forms cut ts := by
  cases h with
  | left hp => exact .inl hp
  | right hq => exact .inr hq
  | cut => exact .inl .cut

theorem forms_optional (h : (Production.optional p).Forms cut ts) : ts = [] ∨ p.Forms cut ts :=
  (forms_either h).symm.imp_left forms_nothing

theorem forms_single (h : (inOrder [p]).Forms cut ts) : p.Forms cut ts := by
  rcases forms_seq h with ⟨us, vs, rfl, hp, hq⟩ | ⟨-, hp⟩
  · rw [forms_nothing hq, List.append_nil]
    exact hp.weaken cut
  · exact hp

/-- Each of many trees belongs to trees of the shape of one. -/
theorem forms_many (h : (many p).Forms cut ts) :
    ∃ groups : List (List Tree), ts = groups.flatten ∧ ∀ group ∈ groups, p.Forms cut group := by
  generalize hm : many p = whole at h
  induction h with
  | none | cut => exact ⟨[], rfl, by simp⟩
  | @more cut _ ts us hp _ _ ih =>
      cases hm
      obtain ⟨groups, rfl, hgroups⟩ := ih rfl
      exact ⟨ts :: groups, rfl, List.forall_mem_cons.mpr ⟨hp.weaken cut, hgroups⟩⟩
  | @again _ ts hp _ =>
      cases hm
      exact ⟨[ts], by simp, by simpa using hp⟩
  | line | eof | rule | refused | nothing | seq | left | right | first => cases hm

theorem forms_lines (h : (many (.line kind)).Forms cut ts) :
    ∀ t ∈ ts, ∃ token comments, t = .leaf token comments ∧ token.kind = kind := by
  obtain ⟨groups, rfl, hgroups⟩ := forms_many h
  intro t ht
  obtain ⟨group, hgroup, ht⟩ := List.mem_flatten.mp ht
  rcases forms_line (hgroups group hgroup) with ⟨rfl, -⟩ | ⟨token, comments, rfl, hk⟩
  · cases ht
  · exact ⟨token, comments, List.mem_singleton.mp ht, hk⟩

theorem forms_rules (h : (many (.rule r)).Forms cut ts) :
    ∀ t ∈ ts, ∃ parts, t = .node r parts ∧ r.production.Forms cut parts := by
  obtain ⟨groups, rfl, hgroups⟩ := forms_many h
  intro t ht
  obtain ⟨group, hgroup, ht⟩ := List.mem_flatten.mp ht
  rcases forms_rule (hgroups group hgroup) with ⟨rfl, -⟩ | ⟨parts, rfl, hr⟩
  · cases ht
  · exact ⟨parts, List.mem_singleton.mp ht, hr⟩

theorem forms_several (h : (several p).Forms cut ts) : (many p).Forms cut ts := by
  rcases forms_seq h with ⟨us, vs, rfl, hp, hq⟩ | ⟨rfl, hp⟩
  · exact .more hp hq
  · exact .again hp

theorem forms_table (hr : isTable r) (h : r.production.Forms cut ts) :
    ∀ t ∈ ts, ∃ token comments, t = .leaf token comments ∧ token.kind = .row := by
  cases r <;> first | exact forms_lines (forms_several h) | simp [isTable] at hr

theorem Forms.pruneAll (h : p.Forms cut ts) : p.Forms cut (Tree.pruneAll ts) := by
  induction h with
  | line hk => exact .line hk
  | eof => exact .eof
  | @rule cut r parts _ ih =>
      rw [Tree.pruneAll]
      split
      · rename_i hrefused
        refine .refused ?_
        by_contra hr
        simp [Tree.isRefused, Tree.refusal?, hr] at hrefused
      · exact .rule ih
  | refused ht => exact .refused ht
  | nothing => exact .nothing
  | seq _ _ ihp ihq =>
      rw [Tree.pruneAll_append]
      exact .seq ihp ihq
  | left _ ih => exact .left ih
  | right _ ih => exact .right ih
  | none => exact .none
  | more _ _ ihp ihq =>
      rw [Tree.pruneAll_append]
      exact .more ihp ihq
  | cut => exact .cut
  | first _ ih => exact .first ih
  | again _ ih => exact .again ih

end Production

/-! ## What events grow into -/

namespace Assembly

variable {r : Rule} {parts : List Tree} {F : Parts} {trees : List Tree} {w : List Comment}

theorem growAll_cons (a : Assembly) (e : Event) (events : List Event) :
    a.growAll (e :: events) = (a.grow e).growAll events :=
  rfl

/-- What is no part of the grammar changes nothing but the comments that wait. -/
theorem growAll_of_filter_eq_nil {events : List Event} (h : events.filter isPart = []) :
    ∃ w', growAll ⟨F, trees, w⟩ events = ⟨F, trees, w'⟩ := by
  induction events generalizing w with
  | nil => exact ⟨w, rfl⟩
  | cons e events ih =>
      rw [List.filter_eq_nil_iff] at h
      have he : isPart e = false := by simpa using h e List.mem_cons_self
      obtain ⟨w₁, h₁⟩ : ∃ w₁, grow ⟨F, trees, w⟩ e = ⟨F, trees, w₁⟩ := by
        cases e with
        | error e => exact ⟨w, rfl⟩
        | opened rule | closed rule => cases he
        | token t =>
            have hholds : ¬holds t := by
              simp only [isPart, counts] at he
              simp only [holds, List.mem_cons]
              grind
            obtain ⟨w₁, h₁⟩ := addToken_of_not_holds hholds ⟨F, trees, w⟩
            exact ⟨w₁, h₁ F trees⟩
      rw [growAll_cons, h₁]
      exact ih (List.filter_eq_nil_iff.mpr fun x hx => h x (List.mem_cons_of_mem e hx))

/-- Events up to the first that is part of the grammar leave the frames as they are. -/
theorem growAll_of_filter_eq_cons {events es : List Event} {e : Event}
    (h : events.filter isPart = e :: es) (w : List Comment) :
    ∃ rest w', rest.filter isPart = es ∧
      growAll ⟨F, trees, w⟩ events = (grow ⟨F, trees, w'⟩ e).growAll rest := by
  obtain ⟨before, rest, rfl, hbefore, -, hrest⟩ := List.filter_eq_cons_iff.mp h
  obtain ⟨w', hw⟩ := growAll_of_filter_eq_nil (F := F) (w := w)
    (List.filter_eq_nil_iff.mpr hbefore)
  exact ⟨rest, w', hrest, by rw [growAll_append, hw, growAll_cons]⟩

/-- A line that counts becomes a leaf, but the end of the text leaves no trace. -/
theorem grow_token {t : Token} (hpart : isPart (.token t)) :
    ∃ new w', grow ⟨(r, parts) :: F, trees, w⟩ (.token t) =
      ⟨(r, parts ++ new) :: F, trees, w'⟩ ∧ (Production.line t.kind).Forms false new := by
  by_cases hholds : holds t
  · rw [grow, addToken_of_holds hholds]
    split <;> exact ⟨[.leaf t _], _, rfl, .line rfl⟩
  · have heof : t.kind = .eof := by
      simp only [isPart, counts] at hpart
      simp only [holds] at hholds
      grind
    obtain ⟨w', hadd⟩ := addToken_of_not_holds hholds ⟨(r, parts) :: F, trees, w⟩
    exact ⟨[], w', by rw [grow, hadd, List.append_nil], heof ▸ .eof⟩

/-- What a production derives grows into trees of its shape. -/
theorem growAll_derives {p : Production} {es events : List Event} (h : p.Derives es)
    (hes : events.filter isPart = es) (r : Rule) (parts : List Tree) (F : Parts)
    (w : List Comment) :
    ∃ new w', growAll ⟨(r, parts) :: F, trees, w⟩ events =
      ⟨(r, parts ++ new) :: F, trees, w'⟩ ∧ p.Forms false new := by
  induction h generalizing events r parts F w with
  | @line kind t hk =>
      obtain ⟨rest, w₁, hrest, hgrow⟩ := growAll_of_filter_eq_cons hes w
      have hpart : .token t ∈ events.filter isPart := hes ▸ List.mem_cons_self
      obtain ⟨new, w₂, hnew, hforms⟩ := grow_token (List.mem_filter.mp hpart).2
      obtain ⟨w₃, hw⟩ := growAll_of_filter_eq_nil hrest
      exact ⟨new, w₃, by rw [hgrow, hnew, hw], hk ▸ hforms⟩
  | @rule q es _ ih =>
      obtain ⟨inner, closing, rfl, hinner, hclosing⟩ := List.filter_eq_append_iff.mp hes
      obtain ⟨inner, w₁, hinner, hgrow⟩ :=
        growAll_of_filter_eq_cons (F := (r, parts) :: F) hinner w
      obtain ⟨new, w₂, hnew, hforms⟩ := ih hinner q [] ((r, parts) :: F) w₁
      obtain ⟨rest, w₃, hrest, hclose⟩ := growAll_of_filter_eq_cons
        (F := (q, new) :: (r, parts) :: F) hclosing w₂
      obtain ⟨w₄, hw⟩ := growAll_of_filter_eq_nil hrest
      refine ⟨[.node q new], w₄, ?_, .rule hforms⟩
      rw [growAll_append, hgrow, grow, hnew, List.nil_append, hclose, grow]
      exact hw
  | nothing =>
      obtain ⟨w', hw⟩ := growAll_of_filter_eq_nil hes
      exact ⟨[], w', by rw [hw, List.append_nil], .nothing⟩
  | none =>
      obtain ⟨w', hw⟩ := growAll_of_filter_eq_nil hes
      exact ⟨[], w', by rw [hw, List.append_nil], .none⟩
  | left _ ih =>
      obtain ⟨new, w', hnew, hforms⟩ := ih hes r parts F w
      exact ⟨new, w', hnew, .left hforms⟩
  | right _ ih =>
      obtain ⟨new, w', hnew, hforms⟩ := ih hes r parts F w
      exact ⟨new, w', hnew, .right hforms⟩
  | seq _ _ ihp ihq =>
      obtain ⟨xs, ys, rfl, hxs, hys⟩ := List.filter_eq_append_iff.mp hes
      obtain ⟨new, w₁, hnew, hp⟩ := ihp hxs r parts F w
      obtain ⟨new', w₂, hnew', hq⟩ := ihq hys r (parts ++ new) F w₁
      exact ⟨new ++ new', w₂, by rw [growAll_append, hnew, hnew', List.append_assoc], .seq hp hq⟩
  | more _ _ ihp ihq =>
      obtain ⟨xs, ys, rfl, hxs, hys⟩ := List.filter_eq_append_iff.mp hes
      obtain ⟨new, w₁, hnew, hp⟩ := ihp hxs r parts F w
      obtain ⟨new', w₂, hnew', hq⟩ := ihq hys r (parts ++ new) F w₁
      exact ⟨new ++ new', w₂, by rw [growAll_append, hnew, hnew', List.append_assoc], .more hp hq⟩

/-- What a production starts with grows into the beginning of trees of its shape, part of which may
still be open. -/
theorem growAll_starts {p : Production} {es events : List Event} (h : p.Starts es)
    (hes : events.filter isPart = es) (r : Rule) (parts : List Tree) (F : Parts)
    (w : List Comment) :
    ∃ inner new w', growAll ⟨(r, parts) :: F, trees, w⟩ events =
      ⟨inner ++ (r, parts ++ new) :: F, trees, w'⟩ ∧
      p.Forms true (new ++ Tree.wrap [] inner) := by
  induction h generalizing events r parts F w with
  | whole hp =>
      obtain ⟨new, w', hnew, hforms⟩ := growAll_derives hp hes r parts F w
      exact ⟨[], new, w', hnew, by simpa [Tree.wrap] using hforms.weaken true⟩
  | nil =>
      obtain ⟨w', hw⟩ := growAll_of_filter_eq_nil hes
      exact ⟨[], [], w', by rw [hw, List.append_nil, List.nil_append], .cut⟩
  | @rule q es _ ih =>
      obtain ⟨rest, w₁, hrest, hgrow⟩ :=
        growAll_of_filter_eq_cons (F := (r, parts) :: F) hes w
      obtain ⟨inner, new, w', hnew, hforms⟩ := ih hrest q [] ((r, parts) :: F) w₁
      refine ⟨inner ++ [(q, new)], [], w', ?_, ?_⟩
      · rw [hgrow, grow, hnew]
        simp
      · rw [Tree.wrap_append]
        exact .rule hforms
  | left _ ih =>
      obtain ⟨inner, new, w', hnew, hforms⟩ := ih hes r parts F w
      exact ⟨inner, new, w', hnew, .left hforms⟩
  | right _ ih =>
      obtain ⟨inner, new, w', hnew, hforms⟩ := ih hes r parts F w
      exact ⟨inner, new, w', hnew, .right hforms⟩
  | first _ ih =>
      obtain ⟨inner, new, w', hnew, hforms⟩ := ih hes r parts F w
      exact ⟨inner, new, w', hnew, .first hforms⟩
  | again _ ih =>
      obtain ⟨inner, new, w', hnew, hforms⟩ := ih hes r parts F w
      exact ⟨inner, new, w', hnew, .again hforms⟩
  | seq hp _ ih =>
      obtain ⟨xs, ys, rfl, hxs, hys⟩ := List.filter_eq_append_iff.mp hes
      obtain ⟨done, w₁, hdone, hfirst⟩ := growAll_derives hp hxs r parts F w
      obtain ⟨inner, new, w', hnew, hforms⟩ := ih hys r (parts ++ done) F w₁
      refine ⟨inner, done ++ new, w', ?_, ?_⟩
      · rw [growAll_append, hdone, hnew, List.append_assoc]
      · rw [List.append_assoc]
        exact .seq hfirst hforms
  | more hp _ ih =>
      obtain ⟨xs, ys, rfl, hxs, hys⟩ := List.filter_eq_append_iff.mp hes
      obtain ⟨done, w₁, hdone, hfirst⟩ := growAll_derives hp hxs r parts F w
      obtain ⟨inner, new, w', hnew, hforms⟩ := ih hys r (parts ++ done) F w₁
      refine ⟨inner, done ++ new, w', ?_, ?_⟩
      · rw [growAll_append, hdone, hnew, List.append_assoc]
      · rw [List.append_assoc]
        exact .more hfirst hforms

/-! ## What a text grows into -/

theorem rules_push (a : Assembly) (t : Tree) : (a.push t).rules = a.rules := by
  obtain ⟨frames, trees, w⟩ := a
  cases frames <;> rfl

theorem rules_grow (a : Assembly) (e : Event) : (a.grow e).rules = openRules a.rules e := by
  cases e with
  | opened rule => rfl
  | error e => rfl
  | closed rule =>
      obtain ⟨frames, trees, w⟩ := a
      cases frames with
      | nil => rfl
      | cons f frames => exact rules_push _ _
  | token t =>
      by_cases h : holds t
      · rw [grow, addToken_of_holds h]
        split <;> exact rules_push _ _
      · obtain ⟨w', hw⟩ := addToken_of_not_holds h a
        rw [grow, show a.addToken t = ⟨a.frames, a.trees, w'⟩ from hw _ _]
        rfl

/-- The frames are those of the rules that the events leave open. -/
theorem rules_growAll (events : List Event) (a : Assembly) :
    (a.growAll events).rules = events.foldl openRules a.rules := by
  induction events generalizing a with
  | nil => rfl
  | cons e events ih => rw [growAll_cons, ih, rules_grow, List.foldl_cons]

theorem growAll_closed (trees : List Tree) (w : List Comment) {frames : Parts}
    (hframes : frames ≠ []) (ts : List Tree) :
    growAll ⟨addParts ts frames, trees, w⟩ ((frames.map Prod.fst).map .closed) =
      ⟨[], trees ++ Tree.wrap ts frames, w⟩ := by
  induction frames generalizing ts with
  | nil => exact absurd rfl hframes
  | cons f frames ih =>
      cases frames with
      | nil => rfl
      | cons g frames => exact ih (List.cons_ne_nil g frames) [.node f.1 (f.2 ++ ts)]

/-- A text grows into a single tree, that of the document. It is whole unless the text ends where it
may not end. -/
theorem growAll_eventsOf (d : Dialect) (text : String) :
    ∃ cut parts w, empty.growAll (eventsOf d text) = ⟨[], [.node .document parts], w⟩ ∧
      Rule.document.production.Forms cut parts ∧
      (cut → ∃ place expected, .error (.unexpectedEnd place expected) ∈ eventsOf d text) ∧
      ∀ e, .error e ∈ eventsOf d text → e.isSyntax := by
  have hsyn : ∀ {e : ParseError}, e.rejectedLine?.isSome → e.isSyntax := by
    intro e he
    cases e <;> first | rfl | cases he
  have hcourse := eventsOf_course d text
  generalize eventsOf d text = events at hcourse ⊢
  have hopen : empty.grow (.opened .document) = ⟨[(.document, [])], [], []⟩ := rfl
  cases hcourse with
  | @complete events inner herrors hfilter hd =>
      obtain ⟨xs, ys, rfl, hxs, hys⟩ := List.filter_eq_append_iff.mp hfilter
      obtain ⟨parts, w₁, hparts, hforms⟩ :=
        growAll_derives hd hxs .document [] [] []
      obtain ⟨rest, w₂, hrest, hgrow⟩ := growAll_of_filter_eq_cons
        (F := [(.document, parts)]) hys w₁
      obtain ⟨w₃, hw⟩ := growAll_of_filter_eq_nil hrest
      refine ⟨false, parts, w₃, ?_, hforms, by simp, ?_⟩
      · rw [growAll_cons, hopen, growAll_append, hparts, List.nil_append, hgrow]
        exact hw
      · intro e he
        exact hsyn (herrors e ((List.mem_cons.mp he).resolve_left (by simp)))
  | @cut events place expected herrors hd =>
      obtain ⟨inner, parts, w₁, hparts, hforms⟩ :=
        growAll_starts hd rfl .document [] [] []
      rw [List.nil_append] at hparts
      have hrules : events.foldl openRules [.document] =
          (inner ++ [(Rule.document, parts)]).map Prod.fst := by
        have h := rules_growAll events ⟨[(.document, [])], [], []⟩
        rw [hparts] at h
        exact h.symm
      have hne : inner ++ [(Rule.document, parts)] ≠ [] := by simp
      have hclosed := growAll_closed [] w₁ hne []
      have hadd : ∀ frames : Parts, addParts [] frames = frames := by
        intro frames
        cases frames <;> simp [addParts]
      rw [hadd, Tree.wrap_append] at hclosed
      refine ⟨true, _, w₁, ?_, hforms, fun _ => ⟨place, expected, ?_⟩, ?_⟩
      · rw [growAll_cons, hopen, growAll_append, hparts, growAll_cons, hrules]
        exact hclosed
      · simp
      · intro e he
        simp only [List.mem_cons, List.mem_append, List.mem_map, reduceCtorEq, and_false,
          exists_false, or_false, false_or] at he
        rcases he with he | he
        · exact hsyn (herrors e he)
        · rw [Event.error.inj he]
          rfl

end Assembly

end FeaturePlan
