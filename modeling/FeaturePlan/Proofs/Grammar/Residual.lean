import FeaturePlan.Grammar.Derivation

/-! # What remains of open rules

A rule that is open still expects something, and what it expects is again a production. An action of
the automaton is justified when every way to finish the rules after it, with its own events in
front, is a way to finish the rules before it. -/

namespace FeaturePlan

namespace Production

/-! ## Productions -/

def Passes (p : Production) (events : List Event) (q : Production) : Prop :=
  ∀ rest, q.Derives rest → p.Derives (events ++ rest)

theorem Passes.refl (p : Production) : p.Passes [] p :=
  fun _ h => h

theorem Passes.trans {p q r : Production} {es fs : List Event} (h : p.Passes es q)
    (h' : q.Passes fs r) : p.Passes (es ++ fs) r := by
  intro rest hr
  simpa only [List.append_assoc] using h _ (h' rest hr)

theorem passes_seq {p q : Production} {es : List Event} (h : p.Derives es) :
    (seq p q).Passes es q :=
  fun _ hr => .seq h hr

theorem passes_many {p : Production} {es : List Event} (h : p.Derives es) :
    (many p).Passes es (many p) :=
  fun _ hr => .more h hr

theorem Passes.seq {p p' q : Production} {es : List Event} (h : p.Passes es p') :
    (seq p q).Passes es (seq p' q) := by
  intro rest hr
  cases hr with
  | seq hp hq => simpa only [List.append_assoc] using Derives.seq (h _ hp) hq

def nullable : Production → Bool
  | line _ | rule _ => false
  | nothing | many _ => true
  | seq p q => p.nullable && q.nullable
  | either p q => p.nullable || q.nullable

theorem derives_nil_of_nullable {p : Production} (h : p.nullable) : p.Derives [] := by
  induction p with
  | line _ | rule _ => simp [nullable] at h
  | nothing => exact .nothing
  | many _ => exact .none
  | seq p q ihp ihq =>
      simp only [nullable, Bool.and_eq_true] at h
      exact .seq (ihp h.1) (ihq h.2)
  | either p q ihp ihq =>
      simp only [nullable, Bool.or_eq_true] at h
      exact h.elim (fun hp => .left (ihp hp)) (fun hq => .right (ihq hq))

theorem Passes.skip {p q r : Production} {es : List Event} (hp : p.nullable)
    (h : q.Passes es r) : (Production.seq p q).Passes es r := by
  intro rest hr
  have hd := Derives.seq (derives_nil_of_nullable hp) (h rest hr)
  exact hd

end Production

/-! ## Open rules -/

/-- The rules that are open, the innermost first, each with what it still expects. -/
abbrev Frames := List (Rule × Production)

namespace Frames

open Production

def rules (F : Frames) : List Rule :=
  F.map Prod.fst

/-- The events give each rule what it expects and close it, the innermost first. -/
inductive Finish : Frames → List Event → Prop where
  | nil : Finish [] []
  | cons {r : Rule} {p : Production} {F : Frames} {es fs : List Event} :
      p.Derives es → Finish F fs → Finish ((r, p) :: F) (es ++ .closed r :: fs)

def Leads (events : List Event) (F G : Frames) : Prop :=
  ∀ rest, Finish G rest → Finish F (events ++ rest)

theorem Leads.refl (F : Frames) : Leads [] F F :=
  fun _ h => h

theorem Leads.trans {F G H : Frames} {es fs : List Event} (h : Leads es F G)
    (h' : Leads fs G H) : Leads (es ++ fs) F H := by
  intro rest hr
  simpa only [List.append_assoc] using h _ (h' rest hr)

theorem leads_of_passes {r : Rule} {p q : Production} {F : Frames} {es : List Event}
    (h : p.Passes es q) : Leads es ((r, p) :: F) ((r, q) :: F) := by
  intro rest hr
  cases hr with
  | cons hp hF => simpa only [List.append_assoc] using Finish.cons (h _ hp) hF

theorem leads_close {r : Rule} {p : Production} {F : Frames} (h : p.nullable) :
    Leads [.closed r] ((r, p) :: F) F :=
  fun _ hr => Finish.cons (derives_nil_of_nullable h) hr

theorem leads_open {r q : Rule} {p p' : Production} {F : Frames}
    (h : ∀ es, (Production.rule r).Derives es → p.Passes es p') :
    Leads [.opened r] ((q, p) :: F) ((r, r.production) :: (q, p') :: F) := by
  intro rest hr
  cases hr with
  | @cons _ _ _ es fs hp hF =>
      cases hF with
      | @cons _ _ _ es' fs' hp' hF' =>
          have hd := h _ (.rule hp) es' hp'
          simpa [List.append_assoc] using Finish.cons (r := q) hd hF'

/-- Several rules close, one after the other, when none of them expects anything more. -/
theorem leads_closeAll {C F : Frames} (h : ∀ f ∈ C, f.2.nullable) :
    Leads (C.rules.map .closed) (C ++ F) F := by
  induction C with
  | nil => exact .refl F
  | cons f C ih =>
      have hf := h f List.mem_cons_self
      exact (leads_close hf).trans (ih fun g hg => h g (List.mem_cons_of_mem f hg))

end Frames

/-! ## Actions -/

namespace Action

open Frames

/-- The action takes the rules of `F` to those of `G`, and its events lead from `F` to `G`. -/
structure Sends (t : Token) (a : Action) (F G : Frames) : Prop where
  rules : (perform t F.rules a).2 = G.rules
  leads : Leads ((perform t F.rules a).1.filter Event.counts) F G

structure SendsAll (t : Token) (actions : List Action) (F G : Frames) : Prop where
  rules : (performAll t F.rules actions).2 = G.rules
  leads : Leads ((performAll t F.rules actions).1.filter Event.counts) F G

theorem SendsAll.nil (t : Token) (F : Frames) : SendsAll t [] F F :=
  ⟨rfl, .refl F⟩

theorem SendsAll.cons {t : Token} {a : Action} {actions : List Action} {F G H : Frames}
    (h : Sends t a F G) (h' : SendsAll t actions G H) : SendsAll t (a :: actions) F H := by
  constructor
  · simpa only [performAll, h.rules] using h'.rules
  · simpa only [performAll, h.rules, List.filter_append] using h.leads.trans h'.leads

theorem SendsAll.single {t : Token} {a : Action} {F G : Frames} (h : Sends t a F G) :
    SendsAll t [a] F G :=
  .cons h (.nil t G)

theorem sends_enter (t : Token) {r q : Rule} {p p' : Production} {F : Frames}
    (h : ∀ es, (Production.rule r).Derives es → p.Passes es p') :
    Sends t (enter r) ((q, p) :: F) ((r, r.production) :: (q, p') :: F) :=
  ⟨rfl, leads_open h⟩

theorem sends_leave (t : Token) {r : Rule} {p : Production} {F : Frames} (h : p.nullable) :
    Sends t leave ((r, p) :: F) F :=
  ⟨rfl, leads_close h⟩

/-- A line that counts is one that the innermost rule expects. -/
theorem sends_shift {t : Token} (ht : (Event.token t).counts) {r : Rule} {p q : Production}
    {F : Frames} (h : p.Passes [.token t] q) : Sends t shift ((r, p) :: F) ((r, q) :: F) := by
  refine ⟨rfl, ?_⟩
  simpa [perform, Frames.rules, ht] using leads_of_passes h

theorem sends_shift_of_not_counts {t : Token} (ht : ¬ (Event.token t).counts) {F G : Frames}
    (hr : F.rules = G.rules) (h : Leads [] F G) : Sends t shift F G := by
  cases F with
  | nil => exact ⟨hr, by simpa [perform, Frames.rules, ht] using h⟩
  | cons f F => exact ⟨hr, by simpa [perform, Frames.rules, ht] using h⟩

/-- Leaving to a rule closes those inside it, none of which expects anything more. -/
theorem sends_leaveTo (t : Token) {C F : Frames} {r : Rule} {p : Production}
    (h : ∀ f ∈ C, f.1 ≠ r ∧ f.2.nullable) :
    Sends t (leaveTo r) (C ++ (r, p) :: F) ((r, p) :: F) := by
  have hne : ∀ q ∈ C.map Prod.fst, decide (q ≠ r) = true := by
    intro q hq
    obtain ⟨f, hf, rfl⟩ := List.mem_map.mp hq
    exact decide_eq_true (h f hf).1
  have hrules : Frames.rules (C ++ (r, p) :: F) =
      C.map Prod.fst ++ r :: F.map Prod.fst := by
    simp [Frames.rules]
  have hstop : decide (r ≠ r) = false := decide_eq_false (not_not_intro rfl)
  have hcounts : ((C.map Prod.fst).map Event.closed).filter Event.counts =
      (C.map Prod.fst).map .closed := by
    refine List.filter_eq_self.mpr fun e he => ?_
    obtain ⟨_, _, rfl⟩ := List.mem_map.mp he
    rfl
  constructor
  · simp only [perform, hrules, List.dropWhile_append_of_pos hne, List.dropWhile_cons, hstop]
    rfl
  · simp only [perform, hrules, List.takeWhile_append_of_pos hne, List.takeWhile_cons, hstop,
      Bool.false_eq_true, if_false, List.append_nil, hcounts]
    exact leads_closeAll fun f hf => (h f hf).2

end Action

end FeaturePlan
