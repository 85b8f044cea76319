import FeaturePlan.Proofs.Grammar.Residual
import FeaturePlan.Proofs.Grammar.Stopping
import FeaturePlan.Proofs.Scanner.Classify

/-! # Accepted texts are sentences of the grammar

A state of the automaton determines which rules are open and what each of them still expects. -/

namespace FeaturePlan

open Production

/-! ## What a state still expects -/

namespace Block

/-- What may follow the description inside the block's rule. -/
def body : Block → Production
  | feature => inOrder []
  | background | scenario => inOrder [many (.rule .step)]
  | outline => inOrder [many (.rule .step), several (.rule .examplesDefinition)]
  | examples => inOrder [optional (.rule .examplesTable)]

/-- The open rules between the block's rule and the feature. -/
def enclosing : Block → Frames
  | feature | background => []
  | scenario | outline => [(.scenarioDefinition, inOrder [])]
  | examples =>
    [(.examplesDefinition, inOrder []),
      (.scenarioOutline, inOrder [many (.rule .examplesDefinition)]),
      (.scenarioDefinition, inOrder [])]

def definitions : Block → Production
  | feature => inOrder [optional (.rule .background), many (.rule .scenarioDefinition)]
  | _ => inOrder [many (.rule .scenarioDefinition)]

/-- The feature and the document, as long as a block is open in them. -/
def outermost (b : Block) : Frames :=
  [(.feature, b.definitions), (.document, inOrder [.line .eof])]

end Block

namespace State

def inside : State → Frames
  | description _ => [(.description, many (.line .other))]
  | step _ => [(.step, inOrder [optional (either (.rule .dataTable) (.rule .docString))])]
  | dataTable _ => [(.dataTable, many (.line .row)), (.step, inOrder [])]
  | docString _ =>
    [(.docString, inOrder [many (.line .other), .line .separator]), (.step, inOrder [])]
  | afterDocString _ => [(.step, inOrder [])]
  | examplesTable => [(.examplesTable, many (.line .row))]
  | _ => []

def remainder (b : Block) : State → Production
  | title _ => seq (optional (.rule .description)) b.body
  | examplesTable => inOrder []
  | _ => b.body

/-- The open rules of a state, with what each of them still expects. -/
def pending (s : State) : Frames :=
  match s.block? with
  | some b => s.inside ++ (b.rule, s.remainder b) :: b.enclosing ++ b.outermost
  | none =>
    match s with
    | start => [(.document, Rule.document.production)]
    | headerLanguage =>
      (.featureHeader, inOrder [optional (.rule .tags), .line (.title .feature),
        optional (.rule .description)]) :: Block.feature.outermost
    | headerTags =>
      (.tags, many (.line .tags)) :: (.featureHeader, inOrder [.line (.title .feature),
        optional (.rule .description)]) :: Block.feature.outermost
    | scenarioTags =>
      (.tags, many (.line .tags)) ::
        (.scenarioDefinition, inOrder [either (.rule .scenario) (.rule .scenarioOutline)]) ::
        Block.scenario.outermost
    | examplesTags =>
      (.tags, many (.line .tags)) :: (.examplesDefinition, inOrder [.rule .examples]) ::
        (.scenarioOutline, inOrder [many (.rule .examplesDefinition)]) ::
        (.scenarioDefinition, inOrder []) :: Block.scenario.outermost
    | _ => []

theorem pending_of_block {s : State} {b : Block} (hb : s.block? = some b) :
    s.pending = s.inside ++ (b.rule, s.remainder b) :: b.enclosing ++ b.outermost := by
  simp only [pending, hb]

/-! ## Rules that can be closed -/

/-- Outside doc strings no rule inside the block's rule waits for anything. -/
theorem inside_nullable {s : State} (hs : ∀ b, s ≠ docString b) :
    ∀ f ∈ s.inside, f.2.nullable := by
  cases s with
  | docString b => exact absurd rfl (hs b)
  | _ => simp [inside, nullable, inOrder, Production.optional]

theorem rule_mem_inside (s : State) :
    ∀ f ∈ s.inside,
      f.1 ∈ [Rule.description, .step, .dataTable, .docString, .examplesTable] := by
  cases s <;> simp [inside]

theorem remainder_nullable {s : State} {b : Block} (hb : b ≠ .outline) :
    (s.remainder b).nullable := by
  cases b with
  | outline => exact absurd rfl hb
  | _ => cases s <;> rfl

/-- What a state has left to say about its block leads on to the block's body. -/
theorem remainder_passes {s : State} {b : Block} (hs : s ≠ examplesTable) :
    (s.remainder b).Passes [] b.body := by
  cases s with
  | examplesTable => exact absurd rfl hs
  | title _ => exact .skip rfl (.refl _)
  | _ => exact .refl _

variable {s : State} {b : Block}

theorem sends_leaveTo_block (t : Token) (hb : s.block? = some b) (hs : ∀ b, s ≠ docString b) :
    Action.Sends t (.leaveTo b.rule) s.pending
      ((b.rule, s.remainder b) :: b.enclosing ++ b.outermost) := by
  rw [pending_of_block hb, List.append_assoc]
  refine Action.sends_leaveTo t fun f hf => ⟨?_, inside_nullable hs f hf⟩
  have hm := rule_mem_inside s f hf
  intro h
  cases b <;> simp [h, Block.rule] at hm

/-- Unless an outline still waits for examples, nothing inside the feature waits for anything. -/
theorem within_nullable (hs : ∀ b, s ≠ docString b) (ho : b ≠ .outline) :
    ∀ f ∈ s.inside ++ (b.rule, s.remainder b) :: b.enclosing, f.2.nullable := by
  refine List.forall_mem_append.mpr ⟨inside_nullable hs, List.forall_mem_cons.mpr ⟨?_, ?_⟩⟩
  · exact remainder_nullable ho
  · cases b <;> simp [Block.enclosing, nullable, inOrder]

theorem rule_mem_within (s : State) (b : Block) :
    ∀ f ∈ s.inside ++ (b.rule, s.remainder b) :: b.enclosing,
      f.1 ≠ .feature ∧ f.1 ≠ .document := by
  refine List.forall_mem_append.mpr ⟨fun f hf => ?_, ?_⟩
  · have hm := rule_mem_inside s f hf
    constructor <;> (intro h; simp [h] at hm)
  · cases b <;> simp [Block.rule, Block.enclosing]

theorem sends_leaveTo_feature (t : Token) (hb : s.block? = some b) (hs : ∀ b, s ≠ docString b)
    (ho : b ≠ .outline) : Action.Sends t (.leaveTo .feature) s.pending b.outermost := by
  rw [pending_of_block hb]
  exact Action.sends_leaveTo t fun f hf =>
    ⟨(rule_mem_within s b f hf).1, within_nullable hs ho f hf⟩

theorem sends_leaveTo_document (t : Token) (hb : s.block? = some b) (hs : ∀ b, s ≠ docString b)
    (ho : b ≠ .outline) :
    Action.Sends t (.leaveTo .document) s.pending [(.document, inOrder [.line .eof])] := by
  have hp : s.pending = (s.inside ++ (b.rule, s.remainder b) :: b.enclosing ++
      [(.feature, b.definitions)]) ++ [(.document, inOrder [.line .eof])] := by
    rw [pending_of_block hb]
    simp [Block.outermost]
  rw [hp]
  refine Action.sends_leaveTo t (List.forall_mem_append.mpr ⟨fun f hf => ?_, ?_⟩)
  · exact ⟨(rule_mem_within s b f hf).2, within_nullable hs ho f hf⟩
  · cases b <;> simp [Block.definitions, nullable, inOrder, Production.optional]

/-- The outline becomes the innermost rule, below its steps as well as below its examples. -/
theorem sends_leaveTo_outline (t : Token) (hb : s.block? = some b) (hs : ∀ b, s ≠ docString b)
    (ho : b = .outline ∨ b = .examples) :
    ∃ p, Action.Sends t (.leaveTo .scenarioOutline) s.pending
        ((.scenarioOutline, p) :: (.scenarioDefinition, inOrder []) ::
          Block.scenario.outermost) ∧
      ∀ es, (Production.rule .examplesDefinition).Derives es →
        p.Passes es (inOrder [many (.rule .examplesDefinition)]) := by
  rcases ho with rfl | rfl
  · refine ⟨s.remainder .outline, sends_leaveTo_block t hb hs, fun es he => ?_⟩
    have hne : s ≠ examplesTable := by
      rintro rfl
      simp [block?] at hb
    exact (remainder_passes hne).trans (.skip rfl (passes_seq he).seq)
  · refine ⟨inOrder [many (.rule .examplesDefinition)], ?_, fun es he => (passes_many he).seq⟩
    have hp : s.pending = (s.inside ++ [(.examples, s.remainder .examples),
        (.examplesDefinition, inOrder [])]) ++
        (.scenarioOutline, inOrder [many (.rule .examplesDefinition)]) ::
          (.scenarioDefinition, inOrder []) :: Block.scenario.outermost := by
      rw [pending_of_block hb]
      simp [Block.enclosing, Block.rule, Block.outermost, Block.definitions]
    rw [hp]
    refine Action.sends_leaveTo t (List.forall_mem_append.mpr ⟨fun f hf => ⟨?_, ?_⟩, ?_⟩)
    · have hm := rule_mem_inside s f hf
      intro h
      simp [h] at hm
    · exact inside_nullable hs f hf
    · have hn := remainder_nullable (s := s) (b := .examples) (by simp)
      simp [hn, nullable, inOrder]

/-! ## Lines that end what a block holds so far -/

theorem counts_of_kind {t : Token} (h : t.kind ≠ .empty ∧ t.kind ≠ .comment) :
    (Event.token t).counts := by
  simp [Event.counts, h.1, h.2]

/-- A definition may follow whatever the feature holds so far. -/
theorem definitions_passes (b : Block) {es : List Event}
    (h : (Production.rule .scenarioDefinition).Derives es) :
    b.definitions.Passes es (inOrder [many (.rule .scenarioDefinition)]) := by
  cases b with
  | feature => exact .skip rfl (passes_many h).seq
  | _ => exact (passes_many h).seq

theorem body_passes_step {b : Block} (hf : b.follows .step) {es : List Event}
    (h : (Production.rule .step).Derives es) : b.body.Passes es b.body := by
  cases b with
  | feature | examples => simp [Block.follows] at hf
  | _ => exact (passes_many h).seq

/-- The actions on a line that follows a block are those that the grammar allows. -/
theorem follow_sendsAll {t : Token} {ahead : Bool} {actions : List Action} {s' : State}
    (hb : s.block? = some b) (hs : ∀ b, s ≠ docString b) (hne : s ≠ examplesTable ∨ t.kind ≠ .row)
    (hf : b.follows t.kind) (h : follow b ahead t.kind = some (actions, s')) :
    Action.SendsAll t actions s.pending s'.pending := by
  have hc : (Event.token t).counts := by
    refine counts_of_kind ⟨?_, ?_⟩ <;> (intro hk; rw [hk] at h; simp [follow] at h)
  cases hk : t.kind with
  | title block =>
      cases block with
      | feature => simp [hk, follow] at h
      | background =>
          obtain rfl : b = .feature := by
            cases b <;> simp [hk, Block.follows] at hf ⊢
          simp only [hk, follow, Option.some.injEq, Prod.mk.injEq] at h
          obtain ⟨rfl, rfl⟩ := h
          refine .cons (sends_leaveTo_feature t hb hs (by simp)) ?_
          refine .cons (Action.sends_enter t fun es he => passes_seq (.left he)) ?_
          exact .single (Action.sends_shift hc (passes_seq (.line hk)))
      | scenario =>
          have ho : b ≠ .outline := by
            rintro rfl
            simp [hk, Block.follows] at hf
          simp only [hk, follow, Option.some.injEq, Prod.mk.injEq] at h
          obtain ⟨rfl, rfl⟩ := h
          refine .cons (sends_leaveTo_feature t hb hs ho) ?_
          refine .cons (Action.sends_enter t fun es he => definitions_passes b he) ?_
          refine .cons (Action.sends_enter t fun es he => .skip rfl (passes_seq (.left he))) ?_
          exact .single (Action.sends_shift hc (passes_seq (.line hk)))
      | outline =>
          have ho : b ≠ .outline := by
            rintro rfl
            simp [hk, Block.follows] at hf
          simp only [hk, follow, Option.some.injEq, Prod.mk.injEq] at h
          obtain ⟨rfl, rfl⟩ := h
          refine .cons (sends_leaveTo_feature t hb hs ho) ?_
          refine .cons (Action.sends_enter t fun es he => definitions_passes b he) ?_
          refine .cons (Action.sends_enter t fun es he => .skip rfl (passes_seq (.right he))) ?_
          exact .single (Action.sends_shift hc (passes_seq (.line hk)))
      | examples =>
          have ho : b = .outline ∨ b = .examples := by
            cases b <;> simp [hk, Block.follows] at hf ⊢
          simp only [hk, follow, Option.some.injEq, Prod.mk.injEq] at h
          obtain ⟨rfl, rfl⟩ := h
          obtain ⟨p, hp, hpass⟩ := sends_leaveTo_outline t hb hs ho
          refine .cons hp ?_
          refine .cons (Action.sends_enter t hpass) ?_
          refine .cons (Action.sends_enter t fun es he => .skip rfl (passes_seq he)) ?_
          exact .single (Action.sends_shift hc (passes_seq (.line hk)))
  | tags =>
      simp only [hk, follow] at h
      split at h
      · rename_i ho
        simp only [Option.some.injEq, Prod.mk.injEq] at h
        obtain ⟨rfl, rfl⟩ := h
        obtain ⟨p, hp, hpass⟩ := sends_leaveTo_outline t hb hs (ho.imp_right And.left)
        refine .cons hp ?_
        refine .cons (Action.sends_enter t hpass) ?_
        refine .cons (Action.sends_enter t fun es he => passes_seq (.left he)) ?_
        exact .single (Action.sends_shift hc (passes_seq (.line hk)))
      · rename_i ho
        simp only [Option.some.injEq, Prod.mk.injEq] at h
        obtain ⟨rfl, rfl⟩ := h
        refine .cons (sends_leaveTo_feature t hb hs fun hbo => ho (.inl hbo)) ?_
        refine .cons (Action.sends_enter t fun es he => definitions_passes b he) ?_
        refine .cons (Action.sends_enter t fun es he => passes_seq (.left he)) ?_
        exact .single (Action.sends_shift hc (passes_seq (.line hk)))
  | step =>
      simp only [hk, follow, Option.some.injEq, Prod.mk.injEq] at h
      obtain ⟨rfl, rfl⟩ := h
      have hp : s.remainder b |>.Passes [] b.body := by
        refine remainder_passes ?_
        rintro rfl
        obtain rfl : Block.examples = b := by simpa [block?] using hb
        simp [hk, Block.follows] at hf
      refine .cons (sends_leaveTo_block t hb hs) ?_
      refine .cons (Action.sends_enter t fun es he => hp.trans (body_passes_step (hk ▸ hf) he)) ?_
      exact .single (Action.sends_shift hc (passes_seq (.line hk)))
  | row =>
      obtain rfl : b = .examples := by
        cases b <;> simp [hk, Block.follows] at hf ⊢
      simp only [hk, follow, Option.some.injEq, Prod.mk.injEq] at h
      obtain ⟨rfl, rfl⟩ := h
      have hp := remainder_passes (s := s) (b := .examples) (hne.resolve_right (not_not_intro hk))
      refine .cons (sends_leaveTo_block t hb hs) ?_
      refine .cons (Action.sends_enter t fun es he => hp.trans (passes_seq (.left he))) ?_
      exact .single (Action.sends_shift hc (passes_seq (.line hk)))
  | eof | empty | comment | separator | language | other => simp [hk, follow] at h

/-! ## One line -/

/-- Outside its own table a block takes only what may follow it. -/
theorem follows_of_accepts {kind : TokenKind} (hb : s.block? = some b) (ha : s.accepts kind)
    (hk : kind ∉ [.empty, .comment, .other, .separator])
    (hrow : kind = .row → (∀ b, s ≠ step b) ∧ ∀ b, s ≠ dataTable b) :
    (∀ b, s ≠ docString b) ∧ b.follows kind := by
  cases s with
  | start | headerLanguage | headerTags | scenarioTags | examplesTags | done =>
      simp [block?] at hb
  | docString b' =>
      simp [accepts] at ha hk
      grind
  | step b' | dataTable b' =>
      simp [block?] at hb
      simp [accepts] at ha hk hrow
      grind
  | title b' | description b' | afterDescription b' | afterDocString b' | examplesTable =>
      simp [block?] at hb
      simp [accepts] at ha hk
      grind

theorem followBlock_sendsAll {t : Token} {kind : TokenKind} {ahead : Bool}
    {actions : List Action} {s' : State} (ht : t.kind = kind) (ha : s.accepts kind)
    (hk : kind ∉ [.empty, .comment, .other, .separator])
    (hrow : kind = .row → (∀ b, s ≠ step b) ∧ (∀ b, s ≠ dataTable b) ∧ s ≠ examplesTable)
    (h : s.followBlock ahead kind = some (actions, s')) :
    Action.SendsAll t actions s.pending s'.pending := by
  subst ht
  obtain ⟨b, hb, hf⟩ := Option.bind_eq_some_iff.mp h
  obtain ⟨hs, hfollows⟩ :=
    follows_of_accepts hb ha hk fun hr => ⟨(hrow hr).1, (hrow hr).2.1⟩
  refine follow_sendsAll hb hs ?_ hfollows hf
  by_cases hr : t.kind = .row
  · exact .inl (hrow hr).2.2
  · exact .inr hr

theorem eof_sendsAll {t : Token} (hk : t.kind = .eof) (ha : s.accepts .eof) :
    Action.SendsAll t [.leaveTo .document, .shift, .leave] s.pending [] := by
  have hc := counts_of_kind (t := t) (by simp [hk])
  cases hb : s.block? with
  | none =>
      obtain rfl : s = start := by
        cases s <;> simp [accepts, block?] at ha hb ⊢
      refine .cons (Action.sends_leaveTo t (C := []) (by simp)) ?_
      refine .cons (Action.sends_shift hc (.skip rfl (passes_seq (.line hk)))) ?_
      exact .single (Action.sends_leave t rfl)
  | some b =>
      obtain ⟨hs, hf⟩ := follows_of_accepts hb ha (by simp) (by simp)
      have ho : b ≠ .outline := by
        rintro rfl
        simp [Block.follows] at hf
      refine .cons (sends_leaveTo_document t hb hs ho) ?_
      refine .cons (Action.sends_shift hc (passes_seq (.line hk))) ?_
      exact .single (Action.sends_leave t rfl)

/-- A comment counts for nothing, but it ends a description. -/
theorem comment_sendsAll {t : Token} {ahead : Bool} {actions : List Action} {s' : State}
    (hk : t.kind = .comment) (h : s.next ahead .comment = some (actions, s')) :
    Action.SendsAll t actions s.pending s'.pending := by
  have hc : ¬ (Event.token t).counts := by simp [Event.counts, hk]
  cases s with
  | title b =>
      obtain ⟨rfl, rfl⟩ : [.shift] = actions ∧ afterDescription b = s' := by
        simpa [next] using h
      refine .single (Action.sends_shift_of_not_counts hc rfl ?_)
      exact Frames.leads_of_passes (.skip rfl (.refl _))
  | description b =>
      obtain ⟨rfl, rfl⟩ : [.leaveTo b.rule, .shift] = actions ∧ afterDescription b = s' := by
        simpa [next] using h
      refine .cons (sends_leaveTo_block t (s := description b) rfl (by simp)) ?_
      exact .single (Action.sends_shift_of_not_counts hc rfl (.refl _))
  | _ =>
      obtain ⟨rfl, rfl⟩ : [.shift] = actions ∧ _ = s' := by
        simpa [next] using h
      exact .single (Action.sends_shift_of_not_counts hc rfl (.refl _))

theorem title_sendsAll {t : Token} {block : Block} {ahead : Bool} {actions : List Action}
    {s' : State} (hk : t.kind = .title block) (ha : s.accepts (.title block))
    (h : s.next ahead (.title block) = some (actions, s')) :
    Action.SendsAll t actions s.pending s'.pending := by
  have hc := counts_of_kind (t := t) (by simp [hk])
  have hline := Production.Derives.line hk
  cases block with
  | feature =>
      cases s with
      | start =>
          simp only [next, Option.some.injEq, Prod.mk.injEq] at h
          obtain ⟨rfl, rfl⟩ := h
          refine .cons (Action.sends_enter t fun es he => passes_seq (.left he)) ?_
          refine .cons (Action.sends_enter t fun es he => passes_seq he) ?_
          refine .cons (Action.sends_leaveTo t (C := []) (by simp)) ?_
          exact .single (Action.sends_shift hc (.skip rfl (.skip rfl (passes_seq hline))))
      | headerLanguage =>
          simp only [next, Option.some.injEq, Prod.mk.injEq] at h
          obtain ⟨rfl, rfl⟩ := h
          refine .cons (Action.sends_leaveTo t (C := []) (by simp)) ?_
          exact .single (Action.sends_shift hc (.skip rfl (passes_seq hline)))
      | headerTags =>
          simp only [next, Option.some.injEq, Prod.mk.injEq] at h
          obtain ⟨rfl, rfl⟩ := h
          refine .cons (Action.sends_leaveTo t (C := [_]) (by simp [nullable])) ?_
          exact .single (Action.sends_shift hc (passes_seq hline))
      | _ => simp [next] at h
  | scenario =>
      cases s with
      | scenarioTags =>
          simp only [next, Option.some.injEq, Prod.mk.injEq] at h
          obtain ⟨rfl, rfl⟩ := h
          refine .cons (Action.sends_leaveTo t (C := [_]) (by simp [nullable])) ?_
          refine .cons (Action.sends_enter t fun es he => passes_seq (.left he)) ?_
          exact .single (Action.sends_shift hc (passes_seq hline))
      | _ => exact followBlock_sendsAll hk ha (by simp) (by simp) h
  | outline =>
      cases s with
      | scenarioTags =>
          simp only [next, Option.some.injEq, Prod.mk.injEq] at h
          obtain ⟨rfl, rfl⟩ := h
          refine .cons (Action.sends_leaveTo t (C := [_]) (by simp [nullable])) ?_
          refine .cons (Action.sends_enter t fun es he => passes_seq (.right he)) ?_
          exact .single (Action.sends_shift hc (passes_seq hline))
      | _ => exact followBlock_sendsAll hk ha (by simp) (by simp) h
  | examples =>
      cases s with
      | examplesTags =>
          simp only [next, Option.some.injEq, Prod.mk.injEq] at h
          obtain ⟨rfl, rfl⟩ := h
          refine .cons (Action.sends_leaveTo t (C := [_]) (by simp [nullable])) ?_
          refine .cons (Action.sends_enter t fun es he => passes_seq he) ?_
          exact .single (Action.sends_shift hc (passes_seq hline))
      | _ => exact followBlock_sendsAll hk ha (by simp) (by simp) h
  | background => exact followBlock_sendsAll hk ha (by simp) (by simp) h

theorem tags_sendsAll {t : Token} {ahead : Bool} {actions : List Action} {s' : State}
    (hk : t.kind = .tags) (ha : s.accepts .tags)
    (h : s.next ahead .tags = some (actions, s')) :
    Action.SendsAll t actions s.pending s'.pending := by
  have hc := counts_of_kind (t := t) (by simp [hk])
  have hline := Production.Derives.line hk
  cases s with
  | start =>
      simp only [next, Option.some.injEq, Prod.mk.injEq] at h
      obtain ⟨rfl, rfl⟩ := h
      refine .cons (Action.sends_enter t fun es he => passes_seq (.left he)) ?_
      refine .cons (Action.sends_enter t fun es he => passes_seq he) ?_
      refine .cons (Action.sends_enter t fun es he => .skip rfl (passes_seq (.left he))) ?_
      exact .single (Action.sends_shift hc (passes_seq hline))
  | headerLanguage =>
      simp only [next, Option.some.injEq, Prod.mk.injEq] at h
      obtain ⟨rfl, rfl⟩ := h
      refine .cons (Action.sends_enter t fun es he => passes_seq (.left he)) ?_
      exact .single (Action.sends_shift hc (passes_seq hline))
  | headerTags | scenarioTags | examplesTags =>
      simp only [next, Option.some.injEq, Prod.mk.injEq] at h
      obtain ⟨rfl, rfl⟩ := h
      exact .single (Action.sends_shift hc (passes_many hline))
  | _ => exact followBlock_sendsAll hk ha (by simp) (by simp) h

/-- Whatever a state does with a line that it takes is what the grammar allows. -/
theorem next_sendsAll {t : Token} {ahead : Bool} {actions : List Action} {s' : State}
    (ha : s.accepts t.kind) (h : s.next ahead t.kind = some (actions, s')) :
    Action.SendsAll t actions s.pending s'.pending := by
  obtain ⟨kind, hk⟩ : ∃ kind, t.kind = kind := ⟨_, rfl⟩
  have hline := Production.Derives.line hk
  rw [hk] at ha h
  by_cases hcounts : kind = .empty ∨ kind = .comment
  · rcases hcounts with rfl | rfl
    · obtain ⟨rfl, rfl⟩ : [.shift] = actions ∧ s = s' := by simpa [next] using h
      exact .single
        (Action.sends_shift_of_not_counts (by simp [Event.counts, hk]) rfl (.refl _))
    · exact comment_sendsAll hk h
  have hc := counts_of_kind (t := t) (by simpa [hk] using hcounts)
  cases kind with
  | empty | comment => simp at hcounts
  | eof =>
      obtain ⟨rfl, rfl⟩ : [.leaveTo .document, .shift, .leave] = actions ∧ done = s' := by
        simpa [next] using h
      exact eof_sendsAll hk ha
  | language =>
      cases s with
      | start =>
          simp only [next, Option.some.injEq, Prod.mk.injEq] at h
          obtain ⟨rfl, rfl⟩ := h
          refine .cons (Action.sends_enter t fun es he => passes_seq (.left he)) ?_
          refine .cons (Action.sends_enter t fun es he => passes_seq he) ?_
          exact .single (Action.sends_shift hc (passes_seq (.left hline)))
      | _ => simp [next] at h
  | tags => exact tags_sendsAll hk ha h
  | title block => exact title_sendsAll hk ha h
  | step => exact followBlock_sendsAll hk ha (by simp) (by simp) h
  | separator =>
      cases s with
      | step b =>
          simp only [next, Option.some.injEq, Prod.mk.injEq] at h
          obtain ⟨rfl, rfl⟩ := h
          refine .cons (Action.sends_enter t fun es he => passes_seq (.left (.right he))) ?_
          exact .single (Action.sends_shift hc (passes_seq hline))
      | docString b =>
          simp only [next, Option.some.injEq, Prod.mk.injEq] at h
          obtain ⟨rfl, rfl⟩ := h
          refine .cons (Action.sends_shift hc (.skip rfl (passes_seq hline))) ?_
          exact .single (Action.sends_leave t rfl)
      | _ => simp [next] at h
  | row =>
      cases s with
      | step b =>
          simp only [next, Option.some.injEq, Prod.mk.injEq] at h
          obtain ⟨rfl, rfl⟩ := h
          refine .cons (Action.sends_enter t fun es he => passes_seq (.left (.left he))) ?_
          exact .single (Action.sends_shift hc (passes_seq hline))
      | dataTable | examplesTable =>
          simp only [next, Option.some.injEq, Prod.mk.injEq] at h
          obtain ⟨rfl, rfl⟩ := h
          exact .single (Action.sends_shift hc (passes_many hline))
      | _ => exact followBlock_sendsAll hk ha (by simp) (by simp) h
  | other =>
      cases s with
      | title b =>
          simp only [next, Option.some.injEq, Prod.mk.injEq] at h
          obtain ⟨rfl, rfl⟩ := h
          refine .cons (Action.sends_enter t fun es he => passes_seq (.left he)) ?_
          exact .single (Action.sends_shift hc (passes_seq hline))
      | description b =>
          simp only [next, Option.some.injEq, Prod.mk.injEq] at h
          obtain ⟨rfl, rfl⟩ := h
          exact .single (Action.sends_shift hc (passes_many hline))
      | docString b =>
          simp only [next, Option.some.injEq, Prod.mk.injEq] at h
          obtain ⟨rfl, rfl⟩ := h
          exact .single (Action.sends_shift hc (passes_many hline).seq)
      | _ => simp [next] at h

end State

/-! ## A whole text -/

open Frames

theorem Cursor.error_mem_reject (c : Cursor) (item : Item) :
    ∃ e, .error e ∈ (c.reject item).events := by
  cases item with
  | line l => exact ⟨_, List.mem_singleton.mpr rfl⟩
  | eof place => exact ⟨_, List.mem_cons_self⟩

def Cursor.Consistent (c : Cursor) : Prop :=
  c.rules = c.state.pending.rules

theorem Action.exists_last_at_eof {t : Token} (ht : t.kind = .eof) (rules : List Rule) :
    ∃ events last, (performAll t rules [.leaveTo .document, .shift, .leave]).1 =
      events ++ [last] ∧ last.counts := by
  have hc := State.counts_of_kind (t := t) (by simp [ht])
  simp only [performAll, perform]
  generalize (rules.takeWhile _).map Event.closed = closings
  cases rules.dropWhile fun r => decide (r ≠ .document) with
  | nil => exact ⟨closings, .token t, rfl, hc⟩
  | cons r rest => exact ⟨closings ++ [.token t], .closed r, by simp, rfl⟩

/-- A stride without errors leads from what the state expects to what the next state expects. -/
structure Stride.Fits (c : Cursor) (item : Item) (stride : Stride) : Prop where
  consistent : stride.cursor.Consistent
  leads : Leads (stride.events.filter Event.counts) c.state.pending stride.cursor.state.pending
  eof : ∀ place, item = .eof place → stride.cursor.state = .done ∧
    ∃ events last, stride.events = events ++ [last] ∧ last.counts

theorem Cursor.consume_fits {c : Cursor} (hc : c.Consistent) (item : Item) (ahead : List Item)
    (he : ∀ e, .error e ∉ (c.consume item ahead).events) :
    Stride.Fits c item (c.consume item ahead) := by
  unfold consume at he ⊢
  cases hclass : c.scanner.classify item c.state.expected with
  | refused =>
      obtain ⟨e, hm⟩ := c.error_mem_reject item
      simp only [hclass] at he
      exact absurd hm (he e)
  | unknownLanguage code place => simp [hclass] at he
  | token t scanner =>
      obtain ⟨hm, hread⟩ := Scanner.classify_eq_token hclass
      simp only [hclass] at he ⊢
      generalize (t.kind = .tags && c.state.block? = some .examples &&
        scanner.examplesFollow ahead : Bool) = examplesAhead at he ⊢
      cases hn : c.state.next examplesAhead t.kind with
      | none =>
          obtain ⟨e, hm⟩ := Cursor.error_mem_reject { c with scanner } item
          simp only [hn] at he
          exact absurd hm (he e)
      | some result =>
          obtain ⟨actions, state⟩ := result
          have hs := State.next_sendsAll (State.mem_expected.mp hm) hn
          rw [Consistent] at hc
          simp only [hc]
          refine ⟨hs.rules, hs.leads, fun place hi => ?_⟩
          subst hi
          have hk := Scanner.kind_eq_eof hread
          rw [hk] at hn
          obtain ⟨rfl, rfl⟩ := Prod.mk.inj (Option.some.inj hn)
          exact ⟨rfl, Action.exists_last_at_eof hk _⟩

/-- From a consistent cursor on, a text without errors finishes what is expected. -/
theorem Cursor.strides_finish (raws : List (List Char)) (n : Nat) {c : Cursor}
    (hc : c.Consistent)
    (he : ∀ e, .error e ∉ (c.strides (Item.number n raws)).flatMap Stride.events) :
    Finish c.state.pending
        (((c.strides (Item.number n raws)).flatMap Stride.events).filter Event.counts) ∧
      ∃ events last, (c.strides (Item.number n raws)).flatMap Stride.events =
        events ++ [last] ∧ last.counts := by
  induction raws generalizing c n with
  | nil =>
      have hf := consume_fits hc (.eof ⟨n, 1⟩) [] (by simpa [Item.number, strides] using he)
      obtain ⟨hdone, hlast⟩ := hf.eof _ rfl
      have hd := hf.leads [] (by rw [hdone]; exact .nil)
      exact ⟨by simpa [Item.number, strides] using hd, by simpa [Item.number, strides] using hlast⟩
  | cons raw raws ih =>
      simp only [Item.number, strides, List.flatMap_cons, List.mem_append, not_or] at he
      have hf := consume_fits hc (.line ⟨n, raw⟩) (Item.number (n + 1) raws) fun e => (he e).1
      obtain ⟨hrest, events, last, hevents, hlast⟩ := ih (n + 1) hf.consistent fun e => (he e).2
      constructor
      · simpa [Item.number, strides, List.filter_append] using hf.leads _ hrest
      · refine ⟨(c.consume (.line ⟨n, raw⟩) (Item.number (n + 1) raws)).events ++ events, last,
          ?_, hlast⟩
        simp [Item.number, strides, hevents]

/-- Where nothing stops a strict delivery to a builder that refuses nothing, there is no error and
the builder is given all events. -/
theorem Delivery.run_failFast_of_not_stopped {σ : Type _} {b : Builder σ}
    (hb : ∀ rule s, (b.closed rule s).2 = none) {events : List Event} {s : σ}
    (h : (run b Sink.failFast events s ()).stopped = none) :
    (run b Sink.failFast events s ()).events = events ∧ ∀ e, .error e ∉ events := by
  induction events generalizing s with
  | nil => exact ⟨rfl, fun e => List.not_mem_nil⟩
  | cons event rest ih =>
      cases event with
      | opened rule | token tok =>
          obtain ⟨hev, hno⟩ := ih h
          exact ⟨congrArg (_ :: ·) hev, by simpa using hno⟩
      | closed rule =>
          simp only [run] at h ⊢
          have hn := hb rule s
          generalize b.closed rule s = result at h hn ⊢
          obtain ⟨s, _ | e⟩ := result
          · obtain ⟨hev, hno⟩ := ih h
            exact ⟨congrArg (_ :: ·) hev, by simpa using hno⟩
          · simp at hn
      | error e => simp [run, Sink.failFast] at h

/-- A text that strict reading accepts is a sentence of the grammar. The document is opened before
all else and closed after all else, and what counts in between is derived from the productions. -/
theorem accepted_text_isDocument {σ : Type _} (d : Dialect) (text : String) (b : Builder σ) (s : σ)
    (hb : ∀ rule s, (b.closed rule s).2 = none)
    (h : (deliver d text b Sink.failFast s ()).stopped = none) :
    Event.IsDocument (deliver d text b Sink.failFast s ()).events ∧
      ∃ inner, (deliver d text b Sink.failFast s ()).events =
        .opened .document :: inner ++ [.closed .document] := by
  rw [deliver_eq_run] at h ⊢
  obtain ⟨hev, hno⟩ := Delivery.run_failFast_of_not_stopped hb h
  rw [hev]
  obtain ⟨hf, events, last, hlast, hcounts⟩ :=
    Cursor.strides_finish (Text.lines text.toList) 1 (c := .start d) rfl
      (by simpa [eventsOf, stridesOf, Item.ofText] using hno)
  have hp : (Cursor.start d).state.pending = [(.document, Rule.document.production)] := rfl
  have hall : eventsOf d text = .opened .document :: events ++ [last] := by
    simp [eventsOf, stridesOf, Item.ofText, hlast]
  rw [hp, hlast, List.filter_append, List.filter_cons_of_pos hcounts, List.filter_nil] at hf
  obtain ⟨counted, hd, hclosed⟩ : ∃ counted, Rule.document.production.Derives counted ∧
      events.filter Event.counts ++ [last] = counted ++ [.closed .document] := by
    generalize events.filter Event.counts ++ [last] = all at hf
    cases hf with
    | cons hd hnil =>
        cases hnil
        exact ⟨_, hd, rfl⟩
  obtain ⟨hcounted, hl⟩ := List.append_inj' hclosed rfl
  obtain rfl := (List.cons.inj hl).1
  refine ⟨?_, events, hall⟩
  rw [Event.IsDocument, hall, List.filter_append, List.filter_cons_of_pos rfl, hcounted]
  exact .rule hd

/-- An outline below a background, with tags on its examples and a comment inside its table. -/
theorem accepted_text_isDocument_outline :
    let text := "Feature: F\nBackground:\nGiven a\n| b |\n\nScenario Outline: O\nWhen <c>\n" ++
      "@d\nExamples:\n| c |\n# e\n| f |\n"
    let b : Builder Unit := ⟨fun _ s => s, fun _ s => s, fun _ s => (s, none)⟩
    (deliver .english text b Sink.failFast () ()).stopped = none ∧
      Event.IsDocument (deliver .english text b Sink.failFast () ()).events := by
  intro text b
  have h : (deliver .english text b Sink.failFast () ()).stopped = none := by decide +kernel
  exact ⟨h, (accepted_text_isDocument .english text b () (fun _ _ => rfl) h).1⟩

end FeaturePlan
