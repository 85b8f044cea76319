import FeaturePlan.Proofs.TagExpr.Derivation
import Mathlib.Data.List.Induction

/-! # The language of tag expressions

The grammar as it is written for users repeats operators: `expr := conj ('or' conj)*`, with
`conj := neg ('and' neg)*` and `neg := 'not' neg | '(' expr ')' | tag`. It has the same sentences as
the one in which every row of symbols says one thing. -/

namespace FeaturePlan.TagExpr

/-! ## Sentences -/

def chain (op : Operator) (first : List Symbol) (rest : List (List Symbol)) : List Symbol :=
  first ++ rest.flatMap fun ss => .operator op :: ss

inductive Sentence : Phrase → List Symbol → Prop where
  | tag (name : String) : Sentence .operand [.tag name]
  | not {ss : List Symbol} : Sentence .operand ss → Sentence .operand (.not :: ss)
  | group {ss : List Symbol} : Sentence .disjunction ss →
      Sentence .operand (.opening :: ss ++ [.closing])
  | conjunction {first : List Symbol} {rest : List (List Symbol)} : Sentence .operand first →
      (∀ ss ∈ rest, Sentence .operand ss) → Sentence .conjunction (chain .and first rest)
  | disjunction {first : List Symbol} {rest : List (List Symbol)} : Sentence .conjunction first →
      (∀ ss ∈ rest, Sentence .conjunction ss) → Sentence .disjunction (chain .or first rest)

section
variable {op : Operator}

theorem chain_nil (first : List Symbol) : chain op first [] = first := by
  simp [chain]

theorem chain_append_singleton (first : List Symbol) (rest : List (List Symbol))
    (ss : List Symbol) :
    chain op first (rest ++ [ss]) = chain op first rest ++ .operator op :: ss := by
  simp [chain]

/-- What holds of the first operand and passes on to a longer chain holds of a whole chain. -/
theorem chain_induction {motive operand : List Symbol → Prop} {first : List Symbol}
    {rest : List (List Symbol)} (hfirst : motive first) (hrest : ∀ ss ∈ rest, operand ss)
    (hstep : ∀ ss ts, motive ss → operand ts → motive (ss ++ .operator op :: ts)) :
    motive (chain op first rest) := by
  induction rest using List.reverseRecOn with
  | nil => rwa [chain_nil]
  | append_singleton rest ss ih =>
    obtain ⟨hrest, hlast⟩ := List.forall_mem_append.mp hrest
    rw [chain_append_singleton]
    exact hstep _ _ (ih hrest) (hlast ss (by simp))

end

theorem Sentence.and {ss ts : List Symbol} (h : Sentence .conjunction ss)
    (ht : Sentence .operand ts) : Sentence .conjunction (ss ++ .operator .and :: ts) := by
  obtain ⟨⟩ | ⟨⟩ | ⟨⟩ | ⟨hfirst, hrest⟩ := h
  rw [← chain_append_singleton]
  exact .conjunction hfirst (List.forall_mem_append.mpr ⟨hrest, by simpa using ht⟩)

theorem Sentence.or {ss ts : List Symbol} (h : Sentence .disjunction ss)
    (ht : Sentence .conjunction ts) : Sentence .disjunction (ss ++ .operator .or :: ts) := by
  obtain ⟨⟩ | ⟨⟩ | ⟨⟩ | ⟨⟩ | ⟨hfirst, hrest⟩ := h
  rw [← chain_append_singleton]
  exact .disjunction hfirst (List.forall_mem_append.mpr ⟨hrest, by simpa using ht⟩)

theorem Derives.sentence {p : Phrase} {ss : List Symbol} {e : TagExpr} (h : Derives p ss e) :
    Sentence p ss := by
  induction h with
  | tag name => exact .tag name
  | not _ ih => exact .not ih
  | group _ ih => exact .group ih
  | @operand ss e _ ih =>
    have h : Sentence .conjunction (chain .and ss []) := .conjunction ih (by simp)
    rwa [chain_nil] at h
  | and _ _ ih ih' => exact ih.and ih'
  | @conjunction ss e _ ih =>
    have h : Sentence .disjunction (chain .or ss []) := .disjunction ih (by simp)
    rwa [chain_nil] at h
  | or _ _ ih ih' => exact ih.or ih'

theorem Sentence.derives {p : Phrase} {ss : List Symbol} (h : Sentence p ss) :
    ∃ e, Derives p ss e := by
  induction h with
  | tag name => exact ⟨_, .tag name⟩
  | not _ ih =>
    obtain ⟨e, he⟩ := ih
    exact ⟨_, .not he⟩
  | group _ ih =>
    obtain ⟨e, he⟩ := ih
    exact ⟨e, .group he⟩
  | conjunction _ _ ih ihrest =>
    obtain ⟨e, he⟩ := ih
    refine chain_induction (motive := fun ss => ∃ e, Derives .conjunction ss e) ⟨e, .operand he⟩
      ihrest ?_
    rintro ss ts ⟨e, he⟩ ⟨f, hf⟩
    exact ⟨_, .and he hf⟩
  | disjunction _ _ ih ihrest =>
    obtain ⟨e, he⟩ := ih
    refine chain_induction (motive := fun ss => ∃ e, Derives .disjunction ss e) ⟨e, .conjunction he⟩
      ihrest ?_
    rintro ss ts ⟨e, he⟩ ⟨f, hf⟩
    exact ⟨_, .or he hf⟩

theorem sentence_iff {p : Phrase} {ss : List Symbol} : Sentence p ss ↔ ∃ e, Derives p ss e :=
  ⟨Sentence.derives, fun ⟨_, he⟩ => he.sentence⟩

/-! ## Truth -/

/-- The Boolean value of an expression, given which tags are true. -/
def IsTrue (p : String → Prop) : TagExpr → Prop
  | tag name => p name
  | not e => ¬e.IsTrue p
  | and e f => e.IsTrue p ∧ f.IsTrue p
  | or e f => e.IsTrue p ∨ f.IsTrue p

theorem holds_iff_isTrue (e : TagExpr) (tags : List String) :
    e.holds tags = true ↔ e.IsTrue (· ∈ tags) := by
  induction e with
  | tag name => simp [holds, IsTrue]
  | not e ih => simp [holds, IsTrue, ← ih]
  | and e f ihe ihf => simp [holds, IsTrue, ihe, ihf]
  | or e f ihe ihf => simp [holds, IsTrue, ihe, ihf]

/-! ## Texts -/

/-- Tag expressions are parsed by exactly their grammar: a text is accepted if and only if it spells
a sentence. Then it spells no other symbols, and these say nothing else than the expression
returned, which is true of a collection of tags if its Boolean value is, with the tags that occur
there. -/
theorem parse_iff_sentence (text : String) :
    ((∃ e, parse text = .ok e) ↔
      ∃ ss, Spelled ss text.toList ∧ Sentence .disjunction ss) ∧
    ∀ e, (parse text = .ok e ↔
        ∃ ss, (∀ ts, Spelled ts text.toList ↔ ts = ss) ∧ ∀ f, Derives .disjunction ss f ↔ f = e) ∧
      ∀ tags, (e.holds tags = true ↔ e.IsTrue (· ∈ tags)) := by
  refine ⟨?_, fun e => ⟨?_, holds_iff_isTrue e⟩⟩
  · simp only [parse_eq_ok_iff, sentence_iff]
    exact exists_comm.trans (by simp)
  · rw [parse_eq_ok_iff]
    constructor
    · rintro ⟨ss, hspelled, he⟩
      refine ⟨ss, fun ts => ⟨fun h => h.unique hspelled, ?_⟩, fun f => ⟨fun h => h.unique he, ?_⟩⟩
      · rintro rfl
        exact hspelled
      · rintro rfl
        exact he
    · rintro ⟨ss, hspelled, he⟩
      exact ⟨ss, (hspelled ss).mpr rfl, (he e).mpr rfl⟩

end FeaturePlan.TagExpr
