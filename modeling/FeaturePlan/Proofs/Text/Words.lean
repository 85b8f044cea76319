import FeaturePlan.Proofs.Text.Blank
import Mathlib.Data.List.Sort

/-! # Words

The runs of a text are its words: longest parts without blanks, each known by the number of
characters in front of it. -/

namespace FeaturePlan.Text

/-- The characters form a word: there are some, and none of them is blank. -/
structure IsWord (word : List Char) : Prop where
  nonempty : word ≠ []
  unbroken : ∀ c ∈ word, isBlank c = false

/-- A word stands in the text behind a number of characters, and cannot be made longer. -/
def HasWordAt (cs : List Char) (start : Nat) (word : List Char) : Prop :=
  ∃ before after, cs = before ++ word ++ after ∧ start = before.length ∧ IsWord word ∧
    (∀ c ∈ before.getLast?, isBlank c = true) ∧ ∀ c ∈ after.head?, isBlank c = true

/-- A text that starts after some characters is divided into these words, and blanks. -/
inductive HasWords : Nat → List Char → List (Nat × List Char) → Prop where
  | nil (offset : Nat) : HasWords offset [] []
  | blank {offset : Nat} {c : Char} {cs : List Char} {words : List (Nat × List Char)} :
      isBlank c = true → HasWords (offset + 1) cs words → HasWords offset (c :: cs) words
  | word {offset : Nat} {word cs : List Char} {words : List (Nat × List Char)} :
      IsWord word → (∀ c ∈ cs.head?, isBlank c = true) →
      HasWords (offset + word.length) cs words →
      HasWords offset (word ++ cs) ((offset, word) :: words)

section
variable {offset start : Nat} {cs word : List Char} {words : List (Nat × List Char)}

theorem IsWord.cons {c : Char} (hc : isBlank c = false) (h : IsWord word) : IsWord (c :: word) :=
  ⟨List.cons_ne_nil _ _, List.forall_mem_cons.mpr ⟨hc, h.unbroken⟩⟩

theorem IsWord.length_pos (h : IsWord word) : 0 < word.length :=
  List.length_pos_of_ne_nil h.nonempty

theorem IsWord.startsVisibly (h : IsWord word) : startsVisibly word := by
  obtain ⟨c, cs, rfl⟩ := List.exists_cons_of_ne_nil h.nonempty
  exact ⟨c, cs, rfl, h.unbroken c List.mem_cons_self⟩

theorem isWord_singleton {c : Char} (hc : isBlank c = false) : IsWord [c] :=
  ⟨List.cons_ne_nil _ _, by simpa using hc⟩

theorem HasWords.le_start (h : HasWords offset cs words) : ∀ p ∈ words, offset ≤ p.1 := by
  induction h with
  | nil => simp
  | blank _ _ ih => exact fun p hp => (Nat.le_succ _).trans (ih p hp)
  | word _ _ _ ih =>
    exact List.forall_mem_cons.mpr ⟨le_rfl, fun p hp => (Nat.le_add_right _ _).trans (ih p hp)⟩

theorem HasWords.pairwise (h : HasWords offset cs words) : words.Pairwise fun p q => p.1 < q.1 := by
  induction h with
  | nil => exact .nil
  | blank _ _ ih => exact ih
  | word hword _ hrest ih =>
    refine .cons (fun p hp => ?_) ih
    exact (Nat.lt_add_of_pos_right hword.length_pos).trans_le (hrest.le_start p hp)

theorem HasWords.add (h : HasWords offset cs words) (k : Nat) :
    HasWords (k + offset) cs (words.map fun p => (k + p.1, p.2)) := by
  induction h with
  | nil => exact .nil _
  | blank hc _ ih => exact .blank hc ih
  | word hword hcs _ ih => exact .word hword hcs (by rwa [Nat.add_assoc])

theorem HasWords.blanks {blanks : List Char} (hblanks : ∀ c ∈ blanks, isBlank c = true)
    (h : HasWords (offset + blanks.length) cs words) : HasWords offset (blanks ++ cs) words := by
  induction blanks generalizing offset with
  | nil => exact h
  | cons c blanks ih =>
    obtain ⟨hc, hblanks⟩ := List.forall_mem_cons.mp hblanks
    refine .blank hc (ih hblanks ?_)
    rwa [Nat.add_assoc, Nat.add_comm 1]

/-- A text that does not start with one of its words starts with a blank. -/
theorem HasWords.isBlank_head (h : HasWords offset cs words)
    (hfirst : ∀ p ∈ words.head?, p.1 ≠ offset) : ∀ c ∈ cs.head?, isBlank c = true := by
  cases h with
  | nil => simp
  | blank hc _ => simpa using hc
  | word => exact absurd rfl (hfirst _ rfl)

/-- A text whose first word stands at its beginning starts with that word. -/
theorem HasWords.exists_eq_append (h : HasWords offset cs ((offset, word) :: words)) :
    ∃ rest, cs = word ++ rest ∧ IsWord word ∧ (∀ c ∈ rest.head?, isBlank c = true) ∧
      HasWords (offset + word.length) rest words := by
  cases h with
  | blank _ hrest => exact absurd (hrest.le_start _ List.mem_cons_self) (Nat.not_succ_le_self _)
  | word hword hcs hrest => exact ⟨_, rfl, hword, hcs, hrest⟩

theorem hasWords_runs (offset : Nat) (cs : List Char) : HasWords offset cs (runs offset cs) := by
  induction cs generalizing offset with
  | nil => exact .nil offset
  | cons c cs ih =>
    have hruns := ih (offset + 1)
    rw [runs]
    split
    · next hc => exact .blank hc hruns
    next hc =>
    rw [Bool.not_eq_true] at hc
    split
    · next hnil =>
      rw [hnil] at hruns
      exact .word (isWord_singleton hc) (hruns.isBlank_head (by simp)) hruns
    next start run rest hcons =>
    rw [hcons] at hruns
    split
    · next hadjacent =>
      -- the first run is made longer by the character in front of it
      obtain ⟨cs, rfl, hrun, hcs, hrest⟩ := (hadjacent ▸ hruns).exists_eq_append
      refine .word (hrun.cons hc) hcs ?_
      rwa [List.length_cons, Nat.add_comm run.length, ← Nat.add_assoc]
    · next hapart =>
      exact .word (isWord_singleton hc) (hruns.isBlank_head (by simpa using hapart)) hruns

/-! ## Where words stand -/

theorem IsWord.not_isBlank_head (h : IsWord word) (rest : List Char) :
    ¬ ∀ c ∈ (word ++ rest).head?, isBlank c = true := by
  obtain ⟨c, cs, rfl⟩ := List.exists_cons_of_ne_nil h.nonempty
  simp [h.unbroken c List.mem_cons_self]

theorem IsWord.not_isBlank_getLast (h : IsWord word) :
    ¬ ∀ c ∈ word.getLast?, isBlank c = true := by
  intro hblank
  have hlast := hblank _ (List.getLast?_eq_some_getLast h.nonempty)
  simp [h.unbroken _ (List.getLast_mem h.nonempty)] at hlast

theorem IsWord.takeWhile_append (h : IsWord word) {rest : List Char}
    (hrest : ∀ c ∈ rest.head?, isBlank c = true) :
    (word ++ rest).takeWhile (!isBlank ·) = word := by
  rw [List.takeWhile_append_of_pos fun c hc => by simp [h.unbroken c hc]]
  cases rest with
  | nil => simp
  | cons c rest => simp [hrest c rfl]

theorem not_hasWordAt_nil : ¬ HasWordAt [] start word := by
  rintro ⟨before, after, hcs, -, hword, -⟩
  have hnil : (before ++ word) ++ after = [] := hcs.symm
  simp only [List.append_eq_nil_iff] at hnil
  exact hword.nonempty hnil.1.2

theorem hasWordAt_cons_iff {c : Char} (hc : isBlank c = true) :
    HasWordAt (c :: cs) start word ↔ ∃ k, start = k + 1 ∧ HasWordAt cs k word := by
  constructor
  · rintro ⟨before, after, hcs, rfl, hword, hbefore, hafter⟩
    cases before with
    | nil =>
      refine absurd ?_ (hword.not_isBlank_head after)
      rw [← List.nil_append word, ← hcs]
      simpa using hc
    | cons d before =>
      obtain ⟨rfl, rfl⟩ := List.cons.inj hcs
      refine ⟨before.length, rfl, before, after, rfl, rfl, hword, fun e he => ?_, hafter⟩
      exact hbefore e (by simp [List.getLast?_cons, Option.mem_def.mp he])
  · rintro ⟨k, rfl, before, after, rfl, rfl, hword, hbefore, hafter⟩
    refine ⟨c :: before, after, rfl, rfl, hword, fun e he => ?_, hafter⟩
    cases before with
    | nil => simp_all
    | cons d before => exact hbefore e (by rwa [List.getLast?_cons_cons] at he)

theorem hasWordAt_append_iff {first : List Char} (hfirst : IsWord first)
    (hcs : ∀ c ∈ cs.head?, isBlank c = true) :
    HasWordAt (first ++ cs) start word ↔
      start = 0 ∧ word = first ∨ ∃ k, start = first.length + k ∧ HasWordAt cs k word := by
  constructor
  · rintro ⟨before, after, heq, rfl, hword, hbefore, hafter⟩
    rw [List.append_assoc] at heq
    rcases List.append_eq_append_iff.mp heq with ⟨gap, rfl, rfl⟩ | ⟨part, rfl, hpart⟩
    · -- the word found stands behind the first
      refine .inr ⟨gap.length, List.length_append, gap, after, by simp, rfl, hword, fun c hc => ?_,
        hafter⟩
      exact hbefore c (by simp [List.getLast?_append, Option.mem_def.mp hc])
    · -- it begins within the first, so it begins where the first does
      have hnil : before = [] := by
        by_contra hne
        have hunbroken : IsWord before :=
          ⟨hne, fun c hc => hfirst.unbroken c (List.mem_append_left part hc)⟩
        exact hunbroken.not_isBlank_getLast hbefore
      subst hnil
      refine .inl ⟨rfl, ?_⟩
      rw [← hword.takeWhile_append hafter, hpart, List.nil_append]
      exact hfirst.takeWhile_append hcs
  · rintro (⟨rfl, rfl⟩ | ⟨k, rfl, before, after, rfl, rfl, hword, hbefore, hafter⟩)
    · exact ⟨[], cs, rfl, rfl, hfirst, by simp, hcs⟩
    · refine ⟨first ++ before, after, by simp, by simp, hword, fun c hc => ?_, hafter⟩
      have hne : before ≠ [] := by
        rintro rfl
        exact hword.not_isBlank_head _ hcs
      rw [List.getLast?_append_of_ne_nil _ hne] at hc
      exact hbefore c hc

theorem HasWords.mem_iff (h : HasWords offset cs words) :
    (start, word) ∈ words ↔ ∃ k, start = offset + k ∧ HasWordAt cs k word := by
  induction h with
  | nil => simp [not_hasWordAt_nil]
  | blank hc _ ih =>
    simp only [ih, hasWordAt_cons_iff hc]
    grind
  | word hword hcs _ ih =>
    simp only [List.mem_cons, ih, hasWordAt_append_iff hword hcs]
    grind

theorem HasWords.unique {words' : List (Nat × List Char)} (h : HasWords offset cs words)
    (h' : HasWords offset cs words') : words = words' := by
  let earlier : Nat × List Char → Nat × List Char → Prop := fun p q => p.1 < q.1
  have : Std.Irrefl earlier := ⟨fun p => Nat.lt_irrefl p.1⟩
  have : Std.Antisymm earlier := ⟨fun _ _ hpq hqp => absurd hqp (Nat.lt_asymm hpq)⟩
  refine List.Pairwise.eq_of_mem_iff (r := earlier) h.pairwise h'.pairwise fun p => ?_
  rw [h.mem_iff, h'.mem_iff]

theorem mem_runs_iff : (start, word) ∈ runs 0 cs ↔ HasWordAt cs start word := by
  simp [(hasWords_runs 0 cs).mem_iff]

theorem runs_of_word (h : IsWord word) (offset : Nat) : runs offset word = [(offset, word)] := by
  have hword : HasWords offset (word ++ []) [(offset, word)] := .word h (by simp) (.nil _)
  rw [List.append_nil] at hword
  exact (hasWords_runs offset word).unique hword

/-- The words of two texts, the first of which ends in a blank, put one behind the other. -/
theorem HasWords.append {before : List Char} {words' : List (Nat × List Char)}
    (h : HasWords offset before words) (hbefore : ∀ c ∈ before.getLast?, isBlank c = true)
    (h' : HasWords (offset + before.length) cs words') :
    HasWords offset (before ++ cs) (words ++ words') := by
  induction h with
  | nil => exact h'
  | blank hc _ ih =>
    refine .blank hc (ih (fun d hd => ?_) (by rwa [Nat.add_right_comm]))
    exact hbefore d (by simp [List.getLast?_cons, Option.mem_def.mp hd])
  | @word offset first before words hfirst hhead _ ih =>
    have hne : before ≠ [] := by
      rintro rfl
      exact hfirst.not_isBlank_getLast (by rwa [List.append_nil] at hbefore)
    rw [List.append_assoc]
    refine .word hfirst (by rwa [List.head?_append_of_ne_nil _ hne])
      (ih (fun d hd => ?_) (by rwa [Nat.add_assoc, ← List.length_append]))
    exact hbefore d (by rwa [List.getLast?_append_of_ne_nil _ hne])

/-- A text that starts with a character that can be seen starts with a word. -/
theorem exists_runs_cons {c : Char} (hc : isBlank c = false) (offset : Nat) (cs : List Char) :
    ∃ word words, runs offset (c :: cs) = (offset, c :: word) :: words := by
  rw [runs, if_neg (by simp [hc])]
  split
  · exact ⟨[], [], rfl⟩
  · split
    · exact ⟨_, _, rfl⟩
    · exact ⟨[], _, rfl⟩

theorem runs_append {before : List Char} (hbefore : ∀ c ∈ before.getLast?, isBlank c = true)
    (cs : List Char) : runs 0 (before ++ cs) = runs 0 before ++ runs before.length cs := by
  have hrest : HasWords (0 + before.length) cs (runs before.length cs) := by
    simpa using hasWords_runs before.length cs
  exact (hasWords_runs 0 _).unique ((hasWords_runs 0 before).append hbefore hrest)

end

end FeaturePlan.Text
