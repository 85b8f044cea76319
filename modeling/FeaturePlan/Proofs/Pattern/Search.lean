import FeaturePlan.Pattern.Search
import FeaturePlan.Proofs.Pattern.Matches

/-! # Finding matches

Reading a text once, character by character, finds a match if there is one. Progress stands for the
places at which the matches that have begun can end; a step brings in those that begin at its place
and loses none but those that have to end there. -/

namespace FeaturePlan.Pattern

variable {text : List Char}

/-! ## Progress -/

/-- A round that ends at one of some places, and the rounds that may follow it, end at a place. -/
def EndsRounds (text : List Char) (p : Pattern) (b : Bounds) (ends : Nat → Prop) (j : Nat) :
    Prop :=
  ∃ m, ends m ∧ Matches text (.repeated p b.least b.most) m j

/-- The matches that have begun before a place can end at another one. -/
def Reaches (text : List Char) : Pattern → Progress → Nat → Nat → Prop
  | .empty, _, _, _ => False
  | .text _, x, k, j => ∃ rest ∈ x.rests, (text.drop k).take rest.length = rest ∧
      j = k + rest.length
  | .set _, x, k, j => x.isIdle = false ∧ j = k
  | .anchor _, _, _, _ => False
  | .group _ p, x, k, j => Reaches text p x k j
  | .repeated p _ _, x, k, j => ∃ r ∈ x.roundList, EndsRounds text p r.1 (Reaches text p r.2 k) j
  | .seq p q, x, k, j => Reaches text q x.second k j ∨
      ∃ m, Reaches text p x.first k m ∧ Matches text q m j
  | .alt p q, x, k, j => Reaches text p x.first k j ∨ Reaches text q x.second k j

/-- The bounds of a repetition do not ask for more rounds than they allow. -/
def Bounds.IsOrdered (b : Bounds) : Prop :=
  ∀ m ∈ b.most, b.least ≤ m

/-- The bounds of all rounds that matches stand in are in order. -/
def IsSound : Pattern → Progress → Prop
  | .empty, _ | .text _, _ | .set _, _ | .anchor _, _ => True
  | .group _ p, x => IsSound p x
  | .repeated p _ _, x => ∀ r ∈ x.roundList, r.1.IsOrdered ∧ IsSound p r.2
  | .seq p q, x | .alt p q, x => IsSound p x.first ∧ IsSound q x.second

theorem not_reaches_idle (p : Pattern) (k j : Nat) : ¬Reaches text p .idle k j := by
  induction p generalizing k j with
  | group _ p ih => exact ih k j
  | seq p q ihp ihq | alt p q ihp ihq =>
    simp [Reaches, Progress.first, Progress.second, ihp, ihq]
  | _ => simp [Reaches, Progress.rests, Progress.isIdle, Progress.roundList]

theorem isSound_idle (p : Pattern) : IsSound p .idle := by
  induction p with
  | group _ p ih => exact ih
  | seq p q ihp ihq | alt p q ihp ihq => exact ⟨ihp, ihq⟩
  | _ => simp [IsSound, Progress.roundList]

theorem Reaches.le {p : Pattern} {x : Progress} {k j : Nat} (h : Reaches text p x k j) :
    k ≤ j := by
  induction p generalizing x k j with
  | empty | anchor => exact h.elim
  | text =>
    obtain ⟨rest, -, -, rfl⟩ := h
    exact Nat.le_add_right k _
  | set => exact Nat.le_of_eq h.2.symm
  | group _ p ih => exact ih h
  | repeated p _ _ ih =>
    obtain ⟨r, -, m, hm, hrest⟩ := h
    exact Nat.le_trans (ih hm) hrest.le
  | seq p q ihp ihq =>
    rcases h with h | ⟨m, hm, hrest⟩
    · exact ihq h
    · exact Nat.le_trans (ihp hm) hrest.le
  | alt p q ihp ihq => exact h.elim ihp ihq

/-! ## Matches of the empty text -/

/-- A pattern is found to match the empty text at a place if it does. -/
theorem matchesEmpty_iff {p : Pattern} (hp : p.IsOrdered) (i : Nat) :
    p.matchesEmpty (.ofIndex text i) = true ↔ Matches text p i i := by
  induction p with
  | empty => simp [matchesEmpty]
  | text cs =>
    cases cs <;> simp [matchesEmpty]
  | set s => simp [matchesEmpty]
  | anchor a => simp [matchesEmpty]
  | group _ p ih => simpa [matchesEmpty] using ih hp
  | repeated p least most ih =>
    obtain ⟨hbounds, hp⟩ := hp
    rw [matchesEmpty, Bool.or_eq_true, beq_iff_eq, ih hp, matches_repeated_iff]
    constructor
    · rintro (rfl | hempty)
      · exact ⟨0, Nat.le_refl 0, by simp, .none i⟩
      · exact ⟨least, Nat.le_refl least, hbounds, Rounds.pad hempty (.none i) least⟩
    · rintro ⟨n, hleast, -, hrounds⟩
      cases hrounds with
      | none => exact .inl (by omega)
      | more hfirst hrest =>
        obtain rfl := Nat.le_antisymm hfirst.le hrest.le
        exact .inr hfirst
  | seq p q ihp ihq =>
    rw [matchesEmpty, Bool.and_eq_true, ihp hp.1, ihq hp.2, matches_seq_iff]
    constructor
    · exact fun h => ⟨i, h⟩
    · rintro ⟨m, hfirst, hrest⟩
      obtain rfl := Nat.le_antisymm hfirst.le hrest.le
      exact ⟨hfirst, hrest⟩
  | alt p q ihp ihq =>
    rw [matchesEmpty, Bool.or_eq_true, ihp hp.1, ihq hp.2, matches_alt_iff]

theorem isDone_idle (i : Place) (p : Pattern) : p.isDone i .idle = false := by
  cases p <;> rfl

/-- A match that has begun is found to have its end at a place if it can. -/
theorem isDone_iff {p : Pattern} (hp : p.IsOrdered) {x : Progress} (hx : IsSound p x) (k : Nat) :
    p.isDone (.ofIndex text k) x = true ↔ Reaches text p x k k := by
  induction p generalizing x with
  | empty | anchor => cases x <;> simp [isDone, Reaches]
  | text => cases x <;> simp [isDone, Reaches, Progress.rests]
  | set => cases x <;> simp [isDone, Reaches, Progress.isIdle]
  | group _ p ih =>
    rw [Reaches, ← ih hp hx]
    cases x <;> simp [isDone, isDone_idle]
  | repeated p least most ih =>
    have hrounds : isDone (.ofIndex text k) (.repeated p least most) x =
        x.roundList.any fun r => (r.1.least == 0 || p.matchesEmpty (.ofIndex text k)) &&
          p.isDone (.ofIndex text k) r.2 := by
      cases x <;> simp [isDone, Progress.roundList]
    rw [hrounds, List.any_eq_true, Reaches]
    refine exists_congr fun r => and_congr_right fun hr => ?_
    obtain ⟨hbounds, hr⟩ := hx r hr
    have hempty : matchesEmpty (.ofIndex text k) (.repeated p r.1.least r.1.most) = true ↔
        Matches text (.repeated p r.1.least r.1.most) k k :=
      matchesEmpty_iff (p := .repeated p r.1.least r.1.most) ⟨hbounds, hp.2⟩ k
    rw [matchesEmpty] at hempty
    rw [Bool.and_eq_true, ih hp.2 hr, hempty, and_comm]
    constructor
    · exact fun h => ⟨k, h⟩
    · rintro ⟨m, hm, hrest⟩
      obtain rfl := Nat.le_antisymm hm.le hrest.le
      exact ⟨hm, hrest⟩
  | seq p q ihp ihq =>
    have hdone : isDone (.ofIndex text k) (.seq p q) x =
        (q.isDone (.ofIndex text k) x.second ||
          (q.matchesEmpty (.ofIndex text k) && p.isDone (.ofIndex text k) x.first)) := by
      cases x <;> simp [isDone, isDone_idle, Progress.first, Progress.second]
    rw [hdone, Bool.or_eq_true, Bool.and_eq_true, ihq hp.2 hx.2, ihp hp.1 hx.1,
      matchesEmpty_iff hp.2, Reaches]
    refine or_congr_right ?_
    constructor
    · exact fun h => ⟨k, h.2, h.1⟩
    · rintro ⟨m, hm, hrest⟩
      obtain rfl := Nat.le_antisymm hm.le hrest.le
      exact ⟨hrest, hm⟩
  | alt p q ihp ihq =>
    rw [Reaches, ← ihp hp.1 hx.1, ← ihq hp.2 hx.2, ← Bool.or_eq_true]
    cases x <;> simp [isDone, isDone_idle, Progress.first, Progress.second]

/-! ## Rounds side by side -/

theorem exists_mem_dropWhile {α : Type} [BEq α] [LawfulBEq α] (P : α → Prop) (a : α) (as : List α) :
    (P a ∨ ∃ b ∈ as.dropWhile (· == a), P b) ↔ ∃ b ∈ a :: as, P b := by
  induction as with
  | nil => simp
  | cons b as ih =>
    by_cases h : b = a
    · subst h
      simpa using ih
    · simp [h]

/-- Each round takes its step, and each that is started takes one from the start, in whichever
order the two lists are gone through. -/
theorem exists_mem_stepRounds {step : Bool → Progress → Progress} {D : Bounds → Progress → Prop}
    {fuel : Nat} (rs : List (Bounds × Progress)) (started : List Bounds)
    (hfuel : rs.length + started.length < fuel)
    (hstep : ∀ r ∈ rs, D r.1 (step true r.2) ↔ D r.1 (step false r.2) ∨ D r.1 (step true .idle)) :
    (∃ r ∈ stepRounds step fuel rs started, D r.1 r.2) ↔
      (∃ r ∈ rs, D r.1 (step false r.2)) ∨ ∃ c ∈ started, D c (step true .idle) := by
  induction fuel generalizing rs started with
  | zero => omega
  | succ fuel ih =>
    have hdrop (c : Bounds) (cs : List Bounds) : (cs.dropWhile (· == c)).length ≤ cs.length :=
      (List.dropWhile_sublist _).length_le
    cases rs with
    | nil =>
      cases started with
      | nil => simp [stepRounds]
      | cons c cs =>
        have hrest := ih [] (cs.dropWhile (· == c))
          (by have := hdrop c cs; simp at hfuel ⊢; omega) (by simp)
        have hall := exists_mem_dropWhile (fun c => D c (step true .idle)) c cs
        rw [stepRounds, ← hall]
        simpa using or_congr_right hrest
    | cons r rs =>
      obtain ⟨hr, hrs⟩ := List.forall_mem_cons.mp hstep
      obtain ⟨b, x⟩ := r
      cases started with
      | nil =>
        have hrest := ih rs [] (by simp at hfuel ⊢; omega) hrs
        rw [stepRounds]
        simpa using or_congr_right hrest
      | cons c cs =>
        have hall := exists_mem_dropWhile (fun c => D c (step true .idle)) c cs
        rw [stepRounds, ← hall]
        split
        next h =>
          subst h
          have hrest := ih rs (cs.dropWhile (· == b))
            (by have := hdrop b cs; simp at hfuel ⊢; omega) hrs
          simp only [List.mem_cons, exists_eq_or_imp, hrest, hr]
          grind
        next h =>
          split
          next =>
            have hrest := ih rs (c :: cs) (by simp at hfuel ⊢; omega) hrs
            rw [← hall] at hrest
            simp only [List.mem_cons, exists_eq_or_imp, hrest]
            grind
          next =>
            have hrest := ih ((b, x) :: rs) (cs.dropWhile (· == c))
              (by have := hdrop c cs; simp at hfuel ⊢; omega) hstep
            simp only [List.mem_cons, exists_eq_or_imp] at hrest ⊢
            rw [hrest]
            grind

/-- What a step makes of a round, it makes of one that was there or of one that is started. -/
theorem exists_of_mem_stepRounds {step : Bool → Progress → Progress} {fuel : Nat}
    {rs : List (Bounds × Progress)} {started : List Bounds} {r : Bounds × Progress}
    (h : r ∈ stepRounds step fuel rs started) :
    ∃ x begins, r.2 = step begins x ∧ ((r.1, x) ∈ rs ∨ r.1 ∈ started ∧ x = .idle) := by
  induction fuel generalizing rs started with
  | zero => simp [stepRounds] at h
  | succ fuel ih =>
    have hdrop {c : Bounds} {cs : List Bounds} {x : Progress} :
        r.1 ∈ cs.dropWhile (· == c) ∧ x = .idle → r.1 ∈ c :: cs ∧ x = .idle :=
      And.imp_left fun hb => List.mem_cons_of_mem _ ((List.dropWhile_sublist _).subset hb)
    cases rs with
    | nil =>
      cases started with
      | nil => simp [stepRounds] at h
      | cons c cs =>
        rw [stepRounds, List.mem_cons] at h
        rcases h with rfl | h
        · exact ⟨.idle, true, rfl, by simp⟩
        · obtain ⟨x, begins, hx, hold⟩ := ih h
          exact ⟨x, begins, hx, hold.imp_right hdrop⟩
    | cons r' rs =>
      obtain ⟨b, y⟩ := r'
      cases started with
      | nil =>
        rw [stepRounds, List.mem_cons] at h
        rcases h with rfl | h
        · exact ⟨y, false, rfl, by simp⟩
        · obtain ⟨x, begins, hx, hold⟩ := ih h
          exact ⟨x, begins, hx, hold.imp_left (List.mem_cons_of_mem _)⟩
      | cons c cs =>
        rw [stepRounds] at h
        split at h
        next hbc =>
          rw [List.mem_cons] at h
          rcases h with rfl | h
          · exact ⟨y, true, rfl, by simp⟩
          · obtain ⟨x, begins, hx, hold⟩ := ih h
            exact ⟨x, begins, hx, hold.imp (List.mem_cons_of_mem _) hdrop⟩
        next =>
          split at h
          next =>
            rw [List.mem_cons] at h
            rcases h with rfl | h
            · exact ⟨y, false, rfl, by simp⟩
            · obtain ⟨x, begins, hx, hold⟩ := ih h
              exact ⟨x, begins, hx, hold.imp_left (List.mem_cons_of_mem _)⟩
          next =>
            rw [List.mem_cons] at h
            rcases h with rfl | h
            · exact ⟨.idle, true, rfl, by simp⟩
            · obtain ⟨x, begins, hx, hold⟩ := ih h
              exact ⟨x, begins, hx, hold.imp_right hdrop⟩

/-! ## One more round -/

/-- A round may be started when the limit leaves room for it. -/
theorem Bounds.exists_next? {b : Bounds} (h : ∀ l ∈ b.most, 1 ≤ l) (isFree : Bool) :
    ∃ b', b.next? isFree = some b' := by
  obtain ⟨least, _ | _ | most⟩ := b
  · exact ⟨_, rfl⟩
  · exact absurd (h 0 rfl) (by decide)
  · exact ⟨_, rfl⟩

theorem Bounds.of_next? {b b' : Bounds} {isFree : Bool} (h : b.next? isFree = some b') :
    b'.least = (if isFree then 0 else b.least - 1) ∧
      ∀ n, (∀ l ∈ b'.most, n ≤ l) ↔ ∀ l ∈ b.most, n + 1 ≤ l := by
  obtain ⟨least, _ | _ | most⟩ := b
  · obtain rfl : _ = b' := Option.some.inj h
    simp
  · cases h
  · obtain rfl : _ = b' := Option.some.inj h
    simp

/-- A round that is started leaves bounds behind that are in order. -/
theorem Bounds.IsOrdered.next {b b' : Bounds} {isFree : Bool} (hb : b.IsOrdered)
    (h : b.next? isFree = some b') : b'.IsOrdered := by
  obtain ⟨hleast, hmost⟩ := Bounds.of_next? h
  refine (hmost b'.least).mpr fun l hl => ?_
  have hle := hb l hl
  have hone := (hmost 0).mp (fun l _ => Nat.zero_le l) l hl
  split at hleast <;> omega

/-- A repetition that matches some characters begins with a round that matches some. The rounds in
front of it match the empty text, and so there have to be no more of them when there is one. -/
theorem matches_repeated_iff_next {p : Pattern} {b : Bounds} (hb : b.IsOrdered) {isFree : Bool}
    {k j : Nat} (hfree : isFree = true ↔ Matches text p k k) (hkj : k < j) :
    Matches text (.repeated p b.least b.most) k j ↔ ∃ b', b.next? isFree = some b' ∧
      EndsRounds text p b' (fun m => k < m ∧ Matches text p k m) j := by
  constructor
  · intro h
    obtain ⟨n, hn, hlimit, hrounds⟩ := matches_repeated_iff.mp h
    obtain ⟨before, m, after, rfl, hbefore, hkm, hfirst, hafter⟩ := hrounds.exists_first hkj
    obtain ⟨b', hnext⟩ := Bounds.exists_next? (fun l hl => by have := hlimit l hl; omega) isFree
    obtain ⟨hleast, hmost⟩ := Bounds.of_next? hnext
    refine ⟨b', hnext, m, ⟨hkm, hfirst⟩, matches_repeated_iff.mpr ⟨after, ?_, ?_, hafter⟩⟩
    · by_cases hzero : before = 0
      · split at hleast <;> omega
      · rw [hfree.mpr (hbefore hzero)] at hleast
        simp [hleast]
    · exact (hmost after).mpr fun l hl => by have := hlimit l hl; omega
  · rintro ⟨b', hnext, m, ⟨-, hfirst⟩, hrest⟩
    obtain ⟨hleast, hmost⟩ := Bounds.of_next? hnext
    obtain ⟨n, hn, hlimit, hrounds⟩ := matches_repeated_iff.mp hrest
    rw [hmost] at hlimit
    refine matches_repeated_iff.mpr ?_
    by_cases h : isFree = true
    · refine ⟨b.least - (n + 1) + (n + 1), by omega, fun l hl => ?_, ?_⟩
      · have hle := hb l hl
        have hlimit := hlimit l hl
        omega
      · exact Rounds.pad (hfree.mp h) (.more hfirst hrounds) _
    · rw [if_neg h] at hleast
      exact ⟨n + 1, by omega, hlimit, .more hfirst hrounds⟩

/-! ## Steps -/

theorem advance_idle (i : Place) (c : Char) (p : Pattern) : p.advance i c false .idle = .idle := by
  cases p <;> rfl

theorem advance_group (i : Place) (c : Char) (n : Nat) (p : Pattern) (begins : Bool)
    (x : Progress) : advance i c (.group n p) begins x = p.advance i c begins x := by
  cases begins <;> cases x <;> simp [advance, advance_idle]

theorem advance_seq (i : Place) (c : Char) (p q : Pattern) (begins : Bool) (x : Progress) :
    advance i c (.seq p q) begins x = .ofBoth (p.advance i c begins x.first)
      (q.advance i c ((begins && p.matchesEmpty i) || p.isDone i x.first) x.second) := by
  cases begins <;> cases x <;>
    simp [advance, advance_idle, isDone_idle, Progress.first, Progress.second, Progress.ofBoth]

theorem advance_alt (i : Place) (c : Char) (p q : Pattern) (begins : Bool) (x : Progress) :
    advance i c (.alt p q) begins x =
      .ofBoth (p.advance i c begins x.first) (q.advance i c begins x.second) := by
  cases begins <;> cases x <;>
    simp [advance, advance_idle, Progress.first, Progress.second, Progress.ofBoth]

def startedRounds (i : Place) (p : Pattern) (b : Bounds) (begins : Bool) (x : Progress) :
    List Bounds :=
  (if begins then b.next? (p.matchesEmpty i) else none).toList ++ x.roundList.filterMap fun r =>
    if p.isDone i r.2 then r.1.next? (p.matchesEmpty i) else none

theorem exists_mem_startedRounds {i : Place} {p : Pattern} {b : Bounds} {begins : Bool}
    {x : Progress} {D : Bounds → Prop} : (∃ b' ∈ startedRounds i p b begins x, D b') ↔
      (begins = true ∧ ∃ b', b.next? (p.matchesEmpty i) = some b' ∧ D b') ∨
        ∃ r ∈ x.roundList, p.isDone i r.2 = true ∧
          ∃ b', r.1.next? (p.matchesEmpty i) = some b' ∧ D b' := by
  have hmem (b' : Bounds) : b' ∈ startedRounds i p b begins x ↔
      (begins = true ∧ b.next? (p.matchesEmpty i) = some b') ∨
        ∃ r ∈ x.roundList, p.isDone i r.2 = true ∧ r.1.next? (p.matchesEmpty i) = some b' := by
    simp [startedRounds]
  simp only [hmem]
  constructor
  · rintro ⟨b', ⟨hbegins, hb'⟩ | ⟨r, hr, hdone, hb'⟩, hD⟩
    · exact .inl ⟨hbegins, b', hb', hD⟩
    · exact .inr ⟨r, hr, hdone, b', hb', hD⟩
  · rintro (⟨hbegins, b', hb', hD⟩ | ⟨r, hr, hdone, b', hb', hD⟩)
    · exact ⟨b', .inl ⟨hbegins, hb'⟩, hD⟩
    · exact ⟨b', .inr ⟨r, hr, hdone, hb'⟩, hD⟩

theorem advance_repeated (i : Place) (c : Char) (p : Pattern) (least : Nat) (most : Option Nat)
    (begins : Bool) (x : Progress) : ∃ fuel,
      x.roundList.length + (startedRounds i p ⟨least, most⟩ begins x).length < fuel ∧
        advance i c (.repeated p least most) begins x = .ofRounds (stepRounds (p.advance i c) fuel
          x.roundList (startedRounds i p ⟨least, most⟩ begins x)) := by
  refine ⟨x.roundList.length + (x.roundList.filterMap fun r =>
    if p.isDone i r.2 then r.1.next? (p.matchesEmpty i) else none).length + 2, ?_, ?_⟩
  · have hone (o : Option Bounds) : o.toList.length ≤ 1 := by cases o <;> simp
    have := hone (if begins then (Bounds.mk least most).next? (p.matchesEmpty i) else none)
    rw [startedRounds, List.length_append]
    omega
  · cases begins
    · cases x <;> rfl
    · rfl

@[simp] theorem Progress.first_ofBoth (x y : Progress) : (Progress.ofBoth x y).first = x := by
  cases x <;> cases y <;> rfl

@[simp] theorem Progress.second_ofBoth (x y : Progress) : (Progress.ofBoth x y).second = y := by
  cases x <;> cases y <;> rfl

@[simp] theorem Progress.rests_ofRests (rests : List (List Char)) :
    (Progress.ofRests rests).rests = rests := by
  cases rests <;> rfl

theorem Progress.roundList_ofRounds (rs : List (Bounds × Progress)) :
    (Progress.ofRounds rs).roundList = rs.filter fun r => !r.2.isIdle := by
  unfold Progress.ofRounds
  split
  next h => rw [h]; rfl
  next => rfl

theorem exists_mem_roundList_ofRounds {D : Bounds → Progress → Prop} (hidle : ∀ b, ¬D b .idle)
    (rs : List (Bounds × Progress)) :
    (∃ r ∈ (Progress.ofRounds rs).roundList, D r.1 r.2) ↔ ∃ r ∈ rs, D r.1 r.2 := by
  simp only [Progress.roundList_ofRounds, List.mem_filter, and_assoc]
  refine exists_congr fun r => and_congr_right fun _ => and_iff_right_of_imp fun h => ?_
  obtain ⟨b, x⟩ := r
  cases x with
  | idle => exact (hidle b h).elim
  | _ => rfl

theorem mem_rests_filterMap {c : Char} {rest : List Char} {f : List Char → Option (List Char)}
    (hf : ∀ ds, f ds = some rest ↔ ds = c :: rest) (dss : List (List Char)) :
    rest ∈ (Progress.ofRests (dss.filterMap f)).rests ↔ c :: rest ∈ dss := by
  simp [hf]

/-- What is left to find after a character is what followed it. -/
theorem mem_rests_advance {i : Place} {c : Char} {cs : List Char} {begins : Bool} {x : Progress}
    {rest : List Char} : rest ∈ (advance i c (.text cs) begins x).rests ↔
      c :: rest ∈ x.rests ∨ begins = true ∧ cs = c :: rest := by
  by_cases h : begins = false ∧ x = .idle
  · obtain ⟨rfl, rfl⟩ := h
    simp [advance, Progress.rests]
  · have hafter : rest ∈ (advance i c (.text cs) begins x).rests ↔
        c :: rest ∈ if begins then cs :: x.rests else x.rests := by
      rw [advance]
      · exact mem_rests_filterMap (fun ds => by cases ds <;> simp) _
      · exact fun hbegins hx => h ⟨hbegins, hx⟩
    rw [hafter]
    cases begins <;> simp [eq_comm, or_comm]

/-- A text that stands at a place, but is not found there yet, begins with the character there. -/
theorem text_at_iff {k j : Nat} {c : Char} (hc : text[k]? = some c) (hkj : k < j)
    {cs : List Char} : ((text.drop k).take cs.length = cs ∧ j = k + cs.length) ↔
      ∃ rest, cs = c :: rest ∧ (text.drop (k + 1)).take rest.length = rest ∧
        j = k + 1 + rest.length := by
  have hdrop : text.drop k = c :: text.drop (k + 1) := by
    obtain ⟨hlt, rfl⟩ := List.getElem?_eq_some_iff.mp hc
    exact List.drop_eq_getElem_cons hlt
  cases cs with
  | nil =>
    have hne : j ≠ k := by omega
    simp [hne]
  | cons d ds =>
    have hlength : k + (ds.length + 1) = k + 1 + ds.length := by omega
    simp only [hdrop, List.length_cons, List.take_succ_cons, List.cons.injEq, hlength]
    grind

theorem isIdle_advance_set {i : Place} {c : Char} {s : CharSet} {begins : Bool} {x : Progress} :
    (advance i c (.set s) begins x).isIdle = false ↔ begins = true ∧ s.contains c = true := by
  cases begins <;> cases h : s.contains c <;> cases x <;> simp [advance, Progress.isIdle, h]

theorem reaches_succ_iff {p : Pattern} {y : Progress} {k m : Nat} {P : Prop}
    (h : k < m → (Reaches text p y (k + 1) m ↔ P)) :
    Reaches text p y (k + 1) m ↔ k < m ∧ P :=
  ⟨fun hy => ⟨hy.le, (h hy.le).mp hy⟩, fun ⟨hlt, hP⟩ => (h hlt).mpr hP⟩

theorem exists_from_iff {R M : Nat → Prop} {k : Nat} (hR : ∀ m, R m → k ≤ m) :
    (∃ m, R m ∧ M m) ↔ (R k ∧ M k) ∨ ∃ m, (k < m ∧ R m) ∧ M m := by
  constructor
  · rintro ⟨m, hm, hM⟩
    rcases Nat.lt_or_eq_of_le (hR m hm) with hlt | rfl
    · exact .inr ⟨m, ⟨hlt, hm⟩, hM⟩
    · exact .inl ⟨hm, hM⟩
  · rintro (h | ⟨m, ⟨-, hm⟩, hM⟩)
    · exact ⟨k, h⟩
    · exact ⟨m, hm, hM⟩

theorem endsRounds_congr {p : Pattern} {b : Bounds} {R S : Nat → Prop} {j : Nat}
    (h : ∀ m, R m ↔ S m) : EndsRounds text p b R j ↔ EndsRounds text p b S j := by
  simp only [EndsRounds, h]

theorem endsRounds_or {p : Pattern} {b : Bounds} {R S : Nat → Prop} {j : Nat} :
    EndsRounds text p b (fun m => R m ∨ S m) j ↔
      EndsRounds text p b R j ∨ EndsRounds text p b S j := by
  simp only [EndsRounds, or_and_right, exists_or]

/-- The rounds after a step end where those before it do and those that are started with it, when
that is so for the part that is repeated. -/
theorem reaches_advance_repeated {p : Pattern} {least : Nat} {most : Option Nat} {x : Progress}
    {k j : Nat} {c : Char} {begins : Bool} (hp : (repeated p least most).IsOrdered)
    (hx : IsSound (.repeated p least most) x) (hkj : k < j)
    (ih : ∀ y, IsSound p y → ∀ begins m, Reaches text p (p.advance (.ofIndex text k) c begins y)
      (k + 1) m ↔ k < m ∧ (Reaches text p y k m ∨ begins = true ∧ Matches text p k m)) :
    Reaches text (.repeated p least most)
        (advance (.ofIndex text k) c (.repeated p least most) begins x) (k + 1) j ↔
      Reaches text (.repeated p least most) x k j ∨
        begins = true ∧ Matches text (.repeated p least most) k j := by
  obtain ⟨hbounds, hp⟩ := hp
  obtain ⟨fuel, hfuel, hadvance⟩ := advance_repeated (.ofIndex text k) c p least most begins x
  let after (b : Bounds) (y : Progress) : Prop :=
    EndsRounds text p b (Reaches text p y (k + 1)) j
  let started (b : Bounds) : Prop :=
    EndsRounds text p b (fun m => k < m ∧ Matches text p k m) j
  let standing (b : Bounds) (y : Progress) : Prop :=
    EndsRounds text p b (fun m => k < m ∧ Reaches text p y k m) j
  have hidle (b : Bounds) : ¬after b .idle := fun ⟨m, hm, _⟩ => not_reaches_idle p (k + 1) m hm
  have hstarted (b : Bounds) : after b (p.advance (.ofIndex text k) c true .idle) ↔ started b :=
    endsRounds_congr fun m => by simp [ih .idle (isSound_idle p), not_reaches_idle]
  have hstanding {r : Bounds × Progress} (hr : r ∈ x.roundList) :
      after r.1 (p.advance (.ofIndex text k) c false r.2) ↔ standing r.1 r.2 :=
    endsRounds_congr fun m => by simp [ih r.2 (hx r hr).2]
  have hboth : ∀ r ∈ x.roundList, after r.1 (p.advance (.ofIndex text k) c true r.2) ↔
      after r.1 (p.advance (.ofIndex text k) c false r.2) ∨
        after r.1 (p.advance (.ofIndex text k) c true .idle) := by
    intro r hr
    rw [hstanding hr, hstarted, ← endsRounds_or]
    exact endsRounds_congr fun m => by simp [ih r.2 (hx r hr).2, and_or_left]
  have hempty : p.matchesEmpty (.ofIndex text k) = true ↔ Matches text p k k :=
    matchesEmpty_iff hp k
  have hnext {b : Bounds} (hb : b.IsOrdered) :
      Matches text (.repeated p b.least b.most) k j ↔
        ∃ b', b.next? (p.matchesEmpty (.ofIndex text k)) = some b' ∧ started b' :=
    matches_repeated_iff_next hb hempty hkj
  have hround {r : Bounds × Progress} (hr : r ∈ x.roundList) :
      EndsRounds text p r.1 (Reaches text p r.2 k) j ↔ standing r.1 r.2 ∨
        p.isDone (.ofIndex text k) r.2 = true ∧
          ∃ b', r.1.next? (p.matchesEmpty (.ofIndex text k)) = some b' ∧ started b' := by
    rw [isDone_iff hp (hx r hr).2, ← hnext (hx r hr).1, or_comm]
    exact exists_from_iff fun m hm => hm.le
  have hold : (∃ r ∈ x.roundList, EndsRounds text p r.1 (Reaches text p r.2 k) j) ↔
      (∃ r ∈ x.roundList, standing r.1 r.2) ∨ ∃ r ∈ x.roundList,
        p.isDone (.ofIndex text k) r.2 = true ∧
          ∃ b', r.1.next? (p.matchesEmpty (.ofIndex text k)) = some b' ∧ started b' := by
    simp only [← exists_or, ← and_or_left]
    exact exists_congr fun r => and_congr_right hround
  have hnew : (∃ b ∈ startedRounds (.ofIndex text k) p ⟨least, most⟩ begins x, started b) ↔
      (begins = true ∧ Matches text (.repeated p least most) k j) ∨ ∃ r ∈ x.roundList,
        p.isDone (.ofIndex text k) r.2 = true ∧
          ∃ b', r.1.next? (p.matchesEmpty (.ofIndex text k)) = some b' ∧ started b' := by
    rw [exists_mem_startedRounds]
    exact or_congr_left (and_congr_right fun _ => (hnext (b := ⟨least, most⟩) hbounds).symm)
  rw [hadvance]
  change (∃ r ∈ (Progress.ofRounds _).roundList, after r.1 r.2) ↔ _
  rw [exists_mem_roundList_ofRounds hidle, exists_mem_stepRounds _ _ hfuel hboth]
  simp only [hstarted, hnew]
  rw [exists_congr fun r => and_congr_right hstanding, Reaches, hold, or_right_comm, or_assoc]

/-- After a step the matches can end where they could before it, and where those can that begin at
its place. -/
theorem reaches_advance {p : Pattern} (hp : p.IsOrdered) {x : Progress} (hx : IsSound p x)
    {k j : Nat} {c : Char} (hc : text[k]? = some c) (begins : Bool) :
    Reaches text p (p.advance (.ofIndex text k) c begins x) (k + 1) j ↔
      k < j ∧ (Reaches text p x k j ∨ begins = true ∧ Matches text p k j) := by
  refine reaches_succ_iff fun hkj => ?_
  induction p generalizing x j begins with
  | empty | anchor =>
    have hne : j ≠ k := by omega
    simp [Reaches, hne]
  | text cs =>
    simp only [Reaches, mem_rests_advance, matches_text_iff, text_at_iff hc hkj]
    grind
  | set s =>
    have hne : j ≠ k := by omega
    simp [Reaches, hne, isIdle_advance_set, hc, and_assoc]
  | group _ p ih =>
    rw [advance_group, matches_group_iff]
    exact ih hp hx begins hkj
  | repeated p least most ih =>
    exact reaches_advance_repeated hp hx hkj fun y hy begins m =>
      reaches_succ_iff fun hkm => ih hp.2 hy begins hkm
  | seq p q ihp ihq =>
    have hfirst (m : Nat) := reaches_succ_iff fun hkm =>
      ihp hp.1 hx.1 begins (j := m) hkm
    rw [advance_seq]
    simp only [Reaches, Progress.first_ofBoth, Progress.second_ofBoth, matches_seq_iff, hfirst]
    rw [ihq hp.2 hx.2 _ hkj]
    -- the first pattern can end right here, and then the second one begins
    have hhere : ((begins && p.matchesEmpty (.ofIndex text k)) ||
        p.isDone (.ofIndex text k) x.first) = true ↔
          Reaches text p x.first k k ∨ begins = true ∧ Matches text p k k := by
      rw [← isDone_iff hp.1 hx.1, ← matchesEmpty_iff hp.1, Bool.or_eq_true, Bool.and_eq_true,
        or_comm]
    have hends (m : Nat) (h : Reaches text p x.first k m ∨ begins = true ∧ Matches text p k m) :
        k ≤ m :=
      h.elim Reaches.le fun h => h.2.le
    have hsplit := exists_from_iff (M := fun m => Matches text q m j) hends
    rw [hhere, or_assoc, ← hsplit]
    grind
  | alt p q ihp ihq =>
    rw [advance_alt]
    simp only [Reaches, Progress.first_ofBoth, Progress.second_ofBoth, matches_alt_iff]
    rw [ihp hp.1 hx.1 begins hkj, ihq hp.2 hx.2 begins hkj]
    grind

theorem IsSound.advance {p : Pattern} (hp : p.IsOrdered) {x : Progress} (hx : IsSound p x)
    (i : Place) (c : Char) (begins : Bool) : IsSound p (p.advance i c begins x) := by
  induction p generalizing x begins with
  | empty | text | set | anchor => trivial
  | group _ p ih =>
    rw [advance_group]
    exact ih hp hx begins
  | repeated p least most ih =>
    obtain ⟨fuel, -, hadvance⟩ := advance_repeated i c p least most begins x
    rw [hadvance]
    intro r hr
    rw [Progress.roundList_ofRounds] at hr
    obtain ⟨y, hbegins, hy, hr | ⟨hr, rfl⟩⟩ := exists_of_mem_stepRounds (List.mem_filter.mp hr).1
    · obtain ⟨hbounds, hsound⟩ := hx _ hr
      exact ⟨hbounds, hy ▸ ih hp.2 hsound hbegins⟩
    · refine ⟨?_, hy ▸ ih hp.2 (isSound_idle p) hbegins⟩
      rcases exists_mem_startedRounds.mp ⟨_, hr, rfl⟩ with
        ⟨-, b', hnext, rfl⟩ | ⟨r', hr', -, b', hnext, rfl⟩
      · exact Bounds.IsOrdered.next (b := ⟨least, most⟩) hp.1 hnext
      · exact (hx r' hr').1.next hnext
  | seq p q ihp ihq =>
    rw [advance_seq, IsSound, Progress.first_ofBoth, Progress.second_ofBoth]
    exact ⟨ihp hp.1 hx.1 _, ihq hp.2 hx.2 _⟩
  | alt p q ihp ihq =>
    rw [advance_alt, IsSound, Progress.first_ofBoth, Progress.second_ofBoth]
    exact ⟨ihp hp.1 hx.1 _, ihq hp.2 hx.2 _⟩

/-! ## The whole text -/

theorem Reaches.le_length {p : Pattern} {x : Progress} {k j : Nat} (h : Reaches text p x k j)
    (hk : k ≤ text.length) : j ≤ text.length := by
  induction p generalizing x k j with
  | empty | anchor => exact h.elim
  | text =>
    obtain ⟨rest, -, hrest, rfl⟩ := h
    have hlength := congrArg List.length hrest
    rw [List.length_take, List.length_drop] at hlength
    omega
  | set => exact h.2 ▸ hk
  | group _ p ih => exact ih h hk
  | repeated p _ _ ih =>
    obtain ⟨r, -, m, hm, hrest⟩ := h
    exact hrest.le_length (ih hm hk)
  | seq p q ihp ihq =>
    rcases h with h | ⟨m, hm, hrest⟩
    · exact ihq h hk
    · exact hrest.le_length (ihp hm hk)
  | alt p q ihp ihq => exact h.elim (ihp · hk) (ihq · hk)

/-- From a place on, a match is found when one that has begun has its end there, or one begins
there. -/
theorem search_iff {p : Pattern} (hp : p.IsOrdered) {x : Progress} (hx : IsSound p x) {k : Nat}
    (hk : k ≤ text.length) : p.search (Place.ofIndex text k).before x (text.drop k) = true ↔
      (∃ j, Reaches text p x k j) ∨ ∃ i j, k ≤ i ∧ i ≤ text.length ∧ Matches text p i j := by
  generalize hrest : text.drop k = rest
  induction rest generalizing x k with
  | nil =>
    obtain rfl : k = text.length := by
      have := List.drop_eq_nil_iff.mp hrest
      omega
    have hplace : (⟨(Place.ofIndex text text.length).before, none⟩ : Place) =
        .ofIndex text text.length := by
      simp [Place.ofIndex]
    rw [search, hplace, Bool.or_eq_true, matchesEmpty_iff hp, isDone_iff hp hx, or_comm]
    refine or_congr ⟨fun h => ⟨_, h⟩, fun ⟨j, h⟩ => ?_⟩
      ⟨fun h => ⟨_, _, Nat.le_refl _, Nat.le_refl _, h⟩, fun ⟨i, j, hki, hi, h⟩ => ?_⟩
    · obtain rfl := Nat.le_antisymm h.le (h.le_length hk)
      exact h
    · obtain rfl := Nat.le_antisymm hki hi
      obtain rfl := Nat.le_antisymm h.le (h.le_length hk)
      exact h
  | cons c cs ih =>
    have hc : text[k]? = some c := by
      rw [← List.head?_drop, hrest, List.head?_cons]
    have hlt : k < text.length := (List.getElem?_eq_some_iff.mp hc).1
    have hcs : text.drop (k + 1) = cs := by
      rw [← List.tail_drop, hrest, List.tail_cons]
    have hnext := ih (IsSound.advance hp hx (.ofIndex text k) c true) hlt hcs
    have hplace : (⟨(Place.ofIndex text k).before, some c⟩ : Place) = .ofIndex text k := by
      simp [Place.ofIndex, hc]
    have hbefore : (Place.ofIndex text (k + 1)).before = some c := by
      simp [Place.ofIndex, hc]
    rw [hbefore] at hnext
    rw [search, hplace, Bool.or_eq_true, Bool.or_eq_true, matchesEmpty_iff hp, isDone_iff hp hx,
      hnext]
    simp only [reaches_advance hp hx hc, true_and]
    constructor
    · rintro ((h | h) | ⟨j, -, h | h⟩ | ⟨i, j, hki, hi, h⟩)
      · exact .inr ⟨k, k, Nat.le_refl k, hk, h⟩
      · exact .inl ⟨k, h⟩
      · exact .inl ⟨j, h⟩
      · exact .inr ⟨k, j, Nat.le_refl k, hk, h⟩
      · exact .inr ⟨i, j, by omega, hi, h⟩
    · rintro (⟨j, h⟩ | ⟨i, j, hki, hi, h⟩)
      · rcases Nat.lt_or_eq_of_le h.le with hkj | rfl
        · exact .inr (.inl ⟨j, hkj, .inl h⟩)
        · exact .inl (.inr h)
      · rcases Nat.lt_or_eq_of_le hki with hki | rfl
        · exact .inr (.inr ⟨i, j, hki, hi, h⟩)
        · rcases Nat.lt_or_eq_of_le h.le with hkj | rfl
          · exact .inr (.inl ⟨j, hkj, .inr h⟩)
          · exact .inl (.inl h)

/-- Searching finds a match exactly when the pattern matches some part of the text. -/
theorem occursIn_iff {p : Pattern} (hp : p.IsOrdered) (text : String) :
    p.occursIn text = true ↔ ∃ i j, i ≤ text.toList.length ∧ Matches text.toList p i j := by
  have hsearch := search_iff hp (isSound_idle p) (Nat.zero_le text.toList.length)
  simpa [not_reaches_idle, Place.ofIndex, occursIn] using hsearch

end FeaturePlan.Pattern
