import Mathlib.Tactic.SplitIfs
import FeaturePlan.Pattern.Parse

/-! # Reading the beginning of a pattern

A text is read in the same way when a closing parenthesis and more text stand behind it: no part of
a pattern that has begun can go on with a parenthesis. There are two exceptions. The parenthesis is
lost in a comment that the text ends in, and it can end a part that the text leaves open; either way
it has been passed when that part has been read. -/

namespace FeaturePlan.Pattern

variable {γ δ : Type} {f : Flags}

class HasRest (γ : Type) where
  rest : γ → List Char
  /-- The same with more text behind the rest. -/
  append : γ → List Char → γ

open HasRest

instance : HasRest (List Char) :=
  ⟨id, (· ++ ·)⟩

instance {α : Type} [HasRest γ] : HasRest (α × γ) :=
  ⟨fun r => rest r.2, fun r t => (r.1, append r.2 t)⟩

@[simp] theorem rest_list (cs : List Char) : rest cs = cs := rfl

@[simp] theorem rest_pair {α : Type} [HasRest γ] (x : α) (r : γ) : rest (x, r) = rest r := rfl

@[simp] theorem append_list (cs t : List Char) : append cs t = cs ++ t := rfl

@[simp] theorem append_pair {α : Type} [HasRest γ] (x : α) (r : γ) (t : List Char) :
    append (x, r) t = (x, append r t) := rfl

@[simp] theorem append_fst {α : Type} [HasRest γ] (r : α × γ) (t : List Char) :
    (append r t).1 = r.1 := rfl

@[simp] theorem append_snd {α : Type} [HasRest γ] (r : α × γ) (t : List Char) :
    (append r t).2 = append r.2 t := rfl

section

variable {ε : Type} [HasRest γ] [HasRest δ] [HasRest ε] {k : Nat}

/-- Reading comes to the parenthesis behind a text, and passes it if nothing may be kept. When the
text itself can be read, it is read to its end, and ends in a comment that goes on to the end of the
line. -/
structure Overruns (kept : Nat) (o : Option γ) (behind : List Char → Option γ) : Prop where
  passes : ∀ {t r}, behind t = some r → (rest r).length ≤ t.length + kept
  swallows : ∀ {r}, o = some r → rest r = [] ∧ ∀ t, '\n' ∉ t → behind t = some r

/-- What is read of a text, and what is read when a closing parenthesis and more stand behind it:
the same, unless reading passes the parenthesis. Inside a class it may be kept. -/
def IsLocal (kept : Nat) (o : Option γ) (behind : List Char → Option γ) : Prop :=
  (∀ t, behind t = o.map (append · (')' :: t))) ∨ Overruns kept o behind

theorem isLocal_none : IsLocal k (none : Option γ) fun _ => none :=
  .inl fun _ => rfl

theorem isLocal_some (r : γ) : IsLocal k (some r) fun t => some (append r (')' :: t)) :=
  .inl fun _ => rfl

theorem isLocal_of_passes {behind : List Char → Option γ}
    (h : ∀ {t r}, behind t = some r → (rest r).length ≤ t.length + k) : IsLocal k none behind :=
  .inr ⟨h, by simp⟩

/-- What cannot be read of a text is read with a parenthesis behind it by passing that. -/
theorem IsLocal.length_le {behind : List Char → Option γ} (h : IsLocal k none behind)
    {t : List Char} {r : γ} (hr : behind t = some r) : (rest r).length ≤ t.length + k := by
  rcases h with h | h
  · rw [h] at hr
    cases hr
  · exact h.passes hr

theorem IsLocal.mono {o : Option γ} {behind : List Char → Option γ} (h : IsLocal 0 o behind) :
    IsLocal k o behind :=
  h.imp_right fun h => ⟨fun ht => Nat.le_add_right_of_le (h.passes ht), h.swallows⟩

/-- What is read from the rest of a text is read from it with more behind it. What has been kept is
passed when reading always takes something from the rest. -/
theorem IsLocal.bind_of_length {l : Nat} {o : Option γ} {behind : List Char → Option γ}
    (h : IsLocal l o behind) {Q : γ → Option δ}
    (hsuffix : ∀ {r s}, Q r = some s → rest s <:+ rest r)
    (hlength : ∀ {r s}, Q r = some s → (rest s).length + l ≤ (rest r).length + k)
    (hQ : ∀ {r}, o = some r → IsLocal k (Q r) fun t => Q (append r (')' :: t))) :
    IsLocal k (o.bind Q) fun t => (behind t).bind Q := by
  rcases h with h | h
  · cases o with
    | none => exact .inl fun t => by simp [h]
    | some r =>
      simp only [h, Option.map_some, Option.bind_some]
      exact hQ rfl
  · refine .inr ⟨fun {t s} ht => ?_, fun {s} hs => ?_⟩
    · obtain ⟨r, hr, hs⟩ := Option.bind_eq_some_iff.mp ht
      have := hlength hs
      have := h.passes hr
      omega
    · obtain ⟨r, rfl, hs⟩ := Option.bind_eq_some_iff.mp hs
      obtain ⟨hnil, hbehind⟩ := h.swallows rfl
      have hsuffix := hsuffix hs
      rw [hnil, List.suffix_nil] at hsuffix
      exact ⟨hsuffix, fun t ht => by rw [hbehind t ht]; exact hs⟩

theorem IsLocal.bind {o : Option γ} {behind : List Char → Option γ} (h : IsLocal k o behind)
    {Q : γ → Option δ} (hsuffix : ∀ {r s}, Q r = some s → rest s <:+ rest r)
    (hQ : ∀ {r}, o = some r → IsLocal k (Q r) fun t => Q (append r (')' :: t))) :
    IsLocal k (o.bind Q) fun t => (behind t).bind Q :=
  h.bind_of_length hsuffix (fun hs => Nat.add_le_add_right (hsuffix hs).length_le k) hQ

/-- Something that takes what it reads from the beginning of a text, and reads it in the same way
with more behind it. -/
structure IsPart (kept : Nat) (P : γ → Option δ) : Prop where
  suffix : ∀ {r s}, P r = some s → rest s <:+ rest r
  isLocal : ∀ r, IsLocal kept (P r) fun t => P (append r (')' :: t))

theorem IsLocal.andThen {o : Option γ} {behind : List Char → Option γ} (h : IsLocal k o behind)
    {Q : γ → Option δ} (hQ : IsPart k Q) : IsLocal k (o.bind Q) fun t => (behind t).bind Q :=
  h.bind hQ.suffix fun {r} _ => hQ.isLocal r

theorem IsPart.bind {P : γ → Option δ} {Q : δ → Option ε} (hP : IsPart k P) (hQ : IsPart k Q) :
    IsPart k fun r => (P r).bind Q where
  suffix h := by
    obtain ⟨s, hs, h⟩ := Option.bind_eq_some_iff.mp h
    exact (hQ.suffix h).trans (hP.suffix hs)
  isLocal r := (hP.isLocal r).andThen hQ

theorem isPart_none : IsPart k fun _ : γ => (none : Option δ) :=
  ⟨by simp, fun _ => isLocal_none⟩

/-- Taking the rest over, or something from the beginning of it. -/
theorem isPart_some {g : γ → δ} (hrest : ∀ r, rest (g r) <:+ rest r)
    (hg : ∀ r t, g (append r (')' :: t)) = append (g r) (')' :: t)) : IsPart k fun r => some (g r)
    where
  suffix {r _} h := Option.some.inj h ▸ hrest r
  isLocal r := by
    simp only [hg]
    exact isLocal_some (g r)

theorem IsLocal.map {o : Option γ} {behind : List Char → Option γ} (h : IsLocal k o behind)
    {g : γ → δ} (hrest : ∀ r, rest (g r) = rest r)
    (hg : ∀ r t, g (append r t) = append (g r) t) :
    IsLocal k (o.map g) fun t => (behind t).map g := by
  simp only [Option.map_eq_bind]
  exact h.andThen (isPart_some (fun r => hrest r ▸ List.suffix_refl _) fun r t => hg r _)

theorem IsPart.map {P : γ → Option δ} (hP : IsPart k P) {g : δ → ε}
    (hrest : ∀ r, rest (g r) = rest r) (hg : ∀ r t, g (append r t) = append (g r) t) :
    IsPart k fun r => (P r).map g where
  suffix {r s} h := by
    obtain ⟨x, hx, rfl⟩ := Option.map_eq_some_iff.mp h
    exact hrest x ▸ hP.suffix hx
  isLocal r := (hP.isLocal r).map hrest hg

theorem isPart_pair {α : Type} {Q : α → γ → Option δ} (hQ : ∀ x, IsPart k (Q x)) :
    IsPart k fun r : α × γ => Q r.1 r.2 where
  suffix {r _} h := (hQ r.1).suffix h
  isLocal r := (hQ r.1).isLocal r.2

theorem IsPart.ite {P Q : γ → Option δ} (hP : IsPart k P) (hQ : IsPart k Q) {c : γ → Prop}
    [DecidablePred c] (hc : ∀ r t, c (append r t) ↔ c r) :
    IsPart k fun r => if c r then P r else Q r where
  suffix {r s} h := by
    split_ifs at h
    · exact hP.suffix h
    · exact hQ.suffix h
  isLocal r := by
    simp only [hc]
    split_ifs
    · exact hP.isLocal r
    · exact hQ.isLocal r

theorem isPart_after {P Q : List Char → Option γ} (hP : IsPart k P) (hQ : IsPart k Q)
    {lead : List Char} (hlead : ')' ∉ lead) :
    IsPart k fun cs => if lead <+: cs then P (cs.drop lead.length) else Q cs where
  suffix {cs r} h := by
    split_ifs at h
    · exact (hP.suffix h).trans (List.drop_suffix _ _)
    · exact hQ.suffix h
  isLocal cs := by
    have hbehind (t : List Char) : lead <+: append cs (')' :: t) ↔ lead <+: cs := by
      refine ⟨fun ⟨ds, hds⟩ => ?_, fun h => h.trans (List.prefix_append cs _)⟩
      rcases List.append_eq_append_iff.mp hds with ⟨es, rfl, -⟩ | ⟨es, rfl, hes⟩
      · exact List.prefix_append lead es
      · cases es with
        | nil => simp
        | cons c es =>
          obtain ⟨rfl, -⟩ := List.cons.inj hes
          simp at hlead
    simp only [hbehind]
    split_ifs with h
    · obtain ⟨ds, rfl⟩ := h
      simpa using hP.isLocal ds
    · exact hQ.isLocal cs

theorem isPart_head {P Q : List Char → Option γ} (hP : IsPart k P) (hQ : IsPart k Q) {c : Char}
    (hc : c ≠ ')') : IsPart k fun cs => if cs.head? = some c then P cs.tail else Q cs := by
  have hlead (cs : List Char) : cs.head? = some c ↔ [c] <+: cs := by
    cases cs <;> simp [eq_comm]
  simp only [hlead, ← List.drop_one]
  exact isPart_after hP hQ (by simpa using hc.symm)

end

/-! ## Blanks and comments -/

@[simp] theorem isBlank_parenthesis : Text.isBlank ')' = false := by decide

theorem skipFrom_suffix (inComment : Bool) (cs : List Char) :
    Flags.skipFrom inComment cs <:+ cs := by
  induction cs generalizing inComment with
  | nil => exact List.suffix_refl _
  | cons c cs ih =>
    rw [Flags.skipFrom]
    split_ifs
    · exact (ih _).trans (List.suffix_cons c cs)
    · exact (ih _).trans (List.suffix_cons c cs)
    · exact (ih _).trans (List.suffix_cons c cs)
    · exact List.suffix_refl _

theorem skip_suffix (f : Flags) (cs : List Char) : f.skip cs <:+ cs := by
  unfold Flags.skip
  split_ifs
  · exact skipFrom_suffix false cs
  · exact List.suffix_refl _

theorem skipFrom_comment {cs : List Char} (h : '\n' ∉ cs) : Flags.skipFrom true cs = [] := by
  induction cs with
  | nil => rfl
  | cons c cs ih =>
    rw [List.mem_cons, not_or] at h
    simp [Flags.skipFrom, Ne.symm h.1, ih h.2]

theorem skipFrom_behind (inComment : Bool) (cs : List Char) :
    (∀ t, Flags.skipFrom inComment (cs ++ ')' :: t) = Flags.skipFrom inComment cs ++ ')' :: t) ∨
      (Flags.skipFrom inComment cs = [] ∧
        ∀ t, Flags.skipFrom inComment (cs ++ ')' :: t) = Flags.skipFrom true t) := by
  induction cs generalizing inComment with
  | nil => cases inComment <;> simp [Flags.skipFrom]
  | cons c cs ih =>
    simp only [List.cons_append, Flags.skipFrom]
    split_ifs
    · exact ih _
    · exact ih _
    · exact ih _
    · exact .inl fun t => rfl

/-- Blanks are left out in the same way with a parenthesis behind them, unless it stands in a
comment. -/
theorem skip_behind (f : Flags) (cs : List Char) :
    (∀ t, f.skip (cs ++ ')' :: t) = f.skip cs ++ ')' :: t) ∨
      (f.skip cs = [] ∧ ∀ t, f.skip (cs ++ ')' :: t) = Flags.skipFrom true t) := by
  unfold Flags.skip
  split_ifs
  · exact skipFrom_behind false cs
  · exact .inl fun t => rfl

@[simp] theorem skip_nil (f : Flags) : f.skip [] = [] := by
  simp [Flags.skip, Flags.skipFrom]

/-- What blanks and comments are left out of begins with none, whatever stands behind it. -/
theorem skip_cons_of_skip_eq {cs ds : List Char} {c : Char} (h : f.skip cs = c :: ds)
    (es : List Char) : f.skip (c :: es) = c :: es := by
  have hfrom (inComment : Bool) (cs : List Char) (h : Flags.skipFrom inComment cs = c :: ds) :
      Flags.skipFrom false (c :: es) = c :: es := by
    induction cs generalizing inComment with
    | nil => simp [Flags.skipFrom] at h
    | cons d cs ih =>
      rw [Flags.skipFrom] at h
      split_ifs at h with hcomment hblank hhash
      · exact ih _ h
      · exact ih _ h
      · exact ih _ h
      · obtain ⟨rfl, rfl⟩ := List.cons.inj h
        simp [Flags.skipFrom, hblank, hhash]
  unfold Flags.skip at h ⊢
  split_ifs at h ⊢
  · exact hfrom false cs h
  · rfl

theorem isPart_skip {k : Nat} (f : Flags) : IsPart k fun cs => some (f.skip cs) where
  suffix {cs r} h := Option.some.inj h ▸ skip_suffix f cs
  isLocal cs := by
    rcases skip_behind f cs with hbehind | ⟨hnil, hbehind⟩
    · exact .inl fun t => congrArg some (hbehind t)
    · refine .inr ⟨fun {t r} ht => ?_, fun {r} hr => ?_⟩
      · obtain rfl := Option.some.inj ht
        rw [append_list, hbehind]
        exact Nat.le_add_right_of_le (skipFrom_suffix true t).length_le
      · obtain rfl := Option.some.inj hr
        exact ⟨hnil, fun t ht => by rw [append_list, hbehind, skipFrom_comment ht, hnil]⟩

/-! ## Characters of a kind -/

theorem takeWhile_suffix (f : Flags) (kind : Char → Bool) (limit : Nat) (inComment : Bool)
    (cs : List Char) : (f.takeWhile kind limit inComment cs).2 <:+ cs := by
  induction cs generalizing limit inComment with
  | nil => exact List.suffix_refl _
  | cons c cs ih =>
    rw [Flags.takeWhile]
    split_ifs
    · exact (ih _ _).trans (List.suffix_cons c cs)
    · exact (ih _ _).trans (List.suffix_cons c cs)
    · exact (ih _ _).trans (List.suffix_cons c cs)
    · exact (ih (limit - 1) false).trans (List.suffix_cons c cs)
    · exact List.suffix_refl _

/-- Blanks and comments in front of the first character make no difference. -/
theorem takeWhile_skip (f : Flags) (kind : Char → Bool) (limit : Nat) (cs : List Char) :
    f.takeWhile kind limit false (f.skip cs) = f.takeWhile kind limit false cs := by
  unfold Flags.skip
  split_ifs with hspaced
  · have hfrom (inComment : Bool) : f.takeWhile kind limit false (Flags.skipFrom inComment cs) =
        f.takeWhile kind limit inComment cs := by
      induction cs generalizing inComment with
      | nil => rfl
      | cons c cs ih =>
        by_cases hcomment : inComment = true
        · simp [Flags.skipFrom, Flags.takeWhile, hspaced, hcomment, ih]
        · by_cases hblank : Text.isBlank c = true
          · simp [Flags.skipFrom, Flags.takeWhile, hspaced, hcomment, hblank, ih]
          · by_cases hhash : c = '#'
            · subst hhash
              simp [Flags.skipFrom, Flags.takeWhile, hspaced, hcomment, hblank, ih]
            · simp [Flags.skipFrom, Flags.takeWhile, hspaced, hcomment, hblank, hhash]
    exact hfrom false
  · rfl

/-- The first character that is no blank is taken when it is of the kind. -/
theorem takeWhile_of_skip {cs ds : List Char} {c : Char} (h : f.skip cs = c :: ds)
    (kind : Char → Bool) (limit : Nat) : f.takeWhile kind limit false cs =
      if limit ≠ 0 ∧ kind c then
        (c :: (f.takeWhile kind (limit - 1) false ds).1, (f.takeWhile kind (limit - 1) false ds).2)
      else ([], c :: ds) := by
  have hvisible (hspaced : f.spaced = true) : Text.isBlank c = false ∧ c ≠ '#' := by
    have hskip := skip_cons_of_skip_eq h []
    rw [Flags.skip, if_pos hspaced, Flags.skipFrom, if_neg Bool.false_ne_true] at hskip
    split_ifs at hskip with hblank hhash
    · simp [Flags.skipFrom] at hskip
    · simp [Flags.skipFrom] at hskip
    · exact ⟨by simpa using hblank, hhash⟩
  rw [← takeWhile_skip, h, Flags.takeWhile]
  by_cases hspaced : f.spaced = true
  · simp [hvisible hspaced]
  · simp [hspaced]

theorem takeWhile_comment {kind : Char → Bool} {limit : Nat} (hspaced : f.spaced = true)
    {cs : List Char} (h : '\n' ∉ cs) : f.takeWhile kind limit true cs = ([], []) := by
  induction cs with
  | nil => rfl
  | cons c cs ih =>
    rw [List.mem_cons, not_or] at h
    simp [Flags.takeWhile, hspaced, Ne.symm h.1, ih h.2]

/-- Characters of a kind are taken in the same way with a parenthesis behind them. A limit may
change with the text when it leaves room for all of it. -/
theorem isLocal_takeWhile {k : Nat} {kind : Char → Bool} (hkind : kind ')' = false) {limit : Nat}
    {limitBehind : List Char → Nat} {cs : List Char}
    (hlimit : ∀ t, limitBehind t = limit ∨ cs.length ≤ limit ∧ cs.length ≤ limitBehind t)
    (inComment : Bool) : IsLocal k (some (f.takeWhile kind limit inComment cs)) fun t =>
      some (f.takeWhile kind (limitBehind t) inComment (cs ++ ')' :: t)) := by
  induction cs generalizing limit limitBehind inComment with
  | nil =>
    by_cases hcomment : f.spaced = true ∧ inComment = true
    · obtain ⟨hspaced, rfl⟩ := hcomment
      have hbehind (t : List Char) : f.takeWhile kind (limitBehind t) true ([] ++ ')' :: t) =
          f.takeWhile kind (limitBehind t) true t := by
        simp [Flags.takeWhile, hspaced]
      refine .inr ⟨fun {t r} ht => ?_, fun {r} hr => ?_⟩
      · rw [hbehind] at ht
        obtain rfl := Option.some.inj ht
        exact Nat.le_add_right_of_le (takeWhile_suffix f kind (limitBehind t) true t).length_le
      · obtain rfl := Option.some.inj hr
        exact ⟨rfl, fun t ht => by rw [hbehind, takeWhile_comment hspaced ht]; rfl⟩
    · refine .inl fun t => ?_
      simp [Flags.takeWhile, hcomment, hkind]
  | cons c cs ih =>
    have hcond (t : List Char) : limitBehind t ≠ 0 ∧ kind c = true ↔ limit ≠ 0 ∧ kind c = true := by
      have := hlimit t
      rw [List.length_cons] at this
      exact and_congr_left fun _ => by omega
    simp only [List.cons_append, Flags.takeWhile, hcond]
    have hskip (inComment : Bool) : IsLocal k (some (f.takeWhile kind limit inComment cs)) fun t =>
        some (f.takeWhile kind (limitBehind t) inComment (cs ++ ')' :: t)) :=
      ih (fun t => (hlimit t).imp_right fun h => by simp at h; omega) inComment
    have htake : IsLocal k (some (f.takeWhile kind (limit - 1) false cs)) fun t =>
        some (f.takeWhile kind (limitBehind t - 1) false (cs ++ ')' :: t)) :=
      ih (fun t => (hlimit t).imp (by omega) fun h => by simp at h; omega) false
    split_ifs
    · exact hskip _
    · exact hskip _
    · exact hskip _
    · exact htake.andThen (Q := fun r => some (c :: r.1, r.2))
        (isPart_some (fun _ => List.suffix_refl _) fun _ _ => rfl)
    · exact isLocal_some ([], c :: cs)

theorem isPart_takeWhile_length {k : Nat} (f : Flags) {kind : Char → Bool}
    (hkind : kind ')' = false) :
    IsPart k fun cs => some (f.takeWhile kind cs.length false cs) where
  suffix {cs _} h := Option.some.inj h ▸ takeWhile_suffix f kind _ false cs
  isLocal _ := isLocal_takeWhile hkind (fun _ => .inr ⟨Nat.le_refl _, by simp⟩) false

theorem isPart_takeWhile {k : Nat} (f : Flags) {kind : Char → Bool} (hkind : kind ')' = false)
    (limit : Nat) : IsPart k fun cs => some (f.takeWhile kind limit false cs) where
  suffix {cs _} h := Option.some.inj h ▸ takeWhile_suffix f kind limit false cs
  isLocal _ := isLocal_takeWhile hkind (fun _ => .inl rfl) false

end FeaturePlan.Pattern
