import FeaturePlan.Proofs.Pattern.Locality

/-! # Reading the parts of a pattern

Every part of the reader takes what it reads from the beginning of a text, and is local. -/

namespace FeaturePlan.Pattern

open HasRest

variable {f : Flags} {cs : List Char}

/-! ## Repetitions -/

theorem trimStart_append (cs t : List Char) :
    Text.trimStart (cs ++ ')' :: t) = Text.trimStart cs ++ ')' :: t := by
  induction cs with
  | nil => simp [Text.trimStart]
  | cons c cs ih =>
    by_cases h : Text.isBlank c = true
    · simpa [Text.trimStart, h] using ih
    · simp [Text.trimStart, h]

theorem isPart_trimStart {k : Nat} : IsPart k fun cs => some (Text.trimStart cs) :=
  isPart_some (fun _ => List.dropWhile_suffix _) trimStart_append

theorem isPart_afterLaziness {k : Nat} : IsPart k fun cs => some (afterLaziness cs) := by
  refine isPart_some (fun cs => ?_) fun cs t => ?_
  · unfold afterLaziness
    split
    · exact List.suffix_cons _ _
    · exact List.suffix_refl _
  · cases cs with
    | nil => rfl
    | cons c cs => by_cases h : c = '?' <;> simp [afterLaziness, h]

theorem isPart_count? (f : Flags) : IsPart 0 (count? f) := by
  have hcount : count? f = fun cs => (some (f.skip cs)).bind fun cs =>
      (some (Text.trimStart cs)).bind fun cs =>
      (some (f.takeWhile Char.isDigit cs.length false cs)).bind fun r =>
        if r.1 ≠ [] ∧ r.1.foldl (fun n c => 10 * n + (c.toNat - 48)) 0 < 4294967296 then
          some (r.1.foldl (fun n c => 10 * n + (c.toNat - 48)) 0, Text.trimStart r.2)
        else none := rfl
  rw [hcount]
  refine (isPart_skip f).bind (isPart_trimStart.bind
    ((isPart_takeWhile_length f rfl).bind (IsPart.ite ?_ isPart_none fun _ _ => Iff.rfl)))
  exact isPart_some (fun _ => List.dropWhile_suffix _) fun r t => by simp [trimStart_append]

theorem prefix_iff_exists_eq {lead cs : List Char} : lead <+: cs ↔ ∃ rest, cs = lead ++ rest :=
  exists_congr fun _ => eq_comm

theorem isPart_closeBounds? (least : Nat) (most : Option Nat) :
    IsPart 0 (closeBounds? least most) := by
  have hclose : closeBounds? least most = fun cs => if ['\x7d'] <+: cs then
      (if ∀ m ∈ most, least ≤ m then some (least, most, cs.drop 1) else none) else none := by
    funext cs
    unfold closeBounds?
    split <;> simp_all [prefix_iff_exists_eq]
  rw [hclose]
  have hbounds : IsPart 0 fun cs : List Char =>
      if ∀ m ∈ most, least ≤ m then some (least, most, cs) else none := by
    split_ifs
    · exact isPart_some (fun _ => List.suffix_refl _) fun _ _ => rfl
    · exact isPart_none
  exact isPart_after hbounds isPart_none (by decide)

theorem isPart_upperBound? (f : Flags) (least : Nat) : IsPart 0 (upperBound? f least) := by
  have hupper : upperBound? f least = fun cs => (some (f.skip cs)).bind fun cs =>
      if ['\x7d'] <+: cs then some (least, none, cs.drop 1)
      else (count? f cs).bind fun r => closeBounds? least (some r.1) r.2 := by
    funext cs
    unfold upperBound?
    split <;> simp_all [prefix_iff_exists_eq]
  rw [hupper]
  refine (isPart_skip f).bind (isPart_after (P := fun cs => some (least, none, cs)) ?_
    ((isPart_count? f).bind (isPart_pair fun most => isPart_closeBounds? least (some most)))
    (by decide))
  exact isPart_some (fun _ => List.suffix_refl _) fun _ _ => rfl

theorem isPart_bounds? (f : Flags) : IsPart 0 (bounds? f) := by
  have hbounds : bounds? f = fun cs => (count? f cs).bind fun r =>
      if [','] <+: r.2 then upperBound? f r.1 (r.2.drop 1)
      else closeBounds? r.1 (some r.1) r.2 := by
    funext cs
    unfold bounds?
    refine congrArg _ (funext fun r => ?_)
    obtain ⟨least, cs⟩ := r
    dsimp only
    split <;> simp_all [prefix_iff_exists_eq]
  rw [hbounds]
  exact (isPart_count? f).bind (isPart_pair fun least => isPart_after
    (isPart_upperBound? f least) (isPart_closeBounds? least (some least)) (by decide))

/-! ## Groups -/

theorem takeWhile_ne_append {c : Char} {cs : List Char} (h : c ∉ cs) (ds : List Char) :
    (cs ++ ds).takeWhile (· != c) = cs ++ ds.takeWhile (· != c) :=
  List.takeWhile_append_of_pos fun d hd => by
    simpa using fun hdc : d = c => h (hdc ▸ hd)

theorem isPart_groupName? : IsPart 0 groupName? where
  suffix {cs r} h := by
    unfold groupName? at h
    dsimp only at h
    split at h
    next hdrop =>
      split_ifs at h
      obtain rfl := Option.some.inj h
      exact (List.suffix_cons _ _).trans (hdrop ▸ List.drop_suffix _ cs)
    next => cases h
  isLocal cs := by
    refine .inl fun t => ?_
    by_cases hend : '>' ∈ cs
    · obtain ⟨name, after, rfl, hname⟩ := List.eq_append_cons_of_mem hend
      simp only [groupName?, append_list, List.append_assoc, List.cons_append,
        takeWhile_ne_append hname, List.takeWhile_cons, bne_self_eq_false, Bool.false_eq_true,
        if_false, List.append_nil, List.drop_left]
      cases name with
      | nil => rfl
      | cons c name =>
        dsimp only
        split_ifs <;> rfl
    · have htake : cs.takeWhile (· != '>') = cs := by
        simpa using takeWhile_ne_append hend []
      have hnone : groupName? cs = none := by
        simp only [groupName?, htake, List.drop_length]
      have hletter : Text.isAlphabetic ')' = false := by decide +kernel
      have hdigit : Text.isNumeric ')' = false := by decide +kernel
      rw [hnone]
      simp only [groupName?, append_list, takeWhile_ne_append hend]
      -- the name would have to go on with the parenthesis
      generalize (cs ++ ')' :: t).drop _ = after
      cases cs <;> cases after <;> simp [hletter, hdigit]

theorem isPart_readFlags (f : Flags) (seen : List Char) : IsPart 0 (f.read? seen) where
  suffix {cs r} h := by
    induction cs generalizing f seen with
    | nil => simp [Flags.read?] at h
    | cons c cs ih =>
      refine List.IsSuffix.trans ?_ (List.suffix_cons c cs)
      rw [Flags.read?] at h
      split_ifs at h
      · exact Option.some.inj h ▸ List.suffix_refl cs
      · exact ih f _ h
      · split at h
        · cases h
        · exact ih _ _ h
  isLocal cs := by
    induction cs generalizing f seen with
    | nil =>
      refine isLocal_of_passes fun {t r} h => ?_
      rw [append_list, List.nil_append, Flags.read?] at h
      split_ifs at h
      · exact Option.some.inj h ▸ Nat.le_refl _
      all_goals simp_all
    | cons c cs ih =>
      simp only [append_list, List.cons_append, Flags.read?]
      split_ifs
      · exact isLocal_none
      · exact isLocal_some (f, seen, c, cs)
      · exact isLocal_none
      · exact ih f _
      · split
        · exact isLocal_none
        · exact ih _ _

/-! ## Escapes -/

theorem isPart_map {α β : Type} {k : Nat} (o : Option α) (g : α → β) :
    IsPart k fun cs : List Char => o.map fun x => (g x, cs) := by
  cases o with
  | none => exact isPart_none
  | some x =>
    exact isPart_some (fun _ => List.suffix_refl _) fun _ _ => rfl

theorem isPart_hexEscape? (f : Flags) (width : Nat) : IsPart 0 (hexEscape? f width) := by
  have hhex : hexEscape? f width = fun cs => (some (f.skip cs)).bind fun cs =>
      if ['\x7b'] <+: cs then
        (some (f.takeWhile isHexDigit (cs.drop 1).length false (cs.drop 1))).bind fun r =>
          if ['\x7d'] <+: r.2 then (charOfHex? r.1).map fun c => (.literal c, r.2.drop 1) else none
      else (some (f.takeWhile isHexDigit width false cs)).bind fun r =>
        if r.1.length = width then (charOfHex? r.1).map fun c => (.literal c, r.2) else none := by
    funext cs
    unfold hexEscape?
    split
    next cs hcs =>
      simp only [hcs, Option.bind_some, List.drop_one, List.tail_cons]
      split
      next digits rest hdigits => simp [hdigits]
      next hopen =>
        have hnot : ¬['\x7d'] <+: (f.takeWhile isHexDigit cs.length false cs).2 :=
          fun ⟨rest, hrest⟩ => hopen _ rest (Prod.ext rfl hrest.symm)
        simp [hnot]
    next hcs =>
      have hnot : ¬['\x7b'] <+: f.skip cs := by simpa [prefix_iff_exists_eq] using hcs
      simp only [Option.bind_some, hnot, if_false]
  rw [hhex]
  have hbraced : IsPart 0 fun cs : List Char =>
      (some (f.takeWhile isHexDigit cs.length false cs)).bind fun r =>
        if ['\x7d'] <+: r.2 then
          (charOfHex? r.1).map fun c => (Atom.literal c, r.2.drop 1)
        else none :=
    (isPart_takeWhile_length f rfl).bind (isPart_pair fun digits => isPart_after
      (P := fun cs => (charOfHex? digits).map fun c => (Atom.literal c, cs)) (isPart_map _ _)
      isPart_none (by decide))
  have hplain : IsPart 0 fun cs : List Char =>
      (some (f.takeWhile isHexDigit width false cs)).bind fun r =>
        if r.1.length = width then (charOfHex? r.1).map fun c => (Atom.literal c, r.2) else none :=
    (isPart_takeWhile f rfl width).bind (IsPart.ite
      (isPart_pair fun digits => isPart_map (charOfHex? digits) _) isPart_none fun _ _ => Iff.rfl)
  exact (isPart_skip f).bind (isPart_after hbraced hplain (by decide))

/-! ### Word edges -/

section

variable {ds es : List Char} {c : Char}

/-- The kind of word edge that a word in braces stands for, after its first letter. -/
def edgeKind? (c : Char) (r : List Char × List Char) : Option (Atom × List Char) :=
  if ['\x7d'] <+: r.2 then (edgeNamed? (c :: r.1)).map fun a => (.anchor a, r.2.drop 1) else none

theorem isPart_edgeKind? (c : Char) : IsPart 0 (edgeKind? c) :=
  isPart_pair fun word => isPart_after
    (P := fun cs => (edgeNamed? (c :: word)).map fun a => (Atom.anchor a, cs))
    (isPart_map _ _) isPart_none (by decide)

theorem edgeEscape?_of_ne (hc : c ≠ '\x7b') (ds : List Char) :
    edgeEscape? f (c :: ds) = some (.anchor .wordEdge, c :: ds) := by
  simp [edgeEscape?, hc]

theorem edgeEscape?_of_nil (h : f.skip ds = []) : edgeEscape? f ('\x7b' :: ds) = none := by
  simp [edgeEscape?, h]

theorem edgeEscape?_of_not_letter (h : f.skip ds = c :: es) (hc : isEdgeLetter c = false) :
    edgeEscape? f ('\x7b' :: ds) = some (.anchor .wordEdge, '\x7b' :: ds) := by
  simp [edgeEscape?, h, takeWhile_of_skip h, hc]

theorem edgeEscape?_of_letter (h : f.skip ds = c :: es) (hc : isEdgeLetter c = true) :
    edgeEscape? f ('\x7b' :: ds) =
      edgeKind? c (f.takeWhile isEdgeLetter (ds.length - 1) false es) := by
  have hlength : ds.length ≠ 0 := by
    intro hzero
    simp [List.length_eq_zero_iff.mp hzero] at h
  simp only [edgeEscape?, edgeKind?, h, takeWhile_of_skip h, hc, hlength, ne_eq,
    not_false_eq_true, and_self, if_true]
  split <;> simp_all [prefix_iff_exists_eq]

theorem isLocal_edgeEscape? (f : Flags) {cs : List Char}
    (h : ∀ ds, cs = '\x7b' :: ds → f.skip ds ≠ []) :
    IsLocal 0 (edgeEscape? f cs) fun t => edgeEscape? f (cs ++ ')' :: t) := by
  cases cs with
  | nil => exact isLocal_some (Atom.anchor .wordEdge, [])
  | cons c ds =>
    by_cases hbrace : c = '\x7b'
    · subst hbrace
      obtain ⟨c, es, hskip⟩ := List.exists_cons_of_ne_nil (h ds rfl)
      have hbehind (t : List Char) : f.skip (ds ++ ')' :: t) = c :: (es ++ ')' :: t) := by
        rcases skip_behind f ds with hbehind | ⟨hnil, -⟩
        · rw [hbehind, hskip, List.cons_append]
        · simp [hnil] at hskip
      cases hc : isEdgeLetter c with
      | false =>
        simp only [List.cons_append, edgeEscape?_of_not_letter hskip hc,
          edgeEscape?_of_not_letter (hbehind _) hc]
        exact isLocal_some (Atom.anchor .wordEdge, '\x7b' :: ds)
      | true =>
        simp only [List.cons_append, edgeEscape?_of_letter hskip hc,
          edgeEscape?_of_letter (hbehind _) hc]
        have htake : IsLocal 0 (some (f.takeWhile isEdgeLetter (ds.length - 1) false es)) fun t =>
            some (f.takeWhile isEdgeLetter ((ds ++ ')' :: t).length - 1) false
              (es ++ ')' :: t)) := by
          have hlength := (skip_suffix f ds).length_le
          rw [hskip, List.length_cons] at hlength
          refine isLocal_takeWhile rfl (fun t => .inr ⟨by omega, ?_⟩) false
          rw [List.length_append]
          omega
        exact htake.andThen (isPart_edgeKind? c)
    · simp only [List.cons_append, edgeEscape?_of_ne hbrace]
      exact isLocal_some (Atom.anchor .wordEdge, c :: ds)

/-- Behind an opening brace and blanks, a parenthesis makes the brace start a repetition. -/
theorem edgeEscape?_behind {t : List Char} {r : Atom × List Char} (h : f.skip ds = [])
    (hr : edgeEscape? f ('\x7b' :: (ds ++ ')' :: t)) = some r) :
    r.2.length ≤ t.length ∨ r.2 = '\x7b' :: (ds ++ ')' :: t) := by
  rcases skip_behind f ds with hbehind | ⟨-, hbehind⟩
  · have hskip : f.skip (ds ++ ')' :: t) = ')' :: t := by rw [hbehind, h, List.nil_append]
    rw [edgeEscape?_of_not_letter hskip (by decide)] at hr
    exact .inr (Option.some.inj hr ▸ rfl)
  · cases hskip : f.skip (ds ++ ')' :: t) with
    | nil =>
      rw [edgeEscape?_of_nil hskip] at hr
      cases hr
    | cons c es =>
      cases hc : isEdgeLetter c with
      | false =>
        rw [edgeEscape?_of_not_letter hskip hc] at hr
        exact .inr (Option.some.inj hr ▸ rfl)
      | true =>
        rw [edgeEscape?_of_letter hskip hc] at hr
        have hes : es.length ≤ t.length := by
          have hlength := (skipFrom_suffix true t).length_le
          rw [← hbehind, hskip, List.length_cons] at hlength
          omega
        have hword := (isPart_edgeKind? c).suffix hr
        exact .inl (Nat.le_trans (hword.trans (takeWhile_suffix _ _ _ _ _)).length_le hes)

theorem exists_anchor_of_edgeEscape? {cs : List Char} {r : Atom × List Char}
    (h : edgeEscape? f cs = some r) : ∃ a, r.1 = .anchor a := by
  unfold edgeEscape? at h
  split at h
  · split at h
    · cases h
    · exact ⟨.wordEdge, Option.some.inj h ▸ rfl⟩
    · obtain ⟨a, -, rfl⟩ := Option.map_eq_some_iff.mp h
      exact ⟨a, rfl⟩
    · cases h
  · exact ⟨.wordEdge, Option.some.inj h ▸ rfl⟩

end

theorem edgeEscape?_suffix {cs : List Char} {r : Atom × List Char}
    (h : edgeEscape? f cs = some r) : rest r <:+ cs := by
  cases cs with
  | nil => exact Option.some.inj h ▸ List.suffix_refl _
  | cons c ds =>
    by_cases hbrace : c = '\x7b'
    · subst hbrace
      cases hskip : f.skip ds with
      | nil =>
        rw [edgeEscape?_of_nil hskip] at h
        cases h
      | cons c es =>
        cases hc : isEdgeLetter c with
        | false =>
          rw [edgeEscape?_of_not_letter hskip hc] at h
          exact Option.some.inj h ▸ List.suffix_refl _
        | true =>
          rw [edgeEscape?_of_letter hskip hc] at h
          have hds : c :: es <:+ '\x7b' :: ds :=
            (hskip ▸ skip_suffix f ds).trans (List.suffix_cons _ ds)
          exact ((isPart_edgeKind? c).suffix h).trans
            ((takeWhile_suffix _ _ _ _ es).trans ((List.suffix_cons c es).trans hds))
    · rw [edgeEscape?_of_ne hbrace] at h
      exact Option.some.inj h ▸ List.suffix_refl _

/-! ### All escapes -/

theorem isPart_escape?_cons (f : Flags) {c : Char} (hb : c ≠ 'b') :
    IsPart 0 fun cs => escape? f (c :: cs) := by
  by_cases hx : c = 'x'
  · subst hx
    exact isPart_hexEscape? f 2
  · by_cases hu : c = 'u'
    · subst hu
      exact isPart_hexEscape? f 4
    · by_cases hU : c = 'U'
      · subst hU
        exact isPart_hexEscape? f 8
      · have hletter : (fun cs => escape? f (c :: cs)) = fun cs =>
            ((escape? f [c]).map (·.1)).map fun atom => (atom, cs) := by
          funext cs
          unfold escape?
          dsimp only
          split <;> simp_all
        rw [hletter]
        exact isPart_map _ id

theorem escape?_suffix {cs : List Char} {r : Atom × List Char} (h : escape? f cs = some r) :
    rest r <:+ cs := by
  cases cs with
  | nil => cases h
  | cons c cs =>
    refine List.IsSuffix.trans ?_ (List.suffix_cons c cs)
    by_cases hb : c = 'b'
    · subst hb
      exact edgeEscape?_suffix h
    · exact (isPart_escape?_cons f hb).suffix h

/-- Escapes are local, but for a word edge with braces that the text leaves open and empty. -/
theorem isLocal_escape? (f : Flags) {cs : List Char}
    (h : ∀ ds, cs = 'b' :: '\x7b' :: ds → f.skip ds ≠ []) :
    IsLocal 0 (escape? f cs) fun t => escape? f (cs ++ ')' :: t) := by
  cases cs with
  | nil =>
    exact isLocal_of_passes fun {t r} hr => Option.some.inj hr ▸ Nat.le_refl _
  | cons c cs =>
    by_cases hb : c = 'b'
    · subst hb
      exact isLocal_edgeEscape? f fun ds hds => h ds (by rw [hds])
    · exact (isPart_escape?_cons f hb).isLocal cs

end FeaturePlan.Pattern
