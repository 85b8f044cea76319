import FeaturePlan.Proofs.Pattern.Parts

/-! # Reading classes in brackets

A class that a text leaves open does not end before the parenthesis behind the text: inside a class
a parenthesis is a character like any other. -/

namespace FeaturePlan.Pattern.Brackets

open HasRest

variable {f : Flags}

/-! ## Members -/

theorem isPart_nonempty {γ : Type} [HasRest γ] {g : List Char → γ} (hrest : ∀ cs, rest (g cs) = cs)
    (happend : ∀ cs t, g (cs ++ ')' :: t) = append (g cs) (')' :: t)) :
    IsPart 1 fun cs : List Char => if cs = [] then none else some (g cs) where
  suffix {cs r} h := by
    split_ifs at h
    obtain rfl := Option.some.inj h
    exact (hrest cs).symm ▸ List.suffix_refl cs
  isLocal cs := by
    cases cs with
    | nil =>
      refine isLocal_of_passes fun {t r} h => ?_
      rw [if_neg (by simp)] at h
      obtain rfl := Option.some.inj h
      simp [hrest]
    | cons c cs =>
      simp only [append_list, List.cons_append, reduceCtorEq, if_false]
      exact .inl fun t => congrArg some (happend (c :: cs) t)

theorem isPart_memberSet? :
    IsPart 1 fun r : Atom × List Char => (memberSet? r.1).map fun _ => r :=
  isPart_pair fun atom => isPart_map (memberSet? atom) fun _ => atom

theorem member?_wordEdge (f : Flags) (cs : List Char) : member? f ('\\' :: 'b' :: cs) = none := by
  refine Option.bind_eq_none_iff.mpr fun r hr => ?_
  obtain ⟨a, ha⟩ := exists_anchor_of_edgeEscape? hr
  simp [ha, memberSet?]

theorem member?_cons (f : Flags) {c : Char} (hc : c ≠ '\\') (cs : List Char) :
    member? f (c :: cs) = some (.literal c, cs) := by
  unfold member?
  split <;> simp_all

theorem member?_suffix {cs : List Char} {r : Atom × List Char} (h : member? f cs = some r) :
    r.2 <:+ cs.tail := by
  unfold member? at h
  split at h
  · cases h
  · obtain ⟨s, hs, h⟩ := Option.bind_eq_some_iff.mp h
    exact (isPart_memberSet?.suffix h).trans (escape?_suffix hs)
  · exact Option.some.inj h ▸ List.suffix_refl _

theorem isPart_member? (f : Flags) : IsPart 1 (member? f) where
  suffix h := (member?_suffix h).trans (List.tail_suffix _)
  isLocal cs := by
    cases cs with
    | nil =>
      exact isLocal_of_passes fun {t r} h => by
        obtain rfl := Option.some.inj h
        exact Nat.le_add_right _ _
    | cons c cs =>
      by_cases hescape : c = '\\'
      · subst hescape
        by_cases hedge : ∃ ds, cs = 'b' :: ds
        · obtain ⟨ds, rfl⟩ := hedge
          simp only [append_list, List.cons_append, member?_wordEdge]
          exact isLocal_none
        · have hlocal := isLocal_escape? f fun ds hds => (hedge ⟨_, hds⟩).elim
          exact hlocal.mono.andThen isPart_memberSet?
      · simp only [append_list, List.cons_append, member?_cons f hescape]
        exact isLocal_some (Atom.literal c, cs)

/-! ## Ranges -/

/-- Whether a hyphen makes a range does not depend on a parenthesis behind the text. -/
theorem peek_behind (f : Flags) (cs t : List Char) {c : Char} (hc : c ≠ ')') :
    f.peek (cs ++ ')' :: t) = some c ↔ f.peek cs = some c := by
  have hhead (cs : List Char) : (cs ++ ')' :: t).head? = some c ↔ cs.head? = some c := by
    cases cs with
    | nil => simp [Ne.symm hc]
    | cons d ds => simp
  unfold Flags.peek
  split_ifs
  · rw [trimStart_append]
    cases Text.trimStart cs with
    | nil => simp [Ne.symm hc]
    | cons d ds =>
      by_cases hhash : d = '#'
      · subst hhash
        simp only [List.cons_append, trimStart_append]
        exact hhead _
      · simp [hhash]
  · exact hhead cs

theorem isPart_rangeEnd? (f : Flags) (first : Atom) : IsPart 1 (rangeEnd? f first) :=
  (isPart_member? f).bind (isPart_pair fun last => isPart_map (rangeOf? first last) id)

theorem rangeAfter?_cons (f : Flags) (first : Atom) {c : Char} (hc : c ≠ '-') (cs : List Char) :
    rangeAfter? f first (c :: cs) = (memberSet? first).map fun s => (s, c :: cs) := by
  unfold rangeAfter?
  split <;> simp_all

theorem isPart_rangeAfter? (f : Flags) (first : Atom) : IsPart 1 (rangeAfter? f first) := by
  have hset : IsPart 1 fun cs : List Char => (memberSet? first).map fun s => (s, cs) :=
    isPart_map (memberSet? first) id
  have hend : IsPart 1 fun cs => (some (f.skip cs)).bind (rangeEnd? f first) :=
    (isPart_skip f).bind (isPart_rangeEnd? f first)
  refine ⟨fun {cs r} h => ?_, fun cs => ?_⟩
  · unfold rangeAfter? at h
    split at h
    · cases h
    · dsimp only at h
      split_ifs at h
      · exact hset.suffix h
      · exact (hend.suffix h).trans (List.suffix_cons _ _)
    · exact hset.suffix h
  · cases cs with
    | nil =>
      refine isLocal_of_passes fun {t r} h => ?_
      rw [append_list, List.nil_append, rangeAfter?_cons f first (by decide)] at h
      exact (hset.suffix h).length_le
    | cons c cs =>
      by_cases hhyphen : c = '-'
      · subst hhyphen
        have hbracket (t : List Char) := peek_behind f cs t (c := ']') (by decide)
        have hhyphen (t : List Char) := peek_behind f cs t (c := '-') (by decide)
        simp only [append_list, List.cons_append, rangeAfter?, hbracket, hhyphen]
        split_ifs
        · exact hset.isLocal ('-' :: cs)
        · exact hend.isLocal cs
      · simp only [append_list, List.cons_append, rangeAfter?_cons f first hhyphen]
        exact hset.isLocal (c :: cs)

theorem isPart_range? (f : Flags) : IsPart 1 (range? f) :=
  (isPart_member? f).bind (isPart_pair fun first =>
    (isPart_skip f).bind (isPart_rangeAfter? f first))

theorem range?_suffix {cs : List Char} {r : CharSet × List Char} (h : range? f cs = some r) :
    r.2 <:+ cs.tail := by
  obtain ⟨⟨first, ds⟩, hfirst, h⟩ := Option.bind_eq_some_iff.mp h
  have hafter := ((isPart_rangeAfter? f first).suffix h).trans (skip_suffix f ds)
  exact hafter.trans (member?_suffix hfirst)

/-! ## Named classes -/

theorem find?_eq_none {name : List Char} (h : ')' ∈ name) : NamedClass.find? name = none := by
  have hletters : ∀ known ∈ NamedClass.names, ')' ∉ known.1.toList := by decide +kernel
  refine List.findSome?_eq_none_iff.mpr fun known hknown => if_neg fun heq => ?_
  rw [← heq] at h
  exact hletters known hknown h

theorem className?_behind (cs t : List Char) :
    className? (cs ++ ')' :: t) = (className? cs).map (append · (')' :: t)) := by
  by_cases hend : ':' ∈ cs
  · obtain ⟨name, after, rfl, hname⟩ := List.eq_append_cons_of_mem hend
    simp only [className?, List.append_assoc, List.cons_append, takeWhile_ne_append hname,
      List.takeWhile_cons, bne_self_eq_false, Bool.false_eq_true, if_false, List.append_nil,
      List.drop_left]
    cases after with
    | nil => rfl
    | cons c after =>
      by_cases hclose : c = ']'
      · subst hclose
        cases NamedClass.find? name <;> rfl
      · simp [hclose]
  · have htake : cs.takeWhile (· != ':') = cs := by
      simpa using takeWhile_ne_append hend []
    have hnone : className? cs = none := by
      simp only [className?, htake, List.drop_length]
    rw [hnone]
    simp only [className?, takeWhile_ne_append hend]
    -- the name would have to go on with the parenthesis
    rw [find?_eq_none (by simp)]
    split <;> rfl

theorem className?_suffix {cs : List Char} {r : NamedClass × List Char}
    (h : className? cs = some r) : r.2 <:+ cs := by
  unfold className? at h
  dsimp only at h
  split at h
  next rest hdrop =>
    obtain ⟨cls, -, rfl⟩ := Option.map_eq_some_iff.mp h
    have hrest : rest <:+ ':' :: ']' :: rest := ⟨[':', ']'], rfl⟩
    exact hrest.trans (hdrop ▸ List.drop_suffix _ cs)
  next => cases h

/-- A named class ends before a parenthesis, if it ends at all. -/
theorem named?_behind (f : Flags) (cs t : List Char) :
    named? f (cs ++ ')' :: t) = (named? f cs).map (append · (')' :: t)) := by
  cases cs with
  | nil => rfl
  | cons c cs =>
    by_cases hcolon : c = ':'
    · subst hcolon
      by_cases hcaret : ∃ ds, cs = '^' :: ds
      · obtain ⟨ds, rfl⟩ := hcaret
        simp only [List.cons_append, named?, className?_behind, Option.map_map]
        rfl
      · have hplain {ds : List Char} (hds : ¬∃ es, ds = '^' :: es) : named? f (':' :: ds) =
            (className? ds).map fun r => (signed f false r.1.set, r.2) := by
          unfold named?
          split <;> simp_all
        have hbehind : ¬∃ es, cs ++ ')' :: t = '^' :: es := by
          cases cs <;> simp_all
        rw [List.cons_append, hplain hcaret, hplain hbehind, className?_behind, Option.map_map,
          Option.map_map]
        rfl
    · simp [named?, hcolon]

theorem named?_suffix {cs : List Char} {r : CharSet × List Char} (h : named? f cs = some r) :
    r.2 <:+ cs.tail := by
  unfold named? at h
  split at h
  · obtain ⟨s, hs, rfl⟩ := Option.map_eq_some_iff.mp h
    exact (className?_suffix hs).trans (List.suffix_cons _ _)
  · obtain ⟨s, hs, rfl⟩ := Option.map_eq_some_iff.mp h
    exact className?_suffix hs
  · cases h

/-! ## The start of a class -/

theorem leadingHyphens_fuel {m n : Nat} {cs : List Char} (hm : cs.length ≤ m) (hn : cs.length ≤ n)
    (members : Members) : leadingHyphens f members m cs = leadingHyphens f members n cs := by
  induction m generalizing n cs members with
  | zero =>
    obtain rfl := List.length_eq_zero_iff.mp (Nat.le_zero.mp hm)
    cases n <;> rfl
  | succ m ih =>
    cases cs with
    | nil => cases n <;> rfl
    | cons c cs =>
      obtain _ | n := n
      · simp at hn
      · by_cases hhyphen : c = '-'
        · subst hhyphen
          have hlength := (skip_suffix f cs).length_le
          rw [List.length_cons] at hm hn
          exact ih (by omega) (by omega) _
        · simp [leadingHyphens, hhyphen]

theorem leadingHyphens_suffix (members : Members) (n : Nat) (cs : List Char) :
    (leadingHyphens f members n cs).2 <:+ cs := by
  fun_induction leadingHyphens f members n cs with
  | case1 members n cs ih => exact (ih.trans (skip_suffix f cs)).trans (List.suffix_cons _ cs)
  | case2 => exact List.suffix_refl _

theorem isPart_leadingHyphens (f : Flags) (members : Members) :
    IsPart 1 fun cs : List Char => some (leadingHyphens f members cs.length cs) where
  suffix h := Option.some.inj h ▸ leadingHyphens_suffix _ _ _
  isLocal cs := by
    induction h : cs.length using Nat.strongRecOn generalizing cs members with
    | _ n ih =>
      subst h
      cases cs with
      | nil => exact isLocal_some (members, [])
      | cons c cs =>
        by_cases hhyphen : c = '-'
        · subst hhyphen
          have hstep (cs : List Char) : leadingHyphens f members ('-' :: cs).length ('-' :: cs) =
              leadingHyphens f (members.add (.char '-') 0) (f.skip cs).length (f.skip cs) :=
            leadingHyphens_fuel (skip_suffix f cs).length_le (Nat.le_refl _) _
          simp only [append_list, List.cons_append, hstep]
          refine ((isPart_skip (k := 1) f).isLocal cs).bind (Q := fun cs => some
            (leadingHyphens f (members.add (.char '-') 0) cs.length cs))
            (fun h => ?_) fun {r} hr => ?_
          · exact Option.some.inj h ▸ leadingHyphens_suffix _ _ _
          · obtain rfl := Option.some.inj hr
            exact ih _ (Nat.lt_succ_of_le (skip_suffix f cs).length_le) _ _ rfl
        · have hplain (cs : List Char) :
              leadingHyphens f members (c :: cs).length (c :: cs) = (members, c :: cs) := by
            simp [leadingHyphens, hhyphen]
          simp only [append_list, List.cons_append, hplain]
          exact isLocal_some (members, c :: cs)

theorem isPart_opening? (f : Flags) : IsPart 1 (opening? f) := by
  have hopened (negated : Bool) (members : Members) : IsPart 1 fun cs : List Char =>
      if cs = [] then none else some (negated, members, cs) :=
    isPart_nonempty (fun _ => rfl) fun _ _ => rfl
  have hfirst (negated : Bool) (members : Members) : IsPart 1 (firstMember? f negated members) := by
    by_cases hnone : members = .none
    · have hbracket : firstMember? f negated members = fun cs => if cs.head? = some ']' then
          (some (f.skip cs.tail)).bind fun cs =>
            if cs = [] then none else some (negated, members.add (.char ']') 0, cs)
          else if cs = [] then none else some (negated, members, cs) := by
        funext cs
        by_cases hhead : cs.head? = some ']' <;> simp [firstMember?, hnone, hhead]
      rw [hbracket]
      exact isPart_head ((isPart_skip f).bind (hopened negated _)) (hopened negated members)
        (by decide)
    · have hplain : firstMember? f negated members = fun cs =>
          if cs = [] then none else some (negated, members, cs) := by
        funext cs
        simp [firstMember?, hnone]
      rw [hplain]
      exact hopened negated members
  have hmembers (negated : Bool) : IsPart 1 (firstMembers? f negated) :=
    (isPart_leadingHyphens f .none).bind (isPart_pair fun members => hfirst negated members)
  have hcaret : IsPart 1 fun cs => (some (f.skip cs)).bind (firstMembers? f true) :=
    (isPart_skip f).bind (hmembers true)
  exact (isPart_skip f).bind (isPart_head hcaret (hmembers false) (by decide))

/-! ## Rounds -/

theorem operator?_suffix {cs : List Char} {r : SetOperator × List Char}
    (h : operator? cs = some r) : r.2 <:+ cs.tail := by
  unfold operator? at h
  split at h
  all_goals
    first
    | exact Option.some.inj h ▸ List.suffix_cons _ _
    | cases h

theorem operator?_behind (cs t : List Char) :
    operator? (cs ++ ')' :: t) = (operator? cs).map (append · (')' :: t)) := by
  cases cs with
  | nil => rfl
  | cons c cs =>
    cases cs with
    | nil => simp [operator?]
    | cons d ds =>
      unfold operator?
      split <;> simp_all

theorem nested?_suffix {members : Members} {around : List Around} {cs : List Char}
    {r : (Members × List Around) × List Char} (h : nested? f members around cs = some r) :
    r.2 <:+ cs := by
  unfold nested? at h
  split at h
  next hnamed =>
    split_ifs at hnamed
    exact Option.some.inj h ▸ (named?_suffix hnamed).trans (List.tail_suffix cs)
  next =>
    obtain ⟨s, hs, rfl⟩ := Option.map_eq_some_iff.mp h
    exact (isPart_opening? f).suffix hs

theorem isPart_nested? (f : Flags) (members : Members) (around : List Around) :
    IsPart 1 (nested? f members around) where
  suffix h := nested?_suffix h
  isLocal cs := by
    have hnamed (t : List Char) : (if around = [] then none else named? f (cs ++ ')' :: t)) =
        (if around = [] then none else named? f cs).map (append · (')' :: t)) := by
      split_ifs
      · rfl
      · exact named?_behind f cs t
    simp only [nested?, append_list, hnamed]
    cases if around = [] then none else named? f cs with
    | some r => exact isLocal_some ((members.add r.1 0, around), r.2)
    | none =>
      exact ((isPart_opening? f).map (g := fun r : Bool × Members × List Char =>
        ((r.2.1, Around.bracket members r.1 :: around), r.2.2))
        (fun _ => rfl) fun _ _ => rfl).isLocal cs

theorem item?_suffix {members : Members} {around : List Around} {cs : List Char}
    {r : (Members × List Around) × List Char} (h : item? f members around cs = some r) :
    r.2 <:+ cs.tail := by
  unfold item? at h
  split at h
  next hoperator => exact Option.some.inj h ▸ operator?_suffix hoperator
  next =>
    obtain ⟨s, hs, rfl⟩ := Option.map_eq_some_iff.mp h
    exact range?_suffix hs

theorem isPart_item? (f : Flags) (members : Members) (around : List Around) :
    IsPart 1 (item? f members around) where
  suffix h := (item?_suffix h).trans (List.tail_suffix _)
  isLocal cs := by
    simp only [item?, append_list, operator?_behind]
    cases operator? cs with
    | some r =>
      exact isLocal_some ((Members.none,
        Around.operator r.1 (settle f members around).1 :: (settle f members around).2), r.2)
    | none =>
      exact ((isPart_range? f).map (g := fun r : CharSet × List Char =>
        ((members.add r.1 0, around), r.2)) (fun _ => rfl) fun _ _ => rfl).isLocal cs

theorem grow?_suffix {members : Members} {around : List Around} {cs : List Char}
    {r : (Members × List Around) × List Char} (h : grow? f members around cs = some r) :
    r.2 <:+ cs.tail := by
  unfold grow? at h
  split_ifs at h
  · exact nested?_suffix h
  · exact item?_suffix h

theorem isPart_grow? (f : Flags) (members : Members) (around : List Around) :
    IsPart 1 (grow? f members around) :=
  isPart_head (isPart_nested? f members around) (isPart_item? f members around) (by decide)

theorem grow?_length {members : Members} {around : List Around} {cs : List Char}
    {r : (Members × List Around) × List Char} (h : grow? f members around cs = some r) :
    r.2.length < cs.length := by
  cases cs with
  | nil => cases h
  | cons c cs => exact Nat.lt_succ_of_le (grow?_suffix h).length_le

/-! ## Whole classes -/

theorem tail_suffix_tail {cs ds : List Char} (h : cs <:+ ds) : cs.tail <:+ ds.tail := by
  obtain ⟨lead, rfl⟩ := h
  cases lead with
  | nil => exact List.suffix_refl _
  | cons c lead => exact (List.tail_suffix cs).trans (List.suffix_append lead cs)

theorem tail_length_lt {cs : List Char} {c : Char} (h : cs.head? = some c) :
    cs.tail.length < cs.length := by
  cases cs with
  | nil => cases h
  | cons c cs => exact Nat.lt_succ_self _

theorem read?_suffix {fuel : Nat} {members : Members} {around : List Around} {cs : List Char}
    {r : Operand × List Char} (h : read? f fuel members around cs = some r) :
    r.2 <:+ cs.tail := by
  induction fuel generalizing members around cs with
  | zero => cases h
  | succ fuel ih =>
    have htail := tail_suffix_tail (skip_suffix f cs)
    rw [read?] at h
    dsimp only at h
    split_ifs at h
    · split at h
      · cases h
      · exact Option.some.inj h ▸ htail
      · exact ((ih h).trans (List.tail_suffix _)).trans htail
    · obtain ⟨s, hs, h⟩ := Option.bind_eq_some_iff.mp h
      exact ((ih h).trans (List.tail_suffix _)).trans ((grow?_suffix hs).trans htail)

theorem read?_fuel {m n : Nat} {cs : List Char} (hm : cs.length < m) (hn : cs.length < n)
    (members : Members) (around : List Around) :
    read? f m members around cs = read? f n members around cs := by
  induction m generalizing n members around cs with
  | zero => omega
  | succ m ih =>
    obtain _ | n := n
    · omega
    · rw [read?, read?]
      dsimp only
      have hskip := (skip_suffix f cs).length_le
      split_ifs with hclose
      · have htail := tail_length_lt hclose
        split
        · rfl
        · rfl
        · exact ih (by omega) (by omega) _ _
      · refine Option.bind_congr fun r hr => ?_
        have hrest := grow?_length hr
        exact ih (by omega) (by omega) _ _

def afterClose? (f : Flags) (closed : Operand ⊕ Members × List Around) (cs : List Char) :
    Option (Operand × List Char) :=
  match closed with
  | .inl whole => some (whole, cs)
  | .inr (members, around) => read? f (cs.length + 1) members around cs

/-- Reading a class from a character that is no blank, with as much fuel as there are characters for
the rounds after the first one. -/
def round? (f : Flags) (members : Members) (around : List Around) (cs : List Char) :
    Option (Operand × List Char) :=
  if cs.head? = some ']' then
    (close? f members around).bind fun closed => afterClose? f closed cs.tail
  else (grow? f members around cs).bind fun r => read? f (r.2.length + 1) r.1.1 r.1.2 r.2

theorem read?_eq_round? (f : Flags) (members : Members) (around : List Around) (cs : List Char) :
    read? f (cs.length + 1) members around cs = round? f members around (f.skip cs) := by
  have hskip := (skip_suffix f cs).length_le
  rw [read?, round?]
  split_ifs with hclose
  · have htail := tail_length_lt hclose
    cases close? f members around with
    | none => rfl
    | some closed =>
      obtain whole | ⟨members, around⟩ := closed
      · rfl
      · exact read?_fuel (by omega) (Nat.lt_succ_self _) _ _
  · refine Option.bind_congr fun r hr => ?_
    have hrest := grow?_length hr
    exact read?_fuel (by omega) (Nat.lt_succ_self _) _ _

theorem afterClose?_suffix {closed : Operand ⊕ Members × List Around} {cs : List Char}
    {r : Operand × List Char} (h : afterClose? f closed cs = some r) : r.2 <:+ cs := by
  obtain whole | ⟨members, around⟩ := closed
  · exact Option.some.inj h ▸ List.suffix_refl cs
  · exact (read?_suffix h).trans (List.tail_suffix cs)

theorem round?_suffix {members : Members} {around : List Around} {cs : List Char}
    {r : Operand × List Char} (h : round? f members around cs = some r) : r.2 <:+ cs := by
  unfold round? at h
  split_ifs at h
  · obtain ⟨closed, -, h⟩ := Option.bind_eq_some_iff.mp h
    exact (afterClose?_suffix h).trans (List.tail_suffix cs)
  · obtain ⟨s, hs, h⟩ := Option.bind_eq_some_iff.mp h
    exact ((read?_suffix h).trans (List.tail_suffix _)).trans
      ((grow?_suffix hs).trans (List.tail_suffix cs))

theorem read?_length {fuel : Nat} {members : Members} {around : List Around} {cs : List Char}
    {r : Operand × List Char} (h : read? f fuel members around cs = some r) :
    r.2.length < cs.length := by
  cases cs with
  | nil =>
    cases fuel with
    | zero => cases h
    | succ fuel =>
      rw [read?, skip_nil] at h
      cases h
  | cons c cs => exact Nat.lt_succ_of_le (read?_suffix h).length_le

theorem isLocal_round? {members : Members} {around : List Around} {cs : List Char}
    (hread : ∀ ds, ds.length < cs.length → ∀ members around,
      IsLocal 0 (read? f (ds.length + 1) members around ds) fun t =>
        read? f ((ds ++ ')' :: t).length + 1) members around (ds ++ ')' :: t)) :
    IsLocal 0 (round? f members around cs) fun t => round? f members around (cs ++ ')' :: t) := by
  cases cs with
  | nil =>
    refine isLocal_of_passes fun {t r} h => ?_
    obtain ⟨s, hs, h⟩ := Option.bind_eq_some_iff.mp h
    have hlength := read?_length h
    have hrest : s.2.length ≤ t.length := (grow?_suffix hs).length_le
    change r.2.length ≤ t.length + 0
    omega
  | cons c cs =>
    by_cases hclose : c = ']'
    · subst hclose
      simp only [round?, List.cons_append, List.head?_cons, if_true, List.tail_cons]
      cases close? f members around with
      | none => exact isLocal_none
      | some closed =>
        obtain whole | ⟨members, around⟩ := closed
        · exact isLocal_some (whole, cs)
        · exact hread cs (Nat.lt_succ_self _) members around
    · have hhead (ds : List Char) : round? f members around (c :: ds) =
          (grow? f members around (c :: ds)).bind fun r =>
            read? f (r.2.length + 1) r.1.1 r.1.2 r.2 := by
        simp [round?, hclose]
      simp only [List.cons_append, hhead]
      refine ((isPart_grow? f members around).isLocal (c :: cs)).bind_of_length
        (fun h => (read?_suffix h).trans (List.tail_suffix _)) read?_length fun hr => ?_
      exact hread _ (grow?_length hr) _ _

theorem isPart_read? (f : Flags) (members : Members) (around : List Around) :
    IsPart 0 fun cs : List Char => read? f (cs.length + 1) members around cs where
  suffix h := (read?_suffix h).trans (List.tail_suffix _)
  isLocal cs := by
    induction h : cs.length using Nat.strongRecOn generalizing cs members around with
    | _ n ih =>
      subst h
      simp only [read?_eq_round?]
      refine ((isPart_skip (k := 0) f).isLocal cs).bind (Q := round? f members around)
        round?_suffix fun {ds} hds => isLocal_round? fun es hes members around => ?_
      obtain rfl := Option.some.inj hds
      exact ih _ (Nat.lt_of_lt_of_le hes (skip_suffix f cs).length_le) members around es rfl

theorem isPart_brackets? (f : Flags) : IsPart 0 (brackets? f) :=
  isPart_read? f .none []

end FeaturePlan.Pattern.Brackets
