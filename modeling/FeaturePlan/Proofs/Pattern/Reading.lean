import FeaturePlan.Proofs.Pattern.Classes

/-! # Reading patterns step by step -/

namespace FeaturePlan.Pattern.Reader

open HasRest

variable {r : Reader} {cs : List Char}

/-! ## Steps are local -/

theorem isPart_enterNamed? (r : Reader) : IsPart 0 r.enterNamed? := by
  have hname (name : List Char) : IsPart 0 fun cs : List Char => if name ∈ r.names then none
      else some ({ r with names := name :: r.names }.enterNumbered, cs) := by
    split_ifs
    · exact isPart_none
    · exact isPart_some (fun _ => List.suffix_refl _) fun _ _ => rfl
  exact isPart_groupName?.bind (isPart_pair hname)

theorem isPart_openFlags? (r : Reader) : IsPart 0 r.openFlags? := by
  have hflags : r.openFlags? = fun cs => (r.group.flags.read? [] cs).bind fun x =>
      if x.2.2.1 = ':' then some (r.enter x.1, x.2.2.2)
      else if x.2.1 = [] then none
      else some ({ r with
        group := { r.group with flags := x.1, parts := none :: r.group.parts } }, x.2.2.2) := by
    funext cs
    unfold openFlags?
    split <;> simp_all
  rw [hflags]
  refine (isPart_readFlags _ _).bind (IsPart.ite ?_ (IsPart.ite isPart_none ?_ ?_) ?_)
  · exact isPart_some (fun _ => List.suffix_refl _) fun _ _ => rfl
  · exact isPart_some (fun _ => List.suffix_refl _) fun _ _ => rfl
  · exact fun _ _ => Iff.rfl
  · exact fun _ _ => Iff.rfl

theorem isPart_openNamed? (r : Reader) : IsPart 0 r.openNamed? := by
  have hnamed : r.openNamed? = fun cs => if cs.head? = some '=' then none
      else if cs.head? = some '!' then none else r.enterNamed? cs := by
    funext cs
    unfold openNamed?
    split <;> simp_all [List.head?_eq_some_iff]
  rw [hnamed]
  exact isPart_head isPart_none (isPart_head isPart_none r.isPart_enterNamed? (by decide))
    (by decide)

theorem isPart_openMarked? (r : Reader) : IsPart 0 r.openMarked? := by
  have hmarked : r.openMarked? = fun cs => if cs.head? = some '=' then none
      else if cs.head? = some '!' then none
      else if cs.head? = some '<' then r.openNamed? cs.tail
      else if ['P', '<'] <+: cs then r.enterNamed? (cs.drop 2) else r.openFlags? cs := by
    funext cs
    unfold openMarked?
    split <;> simp_all [List.head?_eq_some_iff, prefix_iff_exists_eq]
  rw [hmarked]
  exact isPart_head isPart_none (isPart_head isPart_none (isPart_head r.isPart_openNamed?
    (isPart_after r.isPart_enterNamed? r.isPart_openFlags? (by decide)) (by decide)) (by decide))
    (by decide)

theorem isPart_open? (r : Reader) : IsPart 0 r.open? := by
  have hopen : r.open? = fun cs => (some (r.group.flags.skip cs)).bind fun cs =>
      if cs.head? = some '?' then r.openMarked? cs.tail else some (r.enterNumbered, cs) := by
    funext cs
    unfold open?
    split <;> simp_all [List.head?_eq_some_iff]
  rw [hopen]
  exact (isPart_skip _).bind (isPart_head r.isPart_openMarked?
    (isPart_some (fun _ => List.suffix_refl _) fun _ _ => rfl) (by decide))

theorem isPart_lazy {α : Type} (o : Option α) :
    IsPart 0 fun cs => o.map fun x => (x, afterLaziness cs) :=
  isPart_afterLaziness.bind (isPart_map o id)

theorem isPart_counted (r : Reader) : IsPart 0 fun cs => (bounds? r.group.flags cs).bind fun x =>
    (r.repeat? x.1 x.2.1).map fun r' => (r', afterLaziness (r.group.flags.skip x.2.2)) :=
  (isPart_bounds? _).bind (isPart_pair fun least => isPart_pair fun most =>
    (isPart_skip _).bind (isPart_lazy (r.repeat? least most)))

/-- A step is local, unless it reads a word edge with braces that the text leaves open and empty. -/
theorem isLocal_take? (r : Reader) {c : Char} {cs : List Char}
    (h : ∀ ds, c :: cs = '\\' :: 'b' :: '\x7b' :: ds → r.group.flags.skip ds ≠ []) :
    IsLocal 0 (r.take? c cs) fun t => r.take? c (cs ++ ')' :: t) := by
  unfold take?
  dsimp only
  split
  case h_1 => exact r.isPart_open?.isLocal cs
  case h_2 => exact (isPart_map r.close? id).isLocal cs
  case h_4 =>
    have hadd := (Brackets.isPart_brackets? r.group.flags).map
      (g := fun x => ({ r with group := r.group.add ⟨.ofSet x.1.set, x.1.depth⟩ }, x.2))
      (fun _ => rfl) fun _ _ => rfl
    exact hadd.isLocal ('[' :: cs)
  case h_5 | h_6 | h_7 => exact (isPart_lazy _).isLocal cs
  case h_8 => exact r.isPart_counted.isLocal cs
  case h_12 =>
    have hescape : IsLocal 0 (escape? r.group.flags cs) fun t =>
        escape? r.group.flags (cs ++ ')' :: t) :=
      isLocal_escape? _ fun ds hds => h ds (by rw [hds])
    exact hescape.map (g := fun x => (r.add (x.1.pattern r.group.flags), x.2)) (fun _ => rfl)
      fun _ _ => rfl
  all_goals exact isLocal_some (_, cs)

theorem take?_suffix {c : Char} {cs : List Char} {x : Reader × List Char}
    (h : r.take? c cs = some x) : x.2 <:+ cs := by
  unfold take? at h
  dsimp only at h
  split at h
  case h_1 => exact r.isPart_open?.suffix h
  case h_2 => exact (isPart_map (k := 0) r.close? id).suffix h
  case h_4 =>
    obtain ⟨y, hy, rfl⟩ := Option.map_eq_some_iff.mp h
    exact Brackets.read?_suffix hy
  case h_5 | h_6 | h_7 => exact (isPart_lazy _).suffix h
  case h_8 => exact r.isPart_counted.suffix h
  case h_12 =>
    obtain ⟨y, hy, rfl⟩ := Option.map_eq_some_iff.mp h
    exact escape?_suffix hy
  all_goals exact Option.some.inj h ▸ List.suffix_refl cs

def step? (r : Reader) (cs : List Char) : Option (Reader × List Char) :=
  match r.group.flags.skip cs with
  | [] => none
  | c :: cs => r.take? c cs

theorem step?_of_nil (h : r.group.flags.skip cs = []) : r.step? cs = none := by
  rw [step?, h]

theorem step?_of_cons {c : Char} {ds : List Char} (h : r.group.flags.skip cs = c :: ds) :
    r.step? cs = r.take? c ds := by
  rw [step?, h]

theorem step?_suffix {x : Reader × List Char} (h : r.step? cs = some x) : x.2 <:+ cs.tail := by
  cases hskip : r.group.flags.skip cs with
  | nil => simp [step?_of_nil hskip] at h
  | cons c ds =>
    rw [step?_of_cons hskip] at h
    have htail := Brackets.tail_suffix_tail (skip_suffix r.group.flags cs)
    rw [hskip] at htail
    exact (take?_suffix h).trans htail

/-- The text goes on with a word edge and an opening brace, and no more than blanks after it. -/
def OpensEdge (r : Reader) (cs ds : List Char) : Prop :=
  r.group.flags.skip cs = '\\' :: 'b' :: '\x7b' :: ds ∧ r.group.flags.skip ds = []

theorem isLocal_step? (h : ∀ ds, ¬r.OpensEdge cs ds) :
    IsLocal 0 (r.step? cs) fun t => r.step? (cs ++ ')' :: t) := by
  rcases skip_behind r.group.flags cs with hbehind | ⟨hnil, hbehind⟩
  · cases hskip : r.group.flags.skip cs with
    | nil =>
      simp only [step?_of_nil hskip, step?_of_cons (hbehind _ ▸ hskip ▸ List.nil_append _)]
      exact isLocal_of_passes fun hx => (take?_suffix hx).length_le
    | cons c ds =>
      simp only [step?_of_cons hskip,
        step?_of_cons ((hbehind _).trans (hskip ▸ List.cons_append))]
      refine isLocal_take? r fun es hes hnil => h es ⟨?_, hnil⟩
      rw [hskip, hes]
  · rw [step?_of_nil hnil]
    refine isLocal_of_passes fun {t x} hx => ?_
    cases hskip : r.group.flags.skip (cs ++ ')' :: t) with
    | nil => simp [step?_of_nil hskip] at hx
    | cons c ds =>
      rw [step?_of_cons hskip] at hx
      have hlength := (skipFrom_suffix true t).length_le
      rw [← hbehind, hskip, List.length_cons] at hlength
      have hrest := (take?_suffix hx).length_le
      change x.2.length ≤ t.length + 0
      omega

theorem step?_opensEdge {ds : List Char} (h : r.OpensEdge cs ds) : r.step? cs = none := by
  rw [step?_of_cons h.1]
  have hedge : escape? r.group.flags ('b' :: '\x7b' :: ds) = none := edgeEscape?_of_nil h.2
  simp [take?, hedge]

/-- Behind a word edge and an opening brace, the brace is read as the start of a repetition. -/
theorem step?_opensEdge_behind {ds t : List Char} (h : r.OpensEdge cs ds)
    {x : Reader × List Char} (hx : r.step? (cs ++ ')' :: t) = some x) :
    x.2.length ≤ t.length ∨
      x.2 = '\x7b' :: (ds ++ ')' :: t) ∧ x.1.group.flags = r.group.flags := by
  have hskip : r.group.flags.skip (cs ++ ')' :: t) =
      '\\' :: 'b' :: '\x7b' :: (ds ++ ')' :: t) := by
    rcases skip_behind r.group.flags cs with hbehind | ⟨hnil, -⟩
    · rw [hbehind, h.1]
      rfl
    · simp [h.1] at hnil
  rw [step?_of_cons hskip] at hx
  obtain ⟨y, hy, rfl⟩ := Option.map_eq_some_iff.mp hx
  exact (edgeEscape?_behind h.2 hy).imp_right fun hrest => ⟨hrest, rfl⟩

theorem skip_brace (f : Flags) (cs : List Char) : f.skip ('\x7b' :: cs) = '\x7b' :: cs := by
  have hblank : Text.isBlank '\x7b' = false := by decide
  simp [Flags.skip, Flags.skipFrom, hblank]

/-- No repetition has its bounds where there are no more than blanks before a parenthesis. -/
theorem step?_brace_behind {ds t : List Char} (h : r.group.flags.skip ds = [])
    {x : Reader × List Char} (hx : r.step? ('\x7b' :: (ds ++ ')' :: t)) = some x) :
    x.2.length ≤ t.length := by
  have hbounds : bounds? r.group.flags ds = none := by
    simp [bounds?, count?, h, Text.trimStart, Flags.takeWhile]
  have hlocal := r.isPart_counted.isLocal ds
  rw [step?_of_cons (skip_brace _ _)] at hx
  simp only [hbounds, Option.bind_none] at hlocal
  exact hlocal.length_le hx

/-! ## Runs -/

/-- A reader takes some parts of a text, one after the other. -/
inductive Reads : Reader → List Char → Reader → List Char → Prop where
  | done (r : Reader) (cs : List Char) : Reads r cs r cs
  | step {r r₁ r₂ : Reader} {cs rest₁ rest₂ : List Char} : r.step? cs = some (r₁, rest₁) →
      Reads r₁ rest₁ r₂ rest₂ → Reads r cs r₂ rest₂

variable {r₁ r₂ : Reader} {rest₁ rest₂ : List Char}

theorem Reads.suffix (h : Reads r cs r₁ rest₁) : rest₁ <:+ cs := by
  induction h with
  | done => exact List.suffix_refl _
  | step hstep _ ih => exact ih.trans ((step?_suffix hstep).trans (List.tail_suffix _))

theorem Reads.trans (h : Reads r cs r₁ rest₁) (h' : Reads r₁ rest₁ r₂ rest₂) :
    Reads r cs r₂ rest₂ := by
  induction h with
  | done => exact h'
  | step hstep _ ih => exact .step hstep (ih h')

/-- A reader that has come to a stop has been there before it went on, or comes to it from there. -/
theorem Reads.of_reads (h : Reads r cs r₁ rest₁) (h' : Reads r cs r₂ rest₂)
    (hstuck : r₂.step? rest₂ = none) : Reads r₁ rest₁ r₂ rest₂ := by
  induction h with
  | done => exact h'
  | step hstep _ ih =>
    cases h' with
    | done => simp [hstuck] at hstep
    | step hstep' h' =>
      obtain ⟨rfl, rfl⟩ := Prod.mk.inj (Option.some.inj (hstep.symm.trans hstep'))
      exact ih h'

theorem Reads.unique (h : Reads r cs r₁ rest₁) (hstuck : r₁.step? rest₁ = none)
    (h' : Reads r cs r₂ rest₂) (hstuck' : r₂.step? rest₂ = none) : r₁ = r₂ ∧ rest₁ = rest₂ := by
  cases h.of_reads h' hstuck' with
  | done => exact ⟨rfl, rfl⟩
  | step hstep _ => simp [hstuck] at hstep

theorem run?_eq_some_iff {fuel : Nat} {part : Part} (hfuel : cs.length < fuel) :
    r.run? fuel cs = some part ↔ ∃ r' rest, Reads r cs r' rest ∧
      r'.group.flags.skip rest = [] ∧ r'.outer = [] ∧ r'.group.whole = part := by
  induction fuel generalizing r cs with
  | zero => omega
  | succ fuel ih =>
    rw [run?]
    cases hskip : r.group.flags.skip cs with
    | nil =>
      dsimp only
      constructor
      · intro h
        split_ifs at h with houter
        exact ⟨r, cs, .done r cs, hskip, List.isEmpty_iff.mp houter, Option.some.inj h⟩
      · rintro ⟨r', rest, hreads, hrest, houter, rfl⟩
        cases hreads with
        | done => simp [houter]
        | step hstep _ => simp [step?_of_nil hskip] at hstep
    | cons c ds =>
      dsimp only
      cases htake : r.take? c ds with
      | none =>
        constructor
        · intro h
          cases h
        · rintro ⟨r', rest, hreads, hrest, -, -⟩
          cases hreads with
          | done => simp [hskip] at hrest
          | step hstep _ => simp [step?_of_cons hskip, htake] at hstep
      | some x =>
        have hstep : r.step? cs = some x := by rw [step?_of_cons hskip, htake]
        have hlength := (take?_suffix htake).length_le
        have hds := (skip_suffix r.group.flags cs).length_le
        rw [hskip, List.length_cons] at hds
        have hnext := @ih x.1 x.2 (by omega)
        refine hnext.trans (exists_congr fun r' => exists_congr fun rest => ?_)
        refine and_congr_left fun hrest => ⟨.step hstep, fun hreads => ?_⟩
        cases hreads with
        | done => simp [hskip] at hrest
        | step hstep' hreads =>
          obtain rfl := Option.some.inj (hstep.symm.trans hstep')
          exact hreads

/-- What is read of a text with a parenthesis behind it, up to that parenthesis, is read of the text
itself. -/
theorem Reads.shorten {t : List Char} (h : Reads r (cs ++ ')' :: t) r₁ rest₁)
    (hrest : r₁.group.flags.skip rest₁ = ')' :: t) :
    ∃ rest, Reads r cs r₁ rest ∧ r₁.group.flags.skip rest = [] := by
  have hlong {r₂ : Reader} {rest₂ : List Char} (h : Reads r₂ rest₂ r₁ rest₁) :
      t.length < rest₂.length := by
    have hlength := ((skip_suffix r₁.group.flags rest₁).trans h.suffix).length_le
    rw [hrest, List.length_cons] at hlength
    exact hlength
  generalize htext : cs ++ ')' :: t = text at h
  induction h generalizing cs with
  | done r text =>
    subst htext
    refine ⟨cs, .done r cs, ?_⟩
    rcases skip_behind r.group.flags cs with hbehind | ⟨hnil, -⟩
    · rw [hbehind] at hrest
      simpa using hrest
    · exact hnil
  | @step r r₂ r₁ text rest₂ rest₁ hstep hreads ih =>
    subst htext
    by_cases hedge : ∃ ds, r.OpensEdge cs ds
    · -- the brace that follows cannot start a repetition
      obtain ⟨ds, hds⟩ := hedge
      rcases step?_opensEdge_behind hds hstep with hpassed | ⟨hbrace, hflags⟩
      · have hlength := hlong hreads
        dsimp only at hpassed
        omega
      · dsimp only at hbrace hflags
        subst hbrace
        cases hreads with
        | done =>
          rw [skip_brace] at hrest
          simp at hrest
        | step hstep' hreads =>
          have hpassed := step?_brace_behind (hflags ▸ hds.2) hstep'
          have hlength := hlong hreads
          dsimp only at hpassed
          omega
    · rcases isLocal_step? fun ds hds => hedge ⟨ds, hds⟩ with hlocal | hlocal
      · have hbehind : r.step? (cs ++ ')' :: t) =
            (r.step? cs).map fun x => HasRest.append x (')' :: t) := hlocal t
        rw [hbehind] at hstep
        obtain ⟨⟨r₂', middle⟩, hmiddle, heq⟩ := Option.map_eq_some_iff.mp hstep
        obtain ⟨rfl, rfl⟩ := Prod.mk.inj heq
        obtain ⟨rest, hrests, hnil⟩ := ih hrest hlong rfl
        exact ⟨rest, .step hmiddle hrests, hnil⟩
      · have hpassed : rest₂.length ≤ t.length + 0 := hlocal.passes hstep
        have hlength := hlong hreads
        omega

/-- What is read of a text to its end is read of it with a parenthesis behind it, up to that
parenthesis or, when the text ends in a comment, to the end of the line. -/
theorem Reads.extend (h : Reads r cs r₁ rest₁) (hrest : r₁.group.flags.skip rest₁ = []) :
    (∀ t, ∃ rest, Reads r (cs ++ ')' :: t) r₁ rest ∧ r₁.group.flags.skip rest = ')' :: t) ∨
      ∀ t, '\n' ∉ t →
        ∃ rest, Reads r (cs ++ ')' :: t) r₁ rest ∧ r₁.group.flags.skip rest = [] := by
  induction h with
  | done r cs =>
    rcases skip_behind r.group.flags cs with hbehind | ⟨-, hbehind⟩
    · exact .inl fun t => ⟨_, .done r _, by rw [hbehind, hrest]; rfl⟩
    · exact .inr fun t ht => ⟨_, .done r _, by rw [hbehind, skipFrom_comment ht]⟩
  | @step r r₂ r₁ cs rest₂ rest₁ hstep hreads ih =>
    have hedge (ds : List Char) (hds : r.OpensEdge cs ds) : False := by
      simp [step?_opensEdge hds] at hstep
    rcases isLocal_step? hedge with hlocal | hlocal
    · have hbehind (t : List Char) : r.step? (cs ++ ')' :: t) = some (r₂, rest₂ ++ ')' :: t) := by
        have hmap : r.step? (cs ++ ')' :: t) =
            (r.step? cs).map fun x => HasRest.append x (')' :: t) := hlocal t
        rw [hmap, hstep]
        rfl
      refine (ih hrest).imp (fun h t => ?_) fun h t ht => ?_
      · obtain ⟨rest, hreads, hskip⟩ := h t
        exact ⟨rest, .step (hbehind t) hreads, hskip⟩
      · obtain ⟨rest, hreads, hskip⟩ := h t ht
        exact ⟨rest, .step (hbehind t) hreads, hskip⟩
    · obtain ⟨hnil, hline⟩ := hlocal.swallows hstep
      dsimp only [rest_pair, rest_list] at hnil
      subst hnil
      refine .inr fun t ht => ⟨rest₁, .step (hline t ht) hreads, hrest⟩

end FeaturePlan.Pattern.Reader
