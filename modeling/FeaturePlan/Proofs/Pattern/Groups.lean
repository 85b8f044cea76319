import FeaturePlan.Proofs.Pattern.Compose
import FeaturePlan.Proofs.Pattern.Reading

/-! # Groups while they are read

A step changes the innermost group, opens one inside it, or closes it. No step depends on a group
further out, but for the parenthesis that goes back to it. -/

namespace FeaturePlan.Pattern

namespace Group

variable {g : Group}

/-- Whatever has been read repeats its parts with bounds in order. -/
structure IsOrdered (g : Group) : Prop where
  alternatives : ∀ p ∈ g.alternatives, p.pattern.IsOrdered
  parts : ∀ p, some p ∈ g.parts → p.pattern.IsOrdered

theorem isOrdered_start (number : Option Nat) (f : Flags) : (start number f).IsOrdered :=
  ⟨by simp [start], by simp [start]⟩

theorem IsOrdered.add (h : g.IsOrdered) {p : Part} (hp : p.pattern.IsOrdered) :
    (g.add p).IsOrdered where
  alternatives := h.alternatives
  parts q hq := by
    rcases List.mem_cons.mp hq with hq | hq
    · exact Option.some.inj hq ▸ hp
    · exact h.parts q hq

theorem IsOrdered.sequence (h : g.IsOrdered) : g.sequence.pattern.IsOrdered := by
  refine isOrdered_concat fun p hp => ?_
  obtain ⟨part, hpart, hmap⟩ := List.mem_filterMap.mp hp
  obtain ⟨q, rfl, rfl⟩ := Option.map_eq_some_iff.mp hmap
  exact h.parts q (List.mem_reverse.mp hpart)

theorem IsOrdered.divide (h : g.IsOrdered) : g.divide.IsOrdered where
  alternatives p hp := by
    rcases List.mem_cons.mp hp with rfl | hp
    · exact h.sequence
    · exact h.alternatives p hp
  parts p hp := by cases hp

theorem IsOrdered.repeat? (h : g.IsOrdered) {least : Nat} {most : Option Nat} {g' : Group}
    (hbounds : ∀ m ∈ most, least ≤ m) (hrepeat : g.repeat? least most = some g') :
    g'.IsOrdered := by
  unfold Group.repeat? at hrepeat
  split at hrepeat
  next p parts hparts =>
    have hlast := h.parts p (hparts ▸ List.mem_cons_self)
    obtain rfl := Option.some.inj hrepeat
    refine ⟨h.alternatives, fun q hq => ?_⟩
    rcases List.mem_cons.mp hq with hq | hq
    · exact Option.some.inj hq ▸ hlast.times hbounds
    · exact h.parts q (hparts ▸ List.mem_cons_of_mem _ hq)
  next => cases hrepeat

theorem IsOrdered.whole (h : g.IsOrdered) : g.whole.pattern.IsOrdered := by
  unfold Group.whole
  split
  · exact h.sequence
  · refine isOrdered_choice fun p hp => ?_
    obtain ⟨q, hq, rfl⟩ := List.mem_map.mp hp
    rcases List.mem_cons.mp (List.mem_reverse.mp hq) with rfl | hq
    · exact h.sequence
    · exact h.alternatives q hq

theorem IsOrdered.part (h : g.IsOrdered) : g.part.pattern.IsOrdered := by
  unfold Group.part
  dsimp only
  split
  · exact h.whole
  · exact h.whole

theorem part_of_unnumbered (h : g.number = none) :
    g.part = ⟨g.whole.pattern, g.whole.depth + 1⟩ := by
  simp [part, h]

theorem repeat?_number {least : Nat} {most : Option Nat} {g' : Group}
    (h : g.repeat? least most = some g') : g'.number = g.number := by
  unfold Group.repeat? at h
  split at h
  · exact Option.some.inj h ▸ rfl
  · cases h

end Group

namespace Reader

variable {r r' r₁ : Reader} {cs rest₁ : List Char} {g : Group}

/-! ## What a step can do -/

/-- A step opens a group, sets flags for the rest of the innermost one, closes it, or goes on with
it. -/
inductive Moves (r : Reader) : Reader → Prop where
  | opens (number : Option Nat) (f : Flags) (numbered : Nat) (names : List (List Char)) :
      Moves r ⟨.start number f, r.group :: r.outer, numbered, names⟩
  | flags (f : Flags) :
      Moves r { r with group := { r.group with flags := f, parts := none :: r.group.parts } }
  | closes {g : Group} {outer : List Group} : r.outer = g :: outer →
      Moves r { r with group := g.add r.group.part, outer }
  | divides : Moves r { r with group := r.group.divide }
  | adds {p : Part} : p.pattern.IsOrdered → Moves r { r with group := r.group.add p }
  | repeats {least : Nat} {most : Option Nat} {g : Group} : (∀ m ∈ most, least ≤ m) →
      r.group.repeat? least most = some g → Moves r { r with group := g }

theorem enterNamed?_moves {x : Reader × List Char} (h : r.enterNamed? cs = some x) :
    r.Moves x.1 := by
  obtain ⟨name, -, h⟩ := Option.bind_eq_some_iff.mp h
  dsimp only at h
  split_ifs at h
  exact Option.some.inj h ▸ .opens _ _ _ _

theorem openFlags?_moves {x : Reader × List Char} (h : r.openFlags? cs = some x) : r.Moves x.1 := by
  unfold openFlags? at h
  split at h
  · cases h
  · exact Option.some.inj h ▸ .opens _ _ _ _
  · split_ifs at h
    exact Option.some.inj h ▸ .flags _

theorem open?_moves {x : Reader × List Char} (h : r.open? cs = some x) : r.Moves x.1 := by
  unfold open? at h
  split at h
  · unfold openMarked? at h
    split at h
    · cases h
    · cases h
    · unfold openNamed? at h
      split at h
      · cases h
      · cases h
      · exact enterNamed?_moves h
    · exact enterNamed?_moves h
    · exact openFlags?_moves h
  · exact Option.some.inj h ▸ .opens _ _ _ _

theorem repeat?_moves {least : Nat} {most : Option Nat} (hbounds : ∀ m ∈ most, least ≤ m)
    (h : r.repeat? least most = some r') : r.Moves r' := by
  obtain ⟨g, hg, rfl⟩ := Option.map_eq_some_iff.mp h
  exact .repeats hbounds hg

theorem closeBounds?_ordered {least : Nat} {most : Option Nat} {x : Nat × Option Nat × List Char}
    (h : closeBounds? least most cs = some x) : ∀ m ∈ x.2.1, x.1 ≤ m := by
  unfold closeBounds? at h
  split at h
  · split_ifs at h with hbounds
    exact Option.some.inj h ▸ hbounds
  · cases h

theorem bounds?_ordered {f : Flags} {x : Nat × Option Nat × List Char}
    (h : bounds? f cs = some x) : ∀ m ∈ x.2.1, x.1 ≤ m := by
  obtain ⟨least, -, h⟩ := Option.bind_eq_some_iff.mp h
  dsimp only at h
  split at h
  · unfold upperBound? at h
    split at h
    · exact Option.some.inj h ▸ by simp
    · obtain ⟨most, -, h⟩ := Option.bind_eq_some_iff.mp h
      exact closeBounds?_ordered h
  · exact closeBounds?_ordered h

theorem isOrdered_atom (f : Flags) (a : Atom) : (a.pattern f).IsOrdered := by
  unfold Atom.pattern
  split
  · split_ifs
    · exact isOrdered_ofSet _
    · trivial
  · exact isOrdered_ofSet _
  · trivial

theorem take?_moves {c : Char} {x : Reader × List Char} (h : r.take? c cs = some x) :
    r.Moves x.1 := by
  unfold take? at h
  dsimp only at h
  split at h
  case h_1 => exact open?_moves h
  case h_2 =>
    obtain ⟨r', hclose, rfl⟩ := Option.map_eq_some_iff.mp h
    unfold close? at hclose
    split at hclose
    · cases hclose
    · exact Option.some.inj hclose ▸ .closes ‹_›
  case h_3 => exact Option.some.inj h ▸ .divides
  case h_4 =>
    obtain ⟨y, -, rfl⟩ := Option.map_eq_some_iff.mp h
    exact .adds (isOrdered_ofSet _)
  case h_5 | h_6 | h_7 =>
    obtain ⟨r', hrepeat, rfl⟩ := Option.map_eq_some_iff.mp h
    exact repeat?_moves (by simp) hrepeat
  case h_8 =>
    obtain ⟨bounds, hbounds, h⟩ := Option.bind_eq_some_iff.mp h
    obtain ⟨r', hrepeat, rfl⟩ := Option.map_eq_some_iff.mp h
    exact repeat?_moves (bounds?_ordered hbounds) hrepeat
  case h_9 => exact Option.some.inj h ▸ .adds (isOrdered_ofSet _)
  case h_10 | h_11 => exact Option.some.inj h ▸ .adds trivial
  case h_12 =>
    obtain ⟨y, -, rfl⟩ := Option.map_eq_some_iff.mp h
    exact .adds (isOrdered_atom _ _)
  case h_13 => exact Option.some.inj h ▸ .adds (isOrdered_atom r.group.flags (.literal c))

theorem step?_moves {x : Reader × List Char} (h : r.step? cs = some x) : r.Moves x.1 := by
  unfold step? at h
  split at h
  · cases h
  · exact take?_moves h

/-! ## What steps keep -/

/-- Whatever has been read, in any of the groups, repeats its parts with bounds in order. -/
def IsOrdered (r : Reader) : Prop :=
  ∀ g ∈ r.group :: r.outer, g.IsOrdered

theorem Moves.isOrdered (h : r.Moves r') (hr : r.IsOrdered) : r'.IsOrdered := by
  have ⟨hgroup, houter⟩ := List.forall_mem_cons.mp hr
  cases h with
  | opens => exact List.forall_mem_cons.mpr ⟨Group.isOrdered_start _ _, hr⟩
  | flags =>
    refine List.forall_mem_cons.mpr ⟨⟨hgroup.alternatives, fun p hp => ?_⟩, houter⟩
    exact hgroup.parts p (by simpa using hp)
  | closes hcons =>
    obtain ⟨hg, houter⟩ := List.forall_mem_cons.mp (hcons ▸ houter)
    exact List.forall_mem_cons.mpr ⟨hg.add hgroup.part, houter⟩
  | divides => exact List.forall_mem_cons.mpr ⟨hgroup.divide, houter⟩
  | adds hp => exact List.forall_mem_cons.mpr ⟨hgroup.add hp, houter⟩
  | repeats hbounds hrepeat =>
    exact List.forall_mem_cons.mpr ⟨hgroup.repeat? hbounds hrepeat, houter⟩

/-- The numbers of the groups from the innermost to the outermost. -/
def numbers (r : Reader) : List (Option Nat) :=
  (r.group :: r.outer).map Group.number

theorem Moves.getLast?_numbers (h : r.Moves r') : r'.numbers.getLast? = r.numbers.getLast? := by
  cases h with
  | opens => exact List.getLast?_cons_cons
  | closes hcons =>
    simp only [numbers, hcons, List.map_cons]
    exact List.getLast?_cons_cons.symm
  | repeats _ hrepeat => simp [numbers, Group.repeat?_number hrepeat]
  | _ => rfl

theorem Reads.isOrdered (h : Reads r cs r₁ rest₁) (hr : r.IsOrdered) : r₁.IsOrdered := by
  induction h with
  | done => exact hr
  | step hstep _ ih => exact ih ((step?_moves hstep).isOrdered hr)

theorem Reads.getLast?_numbers (h : Reads r cs r₁ rest₁) :
    r₁.numbers.getLast? = r.numbers.getLast? := by
  induction h with
  | done => rfl
  | step hstep _ ih => exact ih.trans (step?_moves hstep).getLast?_numbers

/-! ## Reading inside a group -/

def under (r : Reader) (g : Group) : Reader :=
  { r with outer := r.outer ++ [g] }

@[simp] theorem under_group (r : Reader) (g : Group) : (r.under g).group = r.group := rfl

@[simp] theorem under_outer (r : Reader) (g : Group) : (r.under g).outer = r.outer ++ [g] := rfl

theorem enterNamed?_under (r : Reader) (g : Group) (cs : List Char) :
    (r.under g).enterNamed? cs = (r.enterNamed? cs).map fun x => (x.1.under g, x.2) := by
  unfold enterNamed?
  cases groupName? cs with
  | none => rfl
  | some name =>
    change (if name.1 ∈ r.names then none else _) =
      Option.map _ (if name.1 ∈ r.names then none else _)
    split_ifs
    · rfl
    · rfl

theorem openFlags?_under (r : Reader) (g : Group) (cs : List Char) :
    (r.under g).openFlags? cs = (r.openFlags? cs).map fun x => (x.1.under g, x.2) := by
  unfold openFlags?
  rw [under_group]
  split
  · rfl
  · rfl
  · split_ifs
    · rfl
    · rfl

theorem open?_under (r : Reader) (g : Group) (cs : List Char) :
    (r.under g).open? cs = (r.open? cs).map fun x => (x.1.under g, x.2) := by
  unfold open?
  rw [under_group]
  split
  · unfold openMarked?
    split
    · rfl
    · rfl
    · unfold openNamed?
      split
      · rfl
      · rfl
      · exact r.enterNamed?_under g _
    · exact r.enterNamed?_under g _
    · exact r.openFlags?_under g _
  · rfl

theorem close?_under (h : r.outer ≠ []) (g : Group) :
    (r.under g).close? = r.close?.map (under · g) := by
  obtain ⟨inner, outer, hcons⟩ := List.exists_cons_of_ne_nil h
  simp [close?, hcons, under]

theorem repeat?_under (r : Reader) (g : Group) (least : Nat) (most : Option Nat) :
    (r.under g).repeat? least most = (r.repeat? least most).map (under · g) := by
  unfold repeat?
  rw [under_group, Option.map_map]
  rfl

/-- A step is the same inside one more group, unless it closes that group. -/
theorem take?_under {c : Char} (h : c = ')' → r.outer ≠ []) (g : Group) (cs : List Char) :
    (r.under g).take? c cs = (r.take? c cs).map fun x => (x.1.under g, x.2) := by
  unfold take?
  simp only [under_group]
  split
  case h_1 => exact r.open?_under g cs
  case h_2 =>
    rw [close?_under (h rfl), Option.map_map, Option.map_map]
    rfl
  case h_4 | h_12 =>
    rw [Option.map_map]
    rfl
  case h_5 | h_6 | h_7 =>
    rw [repeat?_under, Option.map_map, Option.map_map]
    rfl
  case h_8 =>
    cases bounds? r.group.flags cs with
    | none => rfl
    | some bounds =>
      simp only [Option.bind_eq_bind, Option.bind_some, repeat?_under, Option.map_map]
      rfl
  all_goals rfl

/-- The text goes on with a parenthesis that closes no group. -/
def AtEnd (r : Reader) (cs ds : List Char) : Prop :=
  r.outer = [] ∧ r.group.flags.skip cs = ')' :: ds

theorem step?_atEnd {ds : List Char} (h : r.AtEnd cs ds) : r.step? cs = none := by
  rw [step?_of_cons h.2]
  simp [take?, close?, h.1]

theorem step?_under_atEnd {ds : List Char} (h : r.AtEnd cs ds) (g : Group) :
    (r.under g).step? cs = some ({ r with group := g.add r.group.part, outer := [] }, ds) := by
  rw [step?_of_cons (r := r.under g) h.2]
  simp [take?, close?, under, h.1]

theorem step?_under (h : ∀ ds, ¬r.AtEnd cs ds) (g : Group) :
    (r.under g).step? cs = (r.step? cs).map fun x => (x.1.under g, x.2) := by
  cases hskip : r.group.flags.skip cs with
  | nil => rw [step?_of_nil hskip, step?_of_nil (r := r.under g) hskip, Option.map_none]
  | cons c ds =>
    rw [step?_of_cons hskip, step?_of_cons (r := r.under g) hskip]
    refine take?_under ?_ g ds
    rintro rfl hnil
    exact h ds ⟨hnil, hskip⟩

theorem Reads.under (h : Reads r cs r₁ rest₁) (g : Group) :
    Reads (r.under g) cs (r₁.under g) rest₁ := by
  induction h with
  | done => exact .done _ _
  | step hstep _ ih =>
    refine .step ?_ ih
    rw [step?_under, hstep, Option.map_some]
    intro ds hend
    simp [step?_atEnd hend] at hstep

/-- What is read inside a group that has been closed in the end was read outside of it up to the
parenthesis that closed it. -/
theorem Reads.of_under {rest : List Char} (h : Reads (r.under g) cs r' rest)
    (houter : r'.outer = []) :
    ∃ r₁ rest₁ ds, Reads r cs r₁ rest₁ ∧ r₁.AtEnd rest₁ ds ∧
      Reads { r₁ with group := g.add r₁.group.part, outer := [] } ds r' rest := by
  generalize hinside : r.under g = inside at h
  induction h generalizing r with
  | done =>
    subst hinside
    simp at houter
  | @step _ r₂ r' cs rest₂ rest hstep hreads ih =>
    subst hinside
    by_cases hend : ∃ ds, r.AtEnd cs ds
    · obtain ⟨ds, hds⟩ := hend
      rw [step?_under_atEnd hds] at hstep
      obtain ⟨rfl, rfl⟩ := Prod.mk.inj (Option.some.inj hstep)
      exact ⟨r, cs, ds, .done r cs, hds, hreads⟩
    · rw [step?_under fun ds hds => hend ⟨ds, hds⟩] at hstep
      obtain ⟨⟨r₂', middle⟩, hmiddle, heq⟩ := Option.map_eq_some_iff.mp hstep
      obtain ⟨rfl, rfl⟩ := Prod.mk.inj heq
      obtain ⟨r₁, rest₁, ds, hreads, hds, hclosed⟩ := ih houter rfl
      exact ⟨r₁, rest₁, ds, .step hmiddle hreads, hds, hclosed⟩

end Reader

end FeaturePlan.Pattern
