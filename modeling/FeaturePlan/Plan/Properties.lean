/-! Maps from keys to values, kept in the order of their keys. Two maps with the same values under
the same keys are equal. -/

namespace FeaturePlan

structure Properties where
  entries : List (String × String)
  sorted : entries.Pairwise fun a b => a.1 < b.1
deriving DecidableEq, Repr

namespace Properties

def empty : Properties :=
  ⟨[], .nil⟩

instance : Inhabited Properties :=
  ⟨empty⟩

def get? (p : Properties) (key : String) : Option String :=
  p.entries.lookup key

/-- Puts an entry at its place in a sorted list, instead of the one with its key. -/
def place (key value : String) : List (String × String) → List (String × String)
  | [] => [(key, value)]
  | (k, v) :: rest =>
    if key < k then (key, value) :: (k, v) :: rest
    else if key = k then (key, value) :: rest
    else (k, v) :: place key value rest

theorem mem_place {key value : String} {entries : List (String × String)} {e : String × String}
    (h : e ∈ place key value entries) : e = (key, value) ∨ e ∈ entries := by
  induction entries with
  | nil => simpa [place] using h
  | cons head rest ih =>
    obtain ⟨k, v⟩ := head
    unfold place at h
    split at h
    · simpa using h
    · split at h
      · rcases List.mem_cons.mp h with h | h
        · exact .inl h
        · exact .inr (List.mem_cons_of_mem _ h)
      · rcases List.mem_cons.mp h with h | h
        · exact .inr (h ▸ List.mem_cons_self)
        · exact (ih h).imp_right (List.mem_cons_of_mem _)

theorem sorted_place {key value : String} {entries : List (String × String)}
    (h : entries.Pairwise fun a b => a.1 < b.1) :
    (place key value entries).Pairwise fun a b => a.1 < b.1 := by
  induction entries with
  | nil => simp [place]
  | cons head rest ih =>
    obtain ⟨k, v⟩ := head
    obtain ⟨above, tail⟩ := List.pairwise_cons.mp h
    unfold place
    split
    · next below =>
      refine List.pairwise_cons.mpr ⟨fun e he => ?_, h⟩
      rcases List.mem_cons.mp he with rfl | he
      · exact below
      · exact String.lt_trans below (above e he)
    · split
      · next same => exact List.pairwise_cons.mpr ⟨fun e he => same ▸ above e he, tail⟩
      · next notBelow different =>
        refine List.pairwise_cons.mpr ⟨fun e he => ?_, ih tail⟩
        rcases mem_place he with rfl | he
        · have atMost : k ≤ key := String.not_lt.mp notBelow
          exact Std.lt_of_le_of_ne atMost fun same => different same.symm
        · exact above e he

def insert (p : Properties) (key value : String) : Properties :=
  ⟨place key value p.entries, sorted_place p.sorted⟩

end Properties

end FeaturePlan
