import FeaturePlan.Text.Lines
import Mathlib.Data.List.Forall2

/-! # Lines that are written and read back

A line that is written with a line feed behind it is read back as it was, as long as nothing in it
ends a line. -/

namespace FeaturePlan.Text

structure IsLine (cs : List Char) : Prop where
  noFeed : '\n' ∉ cs
  noReturn : cs.getLast? ≠ some '\r'

instance (cs : List Char) : Decidable (IsLine cs) :=
  decidable_of_iff ('\n' ∉ cs ∧ cs.getLast? ≠ some '\r')
    ⟨fun h => ⟨h.1, h.2⟩, fun h => ⟨h.noFeed, h.noReturn⟩⟩

theorem IsLine.nil : IsLine [] :=
  ⟨by simp, by simp⟩

theorem IsLine.tail {c : Char} {cs : List Char} (h : IsLine (c :: cs)) : IsLine cs := by
  constructor
  · exact fun hm => h.noFeed (List.mem_cons_of_mem c hm)
  · intro hl
    apply h.noReturn
    cases cs with
    | nil => simp at hl
    | cons d ds => simpa using hl

theorem IsLine.append {cs ds : List Char} (h : IsLine cs) (h' : IsLine ds) : IsLine (cs ++ ds) := by
  constructor
  · simpa using ⟨h.noFeed, h'.noFeed⟩
  · intro hl
    rw [List.getLast?_append] at hl
    cases hd : ds.getLast? with
    | none =>
        rw [hd] at hl
        exact h.noReturn hl
    | some d =>
        rw [hd] at hl
        exact h'.noReturn (hd.trans hl)

theorem lines_cons {line : List Char} (h : IsLine line) (cs : List Char) :
    lines (line ++ '\n' :: cs) = line :: lines cs := by
  induction line with
  | nil => simp [lines]
  | cons c line ih =>
      have hc : c ≠ '\n' := fun hc => h.noFeed (by simp [hc])
      have hr : c = '\r' → line ≠ [] := by
        rintro rfl rfl
        exact h.noReturn rfl
      have hd : ∀ rest, c = '\r' → line ++ '\n' :: cs ≠ '\n' :: rest := by
        intro rest hcr
        cases line with
        | nil => exact absurd rfl (hr hcr)
        | cons d line =>
            have hfeed : d ≠ '\n' := fun hd => h.noFeed (by simp [hd])
            simp [hfeed]
      rw [List.cons_append, lines.eq_4 _ _ hc hd, ih h.tail]

theorem lines_flatMap {ls : List (List Char)} (h : ∀ line ∈ ls, IsLine line) :
    lines (ls.flatMap fun line => line ++ ['\n']) = ls := by
  induction ls with
  | nil => rfl
  | cons line ls ih =>
      have hrest := ih fun l hl => h l (List.mem_cons_of_mem line hl)
      rw [List.flatMap_cons, List.append_assoc, List.singleton_append,
        lines_cons (h line List.mem_cons_self), hrest]

theorem joinLines_splitOn (text : String) :
    joinLines ((text.toList.splitOn '\n').map String.ofList) = text := by
  apply String.toList_inj.mp
  rw [joinLines, String.toList_intercalate, List.map_map]
  have hid : String.toList ∘ String.ofList = id := by
    funext cs
    simp
  rw [hid, List.map_id]
  exact List.intercalate_splitOn '\n'

/-! ## Lines that are put together -/

def IsLineEnd (cs : List Char) : Prop :=
  cs = ['\n'] ∨ cs = ['\r', '\n']

/-- What is read of a line that is written. A carriage return at the end may be taken for part of
the line's end. -/
def IsReadOf (read line : List Char) : Prop :=
  read <+: line ∧ (line.getLast? ≠ some '\r' → read = line)

/-- A carriage return in front of the line feed is no part of the line. -/
theorem lines_append_return {line : List Char} (h : '\n' ∉ line) (cs : List Char) :
    lines (line ++ '\r' :: '\n' :: cs) = line :: lines cs := by
  induction line with
  | nil => simp [lines]
  | cons c line ih =>
    rw [List.mem_cons, not_or] at h
    have hkept : ∀ rest, c = '\r' → line ++ '\r' :: '\n' :: cs ≠ '\n' :: rest := by
      rintro rest - heq
      cases line with
      | nil => simp at heq
      | cons d line =>
        obtain ⟨rfl, -⟩ := List.cons.inj heq
        simp at h
    rw [List.cons_append, lines.eq_4 _ _ (Ne.symm h.1) hkept, ih h.2]

theorem lines_append_end {nl line : List Char} (hnl : IsLineEnd nl) (h : '\n' ∉ line)
    (cs : List Char) :
    ∃ read, IsReadOf read line ∧ lines (line ++ (nl ++ cs)) = read :: lines cs := by
  rcases hnl with rfl | rfl
  · by_cases hreturn : line.getLast? = some '\r'
    · obtain ⟨start, rfl⟩ := List.getLast?_eq_some_iff.mp hreturn
      refine ⟨start, ⟨List.prefix_append _ _, fun hne => absurd hreturn hne⟩, ?_⟩
      rw [List.append_assoc]
      exact lines_append_return (fun hm => h (List.mem_append_left _ hm)) cs
    · exact ⟨line, ⟨List.prefix_refl _, fun _ => rfl⟩, lines_cons ⟨h, hreturn⟩ cs⟩
  · exact ⟨line, ⟨List.prefix_refl _, fun _ => rfl⟩, lines_append_return h cs⟩

theorem lines_of_notMem {line : List Char} (h : '\n' ∉ line) (hne : line ≠ []) :
    lines line = [line] := by
  induction line with
  | nil => exact absurd rfl hne
  | cons c line ih =>
    rw [List.mem_cons, not_or] at h
    have hkept : ∀ rest, c = '\r' → line ≠ '\n' :: rest := by
      rintro rest - rfl
      simp at h
    rw [lines.eq_4 _ _ (Ne.symm h.1) hkept]
    cases line with
    | nil => rfl
    | cons d line => rw [ih h.2 (List.cons_ne_nil d line)]

/-- Lines that are put together, the last of them not an empty one at the end of the text, are read
one by one. -/
theorem lines_intercalate {nl : List Char} (hnl : IsLineEnd nl) {front : List (List Char)}
    (hfeed : ∀ line ∈ front, '\n' ∉ line) (hlast : ∀ line ∈ front.getLast?, line ≠ [])
    (back : List (List Char)) :
    ∃ reads rest, List.Forall₂ IsReadOf reads front ∧
      lines (nl.intercalate (front ++ back)) = reads ++ rest := by
  induction front with
  | nil => exact ⟨[], _, .nil, rfl⟩
  | cons line front ih =>
    obtain ⟨hline, hfeed⟩ := List.forall_mem_cons.mp hfeed
    rcases hmore : front ++ back with _ | ⟨next, more⟩
    · obtain ⟨rfl, rfl⟩ := List.append_eq_nil_iff.mp hmore
      refine ⟨[line], [], .cons ⟨List.prefix_refl _, fun _ => rfl⟩ .nil, ?_⟩
      simpa using lines_of_notMem hline (hlast line rfl)
    · have hlast' : ∀ line ∈ front.getLast?, line ≠ [] := by
        intro last hm
        refine hlast last ?_
        rw [List.getLast?_cons, Option.mem_def.mp hm]
        rfl
      obtain ⟨reads, rest, hreads, hlines⟩ := ih hfeed hlast'
      obtain ⟨read, hread, hfirst⟩ := lines_append_end hnl hline (nl.intercalate (next :: more))
      refine ⟨read :: reads, rest, .cons hread hreads, ?_⟩
      rw [List.cons_append, hmore, List.intercalate_cons_cons, List.append_assoc, hfirst, ← hmore,
        hlines, List.cons_append]

end FeaturePlan.Text
