import FeaturePlan.TagExpr.Grammar
import Mathlib.Data.List.TakeWhile

/-! # Scanning tag expressions

A text is scanned to its end exactly when it spells symbols, and it spells no others than those that
the scan finds. -/

namespace FeaturePlan.TagExpr

/-! ## Words -/

theorem isLetter_iff {c : Char} :
    isLetter c = true ↔ (97 ≤ c.toNat ∧ c.toNat ≤ 122) ∨ (65 ≤ c.toNat ∧ c.toNat ≤ 90) := by
  simp [isLetter, Char.le_def, UInt32.le_iff_toNat_le]

theorem isBlank_of_isLetter {c : Char} (h : isLetter c = true) : Text.isBlank c = false := by
  have hc := isLetter_iff.mp h
  have hranges : ∀ r ∈ Text.blankRanges, r.2 < 65 ∨ 122 < r.1 := by decide
  refine List.any_eq_false.mpr fun r hr => ?_
  have hr := hranges r hr
  simp only [Bool.and_eq_true, decide_eq_true_eq]
  omega

theorem isLetter_of_toLower {c : Char} (h : isLetter c.toLower = true) : isLetter c = true := by
  by_cases hc : c.val ≥ 'A'.val ∧ c.val ≤ 'Z'.val
  · exact isLetter_iff.mpr (.inr (by simpa [UInt32.le_iff_toNat_le] using hc))
  · have hlower : c.toLower = c := dif_neg hc
    rwa [hlower] at h

theorem wordSymbol?_eq_some_iff {word : List Char} {s : Symbol} :
    wordSymbol? word = some s ↔ (word.map Char.toLower, s) ∈
      [(['a', 'n', 'd'], .operator .and), (['o', 'r'], .operator .or),
        (['n', 'o', 't'], .not)] := by
  simp only [wordSymbol?]
  generalize word.map Char.toLower = lower
  split
  · simp [*, eq_comm]
  · split
    · simp [*, eq_comm]
    · split <;> simp [*, eq_comm]

theorem isLetter_of_wordSymbol? {word : List Char} {s : Symbol} (h : wordSymbol? word = some s) :
    word ≠ [] ∧ ∀ c ∈ word, isLetter c = true := by
  have hlower : word.map Char.toLower ≠ [] ∧ ∀ c ∈ word.map Char.toLower, isLetter c = true := by
    have hword := wordSymbol?_eq_some_iff.mp h
    generalize word.map Char.toLower = lower at hword
    simp only [List.mem_cons, Prod.mk.injEq, List.not_mem_nil, or_false] at hword
    obtain ⟨rfl, -⟩ | ⟨rfl, -⟩ | ⟨rfl, -⟩ := hword <;>
      exact ⟨List.cons_ne_nil _ _, List.all_eq_true.mp rfl⟩
  obtain ⟨hne, hletters⟩ := hlower
  exact ⟨by simpa using hne, fun c hc => isLetter_of_toLower (hletters _ (List.mem_map_of_mem hc))⟩

/-! ## Runs of characters -/

/-- A run of characters that cannot be continued is the longest one. -/
theorem takeWhile_run {p : Char → Bool} {run cs : List Char} (hrun : ∀ c ∈ run, p c = true)
    (hcs : ∀ c ∈ cs.head?, p c = false) :
    (run ++ cs).takeWhile p = run ∧ (run ++ cs).dropWhile p = cs := by
  rw [List.takeWhile_append_of_pos hrun, List.dropWhile_append_of_pos hrun]
  cases cs with
  | nil => simp
  | cons c cs => simp [hcs c rfl]

theorem head?_dropWhile_eq_false (p : Char → Bool) (cs : List Char) :
    ∀ c ∈ (cs.dropWhile p).head?, p c = false := by
  intro c hc
  have h := List.head?_dropWhile_not p cs
  rwa [hc] at h

/-! ## Scans -/

/-- The scan has come to the end of its text and found the symbols. -/
def Scan.Finds (s : Scan) (ss : List Symbol) : Prop :=
  (∃ n, s.ending = .ok n) ∧ s.lexemes.map (·.symbol) = ss

theorem Scan.Finds.cons {s : Scan} {ss : List Symbol} (h : s.Finds ss) (l : Lexeme) :
    (s.cons l).Finds (l.symbol :: ss) :=
  ⟨h.1, by simp [Scan.cons, h.2]⟩

theorem scan_tag (offset : Nat) {name cs : List Char} (hname : name ≠ [])
    (htag : ∀ c ∈ name, isTagChar c = true) (hcs : ∀ c ∈ cs.head?, isTagChar c = false) :
    scan offset ('@' :: name ++ cs) =
      (scan (offset + 1 + byteCount name) cs).cons ⟨offset, .tag (.ofList name)⟩ := by
  obtain ⟨htake, hdrop⟩ := takeWhile_run htag hcs
  rw [List.cons_append, scan, if_neg (by decide), if_neg (by decide), if_neg (by decide),
    if_pos rfl]
  simp only [htake, hdrop, if_neg hname]

theorem scan_word (offset : Nat) {word cs : List Char} {s : Symbol}
    (hword : wordSymbol? word = some s) (hcs : ∀ c ∈ cs.head?, isLetter c = false) :
    scan offset (word ++ cs) = (scan (offset + word.length) cs).cons ⟨offset, s⟩ := by
  obtain ⟨hne, hletters⟩ := isLetter_of_wordSymbol? hword
  obtain ⟨c, word, rfl⟩ := List.exists_cons_of_ne_nil hne
  obtain ⟨hc, htail⟩ := List.forall_mem_cons.mp hletters
  obtain ⟨htake, hdrop⟩ := takeWhile_run htail hcs
  have hne (d : Char) (hd : isLetter d = false) : c ≠ d := by
    rintro rfl
    simp [hc] at hd
  rw [List.cons_append, scan, if_neg (by simp [isBlank_of_isLetter hc]),
    if_neg (hne _ (by decide)), if_neg (hne _ (by decide)), if_neg (hne _ (by decide)), if_pos hc]
  simp only [htake, hdrop, hword]

theorem Spelled.finds {ss : List Symbol} {cs : List Char} (h : Spelled ss cs) (offset : Nat) :
    (scan offset cs).Finds ss := by
  induction h generalizing offset with
  | nil =>
    rw [scan]
    exact ⟨⟨offset, rfl⟩, rfl⟩
  | blank hc _ ih =>
    rw [scan, if_pos hc]
    exact ih _
  | opening _ ih =>
    rw [scan, if_neg (by decide), if_pos rfl]
    exact (ih _).cons _
  | closing _ ih =>
    rw [scan, if_neg (by decide), if_neg (by decide), if_pos rfl]
    exact (ih _).cons _
  | tag hname htag hcs _ ih =>
    rw [scan_tag offset hname htag hcs]
    exact (ih _).cons _
  | word hword hcs _ ih =>
    rw [scan_word offset hword hcs]
    exact (ih _).cons _

theorem spelled_scan (offset : Nat) (cs : List Char) (hok : ∃ n, (scan offset cs).ending = .ok n) :
    Spelled ((scan offset cs).lexemes.map (·.symbol)) cs := by
  fun_induction scan offset cs with
  | case1 => exact .nil
  | case2 offset c rest hblank ih => exact .blank hblank (ih hok)
  | case3 offset rest _ ih => exact .opening (ih hok)
  | case4 offset rest _ _ ih => exact .closing (ih hok)
  | case5 => simp at hok
  | case6 offset rest name hname _ _ _ ih =>
    have h := Spelled.tag hname (fun c hc => List.mem_takeWhile_imp hc)
      (head?_dropWhile_eq_false isTagChar rest) (ih hok)
    rwa [List.cons_append, List.takeWhile_append_dropWhile] at h
  | case7 => simp at hok
  | case8 offset c rest _ _ _ _ _ word symbol hsymbol ih =>
    have h := Spelled.word hsymbol (head?_dropWhile_eq_false isLetter rest) (ih hok)
    rwa [List.cons_append, List.takeWhile_append_dropWhile] at h
  | case9 => simp at hok

/-- A text spells symbols exactly when a scan comes to its end, and then it spells no others. -/
theorem spelled_iff (offset : Nat) {ss : List Symbol} {cs : List Char} :
    Spelled ss cs ↔ (scan offset cs).Finds ss := by
  refine ⟨fun h => h.finds offset, ?_⟩
  rintro ⟨hok, rfl⟩
  exact spelled_scan offset cs hok

theorem Spelled.unique {ss ts : List Symbol} {cs : List Char} (hs : Spelled ss cs)
    (ht : Spelled ts cs) : ss = ts :=
  (hs.finds 0).2.symm.trans (ht.finds 0).2

end FeaturePlan.TagExpr
