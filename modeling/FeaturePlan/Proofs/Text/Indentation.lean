import FeaturePlan.Proofs.Text.Blank

/-! # Indented texts

Spaces in front of every line of a text stand in front of what is read as its lines. They do not
show once the lines are trimmed. -/

namespace FeaturePlan.Text

variable (k : Nat)

def spaces : List Char :=
  List.replicate k ' '

/-- Puts spaces in front of every line that starts in the text; `first` tells whether one starts
with the text itself. -/
def indentFrom : Bool → List Char → List Char
  | _, [] => []
  | first, c :: cs => (if first then spaces k else []) ++ c :: indentFrom (c == '\n') cs

/-- The text with `k` spaces in front of each of its lines, which end as they did. -/
def indented (text : String) : String :=
  .ofList (indentFrom k true text.toList)

/-! ## Trimming -/

theorem isBlank_of_mem_spaces {c : Char} (h : c ∈ spaces k) : isBlank c := by
  rw [List.eq_of_mem_replicate h]
  decide

@[simp] theorem length_spaces : (spaces k).length = k :=
  List.length_replicate

theorem takeWhile_spaces_append (cs : List Char) :
    (spaces k ++ cs).takeWhile isBlank = spaces k ++ cs.takeWhile isBlank :=
  List.takeWhile_append_of_pos fun _ => isBlank_of_mem_spaces k

@[simp] theorem trimStart_spaces_append (cs : List Char) :
    trimStart (spaces k ++ cs) = trimStart cs :=
  List.dropWhile_append_of_pos fun _ => isBlank_of_mem_spaces k

@[simp] theorem trim_spaces_append (cs : List Char) : trim (spaces k ++ cs) = trim cs := by
  rw [trim, trimStart_spaces_append, trim]

/-! ## Lines -/

theorem lines_ne_nil {cs : List Char} (h : cs ≠ []) : lines cs ≠ [] := by
  fun_cases lines cs <;> simp_all

theorem lines_eq_nil_iff {cs : List Char} : lines cs = [] ↔ cs = [] :=
  ⟨fun h => by_contra fun hne => lines_ne_nil hne h, fun h => h ▸ rfl⟩

/-- A character that ends no line starts the first line of the text. -/
theorem lines_cons_of_ne_feed {c : Char} {cs : List Char} (hfeed : c ≠ '\n')
    (hreturn : ∀ ds, c = '\r' → cs ≠ '\n' :: ds) :
    lines (c :: cs) = (c :: (lines cs).headD []) :: (lines cs).tail := by
  rw [lines.eq_4 _ _ hfeed hreturn]
  cases lines cs <;> rfl

theorem lines_spaces_append {cs line : List Char} {rest : List (List Char)}
    (h : lines cs = line :: rest) : lines (spaces k ++ cs) = (spaces k ++ line) :: rest := by
  induction k with
  | zero => exact h
  | succ k ih =>
    have hsucc (ds : List Char) : spaces (k + 1) ++ ds = ' ' :: (spaces k ++ ds) := rfl
    rw [hsucc, hsucc, lines_cons_of_ne_feed (by decide) (by simp), ih]
    rfl

theorem indentFrom_false_cons (c : Char) (cs : List Char) :
    indentFrom k false (c :: cs) = c :: indentFrom k (c == '\n') cs :=
  rfl

/-- Spaces in front of a line that starts in the text are put in front of what is read as it. -/
theorem lines_indentFrom_cons (first : Bool) {c : Char} {cs line : List Char}
    {rest : List (List Char)} (h : lines (indentFrom k false (c :: cs)) = line :: rest) :
    lines (indentFrom k first (c :: cs)) = ((if first then spaces k else []) ++ line) :: rest := by
  cases first with
  | false => exact h
  | true => exact lines_spaces_append k h

/-- Every line of an indented text is a line of the text with spaces in front. -/
theorem lines_indentFrom (first : Bool) (cs : List Char) :
    lines (indentFrom k first cs) =
      match lines cs with
      | [] => []
      | line :: rest =>
        ((if first then spaces k else []) ++ line) :: rest.map (spaces k ++ ·) := by
  have hall {cs : List Char} (ih : ∀ first, lines (indentFrom k first cs) = match lines cs with
      | [] => []
      | line :: rest => ((if first then spaces k else []) ++ line) :: rest.map (spaces k ++ ·)) :
      lines (indentFrom k true cs) = (lines cs).map (spaces k ++ ·) := by
    rw [ih true]
    cases lines cs <;> rfl
  fun_induction lines cs generalizing first with
  | case1 => rfl
  | case2 cs ih =>
    refine lines_indentFrom_cons k first ?_
    rw [indentFrom_false_cons, lines, show ('\n' == '\n') = true from rfl, hall ih]
  | case3 cs ih =>
    refine lines_indentFrom_cons k first ?_
    rw [indentFrom_false_cons, show ('\r' == '\n') = false from rfl, indentFrom_false_cons, lines,
      show ('\n' == '\n') = true from rfl, hall ih]
  | case4 c cs hfeed hreturn hnil ih =>
    obtain rfl := lines_eq_nil_iff.mp hnil
    have hc : (c == '\n') = false := beq_eq_false_iff_ne.mpr hfeed
    refine lines_indentFrom_cons k first ?_
    rw [indentFrom_false_cons, hc, indentFrom, lines_cons_of_ne_feed hfeed hreturn]
    rfl
  | case5 c cs hfeed hreturn line rest hcons ih =>
    have hc : (c == '\n') = false := beq_eq_false_iff_ne.mpr hfeed
    have hkept : ∀ ds, c = '\r' → indentFrom k false cs ≠ '\n' :: ds := by
      intro ds hr he
      cases cs with
      | nil => cases he
      | cons d cs => exact hreturn cs hr (by rw [(List.cons.inj he).1])
    refine lines_indentFrom_cons k first ?_
    rw [indentFrom_false_cons, hc, lines_cons_of_ne_feed hfeed hkept, ih, hcons]
    rfl

theorem lines_indented (text : String) :
    lines (indented k text).toList = (lines text.toList).map (spaces k ++ ·) := by
  rw [indented, String.toList_ofList, lines_indentFrom]
  cases lines text.toList <;> simp

/-- Empty lines get spaces as well; the end of the text starts no line. -/
example : indented 2 "a\r\n\n b\n" = "  a\r\n  \n   b\n" := by decide

/-- A line feed ends a line whatever follows it. -/
theorem lines_append_feed (cs rest : List Char) :
    lines (cs ++ '\n' :: rest) = lines (cs ++ ['\n']) ++ lines rest := by
  have hcons {c : Char} {cs : List Char} (hfeed : c ≠ '\n')
      (hreturn : ∀ ds, c = '\r' → cs ≠ '\n' :: ds)
      (ih : lines (cs ++ '\n' :: rest) = lines (cs ++ ['\n']) ++ lines rest) :
      lines (c :: (cs ++ '\n' :: rest)) = lines (c :: (cs ++ ['\n'])) ++ lines rest := by
    cases cs with
    | nil =>
      by_cases hr : c = '\r'
      · subst hr
        simp [lines]
      · simp [lines_cons_of_ne_feed hfeed fun _ h => absurd h hr, lines]
    | cons d ds =>
      have hkept (more : List Char) : ∀ es, c = '\r' → d :: ds ++ more ≠ '\n' :: es :=
        fun es hr he => hreturn ds hr (by rw [(List.cons.inj he).1])
      have hne : d :: ds ++ ['\n'] ≠ [] := by simp
      obtain ⟨line, more, hlines⟩ := List.exists_cons_of_ne_nil (lines_ne_nil hne)
      rw [lines_cons_of_ne_feed hfeed (hkept _), lines_cons_of_ne_feed hfeed (hkept _), ih, hlines]
      rfl
  fun_induction lines cs with
  | case1 => rfl
  | case2 cs ih => simp [lines, ih]
  | case3 cs ih => simp [lines, ih]
  | case4 c cs hfeed hreturn _ ih => exact hcons hfeed hreturn ih
  | case5 c cs hfeed hreturn _ _ _ ih => exact hcons hfeed hreturn ih

theorem map_trim_lines_spaces_append {cs : List Char} (h : cs ≠ []) :
    (lines (spaces k ++ cs)).map trim = (lines cs).map trim := by
  obtain ⟨line, rest, hlines⟩ := List.exists_cons_of_ne_nil (lines_ne_nil h)
  simp [hlines, lines_spaces_append k hlines]

/-- Spaces in front of lines that are put together do not show in the trimmed lines of the whole, as
long as they do not stand alone at the end. -/
theorem map_trim_lines_intercalate {ls : List (List Char)} (h : ∀ line ∈ ls.getLast?, line ≠ []) :
    (lines (['\n'].intercalate (ls.map (spaces k ++ ·)))).map trim =
      (lines (['\n'].intercalate ls)).map trim := by
  induction ls with
  | nil => rfl
  | cons line ls ih =>
    cases ls with
    | nil => simpa using map_trim_lines_spaces_append k (h line rfl)
    | cons next ls =>
      have hrest := ih (by simpa using h)
      have hne : line ++ ['\n'] ≠ [] := by simp
      have hfirst := map_trim_lines_spaces_append k hne
      have hsplit (cs rest : List Char) :
          lines (cs ++ ['\n'] ++ rest) = lines (cs ++ ['\n']) ++ lines rest := by
        rw [← lines_append_feed, List.append_assoc, List.singleton_append]
      simp only [List.map_cons] at hrest ⊢
      rw [List.intercalate_cons_cons, List.intercalate_cons_cons, hsplit, hsplit, List.map_append,
        List.map_append, hrest, List.append_assoc, hfirst]

end FeaturePlan.Text
