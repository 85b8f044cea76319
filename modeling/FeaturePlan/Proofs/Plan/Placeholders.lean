import FeaturePlan.Plan.Placeholder
import Mathlib.Data.List.Basic
import Mathlib.Data.List.TakeWhile

/-! # Placeholders in their surroundings

Substitution goes from left to right, and a name may hold any character but a closing bracket. So an
opening bracket takes everything up to the next closing one for a name, be it the name of a column
or not. A placeholder is safe as long as no bracket before it is still waiting for its end. -/

namespace FeaturePlan.ExamplesRow

/-! ## Names of placeholders -/

structure IsName (name : List Char) : Prop where
  unclosed : '>' ∉ name
  visible : ∃ c cs, name = c :: cs ∧ Text.isBlank c = false

theorem placeholder?_append {name : List Char} (h : IsName name) (rest : List Char) :
    placeholder? (name ++ '>' :: rest) = some name := by
  obtain ⟨c, cs, rfl, hc⟩ := h.visible
  have hclose := h.unclosed
  rw [List.mem_cons, not_or] at hclose
  have hne : ∀ d ∈ cs, (d != '>') = true := by
    intro d hd
    exact bne_iff_ne.mpr fun he => hclose.2 (he ▸ hd)
  have htake : (cs ++ '>' :: rest).takeWhile (· != '>') = cs := by
    simp [List.takeWhile_append_of_pos hne]
  simp [placeholder?, hc, Ne.symm hclose.1, htake]

theorem of_placeholder? {cs name : List Char} (h : placeholder? cs = some name) :
    IsName name ∧ ∃ rest, cs = name ++ '>' :: rest := by
  cases cs with
  | nil => cases h
  | cons c cs =>
      simp only [placeholder?] at h
      split at h
      · cases h
      · rename_i hn
        push Not at hn
        obtain ⟨hc, hb, hclose⟩ := hn
        obtain rfl := Option.some.inj h
        have hdrop : cs.dropWhile (· != '>') ≠ [] := by
          intro hnil
          have hall := List.dropWhile_eq_nil_iff.mp hnil '>' hclose
          simp at hall
        refine ⟨⟨?_, c, _, rfl, by simpa using hb⟩, (cs.dropWhile (· != '>')).tail, ?_⟩
        · rw [List.mem_cons, not_or]
          refine ⟨Ne.symm hc, fun hm => ?_⟩
          have := List.mem_takeWhile_imp hm
          simp at this
        · have hhead : (cs.dropWhile (· != '>')).head hdrop = '>' := by
            simpa using List.head_dropWhile_not (· != '>') hdrop
          have hsplit := List.takeWhile_append_dropWhile (p := (· != '>')) (l := cs)
          rw [← List.cons_head_tail hdrop, hhead] at hsplit
          rw [List.cons_append, hsplit]

/-! ## One place after the other -/

variable {r : ExamplesRow} {name : List Char}

theorem substituteFrom_skip (skip : Nat) (cs : List Char) :
    r.substituteFrom skip cs = r.substituteFrom 0 (cs.drop skip) := by
  induction skip generalizing cs with
  | zero => rfl
  | succ skip ih =>
      cases cs with
      | nil => simp [substituteFrom]
      | cons c cs => exact ih cs

def replacement (r : ExamplesRow) (name : List Char) : List Char :=
  match r.value? (.ofList name) with
  | some value => value.toList
  | none => '<' :: name ++ ['>']

theorem substituteFrom_name (h : IsName name) (rest : List Char) :
    r.substituteFrom 0 ('<' :: name ++ '>' :: rest) =
      r.replacement name ++ r.substituteFrom 0 rest := by
  have hdrop : (name ++ '>' :: rest).drop (name.length + 1) = rest := by
    rw [← List.drop_drop, List.drop_left]
    rfl
  rw [List.cons_append, substituteFrom, if_pos rfl, placeholder?_append h]
  simp only [substituteFrom_skip (name.length + 1), hdrop]
  rfl

theorem substituteFrom_other {c : Char} {cs : List Char} (h : c = '<' → placeholder? cs = none) :
    r.substituteFrom 0 (c :: cs) = c :: r.substituteFrom 0 cs := by
  by_cases hc : c = '<'
  · simp [substituteFrom, hc, h hc]
  · simp [substituteFrom, hc]

/-- Substitution goes through a text by whole placeholders and by characters that begin none. -/
theorem placeholder_induction {motive : List Char → Prop} (nil : motive [])
    (named : ∀ name rest, IsName name → motive rest → motive ('<' :: name ++ '>' :: rest))
    (other : ∀ c cs, (c = '<' → placeholder? cs = none) → motive cs → motive (c :: cs))
    (text : List Char) : motive text := by
  induction hn : text.length using Nat.strongRecOn generalizing text with
  | ind n ih =>
      cases text with
      | nil => exact nil
      | cons c cs =>
          have hcs : cs.length < n := by simp [← hn]
          by_cases h : c = '<' → placeholder? cs = none
          · exact other c cs h (ih cs.length hcs cs rfl)
          · push Not at h
            obtain ⟨rfl, hname⟩ := h
            obtain ⟨name, hname⟩ := Option.ne_none_iff_exists'.mp hname
            obtain ⟨hIs, rest, rfl⟩ := of_placeholder? hname
            have hrest : rest.length < n := by
              simp only [List.length_append, List.length_cons] at hcs
              omega
            exact named name rest hIs (ih rest.length hrest rest rfl)

/-! ## Values of columns -/

theorem lookup_of_mem {column : String} {header : List String} (h : column ∈ header)
    (values : List String) : lookup column header values = values[header.idxOf column]? := by
  induction header generalizing values with
  | nil => cases h
  | cons first header ih =>
      by_cases hc : first = column
      · subst hc
        rw [lookup, if_pos rfl, List.idxOf_cons_self, List.head?_eq_getElem?]
      · have hm : column ∈ header := (List.mem_cons.mp h).resolve_left (Ne.symm hc)
        rw [lookup, if_neg hc, List.idxOf_cons_ne header hc, ih hm, List.getElem?_tail]

theorem lookup_of_notMem {column : String} {header : List String} (h : column ∉ header)
    (values : List String) : lookup column header values = none := by
  induction header generalizing values with
  | nil => rfl
  | cons first header ih =>
      rw [List.mem_cons, not_or] at h
      rw [lookup, if_neg (Ne.symm h.1), ih h.2]

theorem replacement_of_notMem (h : String.ofList name ∉ r.header) :
    r.replacement name = '<' :: name ++ ['>'] := by
  rw [replacement, value?, lookup_of_notMem h]

/-! ## Brackets that wait for their end -/

/-- Behind an opening bracket: there is no closing one, nor directly a blank. -/
def waits (cs : List Char) : Bool :=
  !cs.contains '>' && !cs.head?.any Text.isBlank

/-- Some opening bracket of the text waits for its end. Whatever comes next in brackets is then part
of the name that it began. -/
def leavesOpen : List Char → Bool
  | [] => false
  | c :: cs => (c == '<' && waits cs) || leavesOpen cs

theorem leavesOpen_append_closing (before after : List Char) :
    leavesOpen (before ++ '>' :: after) = leavesOpen after := by
  induction before with
  | nil => simp [leavesOpen]
  | cons c before ih => simp [leavesOpen, waits, ih]

theorem substituteFrom_of_unclosed {text : List Char} (h : '>' ∉ text) :
    r.substituteFrom 0 text = text := by
  induction text with
  | nil => rfl
  | cons c cs ih =>
      rw [List.mem_cons, not_or] at h
      have hnone : placeholder? cs = none := by
        cases hp : placeholder? cs with
        | none => rfl
        | some name =>
            obtain ⟨-, rest, rfl⟩ := of_placeholder? hp
            simp at h
      rw [substituteFrom_other fun _ => hnone, ih h.2]

/-- A bracket that begins no name and does not wait for its end begins none in a longer text
either. -/
theorem placeholder?_append_eq_none {cs : List Char} (h : placeholder? cs = none)
    (hwaits : waits cs = false) (more : List Char) : placeholder? (cs ++ more) = none := by
  cases cs with
  | nil => cases hwaits
  | cons c cs =>
      by_cases hc : c = '>' ∨ Text.isBlank c
      · rcases hc with hc | hc <;> simp [placeholder?, hc]
      · push Not at hc
        have hclose : '>' ∈ cs := by
          simpa [waits, hc.2, Ne.symm hc.1] using hwaits
        simp [placeholder?, hc.1, hc.2, hclose] at h

/-- A name that began at a waiting bracket holds the next opening bracket. -/
theorem IsName.of_waits (hname : IsName name) {cs : List Char} (h : waits cs) :
    IsName (cs ++ '<' :: name) := by
  simp only [waits, Bool.and_eq_true, Bool.not_eq_true', List.contains_eq_mem,
    decide_eq_false_iff_not] at h
  constructor
  · simp [h.1, hname.unclosed]
  · cases cs with
    | nil => exact ⟨'<', name, rfl, rfl⟩
    | cons c cs => exact ⟨c, cs ++ '<' :: name, rfl, by simpa using h.2⟩

/-- A placeholder is replaced, and the text on either side of it by itself, unless a bracket before
it waits for its end; then the placeholder stays as it is. -/
theorem substituteFrom_placeholder (hheader : ∀ column ∈ r.header, '<' ∉ column.toList)
    (hname : IsName name) (before after : List Char) :
    r.substituteFrom 0 (before ++ '<' :: name ++ '>' :: after) =
      r.substituteFrom 0 before ++
        (if leavesOpen before then '<' :: name ++ ['>'] else r.replacement name) ++
        r.substituteFrom 0 after := by
  induction before using placeholder_induction with
  | nil => exact substituteFrom_name hname after
  | named other rest hother ih =>
      have hopen : leavesOpen ('<' :: other ++ '>' :: rest) = leavesOpen rest :=
        leavesOpen_append_closing ('<' :: other) rest
      have htext : '<' :: other ++ '>' :: rest ++ '<' :: name ++ '>' :: after =
          '<' :: other ++ '>' :: (rest ++ '<' :: name ++ '>' :: after) := by simp
      rw [htext, substituteFrom_name hother, ih, hopen, substituteFrom_name hother]
      simp only [List.append_assoc]
  | other c cs hc ih =>
      simp only [List.cons_append]
      by_cases hwaits : c = '<' ∧ waits cs
      · obtain ⟨rfl, hw⟩ := hwaits
        have hswallowed := hname.of_waits hw
        -- The bracket takes the placeholder into a name that no column can have.
        have hcolumn : String.ofList (cs ++ '<' :: name) ∉ r.header := by
          intro hm
          have hno := hheader _ hm
          rw [String.toList_ofList] at hno
          exact hno (List.mem_append_right cs List.mem_cons_self)
        have hunclosed : '>' ∉ '<' :: cs := by
          have := hswallowed.unclosed
          simp_all
        have hopen : leavesOpen ('<' :: cs) = true := by simp [leavesOpen, hw]
        rw [← List.cons_append, substituteFrom_name hswallowed, replacement_of_notMem hcolumn,
          substituteFrom_of_unclosed hunclosed, if_pos hopen]
        simp
      · have hmore : c = '<' → placeholder? (cs ++ '<' :: name ++ '>' :: after) = none := by
          intro hb
          rw [List.append_assoc]
          refine placeholder?_append_eq_none (hc hb) ?_ _
          simpa [hb] using hwaits
        have hopen : leavesOpen (c :: cs) = leavesOpen cs := by
          simp only [leavesOpen, Bool.or_eq_right_iff_imp, Bool.and_eq_true, beq_iff_eq]
          exact fun hb => absurd hb hwaits
        rw [substituteFrom_other hmore, ih, hopen, substituteFrom_other hc]
        rfl

/-! ## Texts -/

/-- A column's name in brackets is replaced by the value under the first column of that name, and
the text on either side of it by itself. The one exception is a text in front that leaves a bracket
open: it keeps the placeholder as it is. -/
theorem substitute_around_placeholder (r : ExamplesRow) (column before after : String)
    (hlength : r.header.length = r.values.length)
    (hheader : ∀ name ∈ r.header, '<' ∉ name.toList ∧ '>' ∉ name.toList)
    (hcolumn : column ∈ r.header)
    (hvisible : ∃ c cs, column.toList = c :: cs ∧ Text.isBlank c = false) :
    ∃ value, r.values[r.header.idxOf column]? = some value ∧
      r.substitute (before ++ "<" ++ column ++ ">" ++ after) =
        r.substitute before ++
          (if leavesOpen before.toList then "<" ++ column ++ ">" else value) ++
          r.substitute after := by
  have hindex : r.header.idxOf column < r.values.length :=
    hlength ▸ List.idxOf_lt_length_of_mem hcolumn
  have hvalue := lookup_of_mem hcolumn r.values
  rw [List.getElem?_eq_getElem hindex] at hvalue
  have hname : IsName column.toList := ⟨(hheader column hcolumn).2, hvisible⟩
  have hreplaced : r.replacement column.toList = r.values[r.header.idxOf column].toList := by
    rw [replacement, String.ofList_toList, value?, hvalue]
  have htext := substituteFrom_placeholder (fun name hm => (hheader name hm).1) hname
    before.toList after.toList
  rw [hreplaced] at htext
  refine ⟨_, List.getElem?_eq_getElem hindex, String.toList_inj.mp ?_⟩
  cases hopen : leavesOpen before.toList <;> simpa [substitute, hopen] using htext

theorem substitute_around_placeholder_unit_price :
    let r : ExamplesRow := ⟨["item", "unit price", "item"], ["pears", "<item>", "figs"]⟩
    (∀ name ∈ r.header, '<' ∉ name.toList ∧ '>' ∉ name.toList) ∧
      r.substitute ("<if> a < b: " ++ "<" ++ "unit price" ++ ">" ++ " <item>") =
        "<if> a < b: <item> pears" := by
  intro r
  have hheader : ∀ name ∈ r.header, '<' ∉ name.toList ∧ '>' ∉ name.toList := by decide
  obtain ⟨value, hvalue, htext⟩ :=
    substitute_around_placeholder r "unit price" "<if> a < b: " " <item>" rfl hheader (by decide)
      ⟨'u', "nit price".toList, rfl, rfl⟩
  have hindex : r.values[r.header.idxOf "unit price"]? = some "<item>" := by decide
  obtain rfl := Option.some.inj (hindex.symm.trans hvalue)
  have hopen : leavesOpen "<if> a < b: ".toList = false := by decide
  rw [hopen] at htext
  exact ⟨hheader, htext.trans (by decide)⟩

/-- A bracket that stands for itself keeps the placeholder behind it from being replaced. -/
theorem stray_bracket_hides_placeholder :
    let r : ExamplesRow := ⟨["n"], ["3"]⟩
    r.values[r.header.idxOf "n"]? = some "3" ∧
      r.substitute ("1<2 and " ++ "<" ++ "n" ++ ">" ++ "") = "1<2 and <n>" ∧
      r.substitute "1<2 and " ++ "3" ++ r.substitute "" = "1<2 and 3" := by
  decide

end FeaturePlan.ExamplesRow
