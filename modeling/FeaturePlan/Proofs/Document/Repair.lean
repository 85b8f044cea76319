import FeaturePlan.Proofs.Document.Renumbering
import FeaturePlan.Proofs.Grammar.Recovery
import FeaturePlan.Proofs.Text.Lines

/-! # Texts without the lines that are turned away

Without these lines a text leads to the same events, and so to the same document and to the errors
that remain, on the lines where everything else has moved to. -/

namespace FeaturePlan

/-! ## Lines of a text -/

namespace Text

def linesWithout (numbers : List Nat) (number : Nat) (ls : List (List Char)) : List (List Char) :=
  ((ls.zipIdx number).filter fun l => l.2 ∉ numbers).map Prod.fst

/-- The text without the lines of the given numbers, which are counted from 1. Each line that is
left ends in a line feed. -/
def without (numbers : List Nat) (text : String) : String :=
  .ofList ((linesWithout numbers 1 (lines text.toList)).flatMap fun line => line ++ ['\n'])

/-- The number that a line has in a text without the lines of the given numbers. -/
def numberWithout (numbers : List Nat) (number : Nat) : Nat :=
  1 + (List.range' 1 (number - 1)).countP fun n => n ∉ numbers

theorem numberWithout_succ (numbers : List Nat) {number : Nat} (h : 1 ≤ number) :
    numberWithout numbers (number + 1) =
      if number ∈ numbers then numberWithout numbers number
      else numberWithout numbers number + 1 := by
  obtain ⟨n, rfl⟩ := Nat.exists_eq_add_of_le h
  have hrange : List.range' 1 (1 + n + 1 - 1) = List.range' 1 (1 + n - 1) ++ [1 + n] := by
    rw [Nat.add_sub_cancel, Nat.add_sub_cancel_left, Nat.add_comm 1 n, List.range'_1_concat,
      Nat.add_comm]
  rw [numberWithout, hrange, List.countP_append, numberWithout]
  split <;> simp_all [Nat.add_assoc]

/-- Without carriage returns nothing but line feeds ends a line. -/
theorem isLine_of_mem_lines {cs : List Char} (h : '\r' ∉ cs) : ∀ line ∈ lines cs, IsLine line := by
  have hall : ∀ line ∈ lines cs, '\n' ∉ line ∧ '\r' ∉ line := by
    induction cs using lines.induct with
    | case1 => simp [lines]
    | case2 cs ih =>
        rw [lines]
        exact List.forall_mem_cons.mpr ⟨by simp, ih fun hm => h (List.mem_cons_of_mem _ hm)⟩
    | case3 cs ih => simp at h
    | case4 c cs hfeed hreturn hnil ih =>
        rw [lines.eq_4 _ _ hfeed hreturn, hnil]
        simp only [List.mem_cons, not_or] at h
        simpa using ⟨Ne.symm hfeed, h.1⟩
    | case5 c cs hfeed hreturn line rest hlines ih =>
        rw [lines.eq_4 _ _ hfeed hreturn, hlines]
        simp only [List.mem_cons, not_or] at h
        have hrest := List.forall_mem_cons.mp (hlines ▸ ih h.2)
        refine List.forall_mem_cons.mpr ⟨?_, hrest.2⟩
        simpa [h.1, Ne.symm hfeed] using hrest.1
  intro line hline
  exact ⟨(hall line hline).1, fun hlast => (hall line hline).2 (List.mem_of_getLast? hlast)⟩

theorem isLine_of_mem_linesWithout {text : String} (h : '\r' ∉ text.toList) (numbers : List Nat)
    (number : Nat) : ∀ line ∈ linesWithout numbers number (lines text.toList), IsLine line := by
  intro line hline
  obtain ⟨⟨l, n⟩, hm, rfl⟩ := List.mem_map.mp hline
  exact isLine_of_mem_lines h l (List.fst_mem_of_mem_zipIdx (List.mem_of_mem_filter hm))

end Text

/-! ## Items that are kept -/

open Text

namespace Item

/-- The item is the end of the text, or a line of none of the given numbers. -/
def isWithout (numbers : List Nat) : Item → Bool
  | line l => l.number ∉ numbers
  | eof _ => true

theorem le_of_mem_number {l : Line} {raws : List (List Char)} {number : Nat}
    (h : .line l ∈ Item.number number raws) : number ≤ l.number := by
  induction raws generalizing number with
  | nil => simp [Item.number] at h
  | cons raw raws ih =>
      rcases List.mem_cons.mp h with h | h
      · rw [Item.line.inj h]
      · exact Nat.le_of_succ_le (ih h)

/-- The lines that are left are the lines of the text that is left, each where it stands there. -/
theorem renumber_filter_number (numbers : List Nat) (raws : List (List Char)) {number : Nat}
    (hn : 1 ≤ number) :
    ((Item.number number raws).filter (isWithout numbers)).map
        (Item.renumber (numberWithout numbers)) =
      Item.number (numberWithout numbers number) (linesWithout numbers number raws) := by
  induction raws generalizing number with
  | nil => rfl
  | cons raw raws ih =>
      have hrest := ih (Nat.le_succ_of_le hn)
      rw [numberWithout_succ numbers hn] at hrest
      rw [Item.number, linesWithout, List.zipIdx_cons]
      by_cases hm : number ∈ numbers
      · have hskip : isWithout numbers (.line ⟨number, raw⟩) = false := by simp [isWithout, hm]
        rw [if_pos hm] at hrest
        rw [List.filter_cons_of_neg (by simp [hskip]), hrest, List.filter_cons_of_neg (by simpa)]
        rfl
      · have hkeep : isWithout numbers (.line ⟨number, raw⟩) = true := by simp [isWithout, hm]
        rw [if_neg hm] at hrest
        rw [List.filter_cons_of_pos hkeep, List.map_cons, hrest, List.filter_cons_of_pos (by simpa)]
        rfl

end Item

namespace Cursor

theorem line?_of_rejectedLine? {e : Event} {n : Nat} (h : e.rejectedLine? = some n) :
    e.line? = some n := by
  cases e with
  | error e => exact congrArg some (ParseError.line_of_rejectedLine? h)
  | opened rule | closed rule | token t => cases h

def rejectedLines (c : Cursor) (items : List Item) : List Nat :=
  ((c.strides items).flatMap Stride.events).filterMap Event.rejectedLine?

theorem rejectedLines_cons (c : Cursor) (item : Item) (ahead : List Item) :
    c.rejectedLines (item :: ahead) = (c.consume item ahead).events.filterMap Event.rejectedLine? ++
      (c.consume item ahead).cursor.rejectedLines ahead := by
  rw [rejectedLines, strides, List.flatMap_cons, List.filterMap_append]
  rfl

theorem le_of_mem_rejectedLines {c : Cursor} {number n : Nat} {raws : List (List Char)}
    (h : n ∈ c.rejectedLines (Item.number number raws)) : number ≤ n := by
  obtain ⟨e, he, hn⟩ := List.mem_filterMap.mp h
  have hline : n ∈ List.range' number (raws.length + 1) := by
    rw [← filterMap_line?_strides raws c number]
    exact List.mem_filterMap.mpr ⟨e, he, line?_of_rejectedLine? hn⟩
  exact (List.mem_range'_1.mp hline).1

/-- What is kept are the lines of all numbers but those that are turned away. -/
theorem kept_number (raws : List (List Char)) (c : Cursor) (number : Nat) :
    c.kept (Item.number number raws) = (Item.number number raws).filter
      (Item.isWithout (c.rejectedLines (Item.number number raws))) := by
  induction raws generalizing c number with
  | nil =>
      rw [Item.number, kept_cons_of_not_rejects (c.not_rejects_eof _ _)]
      rfl
  | cons raw raws ih =>
      rw [Item.number, rejectedLines_cons]
      have hrest := ih (c.consume (.line ⟨number, raw⟩) (Item.number (number + 1) raws)).cursor
        (number + 1)
      cases hrejects :
          (c.consume (.line ⟨number, raw⟩) (Item.number (number + 1) raws)).rejects with
      | false =>
          have hnone : (c.consume (.line ⟨number, raw⟩)
              (Item.number (number + 1) raws)).events.filterMap Event.rejectedLine? = [] :=
            List.filterMap_eq_nil_iff.mpr fun e he => by
              simpa using List.any_eq_false.mp hrejects e he
          have hkeep : Item.isWithout ((c.consume (.line ⟨number, raw⟩)
              (Item.number (number + 1) raws)).cursor.rejectedLines
                (Item.number (number + 1) raws)) (.line ⟨number, raw⟩) = true :=
            decide_eq_true fun hm => Nat.not_succ_le_self number (le_of_mem_rejectedLines hm)
          rw [kept_cons_of_not_rejects hrejects, hnone, List.nil_append,
            List.filter_cons_of_pos hkeep, hrest]
      | true =>
          obtain ⟨l, e, hl, he, hconsume⟩ := consume_of_rejects hrejects
          obtain rfl := Item.line.inj hl
          rw [kept_cons_of_rejects hrejects, hrest, hconsume]
          have hfirst : [Event.error e].filterMap Event.rejectedLine? = [number] := by
            simp [Event.rejectedLine?, he]
          simp only [hfirst, List.singleton_append]
          rw [List.filter_cons_of_neg (by simp [Item.isWithout])]
          refine List.filter_congr fun item hitem => ?_
          cases item with
          | eof place => rfl
          | line l =>
              have hl : l.number ≠ number := Nat.ne_of_gt (Item.le_of_mem_number hitem)
              simp [Item.isWithout, hl]

end Cursor

/-! ## Events of a text -/

/-- Without the lines that are turned away, a text leads to the same events on the lines where
everything else has moved to. -/
theorem eventsOf_without {d : Dialect} (hd : d.Sound) {text : String} (ht : '\r' ∉ text.toList) :
    let rejected := (eventsOf d text).filterMap Event.rejectedLine?
    eventsOf d (without rejected text) =
      ((eventsOf d text).filter fun e => e.rejectedLine?.isNone).map
        (Event.renumber (numberWithout rejected)) := by
  intro rejected
  have hrejected : rejected = (Cursor.start d).rejectedLines (Item.ofText text) := rfl
  have hitems : Item.ofText (without rejected text) =
      ((Cursor.start d).kept (Item.ofText text)).map (Item.renumber (numberWithout rejected)) := by
    have hlines : lines (without rejected text).toList =
        linesWithout rejected 1 (lines text.toList) := by
      rw [without, String.toList_ofList, lines_flatMap (isLine_of_mem_linesWithout ht rejected 1)]
    rw [Item.ofText, hlines, Item.ofText, Cursor.kept_number, ← Item.ofText, ← hrejected,
      Item.ofText, Item.renumber_filter_number rejected _ (Nat.le_refl 1)]
    rfl
  have hstrides := Cursor.strides_kept (Item.ofText text) (c := .start d) hd
  rw [eventsOf, stridesOf, hitems, Cursor.strides_renumber, List.flatMap_map]
  have hevents : ∀ strides : List Stride,
      strides.flatMap (fun s => (s.renumber (numberWithout rejected)).events) =
        (strides.flatMap Stride.events).map (Event.renumber (numberWithout rejected)) := by
    intro strides
    rw [List.map_flatMap]
    rfl
  rw [hevents, hstrides]
  rfl

namespace Findings

variable {f : Findings}

theorem rejectedLine?_of_isStructural {e : ParseError} (h : e.isStructural) :
    e.rejectedLine? = none := by
  cases e <;> first | rfl | cases h

/-- The errors that turn lines away are those among the events. -/
theorem filterMap_rejectedLine?_after (events : List Event) (f : Findings) :
    (f.after events).errors.filterMap ParseError.rejectedLine? =
      f.errors.filterMap ParseError.rejectedLine? ++ events.filterMap Event.rejectedLine? := by
  induction events generalizing f with
  | nil => simp
  | cons event events ih =>
      rw [after_cons, ih]
      cases event with
      | opened rule | token t => rfl
      | error e =>
          have hcons : (Event.error e :: events).filterMap Event.rejectedLine? =
              [e].filterMap ParseError.rejectedLine? ++ events.filterMap Event.rejectedLine? := by
            cases he : e.rejectedLine? <;> simp [Event.rejectedLine?, he]
          rw [take, List.filterMap_append, List.append_assoc, hcons]
      | closed rule =>
          have hnone : f.assembly.close.2.toList.filterMap ParseError.rejectedLine? = [] :=
            List.filterMap_eq_nil_iff.mpr fun e he =>
              rejectedLine?_of_isStructural (isStructural_of_close he)
          rw [take_closed, List.filterMap_append, hnone, List.append_nil]
          rfl

/-- Errors that turn lines away have no part in what else is found. -/
theorem after_filter (events : List Event) (f : Findings) :
    (⟨f.assembly, f.errors.filter fun e => e.rejectedLine?.isNone⟩ : Findings).after
        (events.filter fun e => e.rejectedLine?.isNone) =
      ⟨(f.after events).assembly,
        (f.after events).errors.filter fun e => e.rejectedLine?.isNone⟩ := by
  induction events generalizing f with
  | nil => rfl
  | cons event events ih =>
      rw [after_cons, ← ih]
      cases event with
      | opened rule | token t => rfl
      | error e =>
          cases he : e.rejectedLine? with
          | none =>
              rw [List.filter_cons_of_pos (by simp [Event.rejectedLine?, he])]
              simp [take, he]
          | some n =>
              rw [List.filter_cons_of_neg (by simp [Event.rejectedLine?, he])]
              simp [take, he]
      | closed rule =>
          have hall : f.assembly.close.2.toList.filter (fun e => e.rejectedLine?.isNone) =
              f.assembly.close.2.toList :=
            List.filter_eq_self.mpr fun e he => by
              simp [rejectedLine?_of_isStructural (isStructural_of_close he)]
          rw [List.filter_cons_of_pos rfl, after_cons, take_closed, take_closed,
            List.filter_append, hall]

end Findings

/-! ## Diagnostics of a text -/

namespace ParseError

theorem rejectedLine?_renumber (ρ : Nat → Nat) (e : ParseError) :
    (e.renumber ρ).rejectedLine? = e.rejectedLine?.map ρ := by
  cases e <;> rfl

end ParseError

/-- Recovery from an error is the deletion of the line that it turns away. Without all these lines
no line is turned away; document and remaining errors are the same on the lines where everything has
moved to. -/
theorem Diagnostics.ofText_without {code : String} {d : Dialect} (hd : Dialect.find? code = some d)
    {text : String} (ht : '\r' ∉ text.toList) :
    let found := ofText d text
    let rejected := found.errors.filterMap ParseError.rejectedLine?
    let again := ofText d (Text.without rejected text)
    (∀ e ∈ again.errors, e.rejectedLine? = none) ∧
      again.document = found.document.relocate (Location.renumber (numberWithout rejected)) ∧
      again.errors = (found.errors.filter fun e => e.rejectedLine?.isNone).map
        (ParseError.renumber (numberWithout rejected)) := by
  intro found rejected again
  have hrejected : rejected = (eventsOf d text).filterMap Event.rejectedLine? := by
    have h := Findings.filterMap_rejectedLine?_after (eventsOf d text) .empty
    have herrors : found.errors = (Findings.empty.after (eventsOf d text)).errors :=
      congrArg Diagnostics.errors (ofText_eq d text)
    rwa [← herrors] at h
  have hevents := eventsOf_without (Dialect.sound_of_find? hd).1 ht
  rw [← hrejected] at hevents
  have hafter := Findings.after_filter (eventsOf d text) .empty
  have hrenumber := Findings.after_renumber (numberWithout rejected)
    ((eventsOf d text).filter fun e => e.rejectedLine?.isNone) .empty
  have hagain : again = ⟨found.document.relocate (Location.renumber (numberWithout rejected)),
      (found.errors.filter fun e => e.rejectedLine?.isNone).map
        (ParseError.renumber (numberWithout rejected))⟩ := by
    have hall : Findings.empty.after _ = _ :=
      hrenumber.trans (congrArg (Findings.renumber (numberWithout rejected)) hafter)
    rw [show again = _ from ofText_eq d _, hevents, hall, show found = _ from ofText_eq d text]
    exact congrArg (Diagnostics.mk · _) (Tree.document_renumber (numberWithout rejected) _)
  rw [hagain]
  refine ⟨fun e he => ?_, rfl, rfl⟩
  obtain ⟨e', he', rfl⟩ := List.mem_map.mp he
  have hnone : e'.rejectedLine? = none := Option.isNone_iff_eq_none.mp (List.mem_filter.mp he').2
  rw [ParseError.rejectedLine?_renumber, hnone]
  rfl

/-- Lines that name an unknown language, that hold free text below a step, or that are examples of
no outline, above an uneven row and the end of an outline without examples. -/
theorem Diagnostics.ofText_without_outline :
    let text := "# language: xx\nFeature: F\nScenario: S\nGiven a\n|x|\nand so on\n|y|z|\n" ++
      "Examples:\n|y|\nScenario Outline: O"
    let again := ofText .english (Text.without [1, 6, 8] text)
    Dialect.find? "en" = some .english ∧ '\r' ∉ text.toList ∧
      (ofText .english text).errors.filterMap ParseError.rejectedLine? = [1, 6, 8] ∧
      (∀ e ∈ again.errors, e.rejectedLine? = none) ∧
      again.errors.map ParseError.place = [⟨5, 1⟩, ⟨8, 1⟩] := by
  intro text again
  have hd : Dialect.find? "en" = some .english := by decide +kernel
  have ht : '\r' ∉ text.toList := by decide +kernel
  have hrejected :
      (ofText .english text).errors.filterMap ParseError.rejectedLine? = [1, 6, 8] := by
    decide +kernel
  obtain ⟨hnone, -, herrors⟩ := ofText_without hd ht
  rw [hrejected] at hnone herrors
  refine ⟨hd, ht, hrejected, hnone, ?_⟩
  rw [herrors]
  decide +kernel

end FeaturePlan
