import FeaturePlan.Line
import FeaturePlan.Proofs.Text.Blank
import FeaturePlan.Proofs.Text.Words
import Mathlib.Data.List.TakeWhile

/-! # Which lines are tag lines

A line is a tag line when an at sign is the first that can be seen on it, and each of its words is
a tag. A word that starts with a number sign makes a comment of itself and of all behind it. -/

namespace FeaturePlan

open Text

/-- The word stands in the text, and in front of every word that starts with a number sign. -/
def StandsBeforeComment (cs : List Char) (start : Nat) (word : List Char) : Prop :=
  HasWordAt cs start word ∧
    ∀ mark comment, HasWordAt cs mark comment → comment.head? = some '#' → start < mark

/-- The spans are the words in front of the comment, from left to right. Columns count the
characters of the whole line, from 1. -/
structure ListsWords (raw : List Char) (spans : List Span) : Prop where
  ordered : spans.Pairwise fun s s' => s.column < s'.column
  mem_iff : ∀ s, s ∈ spans ↔
    ∃ start, s.column = start + 1 ∧ StandsBeforeComment raw start s.text.toList

namespace Line

def isContent (p : Nat × List Char) : Bool :=
  p.2.head? != some '#'

/-- The words in front of the comment, each with the number of characters in front of it. -/
def content (l : Line) : List (Nat × List Char) :=
  (runs 0 l.raw).takeWhile isContent

variable {l : Line} {words : List (Nat × List Char)}

theorem isTag_iff {word : List Char} :
    isTag word = true ↔ word.head? = some '@' ∧ 1 < word.length := by
  rcases word with _ | ⟨a, _ | ⟨b, rest⟩⟩
  · simp [isTag]
  · simp [isTag]
  · by_cases ha : a = '@' <;> simp [isTag, ha]

/-! ## Tags in front of a comment -/

theorem leadingTags_eq (words : List (Nat × List Char)) :
    leadingTags words =
      if ∀ p ∈ words.takeWhile isContent, isTag p.2 = true then some (words.takeWhile isContent)
      else none := by
  induction words with
  | nil => simp [leadingTags]
  | cons p rest ih =>
    obtain ⟨start, word⟩ := p
    rw [leadingTags, ih]
    by_cases hcomment : word.head? = some '#'
    · simp [hcomment, isContent]
    · have hcontent : isContent (start, word) = true := by simpa [isContent] using hcomment
      rw [if_neg hcomment, List.takeWhile_cons_of_pos hcontent]
      by_cases htag : isTag word = true
      · simp only [htag, List.forall_mem_cons, true_and, if_true]
        split <;> rfl
      · simp [htag]

theorem takeWhile_isContent_map (shift : Nat) (words : List (Nat × List Char)) :
    (words.map fun p => (shift + p.1, p.2)).takeWhile isContent =
      (words.takeWhile isContent).map fun p => (shift + p.1, p.2) :=
  List.takeWhile_map

theorem takeWhile_isContent_comment (words : List (Nat × List Char)) (mark : Nat)
    (comment : List Char) (rest : List (Nat × List Char)) :
    (words ++ (mark, '#' :: comment) :: rest).takeWhile isContent = words.takeWhile isContent := by
  induction words with
  | nil => simp [isContent]
  | cons p words ih => simp only [List.cons_append, List.takeWhile_cons, ih]

theorem mem_takeWhile_isContent_iff (h : words.Pairwise fun p q => p.1 < q.1)
    (p : Nat × List Char) :
    p ∈ words.takeWhile isContent ↔
      p ∈ words ∧ ∀ q ∈ words, isContent q = false → p.1 < q.1 := by
  induction words with
  | nil => simp
  | cons first rest ih =>
    obtain ⟨hfirst, hrest⟩ := List.pairwise_cons.mp h
    by_cases hcontent : isContent first = true
    · rw [List.takeWhile_cons_of_pos hcontent, List.mem_cons, ih hrest, List.mem_cons,
        List.forall_mem_cons]
      grind
    · rw [List.takeWhile_cons_of_neg hcontent, List.mem_cons, List.forall_mem_cons]
      grind

/-! ## The words of a line -/

theorem blanks_append_body (l : Line) : l.raw.takeWhile Text.isBlank ++ l.body = l.raw :=
  takeWhile_append_trimStart l.raw

/-- The words of the visible part of a line are those of the line. -/
theorem runs_raw (l : Line) :
    runs 0 l.raw = (runs 0 l.body).map fun p => (l.indent + p.1, p.2) := by
  have hbody : HasWords l.indent l.body ((runs 0 l.body).map fun p => (l.indent + p.1, p.2)) :=
    (hasWords_runs 0 l.body).add l.indent
  have hblanks : ∀ c ∈ l.raw.takeWhile Text.isBlank, Text.isBlank c = true :=
    fun _ => List.mem_takeWhile_imp
  have hraw : HasWords 0 (l.raw.takeWhile Text.isBlank ++ l.body) _ :=
    .blanks hblanks (by rwa [Nat.zero_add])
  rw [blanks_append_body] at hraw
  exact (hasWords_runs 0 l.raw).unique hraw

theorem mem_content_iff {start : Nat} {word : List Char} :
    (start, word) ∈ l.content ↔ StandsBeforeComment l.raw start word := by
  rw [content, mem_takeWhile_isContent_iff (hasWords_runs 0 l.raw).pairwise, mem_runs_iff]
  simp only [Prod.forall, mem_runs_iff, isContent, bne_eq_false_iff_eq]
  rfl

/-- A tag line is read off the words in front of its comment. -/
theorem tags?_eq (l : Line) :
    l.tags? =
      if l.raw.find? (!Text.isBlank ·) = some '@' ∧ ∀ p ∈ l.content, isTag p.2 = true then
        some (l.content.map fun p => ⟨p.1 + 1, .ofList p.2⟩)
      else none := by
  have hcontent : l.content =
      ((runs 0 l.body).takeWhile isContent).map fun p => (l.indent + p.1, p.2) := by
    rw [content, runs_raw, takeWhile_isContent_map]
  have hfirst : l.body.head? = l.raw.find? (!Text.isBlank ·) :=
    (List.find?_not_eq_head?_dropWhile _ _).symm
  rw [tags?, hfirst, leadingTags_eq, hcontent]
  simp only [List.forall_mem_map]
  by_cases hat : l.raw.find? (!Text.isBlank ·) = some '@'
  · simp only [hat, if_true, true_and]
    split
    · simp
    · rfl
  · simp [hat]

theorem listsWords_content (l : Line) :
    ListsWords l.raw (l.content.map fun p => ⟨p.1 + 1, .ofList p.2⟩) where
  ordered := by
    have hsorted : l.content.Pairwise fun p q => p.1 < q.1 :=
      (hasWords_runs 0 l.raw).pairwise.sublist (List.takeWhile_sublist _)
    rw [List.pairwise_map]
    exact hsorted.imp Nat.succ_lt_succ
  mem_iff s := by
    rw [List.mem_map]
    constructor
    · rintro ⟨⟨start, word⟩, hword, rfl⟩
      exact ⟨start, rfl, by simpa using mem_content_iff.mp hword⟩
    · rintro ⟨start, hcolumn, hword⟩
      exact ⟨(start, s.text.toList), mem_content_iff.mpr hword, by simp [← hcolumn]⟩

/-- What stands behind the mark of a comment makes no difference to the words in front of it. -/
theorem content_comment {before : List Char}
    (hbefore : ∀ c ∈ before.getLast?, Text.isBlank c = true) (number : Nat) (comment : List Char) :
    content ⟨number, before ++ '#' :: comment⟩ = (runs 0 before).takeWhile isContent := by
  obtain ⟨word, words, hruns⟩ := exists_runs_cons (c := '#') (by decide) before.length comment
  rw [content, runs_append hbefore, hruns, takeWhile_isContent_comment]

/-- A line is read as tags just when an at sign is the first that can be seen on it, and every word
in front of its comment is an at sign with more behind it. The tags are then these words, in their
order, and the comment may be any other. -/
theorem tags?_reads_words_before_comment (l : Line) :
    (l.tags?.isSome ↔ l.raw.find? (!Text.isBlank ·) = some '@' ∧
      ∀ start word, StandsBeforeComment l.raw start word →
        word.head? = some '@' ∧ 1 < word.length) ∧
    (∀ spans, l.tags? = some spans → ListsWords l.raw spans) ∧
    ∀ before comment, l.raw = before ++ '#' :: comment →
      (∀ c ∈ before.getLast?, Text.isBlank c = true) →
      ∀ other, tags? ⟨l.number, before ++ '#' :: other⟩ = l.tags? := by
  refine ⟨?_, fun spans h => ?_, fun before comment hraw hbefore other => ?_⟩
  · rw [tags?_eq]
    simp [mem_content_iff, isTag_iff]
  · rw [tags?_eq] at h
    split at h
    · obtain rfl := Option.some.inj h
      exact listsWords_content l
    · cases h
  · obtain ⟨number, raw⟩ := l
    obtain rfl : raw = before ++ '#' :: comment := hraw
    have hfirst (comment : List Char) : (before ++ '#' :: comment).find? (!Text.isBlank ·) =
        (before.find? (!Text.isBlank ·)).or (some '#') := by
      rw [List.find?_append]
      rfl
    rw [tags?_eq, tags?_eq, content_comment hbefore, content_comment hbefore, hfirst, hfirst]

/-- A number sign may stand inside a tag; in front of a word it starts a comment. -/
theorem tags?_reads_words_before_comment_marks :
    tags? ⟨1, "  @a#1 @b # @".toList⟩ = some [⟨3, "@a#1"⟩, ⟨8, "@b"⟩] ∧
      ListsWords "  @a#1 @b # @".toList [⟨3, "@a#1"⟩, ⟨8, "@b"⟩] ∧
      tags? ⟨1, "  @a#1 @b #c".toList⟩ = some [⟨3, "@a#1"⟩, ⟨8, "@b"⟩] := by
  have htags : tags? ⟨1, "  @a#1 @b # @".toList⟩ = some [⟨3, "@a#1"⟩, ⟨8, "@b"⟩] := by decide
  obtain ⟨-, hwords, hcomment⟩ :=
    tags?_reads_words_before_comment ⟨1, "  @a#1 @b # @".toList⟩
  have hbefore : ∀ c ∈ "  @a#1 @b ".toList.getLast?, Text.isBlank c = true := by
    rintro c ⟨⟩
    decide
  refine ⟨htags, hwords _ htags, ?_⟩
  exact (hcomment "  @a#1 @b ".toList " @".toList rfl hbefore "c".toList).trans htags

end Line

end FeaturePlan
