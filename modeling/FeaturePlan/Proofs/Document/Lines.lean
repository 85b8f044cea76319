import FeaturePlan.Proofs.Delimiter
import FeaturePlan.Proofs.Document.Legal

/-! # Legal documents are written in lines

Nothing that is written for a legal document ends a line before its line feed. -/

namespace FeaturePlan

open Text

variable {d : Dialect}

theorem Comment.isLine_of_mem_lines {cs : List Comment} (h : ∀ c ∈ cs, c.IsLegal) :
    ∀ line ∈ Comment.lines cs, IsLine line := by
  intro line hm
  obtain ⟨c, hc, rfl⟩ := List.mem_map.mp hm
  exact (h c hc).1

theorem Tag.isLine_of_mem_lines {ts : List Tag} (h : ∀ t ∈ ts, t.IsLegal) :
    ∀ line ∈ Tag.lines ts, IsLine line := by
  intro line hm
  obtain ⟨t, ht, rfl⟩ := List.mem_map.mp hm
  have hblank := (h t ht).2.2
  constructor
  · intro hf
    exact absurd (hblank _ hf) (by decide)
  · intro hl
    exact absurd (hblank _ (List.mem_of_getLast? hl)) (by decide)

theorem Heading.isLine_of_mem_lines (hd : d.Sound) {b : Block} {h : Heading}
    (hl : h.IsLegal d b) : ∀ line ∈ h.lines, IsLine line := by
  obtain ⟨hk, hname, hdesc⟩ := hl
  intro line hm
  rcases List.mem_cons.mp hm with rfl | hm
  · have hcolon : IsLine ": ".toList := by decide
    rw [String.toList_append, String.toList_append]
    exact ((hd.titles_plain b _ hk).isLine.append hcolon).append (isLine_of_trim hname.1 hname.2)
  · obtain ⟨text, ht, hm⟩ := List.mem_flatMap.mp hm
    exact ((hdesc text (by simpa using ht)).1 line hm).1

theorem TableRow.isLine_of_mem_lines {rows : List TableRow} :
    ∀ line ∈ rows.map TableRow.line, IsLine line := by
  intro line hm
  obtain ⟨r, -, rfl⟩ := List.mem_map.mp hm
  exact r.isLine_line

theorem Delimiter.isLine_chars (m : Delimiter) : IsLine m.chars := by
  cases m <;> decide

theorem DocString.isLine_of_mem_lines {s : DocString} (h : s.IsLegal) :
    ∀ line ∈ s.lines, IsLine line := by
  intro line hm
  have hcases : line = s.delimiter.chars ++ (s.contentType.getD "").toList ∨
      (∃ content ∈ textLines s.content, s.delimiter.escape content = line) ∨
      line = s.delimiter.chars := by
    simpa [DocString.lines] using hm
  rcases hcases with rfl | ⟨content, hc, rfl⟩ | rfl
  · refine s.delimiter.isLine_chars.append ?_
    cases htype : s.contentType with
    | none => exact IsLine.nil
    | some type => exact isLine_of_trim (h.1 type htype).2.1 (h.1 type htype).2.2
  · exact Delimiter.isLine_escape (h.2 content hc).1
  · exact s.delimiter.isLine_chars

theorem Step.isLine_of_mem_lines (hd : d.Sound) {s : Step} (h : s.IsLegal d) :
    ∀ line ∈ s.lines, IsLine line := by
  obtain ⟨hk, htext, -, hargument, hcomments⟩ := h
  intro line hm
  rcases List.mem_append.mp hm with hm | hm
  · exact Comment.isLine_of_mem_lines hcomments line hm
  · rcases List.mem_cons.mp hm with rfl | hm
    · rw [String.toList_append]
      exact (hd.steps_plain _ hk).isLine.append (isLine_of_trim htext.1 htext.2)
    · obtain ⟨a, ha, hm⟩ := List.mem_flatMap.mp hm
      have hlegal := hargument a (by simpa using ha)
      cases a with
      | table t => exact TableRow.isLine_of_mem_lines line hm
      | docString s => exact DocString.isLine_of_mem_lines hlegal line hm

theorem Step.isLine_of_mem_flatMap (hd : d.Sound) {steps : List Step} (h : Step.AreLegal d steps) :
    ∀ line ∈ steps.flatMap Step.lines, IsLine line := by
  intro line hm
  obtain ⟨s, hs, hm⟩ := List.mem_flatMap.mp hm
  exact Step.isLine_of_mem_lines hd (h.1 s hs) line hm

theorem Examples.isLine_of_mem_lines (hd : d.Sound) {e : Examples} (h : e.IsLegal d) :
    ∀ line ∈ e.lines, IsLine line := by
  intro line hm
  rcases List.mem_append.mp hm with hm | hm
  · rcases List.mem_append.mp hm with hm | hm
    · exact Tag.isLine_of_mem_lines h.2.1 line hm
    · exact Heading.isLine_of_mem_lines hd h.1 line hm
  · exact TableRow.isLine_of_mem_lines line hm

theorem Child.isLine_of_mem_lines (hd : d.Sound) {c : Child} (h : c.IsLegal d) :
    ∀ line ∈ c.lines, IsLine line := by
  intro line hm
  cases c with
  | background c =>
      obtain ⟨hheading, hsteps, hcomments⟩ := h
      simp only [Child.lines, List.mem_append] at hm
      rcases hm with (hm | hm) | hm
      · exact Comment.isLine_of_mem_lines hcomments line hm
      · exact Heading.isLine_of_mem_lines hd hheading line hm
      · exact Step.isLine_of_mem_flatMap hd hsteps line hm
  | scenario c =>
      obtain ⟨hheading, htags, hsteps, hcomments⟩ := h
      simp only [Child.lines, List.mem_append] at hm
      rcases hm with ((hm | hm) | hm) | hm
      · exact Comment.isLine_of_mem_lines hcomments line hm
      · exact Tag.isLine_of_mem_lines htags line hm
      · exact Heading.isLine_of_mem_lines hd hheading line hm
      · exact Step.isLine_of_mem_flatMap hd hsteps line hm
  | outline c =>
      obtain ⟨hheading, htags, hsteps, hcomments, -, hexamples⟩ := h
      simp only [Child.lines, List.mem_append] at hm
      rcases hm with (((hm | hm) | hm) | hm) | hm
      · exact Comment.isLine_of_mem_lines hcomments line hm
      · exact Tag.isLine_of_mem_lines htags line hm
      · exact Heading.isLine_of_mem_lines hd hheading line hm
      · exact Step.isLine_of_mem_flatMap hd hsteps line hm
      · obtain ⟨e, he, hm⟩ := List.mem_flatMap.mp hm
        exact Examples.isLine_of_mem_lines hd (hexamples e he) line hm

theorem Feature.isLine_of_mem_lines {f : Feature} (hf : Dialect.find? f.language = some d)
    (h : f.IsLegal d) : ∀ line ∈ f.lines, IsLine line := by
  obtain ⟨hd, hcode⟩ := Dialect.sound_of_find? hf
  obtain ⟨hheading, htags, hcomments, hchildren, -⟩ := h
  intro line hm
  simp only [Feature.lines, List.mem_append, List.mem_cons] at hm
  rcases hm with (((rfl | hm) | hm) | hm) | hm
  · have hsign : IsLine "# language: ".toList := by decide
    rw [String.toList_append, ← hcode]
    exact hsign.append hd.code_isLine
  · exact Comment.isLine_of_mem_lines hcomments line hm
  · exact Tag.isLine_of_mem_lines htags line hm
  · exact Heading.isLine_of_mem_lines hd hheading line hm
  · obtain ⟨c, hc, hm⟩ := List.mem_flatMap.mp hm
    exact Child.isLine_of_mem_lines hd (hchildren c hc) line hm

end FeaturePlan
