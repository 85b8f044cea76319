import FeaturePlan.Proofs.Dialect
import FeaturePlan.Proofs.Scanner.Classify

/-! # The longest keyword

A dialect holds its step keywords longest first, and a line is read with the first of them that
begins it. So the order in which a table lists its keywords makes no difference, nor do keywords
that are listed twice or that begin others. -/

namespace FeaturePlan

/-- The keywords with which steps begin, the bullet among them, as the table lists them. -/
def Keywords.steps (k : Keywords) : List String :=
  k.givens ++ k.whens ++ k.thens ++ k.ands ++ k.buts ++ [Dialect.bullet]

namespace Dialect

variable {keyword : String}

theorem mem_longestFirst {ks : List String} : keyword ∈ longestFirst ks ↔ keyword ∈ ks := by
  induction ks with
  | nil => rfl
  | cons k ks ih => rw [longestFirst, mem_placeByLength, ih, List.mem_cons]

theorem mem_steps_ofKeywords {k : Keywords} :
    keyword ∈ (ofKeywords k).steps ↔ keyword ∈ k.steps := by
  rw [ofKeywords, mem_longestFirst, List.mem_eraseDups, Keywords.steps]

end Dialect

namespace Line

variable {l : Line} {keyword text : String}

theorem textAfter?_eq_some_iff : l.textAfter? keyword = some text ↔
    ∃ rest, l.body = keyword.toList ++ rest ∧ text = .ofList (Text.trim rest) := by
  constructor
  · intro h
    obtain ⟨rest, hrest, htext⟩ := Option.bind_eq_some_iff.mp h
    exact ⟨rest, Text.after?_eq_some_iff.mp hrest, (Option.some.inj htext).symm⟩
  · rintro ⟨rest, hrest, rfl⟩
    exact Option.bind_eq_some_iff.mpr ⟨rest, Text.after?_eq_some_iff.mpr hrest, rfl⟩

theorem isSome_textAfter?_iff : (l.textAfter? keyword).isSome ↔ keyword.toList <+: l.body := by
  rw [Option.isSome_iff_exists]
  constructor
  · rintro ⟨text, htext⟩
    obtain ⟨rest, hrest, -⟩ := textAfter?_eq_some_iff.mp htext
    exact ⟨rest, hrest.symm⟩
  · rintro ⟨rest, hrest⟩
    exact ⟨_, textAfter?_eq_some_iff.mpr ⟨rest, hrest.symm, rfl⟩⟩

/-- The line begins with the keyword, and with no longer one of the list. -/
structure OpensWithLongest (l : Line) (keywords : List String) (keyword : String) : Prop where
  mem : keyword ∈ keywords
  begins : keyword.toList <+: l.body
  longest : ∀ other ∈ keywords, other.toList <+: l.body → other.length ≤ keyword.length

end Line

namespace Scanner

variable {s s' : Scanner} {l : Line} {t : Token}

theorem readLine_step_iff : (∃ t s', s.readLine l .step = .token t s') ↔
    ∃ keyword ∈ s.dialect.steps, keyword.toList <+: l.body := by
  have hkeep : ∀ content : Option Content,
      (∃ t s', s.keep l.start content = .token t s') ↔ content.isSome := by
    intro content
    cases content <;> simp [keep]
  rw [readLine, hkeep]
  simp only [List.findSome?_isSome_iff, Option.isSome_map, Line.isSome_textAfter?_iff]

/-- A step takes the longest keyword that begins its line, and its text is the rest of the line. -/
theorem opensWithLongest_of_readLine
    (hsorted : s.dialect.steps.Pairwise fun k other => other.length ≤ k.length)
    (h : s.readLine l .step = .token t s') :
    s' = s ∧ ∃ keyword rest, l.OpensWithLongest s.dialect.steps keyword ∧
      l.body = keyword.toList ++ rest ∧
      t = ⟨l.start, s.dialect, .step keyword (.ofList (Text.trim rest))⟩ := by
  obtain ⟨hcontent, rfl, ht⟩ := keep_eq_token h
  obtain ⟨before, keyword, after, hsteps, hkeyword, hbefore⟩ :=
    List.findSome?_eq_some_iff.mp hcontent
  obtain ⟨text, htext, hstep⟩ := Option.map_eq_some_iff.mp hkeyword
  obtain ⟨rest, hrest, rfl⟩ := Line.textAfter?_eq_some_iff.mp htext
  refine ⟨rfl, keyword, rest, ⟨?_, ⟨rest, hrest.symm⟩, ?_⟩, hrest, by rw [ht, ← hstep]⟩
  · rw [hsteps]
    exact List.mem_append_right _ List.mem_cons_self
  · intro other hother hbegins
    rw [hsteps] at hother hsorted
    -- what is tried before does not begin the line, and what comes behind is no longer
    rcases List.mem_append.mp hother with hother | hother
    · have hsome := Line.isSome_textAfter?_iff.mpr hbegins
      rw [Option.map_eq_none_iff.mp (hbefore other hother)] at hsome
      cases hsome
    · rcases List.mem_cons.mp hother with rfl | hother
      · exact Nat.le_refl _
      · exact List.rel_of_pairwise_cons (List.pairwise_append.mp hsorted).2.1 hother

theorem readLine_step_ofKeywords {k : Keywords} (hs : s.dialect = .ofKeywords k) :
    ((∃ t s', s.readLine l .step = .token t s') ↔
        ∃ keyword ∈ k.steps, keyword.toList <+: l.body) ∧
      ∀ t s', s.readLine l .step = .token t s' →
        s' = s ∧ ∃ keyword rest, l.OpensWithLongest k.steps keyword ∧
          l.body = keyword.toList ++ rest ∧
          t = ⟨l.start, s.dialect, .step keyword (.ofList (Text.trim rest))⟩ := by
  have hmem : ∀ keyword, keyword ∈ s.dialect.steps ↔ keyword ∈ k.steps :=
    fun keyword => hs ▸ Dialect.mem_steps_ofKeywords
  have hsorted : s.dialect.steps.Pairwise fun k other => other.length ≤ k.length :=
    hs ▸ Dialect.longestFirst_sorted _
  refine ⟨by simp only [readLine_step_iff, hmem], fun t s' h => ?_⟩
  obtain ⟨rfl, keyword, rest, hopens, hrest⟩ := opensWithLongest_of_readLine hsorted h
  refine ⟨rfl, keyword, rest, ⟨(hmem keyword).mp hopens.mem, hopens.begins, ?_⟩, hrest⟩
  exact fun other hother => hopens.longest other ((hmem other).mpr hother)

end Scanner

end FeaturePlan
