import FeaturePlan.Proofs.Grammar.Recovery

/-! # Every line is of one class

Outside doc strings the first visible character of a line leaves one class for the line, unless a
keyword begins it; and no two keywords of different classes begin the same line. So it makes no
difference in which order the classes are tried. Lines that name a language are the one exception:
they are comments as well. -/

namespace FeaturePlan

/-! ## How lines begin -/

/-- The class that stands for all whose lines begin alike: keywords begin titles and steps, and a
line that names a language begins as a comment does. -/
def TokenKind.sort : TokenKind → TokenKind
  | title _ => step
  | language => comment
  | kind => kind

/-- What the first visible character of a line leaves of the classes. -/
def Line.sort (l : Line) : TokenKind :=
  match l.body.head? with
  | none => .empty
  | some '#' => .comment
  | some '@' => .tags
  | some '|' => .row
  | some '"' | some '\x60' => .separator
  | some _ => .step

namespace Scanner

/-- The line belongs to the class. An unknown language is named no less than a known one. -/
def Belongs (s : Scanner) (kind : TokenKind) (l : Line) : Prop :=
  s.readLine l kind ≠ .refused

instance (s : Scanner) (kind : TokenKind) (l : Line) : Decidable (s.Belongs kind l) :=
  inferInstanceAs (Decidable (¬_))

variable {s : Scanner} {d : Dialect} {l : Line} {kind kind' : TokenKind}

theorem belongs_iff_accepts (hk : kind ≠ .language) :
    s.Belongs kind l ↔ s.accepts kind (.line l) := by
  constructor
  · intro h
    by_contra ha
    exact h (refused_of_not_accepts hk (by simpa using ha))
  · intro h hr
    obtain ⟨t, s', hread⟩ := accepts_iff.mp h
    rw [read, hr] at hread
    cases hread

theorem sort_of_keyword {k : List Char} (hk : Keyword.IsPlain k) (hp : k <+: l.body) :
    l.sort = .step := by
  obtain ⟨c, rest, rfl, hc⟩ := hk.exists_cons
  obtain ⟨more, hbody⟩ := hp
  have hhead : l.body.head? = some c := by rw [← hbody]; rfl
  simp only [Keyword.isPlainChar, Bool.and_eq_true, decide_eq_true_eq] at hc
  rw [Line.sort, hhead]
  split <;> simp_all

theorem exists_prefix_of_step (h : (start d).Belongs .step l) :
    ∃ k ∈ d.steps, k.toList <+: l.body := by
  by_contra hnone
  exact h (refuses_step fun k hk hp => hnone ⟨k, hk, hp⟩)

theorem exists_prefix_of_title {b : Block} (h : (start d).Belongs (.title b) l) :
    ∃ k ∈ d.titles b, k.toList ++ [':'] <+: l.body := by
  by_contra hnone
  exact h (refuses_title fun k hk hp => hnone ⟨k, hk, hp⟩)

theorem head?_of_prefix {c : Char} {lead text : List Char} (h : c :: lead <+: text) :
    text.head? = some c := by
  obtain ⟨more, rfl⟩ := h
  rfl

theorem exists_prefix_of_separator (h : (start d).Belongs .separator l) :
    ∃ m : Delimiter, m.chars <+: l.body := by
  by_contra hnone
  have hn : ∀ m : Delimiter, l.textAfter? m.text = none := fun m =>
    textAfter?_eq_none fun hp => hnone ⟨m, by simpa [Delimiter.text] using hp⟩
  exact h (by simp [readLine, readSeparator, start, hn])

theorem head?_of_language (h : s.Belongs .language l) : l.body.head? = some '#' := by
  have hp : ['#'] <+: l.body := by
    by_contra hp
    exact h (by simp [readLine, readLanguage, Line.language?, after?_eq_none hp])
  exact head?_of_prefix hp

/-- The first visible character tells to which classes a line may belong. -/
theorem sort_of_belongs (hd : d.Sound) (h : (start d).Belongs kind l) (hk : kind ≠ .other) :
    kind.sort = l.sort := by
  cases kind with
  | eof => exact absurd rfl h
  | other => exact absurd rfl hk
  | title b =>
      obtain ⟨k, hk, hp⟩ := exists_prefix_of_title h
      exact (sort_of_keyword (hd.titles_plain b k hk) ((List.prefix_append _ _).trans hp)).symm
  | step =>
      obtain ⟨k, hk, hp⟩ := exists_prefix_of_step h
      exact (sort_of_keyword (hd.steps_plain k hk) hp).symm
  | separator =>
      obtain ⟨m, hp⟩ := exists_prefix_of_separator h
      rw [Line.sort, head?_of_prefix hp]
      cases m <;> rfl
  | empty =>
      have hbody : l.body = [] := by
        by_contra hne
        exact h (by simp [readLine, Line.isBlank, hne, keep])
      rw [Line.sort, hbody]
      rfl
  | comment =>
      have hhead : l.body.head? = some '#' := by
        by_contra hne
        exact h (by simp [readLine, hne, keep])
      rw [Line.sort, hhead]
      rfl
  | tags =>
      have hhead : l.body.head? = some '@' := by
        by_contra hne
        exact h (by simp [readLine, Line.tags?, hne, keep])
      rw [Line.sort, hhead]
      rfl
  | row =>
      have hp : ['|'] <+: l.body := by
        by_contra hp
        exact h (by simp [readLine, Line.cells?, Cell.ofRow, after?_eq_none hp, keep])
      rw [Line.sort, head?_of_prefix hp]
      rfl
  | language =>
      rw [Line.sort, head?_of_language h]
      rfl

/-! ## One class for each line -/

theorem Belongs.comment (h : s.Belongs .language l) : s.Belongs .comment l := by
  simp [Belongs, readLine, head?_of_language h, keep]

/-- No line belongs to two classes, but for comments that name a language. -/
theorem Belongs.unique (hd : d.Sound) (h : (start d).Belongs kind l)
    (h' : (start d).Belongs kind' l) (hk : kind ∉ [.language, .other])
    (hk' : kind' ∉ [.language, .other]) : kind = kind' := by
  simp only [List.mem_cons, List.not_mem_nil, or_false, not_or] at hk hk'
  have hsort : kind.sort = kind'.sort :=
    (sort_of_belongs hd h hk.2).trans (sort_of_belongs hd h' hk'.2).symm
  -- The keyword of a title, with its colon, and that of a step do not begin each other.
  have hkeywords : ∀ {b : Block}, (start d).Belongs (.title b) l → ¬(start d).Belongs .step l := by
    intro b hb hstep
    obtain ⟨k, hk, hp⟩ := exists_prefix_of_title hb
    obtain ⟨m, hm, hp'⟩ := exists_prefix_of_step hstep
    obtain ⟨hkm, hmk⟩ := hd.titles_steps b k hk m hm
    exact (List.prefix_or_prefix_of_prefix hp hp').elim hkm hmk
  cases kind with
  | title b =>
      cases kind' with
      | title c =>
          rw [belongs_iff_accepts hk.1] at h
          rw [belongs_iff_accepts hk'.1] at h'
          exact congrArg TokenKind.title (block_unique hd h h')
      | step => exact absurd h' (hkeywords h)
      | language => exact absurd rfl hk'.1
      | other => exact absurd rfl hk'.2
      | _ => cases hsort
  | step =>
      cases kind' with
      | title c => exact absurd h (hkeywords h')
      | step => rfl
      | language => exact absurd rfl hk'.1
      | other => exact absurd rfl hk'.2
      | _ => cases hsort
  | language => exact absurd rfl hk.1
  | other => exact absurd rfl hk.2
  | _ =>
      cases kind' with
      | language => exact absurd rfl hk'.1
      | other => exact absurd rfl hk'.2
      | _ => first | rfl | cases hsort

/-! ## The order of classes -/

theorem classify_of_unique {kinds : List TokenKind} (hm : kind ∈ kinds) (h : s.Belongs kind l)
    (hu : ∀ k ∈ kinds, s.Belongs k l → k = kind) :
    s.classify (.line l) kinds = s.readLine l kind := by
  -- The search ends at the first class that fits, and only the one does.
  induction kinds with
  | nil => cases hm
  | cons k kinds ih =>
      have hread : ∀ k, s.read k (.line l) = s.readLine l k := fun _ => rfl
      rw [classify, hread]
      by_cases hk : s.Belongs k l
      · obtain rfl := hu k List.mem_cons_self hk
        cases hr : s.readLine l k with
        | refused => exact absurd hr hk
        | token t s' | unknownLanguage code place => rfl
      · have hrest : kind ∈ kinds := (List.mem_cons.mp hm).resolve_left fun he => hk (he ▸ h)
        rw [not_not.mp hk]
        exact ih hrest fun k hk => hu k (List.mem_cons_of_mem _ hk)

theorem classify_of_not_belongs {kinds : List TokenKind}
    (h : ∀ kind ∈ kinds, ¬s.Belongs kind l) : s.classify (.line l) kinds = .refused := by
  have hrefused : ∀ kind ∈ kinds, s.read kind (.line l) = .refused :=
    fun kind hm => not_not.mp (h kind hm)
  have hall := classify_append hrefused []
  rwa [List.append_nil] at hall

/-- In every known dialect a line outside doc strings is of one class at most, save that a line
which names a language is a comment and nothing else. So of any classes that are asked for the line
is found to be of the one it belongs to, and their order is of no account. -/
theorem one_class_at_most (hd : s.dialect ∈ Dialect.known) (hs : s.docString = none) (l : Line) :
    (∀ kind kind', s.Belongs kind l → s.Belongs kind' l →
        kind ∉ [.language, .other] → kind' ∉ [.language, .other] → kind = kind') ∧
      (s.Belongs .language l → s.Belongs .comment l ∧
        ∀ kind, s.Belongs kind l → kind ∈ [.language, .comment, .other]) ∧
      ∀ kinds : List TokenKind, .language ∉ kinds → .other ∉ kinds →
        (∀ kind ∈ kinds, s.Belongs kind l → s.classify (.line l) kinds = s.readLine l kind) ∧
        ((∀ kind ∈ kinds, ¬s.Belongs kind l) → s.classify (.line l) kinds = .refused) ∧
        ∀ kinds', (∀ kind, kind ∈ kinds ↔ kind ∈ kinds') →
          s.classify (.line l) kinds = s.classify (.line l) kinds' := by
  obtain ⟨d, docString⟩ := s
  obtain rfl : docString = none := hs
  have hsound := Dialect.sound_of_mem_known hd
  have hunique := fun kind kind' (h : (start d).Belongs kind l) (h' : (start d).Belongs kind' l) =>
    Belongs.unique hsound h h'
  refine ⟨hunique, fun hlanguage => ⟨hlanguage.comment, fun kind h => ?_⟩, ?_⟩
  · by_contra hk
    simp only [List.mem_cons, List.not_mem_nil, or_false, not_or] at hk
    exact hk.2.1 (hunique _ _ h hlanguage.comment (by simp [hk]) (by simp))
  intro kinds hlanguage hother
  have hplain : ∀ kind ∈ kinds, kind ∉ [.language, .other] := by
    intro kind hm hk
    simp only [List.mem_cons, List.not_mem_nil, or_false] at hk
    rcases hk with rfl | rfl
    · exact hlanguage hm
    · exact hother hm
  -- Whatever is asked of the classes, in whatever order, the answer is the same.
  have hfound : ∀ kinds' : List TokenKind, kinds' ⊆ kinds → ∀ kind ∈ kinds',
      (start d).Belongs kind l →
        (start d).classify (.line l) kinds' = (start d).readLine l kind := by
    intro kinds' hsub kind hm h
    refine classify_of_unique hm h fun k hk hb => ?_
    exact hunique k kind hb h (hplain k (hsub hk)) (hplain kind (hsub hm))
  refine ⟨hfound kinds (List.Subset.refl _), classify_of_not_belongs, fun kinds' hsame => ?_⟩
  have hsub : kinds' ⊆ kinds := fun kind hm => (hsame kind).mpr hm
  by_cases hany : ∃ kind ∈ kinds, (start d).Belongs kind l
  · obtain ⟨kind, hm, h⟩ := hany
    exact (hfound kinds (List.Subset.refl _) kind hm h).trans
      (hfound kinds' hsub kind ((hsame kind).mp hm) h).symm
  · have hnone : ∀ kind ∈ kinds, ¬(start d).Belongs kind l := fun kind hm h => hany ⟨kind, hm, h⟩
    exact (classify_of_not_belongs hnone).trans
      (classify_of_not_belongs fun kind hm => hnone kind (hsub hm)).symm

/-- The title of examples begins with the title of a scenario, and neither is taken for the other,
whichever is asked for first. -/
theorem one_class_at_most_portuguese :
    let s := Scanner.start (.ofKeywords .portuguese)
    let l : Line := ⟨1, "  Cenários: dois".toList⟩
    s.dialect ∈ Dialect.known ∧ s.docString = none ∧ s.Belongs (.title .examples) l ∧
      ¬s.Belongs (.title .scenario) l ∧
      s.classify (.line l) [.title .scenario, .step, .title .examples] =
        s.classify (.line l) [.title .examples, .title .scenario, .step] := by
  intro s l
  have hd : s.dialect ∈ Dialect.known :=
    List.mem_map.mpr ⟨.portuguese, by simp, rfl⟩
  obtain ⟨hunique, -, hclassify⟩ := one_class_at_most hd rfl l
  have hexamples : s.Belongs (.title .examples) l := by decide +kernel
  refine ⟨hd, rfl, hexamples, fun h => ?_, ?_⟩
  · cases hunique _ _ h hexamples (by simp) (by simp)
  · exact (hclassify _ (by simp) (by simp)).2.2 _ fun kind => by
      simp only [List.mem_cons, List.not_mem_nil, or_false]
      exact or_rotate.symm

end Scanner

end FeaturePlan
