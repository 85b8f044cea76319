import FeaturePlan.Proofs.Delimiter
import FeaturePlan.Proofs.Document.Legal
import FeaturePlan.Proofs.Scanner.Classify

/-! # What a written line is read as

Classes are tried in a fixed order, so that a line is read as what it was written for once it has
been refused by the classes before. -/

namespace FeaturePlan

def TokenKind.before (kind : TokenKind) : List TokenKind :=
  inOrder.takeWhile fun k => decide (k ≠ kind)

namespace Scanner

/-- The line is read as the token wherever a line of its class is expected and none that names a
language. -/
structure Reads (s : Scanner) (l : Line) (t : Token) (s' : Scanner) : Prop where
  token : s.readLine l t.kind = .token t s'
  refused : ∀ kind ∈ t.kind.before, kind ≠ .language → s.readLine l kind = .refused

variable {s s' : Scanner} {l : Line} {t : Token}

theorem classify_append {item : Item} {kinds : List TokenKind}
    (h : ∀ kind ∈ kinds, s.read kind item = .refused) (more : List TokenKind) :
    s.classify item (kinds ++ more) = s.classify item more := by
  induction kinds with
  | nil => rfl
  | cons kind kinds ih =>
      have hrest := ih fun k hk => h k (List.mem_cons_of_mem kind hk)
      rw [List.cons_append, classify, h kind List.mem_cons_self, hrest]

/-- A line belongs to a class when the classes that are expected and tried before refuse it. -/
theorem classify_expected {state : State} (ht : s.readLine l t.kind = .token t s')
    (ha : state.accepts t.kind = true)
    (hr : ∀ kind ∈ t.kind.before, state.accepts kind = true → s.readLine l kind = .refused) :
    s.classify (.line l) state.expected = .token t s' := by
  have hsplit : TokenKind.inOrder =
      t.kind.before ++
        t.kind :: (TokenKind.inOrder.dropWhile fun k => decide (k ≠ t.kind)).tail := by
    cases t.kind with
    | title block => cases block <;> rfl
    | _ => rfl
  have htoken : s.read t.kind (.line l) = .token t s' := ht
  rw [State.expected, hsplit, List.filter_append, List.filter_cons_of_pos ha, classify_append]
  · rw [classify, htoken]
  · intro kind hk
    obtain ⟨hb, hac⟩ := List.mem_filter.mp hk
    exact hr kind hb hac

/-- A state that expects the class of a line takes the line for what it says. -/
theorem Reads.classify (h : s.Reads l t s') {q : State} (ha : q.accepts t.kind = true)
    (hl : q.accepts .language = false) : s.classify (.line l) q.expected = .token t s' := by
  refine classify_expected h.token ha fun kind hb hac => h.refused kind hb ?_
  rintro rfl
  simp [hl] at hac

/-! ## Signs that begin a line -/

def Begins (l : Line) (c : Char) : Prop :=
  l.body.head? = some c

theorem Begins.body {c : Char} (h : Begins l c) : ∃ rest, l.body = c :: rest := by
  cases hb : l.body with
  | nil => simp [Begins, hb] at h
  | cons d rest =>
      obtain rfl : d = c := by simpa [Begins, hb] using h
      exact ⟨rest, rfl⟩

/-- Nothing is taken away from a line whose first character can be seen. -/
theorem begins_of_raw {c : Char} {rest : List Char} (hr : l.raw = c :: rest)
    (hc : Text.isBlank c = false) : l.body = l.raw ∧ Begins l c ∧ l.indent = 0 := by
  have hb : l.body = l.raw := by
    rw [Line.body, Text.trimStart_of_startsVisibly ⟨c, rest, hr, hc⟩]
  refine ⟨hb, ?_, ?_⟩
  · rw [Begins, hb, hr]
    rfl
  · simp [Line.indent, hr, hc]

theorem begins_of_indented {w : List Char} (hw : ∀ c ∈ w, Text.isBlank c) {c : Char}
    {rest : List Char} (hr : l.raw = w ++ c :: rest) (hc : Text.isBlank c = false) :
    l.body = c :: rest ∧ Begins l c ∧ l.indent = w.length := by
  have hb : l.body = c :: rest := by
    rw [Line.body, hr]
    exact Text.trimStart_append hw ⟨c, rest, rfl, hc⟩
  refine ⟨hb, ?_, ?_⟩
  · rw [Begins, hb]
    rfl
  · rw [Line.indent, hr, List.takeWhile_append_of_pos hw]
    simp [hc]

theorem after?_eq_none {lead text : List Char} (h : ¬lead <+: text) :
    Text.after? lead text = none := by
  rw [← Text.isSome_after?_iff] at h
  simpa using h

variable {c : Char}

theorem refuses_empty (h : Begins l c) : s.readLine l .empty = .refused := by
  obtain ⟨rest, hb⟩ := h.body
  simp [readLine, Line.isBlank, hb, keep]

theorem refuses_comment (h : Begins l c) (hc : c ≠ '#') : s.readLine l .comment = .refused := by
  obtain ⟨rest, hb⟩ := h.body
  simp [readLine, hb, hc, keep]

theorem refuses_tags (h : Begins l c) (hc : c ≠ '@') : s.readLine l .tags = .refused := by
  obtain ⟨rest, hb⟩ := h.body
  simp [readLine, Line.tags?, hb, hc, keep]

theorem head?_of_begins (h : Begins l c) {lead : List Char} (hne : lead ≠ [])
    (hp : lead <+: l.body) : lead.head? = some c := by
  obtain ⟨more, hm⟩ := hp
  obtain ⟨rest, hb⟩ := h.body
  obtain ⟨d, ds, rfl⟩ := List.exists_cons_of_ne_nil hne
  rw [hb] at hm
  exact congrArg some (List.cons.inj hm).1

/-- A keyword that begins the line begins with the line's first character. -/
theorem isPlainChar_of_begins (h : Begins l c) {k : List Char} (hk : Keyword.IsPlain k)
    (hp : k <+: l.body) : Keyword.isPlainChar c = true := by
  have hhead := hk.head
  rw [head?_of_begins h hk.ne_nil hp] at hhead
  exact hhead

variable {d : Dialect}

theorem titleAfter?_eq_none {k : String} (h : ¬k.toList ++ [':'] <+: l.body) :
    l.titleAfter? k = none := by
  unfold Line.titleAfter?
  cases h₁ : Text.after? k.toList l.body with
  | none => rfl
  | some rest =>
      have h₂ : Text.after? [':'] rest = none := by
        refine after?_eq_none fun hp => h ?_
        rw [Text.after?_eq_some_iff.mp h₁]
        exact (List.prefix_append_right_inj _).mpr hp
      simp [h₂]

theorem textAfter?_eq_none {k : String} (h : ¬k.toList <+: l.body) : l.textAfter? k = none := by
  simp [Line.textAfter?, after?_eq_none h]

/-- No title keyword with a colon behind it begins the line. -/
theorem refuses_title {b : Block} (h : ∀ k ∈ d.titles b, ¬k.toList ++ [':'] <+: l.body) :
    (start d).readLine l (.title b) = .refused := by
  have hn : ((start d).titles b).findSome? (fun keyword =>
      (l.titleAfter? keyword).map (Content.title b keyword)) = none := by
    rw [List.findSome?_eq_none_iff]
    intro k hk
    rw [titleAfter?_eq_none (h k hk)]
    rfl
  rw [readLine, hn]
  rfl

theorem refuses_step (h : ∀ k ∈ d.steps, ¬k.toList <+: l.body) :
    (start d).readLine l .step = .refused := by
  have hn : d.steps.findSome? (fun keyword =>
      (l.textAfter? keyword).map (Content.step keyword)) = none := by
    rw [List.findSome?_eq_none_iff]
    intro k hk
    rw [textAfter?_eq_none (h k hk)]
    rfl
  have hr : (start d).readLine l .step = (start d).keep l.start (d.steps.findSome? fun keyword =>
      (l.textAfter? keyword).map (.step keyword)) := rfl
  rw [hr, hn]
  rfl

theorem refuses_keywords (hd : d.Sound) (h : Begins l c) (hc : Keyword.isPlainChar c = false) :
    (∀ b, (start d).readLine l (.title b) = .refused) ∧
      (start d).readLine l .step = .refused := by
  constructor
  · intro b
    refine refuses_title fun k hk hp => ?_
    have hplain := isPlainChar_of_begins h (hd.titles_plain b k hk)
      ((List.prefix_append k.toList [':']).trans hp)
    simp [hplain] at hc
  · refine refuses_step fun k hk hp => ?_
    have hplain := isPlainChar_of_begins h (hd.steps_plain k hk) hp
    simp [hplain] at hc

theorem refuses_separator (h : Begins l c) (hc : c ≠ '"' ∧ c ≠ '\x60') :
    (start d).readLine l .separator = .refused := by
  have hn : ∀ m : Delimiter, l.textAfter? m.text = none := by
    intro m
    refine textAfter?_eq_none fun hp => ?_
    have hhead := head?_of_begins h (by simp [Delimiter.text, Delimiter.chars]) hp
    cases m <;> simp [Delimiter.text, Delimiter.chars, Delimiter.mark] at hhead
    · exact hc.1 hhead.symm
    · exact hc.2 hhead.symm
  simp [readLine, readSeparator, start, hn]

end Scanner

end FeaturePlan
