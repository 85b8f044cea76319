import FeaturePlan.Proofs.Scanner.Reading
import FeaturePlan.Proofs.Text.Words

/-! # The lines of a document, read one by one

Each line that is written for a part of a document is read as that part, in the dialect in which
it was written. -/

namespace FeaturePlan

theorem Tag.IsLegal.name_eq {t : Tag} (ht : t.IsLegal) : ∃ c w, t.name.toList = '@' :: c :: w := by
  obtain ⟨hat, hword, -⟩ := ht
  cases hn : t.name.toList with
  | nil => simp [hn] at hat
  | cons a w =>
      obtain rfl : a = '@' := by simpa [hn] using hat
      cases w with
      | nil => simp [hn] at hword
      | cons c w => exact ⟨c, w, rfl⟩

namespace Scanner

variable {s : Scanner} {l : Line} {d : Dialect}

/-! ## Lines that a sign begins -/

theorem reads_comment (h : Begins l '#') :
    s.Reads l ⟨l.margin, s.dialect, .comment (.ofList l.raw)⟩ s where
  token := by
    obtain ⟨rest, hb⟩ := h.body
    simp [readLine, hb, keep, Token.kind, Content.kind]
  refused := by
    intro kind hk hl
    have hcases : kind = .eof ∨ kind = .empty ∨ kind = .language := by
      simpa [TokenKind.before, TokenKind.inOrder, Token.kind, Content.kind] using hk
    rcases hcases with rfl | rfl | rfl
    · rfl
    · exact refuses_empty h
    · exact absurd rfl hl

theorem reads_tag {t : Tag} (ht : t.IsLegal) (hr : l.raw = t.name.toList) :
    ∃ column, s.Reads l ⟨l.start, s.dialect, .tags [⟨column, t.name⟩]⟩ s := by
  obtain ⟨c, w, hn⟩ := ht.name_eq
  obtain ⟨hb, hbegins, hindent⟩ := begins_of_raw (hr.trans hn) (by decide)
  refine ⟨1, ?_, ?_⟩
  · have hruns : Text.runs 0 l.body = [(0, t.name.toList)] := by
      rw [hb, hr]
      exact Text.runs_of_word ⟨by simp [hn], ht.2.2⟩ 0
    have hhead : l.body.head? = some '@' := hbegins
    have hlead : Line.leadingTags [(0, t.name.toList)] = some [(0, t.name.toList)] := by
      simp [Line.leadingTags, hn, Line.isTag]
    simp [readLine, Line.tags?, hhead, hruns, hlead, hindent, keep, Token.kind, Content.kind]
  · intro kind hk hl
    have hcases : kind = .eof ∨ kind = .empty ∨ kind = .language ∨ kind = .comment := by
      simpa [TokenKind.before, TokenKind.inOrder, Token.kind, Content.kind] using hk
    rcases hcases with rfl | rfl | rfl | rfl
    · rfl
    · exact refuses_empty hbegins
    · exact absurd rfl hl
    · exact refuses_comment hbegins (by decide)

theorem reads_row (hd : d.Sound) {r : TableRow} (hv : ∀ v ∈ r.values, Cell.IsTrimmed v.toList)
    (hr : l.raw = r.line) :
    ∃ cells, (start d).Reads l ⟨l.start, d, .row cells⟩ (start d) ∧
      cells.map (·.text) = r.values := by
  rw [TableRow.line_eq] at hr
  obtain ⟨hb, hbegins, -⟩ := begins_of_raw hr (by decide)
  obtain ⟨cells, hc, hvalues⟩ := Cell.ofRow_cells (r.values.map String.toList)
    (by simpa using hv)
  refine ⟨cells.map fun cell => ⟨l.indent + cell.1 + 1, .ofList cell.2⟩, ⟨?_, ?_⟩, ?_⟩
  · have hcells : l.cells? = some (cells.map fun cell =>
        ⟨l.indent + cell.1 + 1, .ofList cell.2⟩) := by
      rw [Line.cells?, hb, hr, hc]
      rfl
    simp [readLine, hcells, keep, Token.kind, Content.kind, start]
  · intro kind hk hl
    obtain ⟨htitle, hstep⟩ := refuses_keywords hd hbegins (by decide)
    cases kind with
    | eof => rfl
    | empty => exact refuses_empty hbegins
    | language => exact absurd rfl hl
    | comment => exact refuses_comment hbegins (by decide)
    | tags => exact refuses_tags hbegins (by decide)
    | title b => exact htitle b
    | step => exact hstep
    | separator => exact refuses_separator hbegins (by decide)
    | row | other => simp [TokenKind.before, TokenKind.inOrder, Token.kind, Content.kind] at hk
  · calc _ = (cells.map Prod.snd).map String.ofList := by simp
      _ = r.values := by simp [hvalues]

/-! ## Lines that a keyword begins -/

/-- Only one title keyword with a colon behind it can begin a line. -/
theorem title_unique {k m body : List Char} (hk : ':' ∉ k) (hm : ':' ∉ m)
    (hkb : k ++ [':'] <+: body) (hmb : m ++ [':'] <+: body) : k = m := by
  rcases List.prefix_or_prefix_of_prefix hkb hmb with h | h
  · rcases List.prefix_concat_iff.mp h with h | h
    · exact (List.append_inj' h rfl).1
    · exact absurd (h.subset (by simp)) hm
  · rcases List.prefix_concat_iff.mp h with h | h
    · exact (List.append_inj' h rfl).1.symm
    · exact absurd (h.subset (by simp)) hk

/-- The first answer is that of `x` if no other element that answers comes before it. -/
theorem findSome?_eq_of_pairwise {α β : Type} {R : α → α → Prop} {xs : List α}
    (hR : xs.Pairwise R) {f : α → Option β} {x : α} {y : β} (hx : x ∈ xs) (hf : f x = some y)
    (hu : ∀ z ∈ xs, (f z).isSome → R z x → z = x) : xs.findSome? f = some y := by
  have hs : (xs.findSome? f).isSome := List.findSome?_isSome_iff.mpr ⟨x, hx, by simp [hf]⟩
  obtain ⟨w, hw⟩ := Option.isSome_iff_exists.mp hs
  obtain ⟨before, z, after, rfl, hz, hnone⟩ := List.findSome?_eq_some_iff.mp hw
  have hzx : z = x := by
    rcases List.mem_append.mp hx with hx | hx
    · simp [hnone x hx] at hf
    · rcases List.mem_cons.mp hx with rfl | hx
      · rfl
      · have hzR : R z x := List.rel_of_pairwise_cons (List.pairwise_append.mp hR).2.1 hx
        exact hu z (by simp) (by simp [hz]) hzR
  rw [hw, ← hz, hzx, hf]

variable {b : Block} {keyword name text : String}

theorem body_of_plain (hk : Keyword.IsPlain keyword.toList)
    (hr : l.raw = (keyword ++ text).toList) :
    l.body = keyword.toList ++ text.toList ∧
      ∃ c, Begins l c ∧ Keyword.isPlainChar c = true := by
  obtain ⟨c, rest, hc, hplain⟩ := hk.exists_cons
  have hraw : l.raw = c :: (rest ++ text.toList) := by rw [hr, String.toList_append, hc]; rfl
  have hvisible : Text.isBlank c = false := by
    simp [Keyword.isPlainChar] at hplain
    simp [hplain]
  obtain ⟨hb, hbegins, -⟩ := begins_of_raw hraw hvisible
  refine ⟨?_, c, hbegins, hplain⟩
  rw [hb, hr, String.toList_append]

theorem refuses_signs {c : Char} (h : Begins l c) (hc : Keyword.isPlainChar c = true) :
    (start d).readLine l .empty = .refused ∧ (start d).readLine l .comment = .refused ∧
      (start d).readLine l .tags = .refused := by
  simp [Keyword.isPlainChar] at hc
  exact ⟨refuses_empty h, refuses_comment h (by simp [hc]), refuses_tags h (by simp [hc])⟩

theorem refuses_other_titles (hd : d.Sound) (hk : keyword ∈ d.titles b)
    (hr : l.raw = (keyword ++ ": " ++ name).toList) {c : Block} (hc : c ≠ b) :
    (start d).readLine l (.title c) = .refused := by
  rw [String.append_assoc] at hr
  obtain ⟨hbody, -⟩ := body_of_plain (hd.titles_plain b keyword hk) hr
  refine refuses_title fun m hm hp => hc ?_
  have hown : keyword.toList ++ [':'] <+: l.body := by
    rw [hbody, String.toList_append]
    exact ⟨' ' :: name.toList, by simp⟩
  have hkm := title_unique (hd.titles_colon c m hm) (hd.titles_colon b keyword hk) hp hown
  obtain rfl : m = keyword := String.toList_inj.mp hkm
  exact hd.titles_apart c b m hm hk

theorem reads_title (hd : d.Sound) (hk : keyword ∈ d.titles b) (hn : Text.IsName name)
    (hr : l.raw = (keyword ++ ": " ++ name).toList) :
    (start d).Reads l ⟨l.start, d, .title b keyword name⟩ (start d) := by
  have hother := fun c => refuses_other_titles hd hk hr (c := c)
  rw [String.append_assoc] at hr
  obtain ⟨hbody, c, hbegins, hplain⟩ := body_of_plain (hd.titles_plain b keyword hk) hr
  obtain ⟨hempty, hcomment, htags⟩ := refuses_signs (d := d) hbegins hplain
  have hown : keyword.toList ++ [':'] <+: l.body := by
    rw [hbody, String.toList_append]
    exact ⟨' ' :: name.toList, by simp⟩
  constructor
  · have htitle : l.titleAfter? keyword = some name := by
      have h₁ : Text.after? keyword.toList l.body = some (':' :: ' ' :: name.toList) := by
        rw [Text.after?_eq_some_iff, hbody, String.toList_append]
        rfl
      have h₂ : Text.after? [':'] (':' :: ' ' :: name.toList) = some (' ' :: name.toList) := by
        rw [Text.after?_eq_some_iff]
        rfl
      have h₃ : Text.trim (' ' :: name.toList) = name.toList := by
        rw [Text.trim_cons_of_blank (by decide), hn.1]
      simp [Line.titleAfter?, h₁, h₂, h₃]
    have hfind : ((start d).titles b).findSome? (fun k =>
        (l.titleAfter? k).map (Content.title b k)) = some (.title b keyword name) := by
      refine findSome?_eq_of_pairwise (R := fun _ _ => True)
        (List.pairwise_of_forall fun _ _ => trivial) hk (by simp [htitle]) ?_
      intro m hm hs _
      have hp : m.toList ++ [':'] <+: l.body := by
        by_cases hp : m.toList ++ [':'] <+: l.body
        · exact hp
        · simp [titleAfter?_eq_none hp] at hs
      exact String.toList_inj.mp
        (title_unique (hd.titles_colon b m hm) (hd.titles_colon b keyword hk) hp hown)
    have hread : (start d).readLine l (.title b) = (start d).keep l.start
        (((start d).titles b).findSome? fun k => (l.titleAfter? k).map (.title b k)) := rfl
    rw [Token.kind, Content.kind, hread, hfind]
    rfl
  · intro kind hkind hl
    cases kind with
    | eof => rfl
    | empty => exact hempty
    | language => exact absurd rfl hl
    | comment => exact hcomment
    | tags => exact htags
    | title c =>
        refine hother c ?_
        rintro rfl
        simpa [Token.kind, Content.kind] using List.mem_takeWhile_imp hkind
    | step | separator | row | other =>
        cases b <;> simp [TokenKind.before, TokenKind.inOrder, Token.kind, Content.kind] at hkind

theorem reads_step (hd : d.Sound) {st : Step} (hst : st.IsLegal d)
    (hr : l.raw = (st.keyword ++ st.text).toList) :
    (start d).Reads l ⟨l.start, d, .step st.keyword st.text⟩ (start d) := by
  obtain ⟨hk, hname, hlongest, -⟩ := hst
  obtain ⟨hbody, c, hbegins, hplain⟩ := body_of_plain (hd.steps_plain _ hk) hr
  obtain ⟨hempty, hcomment, htags⟩ := refuses_signs (d := d) hbegins hplain
  have hown : st.keyword.toList <+: l.body := ⟨st.text.toList, hbody.symm⟩
  constructor
  · have htext : l.textAfter? st.keyword = some st.text := by
      have hafter : Text.after? st.keyword.toList l.body = some st.text.toList :=
        Text.after?_eq_some_iff.mpr hbody
      simp [Line.textAfter?, hafter, hname.1]
    have hfind : d.steps.findSome? (fun k => (l.textAfter? k).map (Content.step k)) =
        some (.step st.keyword st.text) := by
      refine findSome?_eq_of_pairwise hd.steps_sorted hk (by simp [htext]) ?_
      intro m hm hs hlength
      have hp : m.toList <+: l.body := by
        by_cases hp : m.toList <+: l.body
        · exact hp
        · simp [textAfter?_eq_none hp] at hs
      have hle : m.length ≤ st.keyword.length :=
        hlongest m hm (by rwa [String.toList_append, ← hbody])
      have heq : m.toList.length = st.keyword.toList.length := by
        rw [String.length_toList, String.length_toList]
        omega
      exact String.toList_inj.mp
        ((List.prefix_of_prefix_length_le hp hown (Nat.le_of_eq heq)).eq_of_length heq)
    have hread : (start d).readLine l .step = (start d).keep l.start
        (d.steps.findSome? fun k => (l.textAfter? k).map (.step k)) := rfl
    rw [Token.kind, Content.kind, hread, hfind]
    rfl
  · intro kind hkind hl
    cases kind with
    | eof => rfl
    | empty => exact hempty
    | language => exact absurd rfl hl
    | comment => exact hcomment
    | tags => exact htags
    | title b =>
        refine refuses_title fun m hm hp => ?_
        obtain ⟨hmk, hkm⟩ := hd.titles_steps b m hm _ hk
        rcases List.prefix_or_prefix_of_prefix hp hown with h | h
        · exact hmk h
        · exact hkm h
    | step | separator | row | other =>
        simp [TokenKind.before, TokenKind.inOrder, Token.kind, Content.kind] at hkind

/-! ## Doc strings -/

/-- The line that opens a doc string, however far it is indented. -/
theorem reads_separator (hd : d.Sound) {m : Delimiter} {w : List Char}
    (hw : ∀ c ∈ w, Text.isBlank c) {type : String} (ht : Text.IsName type)
    (hr : l.raw = w ++ (m.chars ++ type.toList)) :
    (start d).Reads l ⟨l.start, d, .separator m type⟩ ⟨d, some ⟨m, w.length⟩⟩ := by
  obtain ⟨hb, hbegins, hindent⟩ := begins_of_indented hw hr m.isBlank_mark
  have hbody : l.body = m.text.toList ++ type.toList := by
    rw [hb]
    simp [Delimiter.text, Delimiter.chars]
  have hplain : Keyword.isPlainChar m.mark = false := by cases m <;> decide
  constructor
  · have htype : l.textAfter? m.text = some type := by
      have hafter : Text.after? m.text.toList l.body = some type.toList :=
        Text.after?_eq_some_iff.mpr hbody
      simp [Line.textAfter?, hafter, ht.1]
    cases m with
    | quotes =>
        simp [readLine, readSeparator, start, htype, hindent, Token.kind, Content.kind]
    | backticks =>
        have hquotes : l.textAfter? Delimiter.quotes.text = none := by
          refine textAfter?_eq_none fun hp => ?_
          have hhead := head?_of_begins hbegins (by simp [Delimiter.text, Delimiter.chars]) hp
          simp [Delimiter.text, Delimiter.chars, Delimiter.mark] at hhead
        simp [readLine, readSeparator, start, htype, hquotes, hindent, Token.kind, Content.kind]
  · intro kind hkind hl
    obtain ⟨htitle, hstep⟩ := refuses_keywords hd hbegins hplain
    cases kind with
    | eof => rfl
    | empty => exact refuses_empty hbegins
    | language => exact absurd rfl hl
    | comment => exact refuses_comment hbegins (by cases m <;> decide)
    | tags => exact refuses_tags hbegins (by cases m <;> decide)
    | title b => exact htitle b
    | step => exact hstep
    | separator | row | other =>
        simp [TokenKind.before, TokenKind.inOrder, Token.kind, Content.kind] at hkind

theorem expected_docString (b : Block) : (State.docString b).expected = [.separator, .other] := by
  cases b <;> rfl

theorem classify_docString {o : OpenDocString} (hs : s.docString = some o) (l : Line) (b : Block) :
    s.classify (.line l) (State.docString b).expected =
      if o.delimiter.chars <+: l.body then
        .token ⟨l.start, s.dialect, .separator o.delimiter ""⟩ { s with docString := none }
      else .token ⟨l.margin, s.dialect, .other (s.freeText l)⟩ s := by
  rw [expected_docString, classify]
  simp only [read, readLine, readSeparator, hs, Text.isSome_after?_iff]
  by_cases hl : o.delimiter.chars <+: l.body
  · simp only [hl, if_true]
  · simp only [hl, if_false]
    rfl

/-- A line inside a doc string, indented at least as far as the delimiter. An empty line need not
be. -/
def StandsFor (m : Delimiter) (w content raw : List Char) : Prop :=
  raw = w ++ m.escape content ∨ content = [] ∧ raw <+: w

/-- The indentation of the delimiter is no part of the content. -/
theorem StandsFor.unindented {m : Delimiter} {w content : List Char} (hw : ∀ c ∈ w, Text.isBlank c)
    (h : StandsFor m w content l.raw) : l.unindented w.length = m.escape content := by
  rcases h with hr | ⟨rfl, more, rfl⟩
  · have hindent : min l.indent w.length = w.length := by
      rw [Line.indent, hr, List.takeWhile_append_of_pos hw]
      simp
    rw [Line.unindented, hindent, hr, List.drop_left]
  · have hblank : ∀ c ∈ l.raw, Text.isBlank c := fun c hc => hw c (List.mem_append_left more hc)
    have hindent : l.indent = l.raw.length := by
      rw [Line.indent, List.takeWhile_eq_self_iff.mpr hblank]
    have hnil : m.escape [] = [] := rfl
    rw [Line.unindented, hnil, hindent, List.drop_eq_nil_iff]
    simp

theorem StandsFor.body {m : Delimiter} {w content : List Char} (hw : ∀ c ∈ w, Text.isBlank c)
    (h : StandsFor m w content l.raw) : l.body = Text.trimStart (m.escape content) := by
  rcases h with hr | ⟨rfl, more, rfl⟩
  · rw [Line.body, hr, Text.trimStart, List.dropWhile_append_of_pos hw, Text.trimStart]
  · have hblank : ∀ c ∈ l.raw, Text.isBlank c := fun c hc => hw c (List.mem_append_left more hc)
    rw [Line.body, Text.trimStart, List.dropWhile_eq_nil_iff.mpr hblank]
    rfl

theorem classify_content {m : Delimiter} {w content : List Char} (b : Block)
    (hw : ∀ c ∈ w, Text.isBlank c) (hc : ¬m.escapedChars <:+: content)
    (hr : StandsFor m w content l.raw) :
    Scanner.classify ⟨d, some ⟨m, w.length⟩⟩ (.line l) (State.docString b).expected =
      .token ⟨l.margin, d, .other (.ofList content)⟩ ⟨d, some ⟨m, w.length⟩⟩ := by
  have hp : ¬m.chars <+: l.body := by
    rw [hr.body hw]
    exact Delimiter.not_prefix_trimStart_escape content
  have htext : freeText ⟨d, some ⟨m, w.length⟩⟩ l = .ofList content := by
    have hunindented := hr.unindented hw
    simp [freeText, indentToDrop, hunindented, Delimiter.unescape_escape content hc]
  rw [classify_docString rfl l b, if_neg hp, htext]

theorem classify_closing {m : Delimiter} {w : List Char} (b : Block) (k : Nat)
    (hw : ∀ c ∈ w, Text.isBlank c) (hr : l.raw = w ++ m.chars) :
    Scanner.classify ⟨d, some ⟨m, k⟩⟩ (.line l) (State.docString b).expected =
      .token ⟨l.start, d, .separator m ""⟩ (start d) := by
  obtain ⟨hb, -, -⟩ := begins_of_indented hw hr m.isBlank_mark
  have hp : m.chars <+: l.body := by
    rw [hb]
    exact List.prefix_append m.chars _
  rw [classify_docString rfl l b, if_pos hp]
  rfl

/-! ## Free text -/

theorem keep_eq_refused {place : Location} {content : Option Content} :
    s.keep place content = .refused ↔ content = none := by
  cases content <;> simp [keep]

/-- A line is refused because of what it says, wherever it stands. -/
theorem refused_of_raw {kind : TokenKind} {m : Line} (hr : l.raw = m.raw)
    (hk : kind ≠ .language) (h : s.readLine m kind = .refused) :
    s.readLine l kind = .refused := by
  obtain ⟨number, raw⟩ := l
  obtain rfl : raw = m.raw := hr
  cases kind with
  | language => exact absurd rfl hk
  | separator =>
      simp only [readLine, readSeparator] at h ⊢
      split at h
      · split at h
        · simp at h
        · rename_i hc
          exact if_neg hc
      · split at h
        · rename_i hc
          have hc' : [Delimiter.quotes, Delimiter.backticks].findSome? (fun d =>
              ((⟨number, m.raw⟩ : Line).textAfter? d.text).map
                fun contentType => (d, contentType)) = none := hc
          rw [hc']
        · simp at h
  | other => simp [readLine, keep] at h
  | eof => rfl
  | _ => exact keep_eq_refused.mpr (keep_eq_refused.mp h)

theorem refused_of_not_accepts {kind : TokenKind} (hk : kind ≠ .language)
    (h : s.accepts kind (.line l) = false) : s.readLine l kind = .refused := by
  simp only [accepts, read] at h
  cases hr : s.readLine l kind with
  | refused => rfl
  | token t s' => simp [hr] at h
  | unknownLanguage code place => exact absurd hr (readLine_ne_unknownLanguage hk code place)

theorem reads_free (h : d.IsFree l.raw) :
    (start d).Reads l ⟨l.margin, d, .other (.ofList l.raw)⟩ (start d) where
  token := by
    simp [readLine, freeText, indentToDrop, Line.unindented, start, keep, Token.kind, Content.kind]
  refused := by
    intro kind hk hl
    have hm : kind ∈ TokenKind.inOrder := (List.takeWhile_prefix _).subset hk
    have hne : kind ≠ .other := by
      rintro rfl
      simp [TokenKind.before, TokenKind.inOrder, Token.kind, Content.kind] at hk
    exact refused_of_raw (m := ⟨1, l.raw⟩) rfl hl (refused_of_not_accepts hl (h kind hm hne))

/-- A blank line is free text where blank lines are not expected. -/
theorem classify_invisible (hd : d.Sound) (h : Text.isInvisible l.raw) {state : State}
    (ho : state.accepts .other = true) (he : state.accepts .empty = false)
    (hl : state.accepts .language = false) :
    (start d).classify (.line l) state.expected =
      .token ⟨l.margin, d, .other (.ofList l.raw)⟩ (start d) := by
  have hbody : l.body = [] := Text.isInvisible_iff.mp h
  refine classify_expected (t := ⟨l.margin, d, .other (.ofList l.raw)⟩) ?_ ho ?_
  · simp [readLine, freeText, indentToDrop, Line.unindented, start, keep, Token.kind, Content.kind]
  · intro kind hk hac
    cases kind with
    | eof => rfl
    | empty => simp [he] at hac
    | language => simp [hl] at hac
    | comment => simp [readLine, hbody, keep]
    | tags => simp [readLine, Line.tags?, hbody, keep]
    | title b =>
        refine refuses_title fun k _ hp => ?_
        simp [hbody] at hp
    | step =>
        refine refuses_step fun k hk hp => ?_
        rw [hbody, List.prefix_nil] at hp
        exact (hd.steps_plain k hk).ne_nil hp
    | separator =>
        have hn : ∀ m : Delimiter, l.textAfter? m.text = none := by
          intro m
          refine textAfter?_eq_none ?_
          simp [hbody, Delimiter.text, Delimiter.chars]
        simp [readLine, readSeparator, start, hn]
    | row => simp [readLine, Line.cells?, Cell.ofRow, Text.after?, hbody, keep]
    | other => simp [TokenKind.before, TokenKind.inOrder, Token.kind, Content.kind] at hk

/-! ## The first line and the end -/

theorem classify_language {code : String} (hf : Dialect.find? code = some d)
    (hr : l.raw = ("# language: " ++ code).toList) :
    s.classify (.line l) State.start.expected =
      .token ⟨l.start, d, .language code⟩ { s with dialect := d } := by
  obtain ⟨hd, rfl⟩ := Dialect.sound_of_find? hf
  have hraw : l.raw = '#' :: (" language: ".toList ++ d.code.toList) := by
    rw [hr, String.toList_append]
    rfl
  obtain ⟨-, hbegins, -⟩ := begins_of_raw hraw (by decide)
  have hcode : l.language? = some d.code := by
    rw [← hd.language, ← hr]
    rfl
  refine classify_expected (t := ⟨l.start, d, .language d.code⟩) ?_ rfl ?_
  · simp [readLine, readLanguage, hcode, hf, Token.kind, Content.kind]
  · intro kind hk _
    have hcases : kind = .eof ∨ kind = .empty := by
      simpa [TokenKind.before, TokenKind.inOrder, Token.kind, Content.kind] using hk
    rcases hcases with rfl | rfl
    · rfl
    · exact refuses_empty hbegins

theorem classify_eof {state : State} (place : Location) (h : state.accepts .eof = true) :
    s.classify (.eof place) state.expected = .token ⟨place, s.dialect, .eof⟩ s := by
  have hsplit : TokenKind.inOrder = .eof :: TokenKind.inOrder.tail := rfl
  rw [State.expected, hsplit, List.filter_cons_of_pos h]
  rfl

end Scanner

end FeaturePlan
