import FeaturePlan.Proofs.Document.Comments
import FeaturePlan.Proofs.Document.ExamplesTags
import FeaturePlan.Proofs.Document.Origin

/-! # The language of a text

The dialect of a text is settled once. As long as nothing but blank lines and comments has been
read, a line that names a known language changes the dialect, and settles it; tags, the title of the
feature and the end of the text leave it as it is, and settle it too. From then on lines that name a
language are comments, or text of a doc string. -/

namespace FeaturePlan

/-! ## Where languages are heeded -/

def TokenKind.isAside (kind : TokenKind) : Bool :=
  kind ∈ [.empty, .comment]

namespace State

variable {s s' : State} {kind : TokenKind} {ahead : Bool} {actions : List Action}

/-- Languages are heeded where a text starts, and nowhere else. -/
theorem accepts_language_iff : s.accepts .language ↔ s = .start := by
  cases s <;> simp [accepts, Block.follows_eq_false]

theorem accepts_comment (hs : s ≠ .done) (hd : s.inDocString = false) : s.accepts .comment := by
  cases s <;> simp_all [accepts, inDocString]

/-- Only blank lines and comments leave a text where it starts. -/
theorem eq_start_iff_of_next (h : s.next ahead kind = some (actions, s')) :
    s' = .start ↔ s = .start ∧ kind.isAside := by
  have hblock : s.followBlock ahead kind = some (actions, s') →
      (s' = .start ↔ s = .start ∧ kind.isAside) := by
    intro hf
    obtain ⟨b, hb, hfollow⟩ := Option.bind_eq_some_iff.mp hf
    have hs : s ≠ .start := fun hs => by simp [hs, block?] at hb
    simp only [follow] at hfollow
    split at hfollow <;> try split at hfollow
    all_goals
      first
      | (obtain ⟨-, rfl⟩ := Prod.mk.inj (Option.some.inj hfollow); simp [hs])
      | cases hfollow
  simp only [next] at h
  split at h <;> try split at h
  all_goals
    first
    | exact hblock h
    | (obtain ⟨-, rfl⟩ := Prod.mk.inj (Option.some.inj h); simp [TokenKind.isAside])
    | cases h

end State

namespace Scanner

variable {s s' : Scanner} {l : Line} {t : Token} {kind : TokenKind} {item : Item} {code : String}

/-- A line that names a language is read in the dialect of that language. -/
theorem exists_of_readLanguage (h : s.readLanguage l = .token t s') :
    ∃ code e, l.language? = some code ∧ Dialect.find? code = some e ∧
      t = ⟨l.start, e, .language code⟩ ∧ s' = { s with dialect := e } := by
  simp only [readLanguage] at h
  split at h
  · cases h
  · next code hcode =>
    split at h
    · cases h
    · next e he =>
      obtain ⟨rfl, rfl⟩ := Reading.token.inj h
      exact ⟨code, e, hcode, he, rfl, rfl⟩

/-- A line carries the dialect in which the next one is read. -/
theorem dialect_of_read (h : s.read kind item = .token t s') :
    t.dialect = s'.dialect ∧ (kind ≠ .language → s'.dialect = s.dialect) := by
  have hkeep : ∀ {place : Location} {content : Option Content},
      s.keep place content = .token t s' →
        t.dialect = s'.dialect ∧ (kind ≠ .language → s'.dialect = s.dialect) := by
    intro place content hk
    obtain ⟨-, rfl, ht⟩ := keep_eq_token hk
    exact ⟨by rw [ht], fun _ => rfl⟩
  cases item with
  | eof place => exact hkeep h
  | line l =>
    cases kind with
    | eof => cases h
    | language =>
      obtain ⟨code, e, -, -, rfl, rfl⟩ := exists_of_readLanguage h
      exact ⟨rfl, fun hne => absurd rfl hne⟩
    | separator =>
      simp only [read, readLine, readSeparator] at h
      split at h <;> split at h
      all_goals
        first
        | (obtain ⟨rfl, rfl⟩ := Reading.token.inj h; exact ⟨rfl, fun _ => rfl⟩)
        | cases h
    | other =>
      obtain ⟨rfl, rfl⟩ := Reading.token.inj h
      exact ⟨rfl, fun _ => rfl⟩
    | _ => exact hkeep h

theorem begins_of_language? (h : l.language? = some code) : Begins l '#' := by
  obtain ⟨rest, hrest, -⟩ := Option.bind_eq_some_iff.mp h
  rw [Begins, Text.after?_eq_some_iff.mp hrest]
  rfl

/-- Where a text starts, a line that names a language is asked for it before anything else. -/
theorem classify_start (h : l.language? = some code) :
    s.classify (.line l) State.start.expected = s.readLanguage l := by
  have hexpected : State.start.expected =
      [.eof, .empty, .language, .comment, .tags, .title .feature] := rfl
  have hempty : s.read .empty (.line l) = .refused := refuses_empty (begins_of_language? h)
  have hlanguage : s.read .language (.line l) = s.readLanguage l := rfl
  have heof : s.read .eof (.line l) = .refused := rfl
  rw [hexpected, classify, heof, classify, hempty, classify, hlanguage]
  simp only [readLanguage, h]
  cases Dialect.find? code <;> rfl

/-- Below the start such a line is a comment, and text inside a doc string. -/
theorem classify_of_language? (h : l.language? = some code) {q : State} (hstart : q ≠ .start)
    (hdone : q ≠ .done) (hq : s.docString.isSome = q.inDocString) :
    s.classify (.line l) q.expected = .token ⟨l.margin, s.dialect,
      if q.inDocString then .other (s.freeText l) else .comment (.ofList l.raw)⟩ s := by
  have hbegins := begins_of_language? h
  have hhead : l.body.head? = some '#' := hbegins
  cases hdoc : q.inDocString with
  | false =>
    refine classify_expected (t := ⟨l.margin, s.dialect, .comment (.ofList l.raw)⟩) ?_
      (State.accepts_comment hdone hdoc) ?_
    · simp only [Token.kind, Content.kind, readLine, if_pos hhead]
      rfl
    · intro kind hbefore haccepts
      have hkinds : kind ∈ [TokenKind.eof, .empty, .language] := hbefore
      simp only [List.mem_cons, List.not_mem_nil, or_false] at hkinds
      rcases hkinds with rfl | rfl | rfl
      · rfl
      · exact refuses_empty hbegins
      · exact absurd (State.accepts_language_iff.mp haccepts) hstart
  | true =>
    rw [hdoc, Option.isSome_iff_exists] at hq
    obtain ⟨o, ho⟩ := hq
    have hnone : Text.after? o.delimiter.chars l.body = none := by
      refine after?_eq_none fun hp => ?_
      have hmark := head?_of_begins hbegins (by simp [Delimiter.chars]) hp
      cases hd : o.delimiter <;> simp [hd, Delimiter.chars, Delimiter.mark] at hmark
    have hseparator : s.read .separator (.line l) = .refused := by
      simp [read, readLine, readSeparator, ho, hnone]
    cases q with
    | docString b =>
      have hexpected : (State.docString b).expected = [.separator, .other] := rfl
      rw [hexpected, classify, hseparator]
      rfl
    | _ => cases hdoc

end Scanner

/-! ## How the dialect is settled -/

def Token.IsAside (d : Dialect) (t : Token) : Prop :=
  t.kind.isAside ∧ t.dialect = d

/-- The line names a known language, and is the first to be read in its dialect. -/
def Token.NamesLanguage (t : Token) : Prop :=
  ∃ code, t.content = .language code ∧ Dialect.find? code = some t.dialect

/-- The line settles the dialect of a text that starts in dialect `d`: it names a language, or it
leaves the dialect at that. -/
def Token.Settles (d : Dialect) (t : Token) : Prop :=
  t.NamesLanguage ∨ (t.kind ≠ .language ∧ ¬t.kind.isAside) ∧ t.dialect = d

/-- The dialect of a text is not settled by its lines so far, or it is by one of them: which dialect
that is. -/
inductive Dialect.Settled (d : Dialect) : List Token → Option Dialect → Prop where
  | pending {above} : (∀ t ∈ above, t.IsAside d) → Settled d above none
  | settled {above t below} : (∀ u ∈ above, u.IsAside d) → t.Settles d →
      (∀ u ∈ below, u.kind ≠ .language ∧ u.dialect = t.dialect) →
      Settled d (above ++ t :: below) (some t.dialect)

/-- The cursor has not left the start of a text in dialect `d`, or it has, and reads lines in the
dialect that is settled. -/
def Cursor.Speaks (d : Dialect) (c : Cursor) : Option Dialect → Prop
  | none => c.state = .start ∧ c.scanner.dialect = d
  | some e => c.state ≠ .start ∧ c.scanner.dialect = e

theorem Token.NamesLanguage.kind {t : Token} (h : t.NamesLanguage) : t.kind = .language := by
  obtain ⟨code, hcontent, -⟩ := h
  rw [Token.kind, hcontent]
  rfl

theorem Token.Settles.not_isAside {d : Dialect} {t : Token} (h : t.Settles d) :
    ¬t.kind.isAside := by
  rcases h with h | h
  · simp [h.kind, TokenKind.isAside]
  · exact h.1.2

namespace Dialect

variable {d : Dialect} {o : Option Dialect} {ts us : List Token} {t : Token}

/-- What was settled after more lines was settled after fewer, or it was pending. -/
theorem Settled.of_prefix (h : d.Settled ts o) (hp : us <+: ts) : ∃ o', d.Settled us o' := by
  obtain ⟨more, rfl⟩ := hp
  generalize hts : us ++ more = ts at h
  cases h with
  | pending habove => exact ⟨none, .pending fun t ht => habove t (hts ▸ List.mem_append_left _ ht)⟩
  | settled habove ht hbelow =>
    rcases List.append_eq_append_iff.mp hts with ⟨rest, rfl, -⟩ | ⟨rest, rfl, hrest⟩
    · exact ⟨none, .pending fun t ht => habove t (List.mem_append_left _ ht)⟩
    · cases rest with
      | nil =>
        rw [List.append_nil]
        exact ⟨none, .pending habove⟩
      | cons u rest =>
        obtain ⟨rfl, rfl⟩ := List.cons.inj hrest
        exact ⟨_, .settled habove ht fun v hv => hbelow v (List.mem_append_left _ hv)⟩

/-- A line that names a language stands between blank lines and comments of the one dialect and
lines of the other. -/
theorem Settled.around {above below : List Token} (h : d.Settled (above ++ t :: below) o)
    (ht : t.kind = .language) :
    t.NamesLanguage ∧ (∀ u ∈ above, u.IsAside d) ∧
      ∀ u ∈ below, u.kind ≠ .language ∧ u.dialect = t.dialect := by
  generalize hts : above ++ t :: below = ts at h
  have hnot : ∀ {as : List Token}, (∀ u ∈ as, u.IsAside d) → t ∉ as := by
    intro as has hm
    have haside := (has t hm).1
    rw [ht] at haside
    cases haside
  cases h with
  | pending hall => exact absurd (hts ▸ List.mem_append_right _ List.mem_cons_self) (hnot hall)
  | @settled above' t' below' habove ht' hbelow =>
    rcases List.append_eq_append_iff.mp hts with ⟨rest, rfl, hrest⟩ | ⟨rest, rfl, hrest⟩ <;>
      cases rest with
      | nil =>
        obtain ⟨rfl, rfl⟩ := List.cons.inj hrest
        refine ⟨ht'.resolve_right fun h => h.1.1 ht, by simpa using habove, hbelow⟩
      | cons u rest =>
        obtain ⟨rfl, rfl⟩ := List.cons.inj hrest
        first
        | exact absurd (List.mem_append_right _ List.mem_cons_self) (hnot habove)
        | exact absurd ht (hbelow t (List.mem_append_right _ List.mem_cons_self)).1

/-- Without a line that names a language there is one dialect. -/
theorem Settled.eq_of_no_language (h : d.Settled ts o) (hts : ∀ t ∈ ts, t.kind ≠ .language) :
    ∀ t ∈ ts, t.dialect = d := by
  cases h with
  | pending habove => exact fun t ht => (habove t ht).2
  | @settled above t below habove ht hbelow =>
    have hkind := hts t (List.mem_append_right _ List.mem_cons_self)
    have hd : t.dialect = d := (ht.resolve_left fun h => hkind h.kind).2
    intro u hu
    rcases List.mem_append.mp hu with hu | hu
    · exact (habove u hu).2
    · rcases List.mem_cons.mp hu with rfl | hu
      · exact hd
      · rw [(hbelow u hu).2, hd]

/-- Nothing is settled as long as there are only blank lines and comments. -/
theorem Settled.eq_none_iff (h : d.Settled ts o) : o = none ↔ ∀ t ∈ ts, t.kind.isAside := by
  cases h with
  | pending habove => exact ⟨fun _ t ht => (habove t ht).1, fun _ => rfl⟩
  | @settled above t below habove ht hbelow =>
    refine ⟨fun h => (by cases h), fun h => ?_⟩
    exact absurd (h t (List.mem_append_right _ List.mem_cons_self)) ht.not_isAside

theorem Settled.exists_of_some {e : Dialect} (h : d.Settled ts (some e)) :
    ∃ t ∈ ts, ¬t.kind.isAside ∧ t.dialect = e := by
  cases h with
  | settled habove ht hbelow =>
    exact ⟨_, List.mem_append_right _ List.mem_cons_self, ht.not_isAside, rfl⟩

/-- Every other line is read in the dialect that is settled. -/
theorem Settled.dialect_of_not_isAside (h : d.Settled ts o) (ht : t ∈ ts)
    (hk : ¬t.kind.isAside) : t.dialect = o.getD d := by
  cases h with
  | pending habove => exact absurd (habove t ht).1 hk
  | settled habove hfirst hbelow =>
    rcases List.mem_append.mp ht with ht | ht
    · exact absurd (habove t ht).1 hk
    · rcases List.mem_cons.mp ht with rfl | ht
      · rfl
      · exact (hbelow t ht).2

end Dialect

/-! ## Strides -/

namespace Cursor

variable {d : Dialect} {c : Cursor} {ts : List Token} {o : Option Dialect}

/-- The line that is taken is the only one that is handed over. -/
theorem filterMap_token?_taken {t : Token} {ahead : Bool} {actions : List Action} {state : State}
    (h : c.state.next ahead t.kind = some (actions, state)) :
    (Action.performAll t c.rules actions).1.filterMap Event.token? = [t] := by
  have hreport : ∀ e : Event, (if e.isReport then e.token? else none) = e.token? := by
    intro e
    cases e <;> rfl
  have hfilter := congrArg (List.filterMap Event.token?) (filter_isReport_taken h)
  rwa [List.filterMap_filter, List.filterMap_congr fun e _ => hreport e] at hfilter

theorem classify_eof_start (s : Scanner) (place : Location) :
    s.classify (.eof place) State.start.expected = .token ⟨place, s.dialect, .eof⟩ s :=
  rfl

/-- Taking an item settles the dialect, or leaves it as it is. -/
theorem Speaks.consume (hc : c.Speaks d o) (h : d.Settled ts o) (item : Item)
    (ahead : List Item) :
    ∃ o', d.Settled (ts ++ (c.consume item ahead).events.filterMap Event.token?) o' ∧
      (c.consume item ahead).cursor.Speaks d o' := by
  have hcases := c.consumes item ahead
  generalize c.consume item ahead = stride at hcases ⊢
  cases hcases with
  | @rejected l ahead e he =>
    have hnone : [Event.error e].filterMap Event.token? = [] := rfl
    exact ⟨o, by rwa [hnone, List.append_nil], hc⟩
  | @ended place ahead hclass =>
    cases o with
    | none =>
      rw [hc.1, classify_eof_start] at hclass
      cases hclass
    | some e =>
      have hnone : (c.reject (.eof place)).events.filterMap Event.token? = [] := by
        simp [reject, Event.token?]
      exact ⟨some e, by rwa [hnone, List.append_nil], by simp [reject], hc.2⟩
  | @taken item ahead t scanner actions state hclass hnext =>
    obtain ⟨hm, hread⟩ := Scanner.classify_eq_token hclass
    obtain ⟨htoken, hkeep⟩ := Scanner.dialect_of_read hread
    have hstart := State.eq_start_iff_of_next hnext
    rw [filterMap_token?_taken hnext]
    cases h with
    | pending habove =>
      by_cases haside : t.kind.isAside
      · have hscanner := hkeep fun hk => by simp [hk, TokenKind.isAside] at haside
        refine ⟨none, .pending ?_, hstart.mpr ⟨hc.1, haside⟩, hscanner.trans hc.2⟩
        intro u hu
        rcases List.mem_append.mp hu with hu | hu
        · exact habove u hu
        · obtain rfl := List.mem_singleton.mp hu
          exact ⟨haside, htoken.trans (hscanner.trans hc.2)⟩
      · refine ⟨some t.dialect, .settled habove ?_ (by simp), fun hs => ?_, htoken.symm⟩
        · by_cases hk : t.kind = .language
          · cases item with
            | eof place => cases hk.symm.trans (Scanner.kind_eq_eof hread)
            | line l =>
              rw [hk] at hread
              obtain ⟨code, e, -, he, rfl, -⟩ := Scanner.exists_of_readLanguage hread
              exact .inl ⟨code, rfl, he⟩
          · exact .inr ⟨⟨hk, haside⟩, htoken.trans ((hkeep hk).trans hc.2)⟩
        · exact haside (hstart.mp hs).2
    | @settled above first below habove hfirst hbelow =>
      have hk : t.kind ≠ .language := fun hk =>
        hc.1 (State.accepts_language_iff.mp (hk ▸ State.mem_expected.mp hm))
      have hscanner : scanner.dialect = first.dialect := (hkeep hk).trans hc.2
      refine ⟨some first.dialect, ?_, fun hs => hc.1 (hstart.mp hs).1, hscanner⟩
      rw [List.append_assoc, List.cons_append]
      refine .settled habove hfirst fun u hu => ?_
      rcases List.mem_append.mp hu with hu | hu
      · exact hbelow u hu
      · obtain rfl := List.mem_singleton.mp hu
        exact ⟨hk, htoken.trans hscanner⟩

theorem Speaks.strides (hc : c.Speaks d o) (h : d.Settled ts o) (items : List Item) :
    ∃ o', d.Settled
      (ts ++ ((c.strides items).flatMap Stride.events).filterMap Event.token?) o' := by
  induction items generalizing c ts o with
  | nil => exact ⟨o, by simpa [Cursor.strides] using h⟩
  | cons item ahead ih =>
    obtain ⟨o', h', hc'⟩ := hc.consume h item ahead
    obtain ⟨o'', h''⟩ := ih hc' h'
    refine ⟨o'', ?_⟩
    rwa [Cursor.strides, List.flatMap_cons, List.filterMap_append, ← List.append_assoc]

end Cursor

theorem Dialect.settled_eventsOf (d : Dialect) (text : String) :
    ∃ o, d.Settled ((eventsOf d text).filterMap Event.token?) o := by
  have hstart : (Cursor.start d).Speaks d none := ⟨rfl, rfl⟩
  have hnone : d.Settled [] none := .pending (by simp)
  exact hstart.strides hnone (Item.ofText text)

theorem mem_eventsOf_of_mem_deliver {σ τ : Type _} {d : Dialect} {text : String} {b : Builder σ}
    {k : Sink τ} {s : σ} {t : τ} {e : Event} (h : e ∈ (deliver d text b k s t).events) :
    e ∈ eventsOf d text := by
  rw [deliver_eq_run] at h
  exact List.mem_of_mem_filter ((Delivery.tells_run b (eventsOf d text) s t).told.subset h)

theorem Event.filterMap_token?_filter (events : List Event) :
    (events.filter (!·.isError)).filterMap Event.token? = events.filterMap Event.token? := by
  rw [List.filterMap_filter]
  refine List.filterMap_congr fun e _ => ?_
  cases e <;> rfl

/-- Whoever is told of a text, the dialect is settled once, if it is. -/
theorem Dialect.settled_deliver {σ τ : Type _} (d : Dialect) (text : String) (b : Builder σ)
    (k : Sink τ) (s : σ) (t : τ) :
    ∃ o, d.Settled ((deliver d text b k s t).events.filterMap Event.token?) o := by
  obtain ⟨o, h⟩ := d.settled_eventsOf text
  have htold := (Delivery.tells_run b (k := k) (eventsOf d text) s t).told.filterMap Event.token?
  rw [Event.filterMap_token?_filter] at htold
  rw [deliver_eq_run]
  exact h.of_prefix htold

/-! ## Lines that name a language -/

theorem Event.mem_filterMap_token? {t : Token} {events : List Event} :
    t ∈ events.filterMap Event.token? ↔ .token t ∈ events := by
  rw [List.mem_filterMap]
  constructor
  · rintro ⟨e, he, ht⟩
    cases e with
    | token u => exact Option.some.inj ht ▸ he
    | _ => cases ht
  · exact fun h => ⟨_, h, rfl⟩

namespace Engine

variable {σ τ : Type _} {b : Builder σ} {k : Sink τ} {g g' : Engine σ τ} {d : Dialect}

/-- What holds of an engine that reads a text in dialect `d`, whenever it has taken a line. -/
structure HasRead (d : Dialect) (g : Engine σ τ) : Prop where
  not_done : g.state ≠ .done
  aligned : g.toCursor.IsAligned
  speaks : ∃ o, d.Settled (g.told.reverse.filterMap Event.token?) o ∧ g.toCursor.Speaks d o

theorem hasRead_start (d : Dialect) (s : σ) (t : τ) :
    ((start d s t).enter b .document).HasRead d where
  not_done := by simp [enter, start]
  aligned := rfl
  speaks := ⟨none, .pending (by simp [enter, start, Event.token?]), rfl, rfl⟩

theorem HasRead.consume (h : g.HasRead d) {l : Line} {ahead : List Item}
    (hg : g.consume b k (.line l) ahead = (g', none)) : g'.HasRead d := by
  obtain ⟨o, hsettled, hspeaks⟩ := h.speaks
  obtain ⟨o', hsettled', hspeaks'⟩ := hspeaks.consume hsettled (.line l) ahead
  have hdone := (Cursor.settles_line h.not_done l ahead).2
  have haligned := Cursor.consume_aligned h.aligned l ahead
  rw [← toCursor_of_consume hg] at hdone haligned hspeaks'
  refine ⟨hdone, haligned, o', ?_, hspeaks'⟩
  rwa [told_of_consume hg, List.filterMap_append, Event.filterMap_token?_filter]

theorem HasRead.takeAll {lines : List Line} (h : g.HasRead d) {behind : List Item}
    (hg : g.takeAll b k (lines.map .line) behind = (g', none)) : g'.HasRead d :=
  takeAll_induction (fun _ g => g.HasRead d) (fun h hg => h.consume hg) [] h hg

structure TreatsLanguage (b : Builder σ) (k : Sink τ) (g : Engine σ τ) (l : Line) (code : String)
    (ahead : List Item) : Prop where
  /-- Below nothing but blank lines and comments a language that is not known is reported, which
  changes nothing but the sink. -/
  unknown : (∀ t, .token t ∈ g.told → t.kind.isAside) → Dialect.find? code = none →
    g.consume b k (.line l) ahead = g.report k (.unknownLanguage code l.start)
  /-- One that is known becomes the language of the feature, which the line opens. -/
  known : (∀ t, .token t ∈ g.told → t.kind.isAside) → ∀ e, Dialect.find? code = some e →
    g.consume b k (.line l) ahead =
      ({ ((g.enter b .feature).enter b .featureHeader).shift b ⟨l.start, e, .language code⟩ with
        state := .headerLanguage, scanner := { g.scanner with dialect := e } }, none)
  /-- Below any other line it is a comment, or text inside a doc string, and changes no dialect. -/
  late : ∀ t, .token t ∈ g.told → ¬t.kind.isAside →
    ∃ u, u.content = (if g.state.inDocString then .other (g.scanner.freeText l)
          else .comment (.ofList l.raw)) ∧
      u.place = l.margin ∧ u.dialect = g.scanner.dialect ∧
      g.scanner.classify (.line l) g.state.expected = .token u g.scanner ∧
      ∀ g', g.consume b k (.line l) ahead = (g', none) →
        .token u ∈ g'.told ∧ g'.scanner = g.scanner

theorem HasRead.treatsLanguage (h : g.HasRead d) {l : Line} {code : String}
    (hl : l.language? = some code) (ahead : List Item) : g.TreatsLanguage b k l code ahead := by
  obtain ⟨o, hsettled, hspeaks⟩ := h.speaks
  have haside : (∀ t, .token t ∈ g.told → t.kind.isAside) ↔ o = none := by
    rw [hsettled.eq_none_iff]
    simp only [Event.mem_filterMap_token?, List.mem_reverse]
  have hstart (hall : ∀ t, .token t ∈ g.told → t.kind.isAside) : g.state = .start := by
    obtain rfl := haside.mp hall
    exact hspeaks.1
  refine ⟨fun hall hcode => ?_, fun hall e he => ?_, fun t ht hnot => ?_⟩
  · have hclass : g.scanner.classify (.line l) g.state.expected =
        .unknownLanguage code l.start := by
      rw [hstart hall, Scanner.classify_start hl]
      simp only [Scanner.readLanguage, hl, hcode]
    simp only [Engine.consume, hclass]
  · have hclass : g.scanner.classify (.line l) State.start.expected =
        .token ⟨l.start, e, .language code⟩ { g.scanner with dialect := e } := by
      rw [Scanner.classify_start hl]
      simp only [Scanner.readLanguage, hl, he]
    simp only [Engine.consume, hstart hall, hclass]
    rfl
  · have hne : g.state ≠ .start := by
      cases o with
      | none => exact absurd (haside.mpr rfl t ht) hnot
      | some e => exact hspeaks.1
    have hclass := Scanner.classify_of_language? hl hne h.not_done h.aligned
    refine ⟨_, rfl, rfl, rfl, hclass, fun g' hg => ?_⟩
    obtain ⟨actions, state, hnext, hconsume⟩ := Cursor.consume_of_token hclass ahead
    have hcursor := toCursor_of_consume hg
    rw [hconsume] at hcursor
    refine ⟨?_, by rw [hcursor]⟩
    have htoken := Event.mem_filterMap_token?.mp
      (Cursor.filterMap_token?_taken (c := g.toCursor) hnext ▸ List.mem_singleton_self _)
    rw [← List.mem_reverse, told_of_consume hg, hconsume]
    exact List.mem_append_right _ (List.mem_filter.mpr ⟨htoken, rfl⟩)

end Engine

/-! ## The language of a feature -/

/-- The dialect of the language that events name, or that of the default. -/
def Dialect.namedIn (d : Dialect) (events : List Event) : Dialect :=
  ((events.findSome? Event.language?).bind Dialect.find?).getD d

theorem Event.exists_of_language? {e : Event} {code : String} (h : e.language? = some code) :
    ∃ t, e = .token t ∧ t.content = .language code := by
  cases e with
  | token t =>
    obtain ⟨place, e, content⟩ := t
    cases content with
    | language c => exact ⟨_, rfl, congrArg Content.language (Option.some.inj h)⟩
    | _ => cases h
  | _ => cases h

/-- The dialect that is settled is that of the language which is named. -/
theorem Dialect.Settled.namedIn_eq {d : Dialect} {o : Option Dialect} {events : List Event}
    (h : d.Settled (events.filterMap Event.token?) o) :
    d.namedIn events = o.getD d ∧
      (d.namedIn events).code = (events.findSome? Event.language?).getD d.code := by
  cases hfind : events.findSome? Event.language? with
  | none =>
    have hnone : d.namedIn events = d := by rw [namedIn, hfind]; rfl
    refine ⟨hnone.trans ?_, congrArg code hnone⟩
    have hkind : ∀ t ∈ events.filterMap Event.token?, t.kind ≠ .language := by
      intro t ht hk
      have hlanguage :=
        List.findSome?_eq_none_iff.mp hfind _ (Event.mem_filterMap_token?.mp ht)
      obtain ⟨place, e, content⟩ := t
      cases content with
      | language code => cases hlanguage
      | _ => cases hk
    cases o with
    | none => rfl
    | some e =>
      obtain ⟨t, ht, hk, rfl⟩ := h.exists_of_some
      exact (h.eq_of_no_language hkind t ht).symm
  | some code =>
    obtain ⟨e, he, hcode⟩ := List.exists_of_findSome?_eq_some hfind
    obtain ⟨t, rfl, hcontent⟩ := Event.exists_of_language? hcode
    have ht := Event.mem_filterMap_token?.mpr he
    have hk : t.kind = .language := by rw [Token.kind, hcontent]; rfl
    obtain ⟨above, below, hsplit⟩ := List.append_of_mem ht
    obtain ⟨code', hcontent', hdialect⟩ := ((hsplit ▸ h).around hk).1
    obtain rfl : code = code' := Content.language.inj (hcontent.symm.trans hcontent')
    have hnamed : d.namedIn events = t.dialect := by
      rw [namedIn, hfind, Option.bind_some, hdialect, Option.getD_some]
    refine ⟨hnamed.trans ?_, ?_⟩
    · exact h.dialect_of_not_isAside ht (by simp [hk, TokenKind.isAside])
    · rw [hnamed, (sound_of_find? hdialect).2]
      rfl

/-! ## What is assembled when a delivery may stop -/

namespace Assembly

/-- Whatever the sink does, what is assembled is what grows from the events that were told, without
its refused tables. -/
theorem builder_run {τ : Type _} (k : Sink τ) (events : List Event) (a : Assembly) (u : τ) :
    (Delivery.run builder k events a.prune u).builder =
      (a.growAll (Delivery.run builder k events a.prune u).events).prune := by
  induction events generalizing a u with
  | nil => rfl
  | cons event events ih =>
    cases event with
    | opened rule => exact ih { a with frames := (rule, []) :: a.frames } u
    | token t =>
      have hadd : builder.token t a.prune = (a.addToken t).prune := (prune_addToken t a).symm
      rw [Delivery.run, hadd]
      exact ih (a.addToken t) u
    | error e =>
      rw [Delivery.run]
      rcases k.report e u with ⟨u', _ | stop⟩
      · exact ih a u'
      · rfl
    | closed rule =>
      have hgrow := prune_grow_closed rule a
      have hclosed : builder.closed rule a.prune = a.prune.close := rfl
      rw [Delivery.run, hclosed]
      rcases hclose : a.prune.close with ⟨a', _ | e⟩ <;> rw [hclose] at hgrow <;>
        obtain rfl : _ = a' := hgrow
      · exact ih (a.grow (.closed rule)) u
      · dsimp only
        rcases k.report e u with ⟨u', _ | stop⟩
        · exact ih (a.grow (.closed rule)) u'
        · rfl

end Assembly

/-- In what grows from the events all lines are in the dialect that is named there, or in the one in
which the text starts. -/
theorem Dialect.Settled.dialect_of_mem_trees {d : Dialect} {o : Option Dialect}
    {events : List Event} (h : d.Settled (events.filterMap Event.token?) o) {t : Token}
    {comments : List Comment}
    (hm : .leaf t comments ∈ Tree.subtreesAll (Assembly.empty.growAll events).prune.trees) :
    t.dialect = d.namedIn events := by
  obtain ⟨ht, hholds⟩ :=
    Assembly.token_mem_of_mem_trees (Tree.mem_tokensAll_of_mem_subtreesAll _ hm)
  rw [h.namedIn_eq.1]
  refine h.dialect_of_not_isAside (Event.mem_filterMap_token?.mpr ht) fun haside => ?_
  have hkind : t.kind = .empty ∨ t.kind = .comment := by simpa [TokenKind.isAside] using haside
  rcases hkind with hk | hk <;> simp [Assembly.holds, hk] at hholds

/-- The language of a feature that is assembled is the one that was named, and the code of the
default otherwise. -/
theorem language_of_mem_feature {τ : Type _} {d : Dialect} {text : String} {k : Sink τ} {u : τ}
    {f : Feature} (h : f ∈ (deliver d text Assembly.builder k .empty u).builder.document.feature) :
    f.language = ((deliver d text Assembly.builder k .empty u).events.findSome?
      Event.language?).getD d.code := by
  obtain ⟨o, hsettled⟩ := d.settled_deliver text Assembly.builder k .empty u
  have hempty : Assembly.empty.prune = .empty := rfl
  have hbuilder := Assembly.builder_run k (eventsOf d text) .empty u
  rw [hempty, ← deliver_eq_run] at hbuilder
  rw [Assembly.document, hbuilder] at h
  obtain ⟨t, hm, -, -, hlanguage⟩ := (Tree.exists_of_mem_feature h).1
  rw [hlanguage, hsettled.dialect_of_mem_trees hm, hsettled.namedIn_eq.2]

/-- Whoever is told of a text, and whatever ends the reading: at most one line is handed over as one
that names a language. Above it are blank lines and comments in the dialect in which the text
starts, and all lines below it are in the dialect that it names; without it there is no other
dialect. The third part says what becomes of each line that could name a language, and the last what
this means for the feature that is assembled. -/
theorem dialect_settled_once {σ τ : Type _} (d : Dialect) (text : String) (b : Builder σ)
    (k : Sink τ) (s : σ) (t : τ) :
    let told := (deliver d text b k s t).events.filterMap Event.token?
    let assembled := deliver d text Assembly.builder k .empty t
    (∀ above header below, told = above ++ header :: below → header.kind = .language →
      (∃ raw code, Text.IsLineAt (Text.lines text.toList) header.place.line raw ∧
        Line.language? ⟨header.place.line, raw⟩ = some code ∧
        header.content = .language code ∧ Dialect.find? code = some header.dialect) ∧
      (∀ u ∈ above, (u.kind = .empty ∨ u.kind = .comment) ∧ u.dialect = d) ∧
      ∀ u ∈ below, u.kind ≠ .language ∧ u.dialect = header.dialect) ∧
    ((∀ u ∈ told, u.kind ≠ .language) → ∀ u ∈ told, u.dialect = d) ∧
    (∀ above l ahead g code, Item.ofText text = above ++ .line l :: ahead →
      ((Engine.start d s t).enter b .document).takeAll b k above (.line l :: ahead) = (g, none) →
      l.language? = some code → g.TreatsLanguage b k l code ahead) ∧
    ∀ f ∈ assembled.builder.document.feature,
      f.language = (assembled.events.findSome? Event.language?).getD d.code := by
  intro told assembled
  obtain ⟨o, hsettled⟩ := d.settled_deliver text b k s t
  refine ⟨fun above header below htold hk => ?_, hsettled.eq_of_no_language, ?_,
    fun f hf => language_of_mem_feature hf⟩
  · rw [show (deliver d text b k s t).events.filterMap Event.token? = _ from htold] at hsettled
    obtain ⟨⟨code, hcontent, hdialect⟩, habove, hbelow⟩ := hsettled.around hk
    refine ⟨?_, fun u hu => ?_, hbelow⟩
    · have hmem : header ∈ told := htold ▸ List.mem_append_right _ List.mem_cons_self
      have hevent := mem_eventsOf_of_mem_deliver (Event.mem_filterMap_token?.mp hmem)
      obtain ⟨raw, scanner, scanner', hline, hread⟩ :=
        exists_readLine_of_mem_eventsOf (by simp [hk]) hevent
      rw [hk] at hread
      obtain ⟨code', e, hlanguage, -, hheader, -⟩ := Scanner.exists_of_readLanguage hread
      have hcode : code = code' := by
        rw [hheader] at hcontent
        exact (Content.language.inj hcontent).symm
      exact ⟨raw, code, hline, hcode ▸ hlanguage, hcontent, hdialect⟩
    · exact ⟨by simpa [TokenKind.isAside] using (habove u hu).1, (habove u hu).2⟩
  · intro above l ahead g code htext habove hcode
    obtain ⟨lines, m, below, rfl, -⟩ := Item.exists_of_number htext
    exact ((Engine.hasRead_start d s t).takeAll habove).treatsLanguage hcode ahead

/-- A language that is not known is reported, and the next one is heeded. The third comes too late,
and the feature is in the second. -/
theorem dialect_settled_once_third_too_late :
    let text := "\n# language: xx\n# language: fr\n# language: en\nFonctionnalité: F\n"
    let items := Item.ofText text
    let delivery := deliver .english text Assembly.builder .collect .empty []
    let told := delivery.events.filterMap Event.token?
    let first : Line := ⟨2, "# language: xx".toList⟩
    let third : Line := ⟨4, "# language: en".toList⟩
    let reply := fun (l : Line) => ((Engine.start .english .empty []).enter Assembly.builder
      .document).takeAll Assembly.builder .collect (items.take (l.number - 1))
        (.line l :: items.drop l.number)
    (∃ header, told = told.take 1 ++ header :: told.drop 2 ∧ header.content = .language "fr" ∧
      (∀ u ∈ told.take 1, u.dialect = .english) ∧
      ∀ u ∈ told.drop 2, u.kind ≠ .language ∧ u.dialect = header.dialect) ∧
    (reply first).1.consume Assembly.builder .collect (.line first) (items.drop 2) =
      (reply first).1.report .collect (.unknownLanguage "xx" ⟨2, 1⟩) ∧
    (∃ u, (reply third).1.scanner.classify (.line third) (reply third).1.state.expected =
      .token u (reply third).1.scanner ∧ u.content = .comment "# language: en") ∧
    ∃ f ∈ delivery.builder.document.feature, f.language = "fr" := by
  intro text items delivery told first third reply
  let header := told[1]?.getD default
  let f := delivery.builder.document.feature.getD default
  have hrun : told = told.take 1 ++ header :: told.drop 2 ∧ header.content = .language "fr" ∧
      (reply first).1.told = [.token ⟨⟨1, 1⟩, .english, .empty⟩, .opened .document] ∧
      .token header ∈ (reply third).1.told ∧ (reply third).1.state.inDocString = false ∧
      (∀ l ∈ [first, third],
        items = items.take (l.number - 1) ++ .line l :: items.drop l.number ∧
          (reply l).2 = none) ∧
      f ∈ delivery.builder.document.feature ∧
      delivery.events.findSome? Event.language? = some "fr" := by
    decide +kernel
  obtain ⟨hsplit, hheader, hfirst, hthird, hdocString, hreached, hf, hcode⟩ := hrun
  obtain ⟨hone, -, htreats, hlanguage⟩ :=
    dialect_settled_once .english text Assembly.builder .collect .empty []
  have hkind : header.kind = .language := by rw [Token.kind, hheader]; rfl
  obtain ⟨-, habove, hbelow⟩ := hone _ _ _ hsplit hkind
  have htreated : ∀ l ∈ [first, third], ∀ code, l.language? = some code →
      (reply l).1.TreatsLanguage Assembly.builder .collect l code (items.drop l.number) :=
    fun l hl code hcode =>
      htreats _ l _ (reply l).1 code (hreached l hl).1 (Prod.ext rfl (hreached l hl).2) hcode
  refine ⟨⟨header, hsplit, hheader, fun u hu => (habove u hu).2, hbelow⟩, ?_, ?_, f, hf, ?_⟩
  · refine (htreated first (by simp) "xx" (by decide +kernel)).unknown (fun t ht => ?_)
      (by decide +kernel)
    rw [hfirst] at ht
    obtain rfl : t = _ := by simpa using ht
    rfl
  · obtain ⟨u, hcontent, -, -, hclass, -⟩ :=
      (htreated third (by simp) "en" (by decide +kernel)).late header hthird
        (by simp [hkind, TokenKind.isAside])
    rw [hdocString] at hcontent
    exact ⟨u, hclass, hcontent⟩
  · rw [hlanguage f hf, hcode]
    rfl

end FeaturePlan
