import FeaturePlan.Proofs.Grammar.Indentation
import FeaturePlan.Proofs.Grammar.LookAhead
import FeaturePlan.Proofs.Grammar.Stopping

/-! # The doc string that is open

A doc string is opened and closed twice over: the scanner does so as soon as it is asked about a
delimiter, and the state only when the line is taken. They never differ behind a line. So free text
is changed inside doc strings and nowhere else, and inside a doc string all lines but the one that
closes it are text, whatever they look like. -/

namespace FeaturePlan

/-! ## Lines inside and outside -/

theorem State.inDocString_iff {s : State} : s.inDocString = true ↔ ∃ b, s = .docString b := by
  constructor
  · intro h
    cases s with
    | docString b => exact ⟨b, rfl⟩
    | _ => cases h
  · rintro ⟨b, rfl⟩
    rfl

/-- Behind a delimiter that stands outside of doc strings, the state is inside one. -/
theorem State.next_separator {s s' : State} {ahead : Bool} {actions : List Action}
    (hs : s.inDocString = false) (h : s.next ahead .separator = some (actions, s')) :
    actions = [.enter .docString, .shift] ∧ ∃ b, s' = .docString b := by
  cases s with
  | step b =>
    obtain ⟨rfl, rfl⟩ := Prod.mk.inj (Option.some.inj h)
    exact ⟨rfl, b, rfl⟩
  | docString b => cases hs
  | _ => cases h

namespace Scanner

variable {s s' : Scanner} {l : Line} {t : Token}

theorem freeText_outside (hs : s.docString = none) (l : Line) : s.freeText l = .ofList l.raw := by
  simp only [freeText, indentToDrop, hs, Line.unindented, Nat.min_zero, List.drop_zero]

/-- Outside of doc strings a delimiter opens one, and the indentation of its line is kept. -/
theorem exists_of_readSeparator (hs : s.docString = none)
    (h : s.readSeparator l = .token t s') : ∃ delimiter contentType,
      l.textAfter? (Delimiter.text delimiter) = some contentType ∧
      t = ⟨l.start, s.dialect, .separator delimiter contentType⟩ ∧
      s' = { s with docString := some ⟨delimiter, l.indent⟩ } := by
  simp only [readSeparator, hs] at h
  split at h
  · cases h
  · next delimiter contentType hfound =>
    obtain ⟨rfl, rfl⟩ := Reading.token.inj h
    obtain ⟨d, -, hd⟩ := List.exists_of_findSome?_eq_some hfound
    obtain ⟨type, htype, heq⟩ := Option.map_eq_some_iff.mp hd
    obtain ⟨rfl, rfl⟩ := Prod.mk.inj heq
    exact ⟨d, type, htype, rfl, rfl⟩

end Scanner

namespace Engine

variable {σ τ : Type _}

inductive Agrees (taken : List Item) (g : Engine σ τ) : Prop where
  | outside : g.state.inDocString = false → g.scanner.docString = none →
      g.scanner.indentToDrop = 0 → Agrees taken g
  /-- One of the items has opened the doc string, with the delimiter that the scanner holds, and all
  items below it are lines of text. -/
  | inside {above : List Item} {opening : Line} {within : List Line} {block : Block}
      {delimiter : Delimiter} {contentType : String} (earlier : List Event) :
      taken = above ++ .line opening :: within.map .line →
      opening.textAfter? delimiter.text = some contentType →
      (∀ l ∈ within, ¬delimiter.chars <+: l.body) →
      g.state = .docString block →
      g.scanner.docString = some ⟨delimiter, opening.indent⟩ →
      g.scanner.indentToDrop = opening.indent →
      g.told.reverse = earlier ++ .opened .docString ::
        .token ⟨opening.start, g.scanner.dialect, .separator delimiter contentType⟩ ::
        within.map (fun l => .token ⟨l.margin, g.scanner.dialect, .other (g.scanner.freeText l)⟩) →
      Agrees taken g

structure TreatsText (b : Builder σ) (k : Sink τ) (g : Engine σ τ) (l : Line)
    (ahead : List Item) : Prop where
  /-- Outside of doc strings free text is told of as it is written. -/
  outside : (∀ block, g.state ≠ .docString block) → ∃ told,
    (g.consume b k (.line l) ahead).1.told = told ++ g.told ∧
      ∀ t text, .token t ∈ told → t.content = .other text → text = .ofList l.raw
  /-- Inside, a line that does not begin with the delimiter is text, whatever else it could be. -/
  inside : ∀ block o, g.state = .docString block → g.scanner.docString = some o →
    ¬o.delimiter.chars <+: l.body →
    g.consume b k (.line l) ahead = (g.shift b ⟨l.margin, g.scanner.dialect,
      .other (.ofList (o.delimiter.unescape (l.unindented o.indent)))⟩, none)

variable {b : Builder σ} {k : Sink τ} {g g' : Engine σ τ} {o : OpenDocString} {block : Block}
  {l : Line} {taken : List Item}

theorem agrees_start (d : Dialect) (s : σ) (t : τ) :
    ((start d s t).enter b .document).Agrees [] :=
  .outside rfl rfl rfl

theorem Agrees.of_outside (hstate : g.state.inDocString = false)
    (hheld : g.scanner.docString = none) : g.Agrees taken :=
  .outside hstate hheld (by rw [Scanner.indentToDrop, hheld])

theorem consume_text (hstate : g.state = .docString block) (hheld : g.scanner.docString = some o)
    (hl : ¬o.delimiter.chars <+: l.body) (ahead : List Item) :
    g.consume b k (.line l) ahead =
      (g.shift b ⟨l.margin, g.scanner.dialect, .other (g.scanner.freeText l)⟩, none) := by
  obtain ⟨⟨state, scanner, rules⟩, builder, sink, told⟩ := g
  obtain rfl : state = _ := hstate
  have hclass := Scanner.classify_docString hheld l block
  rw [if_neg hl] at hclass
  simp only [Engine.consume, hclass]
  rfl

/-- Outside of doc strings a line leaves the engine there, or opens a doc string. -/
theorem Agrees.consume_outside {ahead : List Item} (hstate : g.state.inDocString = false)
    (hheld : g.scanner.docString = none) (hg : g.consume b k (.line l) ahead = (g', none)) :
    g'.Agrees (taken ++ [.line l]) := by
  have hcursor := toCursor_of_consume hg
  have htold := told_of_consume hg
  have hcases := g.toCursor.consumes (.line l) ahead
  generalize g.toCursor.consume (.line l) ahead = stride at hcases hcursor htold
  obtain ⟨⟨state, scanner, rules⟩, builder, sink, told⟩ := g'
  cases hcases with
  | rejected he =>
    obtain ⟨rfl, rfl, rfl⟩ := Cursor.mk.inj hcursor
    exact .of_outside hstate hheld
  | @taken _ _ t next actions state' hclass hnext =>
    obtain ⟨rfl, rfl, rfl⟩ := Cursor.mk.inj hcursor
    have hread := (Scanner.classify_eq_token hclass).2
    by_cases hk : t.kind = .separator
    · rw [hk] at hread hnext
      obtain ⟨delimiter, contentType, htype, rfl, rfl⟩ :=
        Scanner.exists_of_readSeparator hheld hread
      obtain ⟨rfl, block, rfl⟩ := State.next_separator hstate hnext
      have htaken : taken ++ [.line l] = taken ++ .line l :: ([] : List Line).map .line := rfl
      exact .inside _ htaken htype (List.forall_mem_nil _) rfl rfl rfl htold
    · have hdocString := Scanner.docString_of_read hread
      rw [hheld, decide_eq_false hk] at hdocString
      refine .of_outside ?_ (Option.not_isSome_iff_eq_none.mp (by rw [hdocString]; decide))
      rw [State.inDocString_of_next_outside hstate hnext, decide_eq_false hk]

theorem Agrees.consume {ahead : List Item} (h : g.Agrees taken)
    (hg : g.consume b k (.line l) ahead = (g', none)) : g'.Agrees (taken ++ [.line l]) := by
  cases h with
  | outside hstate hheld => exact consume_outside hstate hheld hg
  | @inside above opening within block delimiter contentType earlier htaken htype hwithin hstate
      hheld hindent htold =>
    by_cases hl : delimiter.chars <+: l.body
    · have hclass := Scanner.classify_docString hheld l block
      rw [if_pos hl, ← hstate] at hclass
      obtain ⟨actions, state, hnext, hconsume⟩ := Cursor.consume_of_token hclass ahead
      rw [hstate] at hnext
      obtain ⟨-, rfl⟩ := Prod.mk.inj (Option.some.inj hnext)
      have hcursor := (toCursor_of_consume hg).trans (congrArg Stride.cursor hconsume)
      exact .of_outside (by rw [hcursor]; rfl) (by rw [hcursor])
    · rw [consume_text hstate hheld hl ahead] at hg
      obtain ⟨rfl, -⟩ := Prod.mk.inj hg
      have htaken' : taken ++ [.line l] = above ++ .line opening :: (within ++ [l]).map .line := by
        rw [htaken, List.map_append, List.append_assoc]
        rfl
      refine .inside earlier htaken' htype ?_ hstate hheld hindent ?_
      · exact List.forall_mem_append.mpr ⟨hwithin, List.forall_mem_singleton.mpr hl⟩
      · rw [shift, List.reverse_cons, htold, List.map_append, List.append_assoc]
        rfl

theorem text_of_consume_outside (hheld : g.scanner.docString = none) {ahead : List Item} {t : Token}
    {text : String} (ht : .token t ∈ (g.toCursor.consume (.line l) ahead).events)
    (htext : t.content = .other text) : text = .ofList l.raw := by
  have hcases := g.toCursor.consumes (.line l) ahead
  generalize g.toCursor.consume (.line l) ahead = stride at hcases ht
  cases hcases with
  | rejected he => cases List.mem_singleton.mp ht
  | @taken _ _ u next actions state hclass hnext =>
    have hreport : .token t ∈ (Action.performAll u g.rules actions).1.filter Event.isReport :=
      List.mem_filter.mpr ⟨ht, rfl⟩
    rw [Cursor.filter_isReport_taken hnext] at hreport
    obtain rfl := Event.token.inj (List.mem_singleton.mp hreport)
    have hread := (Scanner.classify_eq_token hclass).2
    rw [Token.kind, htext] at hread
    obtain ⟨rfl, -⟩ := Reading.token.inj hread
    rw [← Content.other.inj htext, g.scanner.freeText_outside hheld]

theorem Agrees.treatsText (h : g.Agrees taken) (l : Line) (ahead : List Item) :
    g.TreatsText b k l ahead := by
  constructor
  · intro hstate
    have hheld : g.scanner.docString = none := by
      cases h with
      | outside _ hheld => exact hheld
      | inside _ _ _ _ hinside => exact absurd hinside (hstate _)
    obtain ⟨told, htold, hevents⟩ := g.exists_told_of_consume b k (.line l) ahead
    exact ⟨told, htold, fun t text ht => text_of_consume_outside hheld (hevents _ ht)⟩
  · intro block o hstate hheld hl
    rw [consume_text hstate hheld hl, Scanner.freeText, Scanner.indentToDrop, hheld]

theorem Agrees.isSome_iff (h : g.Agrees taken) :
    g.scanner.docString.isSome = true ↔ ∃ block, g.state = .docString block := by
  rw [← State.inDocString_iff]
  cases h with
  | outside hstate hheld => rw [hstate, hheld]; rfl
  | inside _ _ _ _ hstate hheld => rw [hstate, hheld]; exact iff_of_true rfl rfl

/-- Once the end of a text has been taken, there is nothing more to read. -/
theorem done_of_eof {items behind : List Item} {place : Location}
    (hg : g.takeAll b k (items ++ [.eof place]) behind = (g', none)) : g'.state = .done := by
  rw [takeAll_append] at hg
  rcases htake : g.takeAll b k items ([.eof place] ++ behind) with ⟨g₁, _ | stop⟩
  · rw [htake, Reply.andThen, takeAll] at hg
    rcases hc : g₁.consume b k (.eof place) ([] ++ behind) with ⟨g₂, _ | stop⟩
    · rw [hc] at hg
      obtain ⟨rfl, -⟩ := Prod.mk.inj hg
      rw [toCursor_of_consume hc]
      exact (g₁.toCursor.settles_end place ([] ++ behind)).2
    · rw [hc] at hg
      cases hg
  · rw [htake] at hg
    cases hg

end Engine

/-- Items in front of others are lines, or they are all of them and the end of the text. -/
theorem Item.lines_or_eof {text : String} {above ahead : List Item}
    (h : Item.ofText text = above ++ ahead) : ∃ lines : List Line,
      above = lines.map .line ∨ ∃ place, above = lines.map .line ++ [.eof place] := by
  rcases List.eq_nil_or_concat above with rfl | ⟨front, last, rfl⟩
  · exact ⟨[], .inl rfl⟩
  · rw [List.concat_eq_append] at h ⊢
    rw [List.append_assoc] at h
    obtain ⟨lines, m, below, rfl, hbelow⟩ := Item.exists_of_number h
    cases below with
    | nil =>
      obtain ⟨rfl, -⟩ := List.cons.inj hbelow
      exact ⟨lines, .inr ⟨_, rfl⟩⟩
    | cons raw below =>
      obtain ⟨rfl, -⟩ := List.cons.inj hbelow
      exact ⟨lines ++ [⟨m, raw⟩], .inl (by rw [List.map_append]; rfl)⟩

/-- Whoever is told of a text: as long as nothing has stopped the reading and its end has not been
taken, a doc string is open in the scanner just when the state is inside one. It is the one that was
opened last, and the indentation of its opening line is what free text loses; elsewhere it loses
nothing. The last part says what this means for the line that comes next. -/
theorem scanner_agrees_with_state {σ τ : Type _} (d : Dialect) (text : String) (b : Builder σ)
    (k : Sink τ) (s : σ) (t : τ) {above ahead : List Item} {g : Engine σ τ}
    (htext : Item.ofText text = above ++ ahead)
    (habove : ((Engine.start d s t).enter b .document).takeAll b k above ahead = (g, none))
    (hdone : g.state ≠ .done) :
    (g.scanner.docString.isSome = true ↔ ∃ block, g.state = .docString block) ∧
    g.Agrees above ∧
    ∀ l rest, ahead = .line l :: rest → g.TreatsText b k l rest := by
  obtain ⟨lines, rfl | ⟨place, rfl⟩⟩ := Item.lines_or_eof htext
  · have hagrees : g.Agrees ([] ++ lines.map .line) :=
      Engine.takeAll_induction (fun taken g => g.Agrees taken) (fun h hg => h.consume hg) []
        (Engine.agrees_start d s t) habove
    exact ⟨hagrees.isSome_iff, hagrees, fun l rest _ => hagrees.treatsText l rest⟩
  · exact absurd (Engine.done_of_eof habove) hdone

/-- In a doc string between quotes, neither a step nor the other delimiter is more than text. -/
theorem scanner_agrees_with_state_between_quotes :
    let text :=
      "Feature: F\nScenario: S\nGiven a\n  \"\"\"json\n   When b\n\x60\x60\x60\n  \"\"\"\n"
    let items := Item.ofText text
    let reply := ((Engine.start .english .empty []).enter Assembly.builder .document).takeAll
      Assembly.builder .collect (items.take 5) (items.drop 5)
    let l : Line := ⟨6, "\x60\x60\x60".toList⟩
    reply.1.scanner.docString = some ⟨.quotes, 2⟩ ∧ (∃ block, reply.1.state = .docString block) ∧
      reply.1.consume Assembly.builder .collect (.line l) (items.drop 6) =
        (reply.1.shift Assembly.builder ⟨⟨6, 1⟩, .english, .other "\x60\x60\x60"⟩, none) := by
  intro text items reply l
  have hrun : reply.2 = none ∧ reply.1.state = .docString .scenario ∧
      reply.1.scanner = ⟨.english, some ⟨.quotes, 2⟩⟩ ∧
      items.drop 5 = .line l :: items.drop 6 := by
    decide +kernel
  obtain ⟨hstop, hstate, hscanner, hnext⟩ := hrun
  have hheld : reply.1.scanner.docString = some ⟨.quotes, 2⟩ := by rw [hscanner]
  obtain ⟨hiff, -, htreats⟩ := scanner_agrees_with_state .english text Assembly.builder .collect
    .empty [] (List.take_append_drop 5 items).symm (Prod.ext rfl hstop) (by rw [hstate]; decide)
  have htext := (htreats l (items.drop 6) hnext).inside .scenario _ hstate hheld (by decide)
  refine ⟨hheld, hiff.mp (by rw [hheld]; rfl), htext.trans ?_⟩
  rw [hscanner]
  rfl

end FeaturePlan
