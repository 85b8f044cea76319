import FeaturePlan.Proofs.TagExpr.Derivation

/-! # Where a tag expression goes wrong

An error names a byte. The symbols in front of it are the beginning of some expression, and the
text up to there can be continued to one that is accepted; so the text has gone wrong there or
behind, and not before. A parenthesis that is not closed is named by where it was opened. -/

namespace FeaturePlan.TagExpr

/-! ## Beginnings of expressions -/

/-- Symbols that a text can spell make an expression of those before them. -/
def IsContinuable (ss : List Symbol) : Prop :=
  ∃ ts cs e, Spelled ts cs ∧ Derives .disjunction (ss ++ ts) e

section
variable {ss ts : List Symbol} {cs ds : List Char}

theorem IsContinuable.isViable (h : IsContinuable ss) : IsViable ss := by
  obtain ⟨ts, -, e, -, he⟩ := h
  exact ⟨ts, e, he⟩

theorem forall_head?_append_blank {p : Char → Bool} (hblank : p ' ' = false)
    (h : ∀ c ∈ cs.head?, p c = false) (ds : List Char) :
    ∀ c ∈ (cs ++ ' ' :: ds).head?, p c = false := by
  cases cs with
  | nil => simpa using hblank
  | cons d cs => exact h

theorem Spelled.append (hs : Spelled ss cs) (ht : Spelled ts ds) :
    Spelled (ss ++ ts) (cs ++ ' ' :: ds) := by
  induction hs with
  | nil => exact .blank (by decide) ht
  | blank hc _ ih => exact .blank hc ih
  | opening _ ih => exact .opening ih
  | closing _ ih => exact .closing ih
  | @tag name cs _ hname htag hcs _ ih =>
    rw [List.append_assoc]
    exact .tag hname htag (forall_head?_append_blank (by decide) hcs ds) ih
  | @word word cs _ _ hword hcs _ ih =>
    rw [List.append_assoc]
    exact .word hword (forall_head?_append_blank (by decide) hcs ds) ih

/-- A symbol with a text of its own may come first in what follows. -/
theorem IsContinuable.of_append (h : IsContinuable (ss ++ ts)) (ht : Spelled ts ds) :
    IsContinuable ss := by
  obtain ⟨us, cs, e, hus, he⟩ := h
  exact ⟨ts ++ us, ds ++ ' ' :: cs, e, ht.append hus, by rwa [← List.append_assoc]⟩

end

section
variable {n : Nesting} {ss : List Symbol}

/-- Behind an operand, all parentheses that are open can be closed. -/
theorem HasRead.isContinuable_after {e : TagExpr} (h : HasRead n (.after e) ss) :
    IsContinuable ss := by
  obtain ⟨level, outer⟩ := n
  induction outer generalizing level e ss with
  | nil =>
    refine ⟨[], [], level.complete e, .nil, ?_⟩
    rw [List.append_nil]
    exact h.complete rfl
  | cons o outer ih =>
    obtain ⟨offset, opened⟩ := o
    have hclosed : IsContinuable (ss ++ [.closing]) := ih opened (h.closing rfl)
    exact hclosed.of_append (.closing .nil)

theorem HasRead.isContinuable {place : Place} (h : HasRead n place ss) : IsContinuable ss := by
  cases place with
  | after e => exact h.isContinuable_after
  | before op =>
    have htag : Spelled [.tag (.ofList ['a'])] ('@' :: ['a'] ++ []) :=
      .tag (by simp) (List.forall_mem_singleton.mpr (by decide)) (by simp) .nil
    exact (h.tag (.ofList ['a'])).isContinuable_after.of_append htag

end

/-! ## Errors -/

/-- The byte at which a scan goes on: that of the next symbol, or else that of the ending. -/
def nextByte (ending : Except Error Nat) : List Lexeme → Nat
  | l :: _ => l.offset
  | [] => match ending with
    | .ok offset => offset
    | .error e => e.offset

/-- These symbols bring the parser from the beginning to the place, whatever follows. -/
def Reaches (front : List Lexeme) (n : Nesting) (place : Place) : Prop :=
  ∀ ending rest, parseFrom ending ⟨.empty, []⟩ (.before none) (front ++ rest) =
    parseFrom ending n place rest

def IsRefused (n : Nesting) (place : Place) (l : Lexeme) : Prop :=
  ∀ ending rest, ∃ e, parseFrom ending n place (l :: rest) = .error e

/-- Every parenthesis that is open was read where an expression may go on. -/
def Opened (outer : List (Nat × Level)) (front : List Lexeme) : Prop :=
  ∀ o ∈ outer, ∃ before after, front = before ++ ⟨o.1, .opening⟩ :: after ∧
    IsContinuable (before.map (·.symbol))

/-- The error names the byte behind symbols that are the beginning of an expression. With the next
symbol they are that no more, unless what it names is a parenthesis that is not closed. -/
structure Names (e : Error) (ending : Except Error Nat) (before after : List Lexeme) : Prop where
  offset : e.offset = nextByte ending after
  continuable : IsContinuable (before.map (·.symbol))
  refused : e.fault ≠ .unclosed →
    ∀ l ∈ after.head?, ¬ IsViable (before.map (·.symbol) ++ [l.symbol])
  opening : e.fault = .unclosed → (after.map (·.symbol)).head? = some .opening

section
variable {n n' : Nesting} {place place' : Place} {outer : List (Nat × Level)}
  {front : List Lexeme} {l : Lexeme}

theorem Reaches.concat (h : Reaches front n place)
    (hl : ∀ ending rest, parseFrom ending n place (l :: rest) = parseFrom ending n' place' rest) :
    Reaches (front ++ [l]) n' place' := by
  intro ending rest
  rw [List.append_assoc, List.singleton_append, h, hl]

/-- No expression begins with a symbol that is refused, and those before it. -/
theorem Reaches.not_isViable (h : Reaches front n place) (hl : IsRefused n place l) :
    ¬ IsViable (front.map (·.symbol) ++ [l.symbol]) := by
  rintro ⟨ts, f, hf⟩
  obtain ⟨ls, rfl⟩ : ∃ ls : List Lexeme, ls.map (·.symbol) = ts :=
    ⟨ts.map (⟨0, ·⟩), by simp [Function.comp_def]⟩
  have hall : Derives .disjunction ((front ++ l :: ls).map (·.symbol)) f := by simpa using hf
  obtain ⟨e, he⟩ := hl (.ok 0) ls
  have hok := hall.parseFrom 0
  rw [h, he] at hok
  cases hok

theorem Opened.concat (h : Opened outer front) (l : Lexeme) : Opened outer (front ++ [l]) := by
  intro o ho
  obtain ⟨before, after, rfl, hbefore⟩ := h o ho
  exact ⟨before, after ++ [l], by simp, hbefore⟩

theorem Opened.opening (h : Opened outer front) (level : Level) (offset : Nat)
    (hfront : IsContinuable (front.map (·.symbol))) :
    Opened ((offset, level) :: outer) (front ++ [⟨offset, .opening⟩]) :=
  List.forall_mem_cons.mpr ⟨⟨front, [], rfl, hfront⟩, h.concat _⟩

theorem Opened.tail {o : Nat × Level} (h : Opened (o :: outer) front) : Opened outer front :=
  (List.forall_mem_cons.mp h).2

variable {ending : Except Error Nat} {rest : List Lexeme} {e : Error}

theorem Reaches.names (h : Reaches front n place) (hread : HasRead n place (front.map (·.symbol)))
    (hrest : ∀ l ∈ rest.head?, IsRefused n place l) (hoffset : e.offset = nextByte ending rest)
    (hfault : e.fault ≠ .unclosed) :
    ∃ before after, front ++ rest = before ++ after ∧ Names e ending before after :=
  ⟨front, rest, rfl, hoffset, hread.isContinuable, fun _ l hl => h.not_isViable (hrest l hl),
    fun hunclosed => absurd hunclosed hfault⟩

theorem Opened.names (h : Opened outer front) {o : Nat × Level} (ho : o ∈ outer)
    (he : e = ⟨o.1, .unclosed⟩) :
    ∃ before after, front ++ rest = before ++ after ∧ Names e ending before after := by
  obtain ⟨before, after, rfl, hbefore⟩ := h o ho
  subst he
  exact ⟨before, ⟨o.1, .opening⟩ :: (after ++ rest), by simp, rfl, hbefore,
    fun hfault => absurd rfl hfault, fun _ => rfl⟩

/-- The parser stops where something follows that does not fit, or names the parenthesis that was
opened last. -/
theorem names_of_parseFrom (h : parseFrom ending n place rest = .error e)
    (hending : ∀ e', ending = .error e' → e'.fault ≠ .unclosed)
    (hreaches : Reaches front n place) (hread : HasRead n place (front.map (·.symbol)))
    (hopened : Opened n.outer front) :
    ∃ before after, front ++ rest = before ++ after ∧ Names e ending before after := by
  fun_induction parseFrom ending n place rest generalizing front with
  | case1 n op =>
    cases ending with
    | error e' =>
      obtain rfl := Except.error.inj h
      exact hreaches.names hread (by simp) rfl (hending _ rfl)
    | ok offset =>
      cases op <;> obtain rfl := Except.error.inj h <;>
        exact hreaches.names hread (by simp) rfl (by simp)
  | case2 n e' =>
    cases ending with
    | error e' =>
      obtain rfl := Except.error.inj h
      exact hreaches.names hread (by simp) rfl (hending _ rfl)
    | ok offset =>
      cases houter : n.outer with
      | nil => simp [bind, Except.bind, houter] at h
      | cons o outer =>
        simp only [bind, Except.bind, houter] at h
        have ho : o ∈ n.outer := houter ▸ List.mem_cons_self
        exact hopened.names ho (Except.error.inj h).symm
  | case3 n op offset rest name ih =>
    simpa using ih h (hreaches.concat fun _ _ => rfl) (by simpa using hread.tag name)
      (hopened.concat ⟨offset, .tag name⟩)
  | case4 n op offset rest ih =>
    simpa using ih h (hreaches.concat fun _ _ => rfl) (by simpa using hread.not)
      (hopened.concat ⟨offset, .not⟩)
  | case5 n op offset rest ih =>
    simpa using ih h (hreaches.concat fun _ _ => rfl) (by simpa using hread.opening offset)
      (hopened.opening n.level offset hread.isContinuable)
  | case6 | case7 | case8 | case9 =>
    obtain rfl := Except.error.inj h
    refine hreaches.names hread (fun l hl => ?_) rfl (by simp)
    obtain rfl := Option.some.inj hl
    exact fun _ _ => ⟨_, rfl⟩
  | case10 n e' offset rest op ih =>
    simpa using ih h (hreaches.concat fun _ _ => rfl) (by simpa using hread.operator op)
      (hopened.concat ⟨offset, .operator op⟩)
  | case11 n e' offset rest opening level outer hnested ih =>
    rw [hnested] at hopened
    simpa using ih h (hreaches.concat fun _ _ => by simp only [parseFrom, hnested])
      (by simpa using hread.closing hnested) (hopened.tail.concat ⟨offset, .closing⟩)
  | case12 n e' offset symbol rest opening level outer hnested _ _ =>
    have ho : (opening, level) ∈ n.outer := hnested ▸ List.mem_cons_self
    exact hopened.names ho (Except.error.inj h).symm
  | case13 n e' offset symbol rest hnested hoperator =>
    have hrefused : IsRefused n (.after e') ⟨offset, symbol⟩ := by
      intro ending rest
      refine ⟨⟨offset, .extra symbol⟩, ?_⟩
      cases symbol with
      | operator op => exact (hoperator op rfl).elim
      | _ => simp only [parseFrom, hnested]
    obtain rfl := Except.error.inj h
    exact hreaches.names hread (by simpa using hrefused) rfl (by simp)

end

/-! ## Places of symbols -/

def Lexeme.finish (l : Lexeme) : Nat :=
  l.offset + l.symbol.width

theorem byteCount_append (cs ds : List Char) :
    byteCount (cs ++ ds) = byteCount cs + byteCount ds := by
  induction cs with
  | nil => simp [byteCount]
  | cons c cs ih => simp only [List.cons_append, byteCount, ih, Nat.add_assoc]

theorem Symbol.width_pos (s : Symbol) : 0 < s.width := by
  cases s with
  | tag name => exact Nat.lt_add_right _ Nat.one_pos
  | operator op => cases op <;> decide
  | not | opening | closing => decide

theorem Lexeme.offset_lt_finish (l : Lexeme) : l.offset < l.finish :=
  Nat.lt_add_of_pos_right l.symbol.width_pos

theorem utf8Size_of_isLetter {c : Char} (h : isLetter c = true) : c.utf8Size = 1 := by
  have hc := isLetter_iff.mp h
  have hsmall : c.val ≤ 0x7f := UInt32.le_iff_toNat_le.mpr (show c.toNat ≤ 127 by omega)
  exact if_pos hsmall

/-- Words that stand for symbols have as many bytes as letters. -/
theorem byteCount_of_wordSymbol? {word : List Char} {s : Symbol} (h : wordSymbol? word = some s) :
    byteCount word = word.length ∧ s.width = word.length := by
  constructor
  · have hletters := (isLetter_of_wordSymbol? h).2
    clear h
    induction word with
    | nil => rfl
    | cons c word ih =>
      obtain ⟨hc, hword⟩ := List.forall_mem_cons.mp hletters
      rw [byteCount, utf8Size_of_isLetter hc, ih hword, List.length_cons, Nat.add_comm]
  · have hword := wordSymbol?_eq_some_iff.mp h
    rw [← List.length_map (f := Char.toLower)]
    generalize word.map Char.toLower = lower at hword
    simp only [List.mem_cons, Prod.mk.injEq, List.not_mem_nil, or_false] at hword
    obtain ⟨rfl, rfl⟩ | ⟨rfl, rfl⟩ | ⟨rfl, rfl⟩ := hword <;> decide

/-- A text is divided between two symbols of its scan, or before the ending. The part in front
spells the symbols before the place; the scan goes on at the byte behind this part, or one byte
later, behind an at sign without a name. -/
structure Divides (offset : Nat) (cs : List Char) (front rest : List Lexeme)
    (ending : Except Error Nat) (before after : List Char) : Prop where
  eq : cs = before ++ after
  spelled : Spelled (front.map (·.symbol)) before
  passed : ∀ l ∈ front, l.finish ≤ offset + byteCount before
  ahead : ∀ l ∈ rest, nextByte ending rest < l.finish
  next : nextByte ending rest = offset + byteCount before ∨
    after.head? = some '@' ∧ nextByte ending rest = offset + byteCount before + 1

/-- The text, which starts at a byte, can be divided between any two symbols of the scan. -/
def IsDivisible (offset : Nat) (cs : List Char) (s : Scan) : Prop :=
  ∀ front rest, s.lexemes = front ++ rest →
    ∃ before after, Divides offset cs front rest s.ending before after

section
variable {offset : Nat} {cs before after : List Char} {front rest : List Lexeme} {s : Scan}
  {ending : Except Error Nat}

theorem Divides.le_nextByte (h : Divides offset cs front rest ending before after) :
    offset + byteCount before ≤ nextByte ending rest := by
  obtain hnext | ⟨-, hnext⟩ := h.next
  · exact hnext.ge
  · omega

theorem isDivisible_nil
    (hnext : nextByte ending [] = offset ∨
      cs.head? = some '@' ∧ nextByte ending [] = offset + 1) :
    IsDivisible offset cs ⟨[], ending⟩ := by
  intro front rest h
  obtain ⟨rfl, rfl⟩ := List.append_eq_nil_iff.mp h.symm
  exact ⟨[], cs, rfl, .nil, by simp, by simp, hnext⟩

theorem IsDivisible.blank {c : Char} (hc : Text.isBlank c = true)
    (h : IsDivisible (offset + c.utf8Size) cs s) : IsDivisible offset (c :: cs) s := by
  intro front rest hlexemes
  obtain ⟨before, after, hrest⟩ := h front rest hlexemes
  have hcount : offset + byteCount (c :: before) = offset + c.utf8Size + byteCount before :=
    (Nat.add_assoc ..).symm
  refine ⟨c :: before, after, congrArg (c :: ·) hrest.eq, .blank hc hrest.spelled, ?_, hrest.ahead,
    ?_⟩
  · rw [hcount]
    exact hrest.passed
  · rw [hcount]
    exact hrest.next

/-- A scan that starts with a symbol is divided in front of it, or where the rest is. -/
theorem IsDivisible.cons (word : List Char) {l : Lexeme}
    (hfinish : l.finish = l.offset + byteCount word)
    (hspelled : ∀ ss before, before <+: cs → Spelled ss before →
      Spelled (l.symbol :: ss) (word ++ before))
    (h : IsDivisible l.finish cs s) : IsDivisible l.offset (word ++ cs) (s.cons l) := by
  intro front rest hlexemes
  cases front with
  | nil =>
    obtain rfl : l :: s.lexemes = rest := hlexemes
    obtain ⟨before, after, hrest⟩ := h [] s.lexemes rfl
    refine ⟨[], word ++ cs, rfl, .nil, by simp, ?_, .inl rfl⟩
    refine List.forall_mem_cons.mpr ⟨l.offset_lt_finish, fun m hm => ?_⟩
    calc l.offset < l.finish := l.offset_lt_finish
      _ ≤ l.finish + byteCount before := Nat.le_add_right _ _
      _ ≤ nextByte s.ending s.lexemes := hrest.le_nextByte
      _ < m.finish := hrest.ahead m hm
  | cons l' front =>
    obtain ⟨rfl, htail⟩ := List.cons.inj hlexemes
    obtain ⟨before, after, hrest⟩ := h front rest htail
    have hcount : l.offset + byteCount (word ++ before) = l.finish + byteCount before := by
      rw [byteCount_append, hfinish, Nat.add_assoc]
    refine ⟨word ++ before, after, ?_, ?_, ?_, hrest.ahead, ?_⟩
    · rw [hrest.eq, List.append_assoc]
    · exact hspelled _ _ ⟨after, hrest.eq.symm⟩ hrest.spelled
    · rw [hcount]
      exact List.forall_mem_cons.mpr ⟨Nat.le_add_right _ _, hrest.passed⟩
    · rw [hcount]
      exact hrest.next

end

/-- What cannot follow a text cannot follow a part of it from the start. -/
theorem forall_head?_of_prefix {p : Char → Bool} {cs before : List Char}
    (h : ∀ c ∈ cs.head?, p c = false) (hbefore : before <+: cs) :
    ∀ c ∈ before.head?, p c = false := by
  obtain ⟨after, rfl⟩ := hbefore
  cases before with
  | nil => simp
  | cons d before => exact h

theorem fault_ne_unclosed_of_scan (offset : Nat) (cs : List Char) :
    ∀ e, (scan offset cs).ending = .error e → e.fault ≠ .unclosed := by
  fun_induction scan offset cs with
  | case1 => simp
  | case5 | case7 | case9 => rintro e ⟨⟩ ⟨⟩
  | case2 _ _ _ _ ih | case3 _ _ _ ih | case4 _ _ _ _ ih | case6 _ _ _ _ _ _ _ ih
  | case8 _ _ _ _ _ _ _ _ _ _ _ ih => exact ih

theorem isDivisible_scan (offset : Nat) (cs : List Char) :
    IsDivisible offset cs (scan offset cs) := by
  fun_induction scan offset cs with
  | case1 offset => exact isDivisible_nil (.inl rfl)
  | case2 offset c cs hblank ih => exact ih.blank hblank
  | case3 offset cs _ ih => exact .cons ['('] rfl (fun _ _ _ => .opening) ih
  | case4 offset cs _ _ ih => exact .cons [')'] rfl (fun _ _ _ => .closing) ih
  | case5 offset cs => exact isDivisible_nil (.inr ⟨rfl, rfl⟩)
  | case6 offset cs name hname _ _ _ ih =>
    have hcs : '@' :: cs = '@' :: name ++ cs.dropWhile isTagChar := by
      rw [List.cons_append, List.takeWhile_append_dropWhile]
    have hfinish : Lexeme.finish ⟨offset, .tag (.ofList name)⟩ = offset + 1 + byteCount name := by
      simp only [Lexeme.finish, Symbol.width, String.toList_ofList, Nat.add_assoc]
    rw [hcs]
    refine .cons ('@' :: name) (l := ⟨offset, .tag (.ofList name)⟩) ?_
      (fun ss before hbefore hss => ?_) ?_
    · simp only [hfinish, byteCount, Nat.add_assoc]
      rfl
    · refine .tag hname (fun c hc => List.mem_takeWhile_imp hc) ?_ hss
      exact forall_head?_of_prefix (head?_dropWhile_eq_false isTagChar cs) hbefore
    · rwa [hfinish]
  | case7 => exact isDivisible_nil (.inl rfl)
  | case8 offset c cs _ _ _ _ _ word symbol hsymbol ih =>
    obtain ⟨hcount, hwidth⟩ := byteCount_of_wordSymbol? hsymbol
    have hcs : c :: cs = word ++ cs.dropWhile isLetter := by
      rw [List.cons_append, List.takeWhile_append_dropWhile]
    rw [hcs]
    refine .cons word (l := ⟨offset, symbol⟩) ?_ (fun ss before hbefore hss => ?_) ?_
    · rw [Lexeme.finish, hwidth, hcount]
    · refine .word hsymbol ?_ hss
      exact forall_head?_of_prefix (head?_dropWhile_eq_false isLetter cs) hbefore
    · rwa [Lexeme.finish, hwidth]
  | case9 => exact isDivisible_nil (.inl rfl)

/-! ## Texts -/

/-- The symbols of a text, up to the first place that no symbol fits. -/
def symbols (text : String) : List Symbol :=
  (scan 0 text.toList).lexemes.map (·.symbol)

def symbolsUpTo (offset : Nat) (text : String) : List Symbol :=
  ((scan 0 text.toList).lexemes.filter fun l => l.finish ≤ offset).map (·.symbol)

theorem utf8ByteSize_ofList (cs : List Char) :
    (String.ofList cs).utf8ByteSize = byteCount cs := by
  induction cs with
  | nil => rfl
  | cons c cs ih =>
    rw [String.ofList_cons, String.utf8ByteSize_append, String.utf8ByteSize_singleton, ih,
      byteCount]

/-- The symbols in front of the byte at which a divided scan goes on are those that end there or
before. -/
theorem Divides.symbolsUpTo {text : String} {front rest : List Lexeme} {before after : List Char}
    (hlexemes : (scan 0 text.toList).lexemes = front ++ rest)
    (h : Divides 0 text.toList front rest (scan 0 text.toList).ending before after) :
    symbolsUpTo (nextByte (scan 0 text.toList).ending rest) text = front.map (·.symbol) := by
  have hfront : ∀ l ∈ front, l.finish ≤ nextByte (scan 0 text.toList).ending rest :=
    fun l hl => (h.passed l hl).trans h.le_nextByte
  have hrest : ∀ l ∈ rest, ¬l.finish ≤ nextByte (scan 0 text.toList).ending rest :=
    fun l hl => Nat.not_le.mpr (h.ahead l hl)
  rw [TagExpr.symbolsUpTo, hlexemes, List.filter_append,
    List.filter_eq_self.mpr (by simpa using hfront),
    List.filter_eq_nil_iff.mpr (by simpa using hrest), List.append_nil]

/-- Behind a character boundary and an at sign there is a character boundary. -/
theorem Divides.isValid {text : String} {front rest : List Lexeme} {before after : List Char}
    {ending : Except Error Nat} (h : Divides 0 text.toList front rest ending before after) :
    String.Pos.Raw.IsValid text ⟨nextByte ending rest⟩ := by
  have htext : text = .ofList before ++ .ofList after := by
    rw [← String.ofList_append, ← h.eq, String.ofList_toList]
  obtain hnext | ⟨hat, hnext⟩ := h.next
  · rw [htext, hnext, Nat.zero_add, ← utf8ByteSize_ofList]
    exact String.Pos.Raw.isValid_rawEndPos.append_right _
  · obtain ⟨after, rfl⟩ := List.head?_eq_some_iff.mp hat
    have hat : text = .ofList (before ++ ['@']) ++ .ofList after := by
      rw [htext, ← String.ofList_append, ← String.ofList_append, List.append_assoc]
      rfl
    have hcount : nextByte ending rest = (String.ofList (before ++ ['@'])).utf8ByteSize := by
      rw [hnext, utf8ByteSize_ofList, byteCount_append, Nat.zero_add]
      rfl
    rw [hat, hcount]
    exact String.Pos.Raw.isValid_rawEndPos.append_right _

/-- An error names a byte of the text, or its end, where a character starts. The symbols that end
there or before are the beginning of an expression: the text in front of the byte holds them, and
can go on to a text that is accepted. What comes next is a parenthesis that is not closed, or else a
symbol with which they are the beginning of an expression no more. -/
theorem parse_error_after_viable_prefix {text : String} {e : Error} (h : parse text = .error e) :
    e.offset ≤ text.utf8ByteSize ∧ String.Pos.Raw.IsValid text ⟨e.offset⟩ ∧
      IsViable (symbolsUpTo e.offset text) ∧
      (∃ before after rest ts f, text = before ++ after ∧ before.utf8ByteSize ≤ e.offset ∧
        Spelled (symbolsUpTo e.offset text) before.toList ∧
        Spelled (symbolsUpTo e.offset text ++ ts) (before ++ rest).toList ∧
        parse (before ++ rest) = .ok f) ∧
      ∃ later, symbols text = symbolsUpTo e.offset text ++ later ∧
        (e.fault = .unclosed → later.head? = some .opening) ∧
        (e.fault ≠ .unclosed →
          ∀ s ∈ later.head?, ¬ IsViable (symbolsUpTo e.offset text ++ [s])) := by
  have hread : HasRead ⟨.empty, []⟩ (.before none) ([] ++ [] ++ []) := .before none .nil .empty
  have hreaches : Reaches [] ⟨.empty, []⟩ (.before none) := fun _ _ => rfl
  obtain ⟨front, rest, hlexemes, hnames⟩ :=
    names_of_parseFrom h (fault_ne_unclosed_of_scan 0 text.toList) hreaches hread
      (by simp [Opened])
  obtain ⟨before, after, hdivides⟩ := isDivisible_scan 0 text.toList front rest hlexemes
  have hvalid := hnames.offset ▸ hdivides.isValid
  have hsymbols := hnames.offset ▸ hdivides.symbolsUpTo hlexemes
  rw [hsymbols]
  refine ⟨hvalid.le_utf8ByteSize, hvalid, hnames.continuable.isViable, ?_, rest.map (·.symbol),
    ?_, hnames.opening, ?_⟩
  · obtain ⟨ts, cs, f, hts, hf⟩ := hnames.continuable
    have hspelled := hdivides.spelled.append hts
    refine ⟨.ofList before, .ofList after, .ofList (' ' :: cs), ts, f, ?_, ?_, ?_, ?_, ?_⟩
    · rw [← String.ofList_append, ← hdivides.eq, String.ofList_toList]
    · rw [utf8ByteSize_ofList, hnames.offset, ← Nat.zero_add (byteCount before)]
      exact hdivides.le_nextByte
    · rw [String.toList_ofList]
      exact hdivides.spelled
    · rwa [← String.ofList_append, String.toList_ofList]
    · rw [← String.ofList_append, parse_eq_ok_iff, String.toList_ofList]
      exact ⟨_, hspelled, hf⟩
  · rw [symbols, ← List.map_append]
    exact congrArg (List.map (·.symbol)) hlexemes
  · simpa using hnames.refused

/-- The parenthesis is not closed where a second operand follows. It is named by where it was
opened, behind a tag with a character of two bytes. -/
theorem parse_error_after_viable_prefix_unclosed :
    let text := "@ä and (not @b @c"
    let e : Error := ⟨8, .unclosed⟩
    parse text = .error e ∧ symbolsUpTo e.offset text = [.tag "ä", .operator .and] ∧
      e.offset ≤ text.utf8ByteSize ∧ String.Pos.Raw.IsValid text ⟨e.offset⟩ ∧
      IsViable (symbolsUpTo e.offset text) ∧
      ∃ later, symbols text = symbolsUpTo e.offset text ++ later ∧
        later.head? = some .opening := by
  intro text e
  have h : parse text = .error e := by decide +kernel
  have hsymbols : symbolsUpTo e.offset text = [.tag "ä", .operator .and] := by decide +kernel
  obtain ⟨hle, hvalid, hviable, -, later, hlater, hopening, -⟩ :=
    parse_error_after_viable_prefix h
  exact ⟨h, hsymbols, hle, hvalid, hviable, later, hlater, hopening rfl⟩

end FeaturePlan.TagExpr
