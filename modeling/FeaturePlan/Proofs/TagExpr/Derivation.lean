import FeaturePlan.Proofs.TagExpr.Spelling
import FeaturePlan.TagExpr.Parse

/-! # Parsing tag expressions

The parser accepts exactly the phrases of the grammar. What waits on its levels is what the symbols
so far leave open; and a whole phrase is taken as one operand would be. -/

namespace FeaturePlan.TagExpr

/-! ## Negations -/

theorem Level.negate_not (n : Nat) (e : TagExpr) : negate n (.not e) = negate (n + 1) e := by
  induction n with
  | zero => rfl
  | succ n ih => rw [negate, ih, ← negate]

section
variable (l : Level) (e : TagExpr)

/-- A negation that waits may as well be a part of the operand. -/
theorem Level.conjoin_not :
    Level.conjoin { l with negations := l.negations + 1 } e = l.conjoin (.not e) := by
  simp only [conjoin, negate_not]

theorem Level.complete_eq :
    l.complete e = Level.complete ⟨l.disjunct, none, 0⟩ (l.conjoin e) := by
  cases h : l.disjunct <;> simp [complete, conjoin, negate, h]

theorem Level.complete_not :
    Level.complete { l with negations := l.negations + 1 } e = l.complete (.not e) := by
  rw [complete_eq, complete_eq l, conjoin_not]

theorem Level.extend_not (op : Operator) :
    Level.extend { l with negations := l.negations + 1 } e op = l.extend (.not e) op := by
  cases op
  · simp only [extend, conjoin_not]
  · simp only [extend, complete_not]

end

/-! ## Soundness -/

/-- What waits on a level is what some symbols say: those up to the last `or` of the level, and
those behind it. -/
structure Level.Reads (l : Level) (ss ts : List Symbol) : Prop where
  conjoin : ∀ us e, Derives .operand us e → Derives .conjunction (ts ++ us) (l.conjoin e)
  disjoin : ∀ us e, Derives .conjunction us e →
    Derives .disjunction (ss ++ us) (Level.complete ⟨l.disjunct, none, 0⟩ e)

section
variable {l : Level} {ss ts us : List Symbol} {e : TagExpr}

theorem Level.Reads.empty : Level.empty.Reads [] [] where
  conjoin _ _ he := .operand he
  disjoin _ _ he := .conjunction he

theorem Level.Reads.complete (h : l.Reads ss ts) (he : Derives .operand us e) :
    Derives .disjunction (ss ++ ts ++ us) (l.complete e) := by
  rw [List.append_assoc, complete_eq]
  exact h.disjoin _ _ (h.conjoin _ _ he)

theorem Level.Reads.not (h : l.Reads ss ts) :
    Level.Reads { l with negations := l.negations + 1 } ss (ts ++ [.not]) where
  conjoin us e he := by
    rw [List.append_assoc, conjoin_not]
    exact h.conjoin _ _ (.not he)
  disjoin := h.disjoin

theorem Level.Reads.and (h : l.Reads ss ts) (he : Derives .operand us e) :
    (l.extend e .and).Reads ss (ts ++ us ++ [.operator .and]) where
  conjoin vs f hf := by
    rw [List.append_assoc (ts ++ us)]
    exact .and (h.conjoin _ _ he) hf
  disjoin := h.disjoin

theorem Level.Reads.or (h : l.Reads ss ts) (he : Derives .operand us e) :
    (l.extend e .or).Reads (ss ++ ts ++ us ++ [.operator .or]) [] where
  conjoin vs f hf := .operand hf
  disjoin vs f hf := by
    rw [List.append_assoc (ss ++ ts ++ us)]
    exact .or (h.complete he) hf

end

/-- The levels around a parenthesis have read the symbols before it, and it. -/
inductive Encloses : List (Nat × Level) → List Symbol → Prop where
  | nil : Encloses [] []
  | cons {outer : List (Nat × Level)} {l : Level} {rs ss ts : List Symbol} (opening : Nat) :
      Encloses outer rs → l.Reads ss ts →
      Encloses ((opening, l) :: outer) (rs ++ ss ++ ts ++ [.opening])

/-- What the parser holds between two symbols is what the symbols so far say. -/
inductive HasRead : Nesting → Place → List Symbol → Prop where
  | before {n : Nesting} {rs ss ts : List Symbol} (op : Option Operator) :
      Encloses n.outer rs → n.level.Reads ss ts → HasRead n (.before op) (rs ++ ss ++ ts)
  | after {n : Nesting} {rs ss ts us : List Symbol} {e : TagExpr} :
      Encloses n.outer rs → n.level.Reads ss ts → Derives .operand us e →
      HasRead n (.after e) (rs ++ ss ++ ts ++ us)

section
variable {n : Nesting} {op : Option Operator} {ss : List Symbol} {e : TagExpr}

theorem HasRead.tag (h : HasRead n (.before op) ss) (name : String) :
    HasRead n (.after (.tag name)) (ss ++ [.tag name]) := by
  obtain ⟨_, houter, hlevel⟩ := h
  exact .after houter hlevel (.tag name)

theorem HasRead.not (h : HasRead n (.before op) ss) :
    HasRead { n with level.negations := n.level.negations + 1 } (.before none) (ss ++ [.not]) := by
  obtain ⟨_, houter, hlevel⟩ := h
  rw [List.append_assoc]
  exact .before none houter hlevel.not

theorem HasRead.opening (h : HasRead n (.before op) ss) (offset : Nat) :
    HasRead ⟨.empty, (offset, n.level) :: n.outer⟩ (.before none) (ss ++ [.opening]) := by
  obtain ⟨_, houter, hlevel⟩ := h
  simpa using HasRead.before (n := ⟨.empty, (offset, n.level) :: n.outer⟩) none
    (houter.cons offset hlevel) .empty

theorem HasRead.operator (h : HasRead n (.after e) ss) (op : Operator) :
    HasRead { n with level := n.level.extend e op } (.before (some op))
      (ss ++ [.operator op]) := by
  obtain ⟨⟩ | ⟨houter, hlevel, he⟩ := h
  cases op with
  | and =>
    simpa using HasRead.before (n := { n with level := n.level.extend e .and }) (some .and) houter
      (hlevel.and he)
  | or =>
    simpa using HasRead.before (n := { n with level := n.level.extend e .or }) (some .or) houter
      (hlevel.or he)

theorem HasRead.closing {offset : Nat} {level : Level} {outer : List (Nat × Level)}
    (h : HasRead n (.after e) ss) (hnested : n.outer = (offset, level) :: outer) :
    HasRead ⟨level, outer⟩ (.after (n.level.complete e)) (ss ++ [.closing]) := by
  obtain ⟨⟩ | ⟨houter, hlevel, he⟩ := h
  rw [hnested] at houter
  obtain ⟨⟩ | ⟨_, houter, hopening⟩ := houter
  simpa using HasRead.after (n := ⟨level, outer⟩) houter hopening (.group (hlevel.complete he))

theorem HasRead.complete (h : HasRead n (.after e) ss) (hnested : n.outer = []) :
    Derives .disjunction ss (n.level.complete e) := by
  obtain ⟨⟩ | ⟨houter, hlevel, he⟩ := h
  rw [hnested] at houter
  obtain ⟨⟩ := houter
  exact hlevel.complete he

end

/-- An expression that is returned is what all symbols say, those still to be taken included. -/
theorem derives_of_parseFrom {ending : Except Error Nat} {n : Nesting} {place : Place}
    {ls : List Lexeme} {ss : List Symbol} {e : TagExpr}
    (h : parseFrom ending n place ls = .ok e) (hread : HasRead n place ss) :
    (∃ k, ending = .ok k) ∧ Derives .disjunction (ss ++ ls.map (·.symbol)) e := by
  fun_induction parseFrom ending n place ls generalizing ss with
  | case1 n op =>
    cases ending with
    | error => simp [bind, Except.bind] at h
    | ok => cases op <;> simp [bind, Except.bind] at h
  | case2 n e' =>
    cases ending with
    | error => simp [bind, Except.bind] at h
    | ok k =>
      cases hnested : n.outer with
      | cons => simp [bind, Except.bind, hnested] at h
      | nil =>
        obtain rfl : n.level.complete e' = e := by simpa [bind, Except.bind, hnested] using h
        simpa using hread.complete hnested
  | case3 n op offset rest name ih => simpa using ih h (hread.tag name)
  | case4 n op offset rest ih => simpa using ih h hread.not
  | case5 n op offset rest ih => simpa using ih h (hread.opening offset)
  | case6 => simp at h
  | case7 => simp at h
  | case8 => simp at h
  | case9 => simp at h
  | case10 n e' offset rest op ih => simpa using ih h (hread.operator op)
  | case11 n e' offset rest opening level outer hnested ih =>
    simpa using ih h (hread.closing hnested)
  | case12 => simp at h
  | case13 => simp at h

/-! ## Completeness -/

/-- The symbols, wherever they stand in a text and whatever follows, bring the parser from one point
to another. -/
def Leads (n : Nesting) (place : Place) (ss : List Symbol) (n' : Nesting) (place' : Place) : Prop :=
  ∀ (ending : Except Error Nat) (ls rest : List Lexeme), ls.map (·.symbol) = ss →
    parseFrom ending n place (ls ++ rest) = parseFrom ending n' place' rest

section
variable {n : Nesting} {op : Option Operator} {e : TagExpr} {ss : List Symbol}

theorem Leads.append {n' n'' : Nesting} {place place' place'' : Place} {ts : List Symbol}
    (h : Leads n place ss n' place') (h' : Leads n' place' ts n'' place'') :
    Leads n place (ss ++ ts) n'' place'' := by
  intro ending ls rest hls
  obtain ⟨ls, ls', rfl, hss, hts⟩ := List.map_eq_append_iff.mp hls
  rw [List.append_assoc, h ending ls (ls' ++ rest) hss, h' ending ls' rest hts]

theorem leads_tag (name : String) : Leads n (.before op) [.tag name] n (.after (.tag name)) := by
  intro ending ls rest hls
  obtain ⟨⟨offset, _⟩, rfl, rfl⟩ := List.map_eq_singleton_iff.mp hls
  rfl

theorem leads_operator (op : Operator) :
    Leads n (.after e) [.operator op] { n with level := n.level.extend e op }
      (.before (some op)) := by
  intro ending ls rest hls
  obtain ⟨⟨offset, _⟩, rfl, rfl⟩ := List.map_eq_singleton_iff.mp hls
  rfl

/-- Behind an operand the negations before it make no difference any more. -/
theorem parseFrom_not (ending : Except Error Nat) (n : Nesting) (e : TagExpr) (ls : List Lexeme) :
    parseFrom ending { n with level.negations := n.level.negations + 1 } (.after e) ls =
      parseFrom ending n (.after (.not e)) ls := by
  cases ls with
  | nil => simp only [parseFrom, Level.complete_not]
  | cons l ls =>
    obtain ⟨offset, symbol⟩ := l
    cases symbol <;> cases houter : n.outer <;>
      simp only [parseFrom, houter, Level.complete_not, Level.extend_not]

theorem leads_not (h : ∀ n op, Leads n (.before op) ss n (.after e)) :
    Leads n (.before op) (.not :: ss) n (.after (.not e)) := by
  intro ending ls rest hls
  obtain ⟨⟨offset, _⟩, ls, rfl, rfl, hss⟩ := List.map_eq_cons_iff.mp hls
  rw [List.cons_append, parseFrom, h _ none ending ls rest hss, parseFrom_not]

theorem leads_group {l : Level}
    (h : ∀ outer, Leads ⟨.empty, outer⟩ (.before none) ss ⟨l, outer⟩ (.after e)) :
    Leads n (.before op) (.opening :: ss ++ [.closing]) n (.after (l.complete e)) := by
  intro ending ls rest hls
  obtain ⟨⟨offset, _⟩, ls, rfl, rfl, hinside⟩ := List.map_eq_cons_iff.mp hls
  obtain ⟨ls, ls', rfl, hss, hclosing⟩ := List.map_eq_append_iff.mp hinside
  obtain ⟨⟨offset', _⟩, rfl, rfl⟩ := List.map_eq_singleton_iff.mp hclosing
  rw [List.cons_append, parseFrom, List.append_assoc, h _ ending ls _ hss]
  rfl

end

/-- A phrase leads from an operand's place to the place behind it. The nesting is as before, except
that a conjunction leaves its last operand on the level, and so does a disjunction; but what waits
there makes the expression. -/
def Taken : Phrase → List Symbol → TagExpr → Prop
  | .operand, ss, e => ∀ n op, Leads n (.before op) ss n (.after e)
  | .conjunction, ss, e => ∀ disjunct, ∃ l e', l.disjunct = disjunct ∧ l.conjoin e' = e ∧
      ∀ outer op, Leads ⟨⟨disjunct, none, 0⟩, outer⟩ (.before op) ss ⟨l, outer⟩ (.after e')
  | .disjunction, ss, e => ∃ l e', l.complete e' = e ∧
      ∀ outer op, Leads ⟨.empty, outer⟩ (.before op) ss ⟨l, outer⟩ (.after e')

theorem Derives.taken {p : Phrase} {ss : List Symbol} {e : TagExpr} (h : Derives p ss e) :
    Taken p ss e := by
  induction h with
  | tag name => exact fun n op => leads_tag name
  | not _ ih => exact fun n op => leads_not ih
  | group _ ih =>
    obtain ⟨l, e', rfl, htaken⟩ := ih
    exact fun n op => leads_group fun outer => htaken outer none
  | @operand ss e _ ih =>
    exact fun disjunct => ⟨⟨disjunct, none, 0⟩, e, rfl, rfl, fun outer op => ih _ op⟩
  | @and ss ts e f _ _ ih ihf =>
    intro disjunct
    obtain ⟨l, e', rfl, rfl, htaken⟩ := ih disjunct
    refine ⟨l.extend e' .and, f, rfl, rfl, fun outer op => ?_⟩
    exact (htaken outer op).append ((leads_operator .and).append (ihf _ _))
  | conjunction _ ih =>
    obtain ⟨l, e', hl, rfl, htaken⟩ := ih none
    refine ⟨l, e', ?_, htaken⟩
    rw [Level.complete_eq, hl]
    rfl
  | or _ _ ih ihf =>
    obtain ⟨l, e', rfl, htaken⟩ := ih
    obtain ⟨l', f', hl', rfl, htaken'⟩ := ihf (some (l.complete e'))
    refine ⟨l', f', ?_, fun outer op => ?_⟩
    · rw [Level.complete_eq, hl']
      rfl
    · exact (htaken outer op).append ((leads_operator .or).append (htaken' outer _))

theorem Derives.parseFrom {ls : List Lexeme} {e : TagExpr}
    (h : Derives .disjunction (ls.map (·.symbol)) e) (k : Nat) :
    parseFrom (.ok k) ⟨.empty, []⟩ (.before none) ls = .ok e := by
  obtain ⟨l, e', rfl, htaken⟩ := h.taken
  have hend := htaken [] none (.ok k) ls [] rfl
  rw [List.append_nil] at hend
  rw [hend]
  rfl

/-! ## Texts -/

/-- The parser accepts a text exactly when it spells a phrase, and returns what the phrase says. -/
theorem parse_eq_ok_iff {text : String} {e : TagExpr} :
    parse text = .ok e ↔ ∃ ss, Spelled ss text.toList ∧ Derives .disjunction ss e := by
  constructor
  · intro h
    obtain ⟨hok, he⟩ := derives_of_parseFrom h (.before none .nil .empty)
    exact ⟨_, (spelled_iff 0).mpr ⟨hok, rfl⟩, he⟩
  · rintro ⟨ss, hspelled, he⟩
    obtain ⟨⟨k, hok⟩, rfl⟩ := (spelled_iff 0).mp hspelled
    rw [parse, hok]
    exact he.parseFrom k

theorem Derives.unique {ss : List Symbol} {e f : TagExpr} (he : Derives .disjunction ss e)
    (hf : Derives .disjunction ss f) : e = f := by
  obtain ⟨ls, rfl⟩ : ∃ ls : List Lexeme, ls.map (·.symbol) = ss :=
    ⟨ss.map (⟨0, ·⟩), by simp [Function.comp_def]⟩
  exact Except.ok.inj ((he.parseFrom 0).symm.trans (hf.parseFrom 0))

end FeaturePlan.TagExpr
