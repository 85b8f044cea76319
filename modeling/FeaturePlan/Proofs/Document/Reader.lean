import FeaturePlan.Document.Parse
import FeaturePlan.Proofs.Document.Denotation
import FeaturePlan.Proofs.Scanner.Classify

/-! # Reading and assembling at once

The automaton keeps the open rules and the builder keeps them with their parts. Here both act on
the same frames, line by line, so that what a text is read as can be followed through its lines. -/

namespace FeaturePlan

/-- Open rules with the parts that they have so far, innermost first. -/
abbrev Parts := List (Rule × List Tree)

namespace Tree

/-- What becomes of frames that are closed from the inside to the outside, around `ts`. -/
def wrap : List Tree → Parts → List Tree
  | ts, [] => ts
  | ts, (rule, parts) :: frames => wrap [node rule (parts ++ ts)] frames

theorem wrap_append (ts : List Tree) (inner outer : Parts) :
    wrap ts (inner ++ outer) = wrap (wrap ts inner) outer := by
  induction inner generalizing ts with
  | nil => rfl
  | cons f inner ih => exact ih _

end Tree

namespace Assembly

def within (frames : Parts) (waiting : List Comment) : Assembly :=
  ⟨frames, [], waiting⟩

def rules (a : Assembly) : List Rule :=
  a.frames.map Prod.fst

@[simp] theorem rules_within (frames : Parts) (w : List Comment) :
    (within frames w).rules = frames.map Prod.fst :=
  rfl

/-! ## Events -/

/-- The events that lead from one assembly to another, none of them refused. -/
inductive Hands : List Event → Assembly → Assembly → Prop where
  | nil (a) : Hands [] a a
  | opened {rule a a' es} : Hands es (builder.opened rule a) a' → Hands (.opened rule :: es) a a'
  | token {t a a' es} : Hands es (builder.token t a) a' → Hands (.token t :: es) a a'
  | closed {rule a b a' es} : a.close = (b, none) → Hands es b a' →
      Hands (.closed rule :: es) a a'

theorem Hands.append {es fs : List Event} {a b c : Assembly} (h : Hands es a b)
    (h' : Hands fs b c) : Hands (es ++ fs) a c := by
  induction h with
  | nil => exact h'
  | opened _ ih => exact .opened (ih h')
  | token _ ih => exact .token (ih h')
  | closed hc _ ih => exact .closed hc (ih h')

theorem Hands.run {τ : Type _} {k : Sink τ} {u : τ} {es : List Event} {a a' : Assembly}
    (h : Hands es a a') : Delivery.run builder k es a u = ⟨es, a', u, none⟩ := by
  induction h with
  | nil => rfl
  | opened _ ih => simp only [Delivery.run, ih, Delivery.afterEvent]
  | token _ ih => simp only [Delivery.run, ih, Delivery.afterEvent]
  | closed hc _ ih =>
      have hb : ∀ rule (a : Assembly), builder.closed rule a = a.close := fun _ _ => rfl
      simp only [Delivery.run, hb, hc, ih, Delivery.afterEvent]

/-! ## Actions -/

/-- A rule that is not a table with rows of different widths. -/
def Closable (f : Rule × List Tree) : Prop :=
  isTable f.1 = true → Tree.unevenRow? f.2 = none

theorem close_within {rule outer : Rule} {parts ps : List Tree} {frames : Parts}
    {w : List Comment} (h : Closable (rule, parts)) :
    (within ((rule, parts) :: (outer, ps) :: frames) w).close =
      (within ((outer, ps ++ [.node rule parts]) :: frames) w, none) := by
  have hn : (if isTable rule then Tree.unevenRow? parts else none) = none := by
    split
    · exact h ‹_›
    · rfl
  simp only [close, within, hn]
  rfl

/-- Performing actions on the open rules and handing their events over. -/
inductive Performs (t : Token) : List Action → Assembly → Assembly → Prop where
  | nil (a) : Performs t [] a a
  | cons {action actions es a b a'} :
      Action.perform t a.rules action = (es, b.rules) → Hands es a b →
      Performs t actions b a' → Performs t (action :: actions) a a'

variable {t : Token}

theorem Performs.events {actions : List Action} {a a' : Assembly} (h : Performs t actions a a') :
    ∃ es, Action.performAll t a.rules actions = (es, a'.rules) ∧ Hands es a a' := by
  induction h with
  | nil a => exact ⟨[], rfl, .nil a⟩
  | cons hp hh _ ih =>
      obtain ⟨es, he, hes⟩ := ih
      exact ⟨_, by simp only [Action.performAll, hp, he], hh.append hes⟩

variable {rule : Rule} {parts : List Tree} {frames outer : Parts} {w : List Comment}
  {actions : List Action} {a : Assembly}

theorem Performs.enter (h : Performs t actions (within ((rule, []) :: frames) w) a) :
    Performs t (.enter rule :: actions) (within frames w) a :=
  .cons rfl (.opened (.nil _)) h

theorem Performs.leave {around : Rule} {ps : List Tree} (hc : Closable (rule, parts))
    (h : Performs t actions (within ((around, ps ++ [.node rule parts]) :: frames) w) a) :
    Performs t (.leave :: actions) (within ((rule, parts) :: (around, ps) :: frames) w) a :=
  .cons rfl (.closed (close_within hc) (.nil _)) h

def addParts (ts : List Tree) : Parts → Parts
  | [] => []
  | (rule, parts) :: frames => (rule, parts ++ ts) :: frames

theorem hands_closed {inner : Parts} (hc : ∀ f ∈ inner, Closable f) (ts : List Tree)
    (hts : Tree.rows ts = []) :
    Hands ((inner.map Prod.fst).map .closed)
      (within (addParts ts (inner ++ (rule, parts) :: outer)) w)
      (within ((rule, parts ++ Tree.wrap ts inner) :: outer) w) := by
  induction inner generalizing ts with
  | nil => exact .nil _
  | cons f inner ih =>
      obtain ⟨r, ps⟩ := f
      have hclosable : Closable (r, ps ++ ts) := by
        intro ht
        have huneven := hc (r, ps) List.mem_cons_self ht
        rwa [Tree.unevenRow?, Tree.rows_append, hts, List.append_nil]
      have hnext := ih (fun f hf => hc f (List.mem_cons_of_mem _ hf)) [.node r (ps ++ ts)] rfl
      cases inner with
      | nil => exact .closed (close_within hclosable) hnext
      | cons g inner =>
          obtain ⟨r', qs⟩ := g
          exact .closed (close_within hclosable) hnext

theorem Performs.leaveTo (inner : Parts) (hi : ∀ f ∈ inner, f.1 ≠ rule ∧ Closable f)
    (h : Performs t actions (within ((rule, parts ++ Tree.wrap [] inner) :: outer) w) a) :
    Performs t (.leaveTo rule :: actions) (within (inner ++ (rule, parts) :: outer) w) a := by
  have hrules : ∀ r ∈ inner.map Prod.fst, decide (r ≠ rule) = true := by
    intro r hr
    obtain ⟨f, hf, rfl⟩ := List.mem_map.mp hr
    exact decide_eq_true (hi f hf).1
  have hadd : ∀ frames : Parts, addParts [] frames = frames := by
    intro frames
    cases frames <;> simp [addParts]
  have hh : Hands ((inner.map Prod.fst).map .closed) (within (inner ++ (rule, parts) :: outer) w)
      (within ((rule, parts ++ Tree.wrap [] inner) :: outer) w) := by
    rw [← hadd (inner ++ (rule, parts) :: outer)]
    exact hands_closed (fun f hf => (hi f hf).2) [] rfl
  refine .cons ?_ hh h
  simp only [rules_within, List.map_append, List.map_cons, Action.perform]
  rw [List.takeWhile_append_of_pos hrules, List.dropWhile_append_of_pos hrules]
  simp

/-- A line that can be seen becomes a part of the innermost rule. -/
theorem Performs.shift (hk : t.kind ∉ [.comment, .empty, .eof]) (ho : ownsComments t.kind = false)
    (h : Performs t actions (within ((rule, parts ++ [.leaf t []]) :: frames) w) a) :
    Performs t (.shift :: actions) (within ((rule, parts) :: frames) w) a := by
  refine .cons (b := within ((rule, parts ++ [.leaf t []]) :: frames) w) rfl (.token ?_) h
  have ht : builder.token t (within ((rule, parts) :: frames) w) =
      within ((rule, parts ++ [.leaf t []]) :: frames) w := by
    obtain ⟨place, d, content⟩ := t
    cases content <;> simp_all [builder, addToken, within, push, Token.kind, Content.kind]
  exact ht ▸ .nil _

theorem Performs.shift_owner (ho : ownsComments t.kind = true)
    (h : Performs t actions (within ((rule, parts ++ [.leaf t w]) :: frames) []) a) :
    Performs t (.shift :: actions) (within ((rule, parts) :: frames) w) a := by
  refine .cons (b := within ((rule, parts ++ [.leaf t w]) :: frames) []) rfl (.token ?_) h
  have ht : builder.token t (within ((rule, parts) :: frames) w) =
      within ((rule, parts ++ [.leaf t w]) :: frames) [] := by
    obtain ⟨place, d, content⟩ := t
    cases content <;> simp_all [builder, addToken, within, push, Token.kind, Content.kind,
      ownsComments]
  exact ht ▸ .nil _

theorem Performs.shift_comment {place : Location} {d : Dialect} {text : String}
    (h : Performs ⟨place, d, .comment text⟩ actions (within frames (w ++ [⟨place, text⟩])) a) :
    Performs ⟨place, d, .comment text⟩ (.shift :: actions) (within frames w) a :=
  .cons (b := within frames (w ++ [⟨place, text⟩])) rfl (.token (.nil _)) h

end Assembly

/-! ## Lines -/

/-- What happens when a line is taken that may stand where it stands. -/
theorem Cursor.consume_eq {c : Cursor} {item : Item} {ahead : List Item} {t : Token}
    {scanner : Scanner} {actions : List Action} {state : State} {es : List Event}
    {rules : List Rule} (hc : c.scanner.classify item c.state.expected = .token t scanner)
    (hn : c.state.next (t.kind = .tags && c.state.block? = some .examples &&
      scanner.examplesFollow ahead) t.kind = some (actions, state))
    (hp : Action.performAll t c.rules actions = (es, rules)) :
    c.consume item ahead = ⟨es, ⟨state, scanner, rules⟩⟩ := by
  simp only [consume, hc, hn, hp]

/-- Everything that decides how the rest of a text is read and what it is added to. -/
structure Reader where
  state : State
  scanner : Scanner
  assembly : Assembly

namespace Reader

def cursor (r : Reader) : Cursor :=
  ⟨r.state, r.scanner, r.assembly.rules⟩

/-- The reader takes lines without an error, whatever comes behind them. -/
inductive Takes : Reader → List Line → Reader → Prop where
  | nil (r) : Takes r [] r
  | cons {r r' : Reader} {l ls t scanner actions state a} :
      r.scanner.classify (.line l) r.state.expected = .token t scanner →
      (∀ ahead, r.state.next (t.kind = .tags && r.state.block? = some .examples &&
        scanner.examplesFollow (ls.map .line ++ ahead)) t.kind = some (actions, state)) →
      Assembly.Performs t actions r.assembly a →
      Takes ⟨state, scanner, a⟩ ls r' → Takes r (l :: ls) r'

variable {r r' r'' : Reader} {l : Line} {ls more : List Line}

theorem Takes.append (h : Takes r ls r') (h' : Takes r' more r'') : Takes r (ls ++ more) r'' := by
  induction h with
  | nil => exact h'
  | @cons r r' l ls t scanner actions state a hc hn hp _ ih =>
      refine .cons hc (fun ahead => ?_) hp (ih h')
      rw [List.append_eq, List.map_append, List.append_assoc]
      exact hn (more.map .line ++ ahead)

theorem Takes.strides (h : Takes r ls r') (ahead : List Item) :
    ∃ es, (r.cursor.strides (ls.map .line ++ ahead)).flatMap Stride.events =
        es ++ (r'.cursor.strides ahead).flatMap Stride.events ∧
      Assembly.Hands es r.assembly r'.assembly := by
  induction h with
  | nil r => exact ⟨[], rfl, .nil _⟩
  | @cons r r' l ls t scanner actions state a hc hn hp _ ih =>
      obtain ⟨es, hes, hh⟩ := hp.events
      obtain ⟨fs, hfs, hh'⟩ := ih
      have hstride : r.cursor.consume (.line l) (ls.map .line ++ ahead) =
          ⟨es, (⟨state, scanner, a⟩ : Reader).cursor⟩ :=
        Cursor.consume_eq (c := r.cursor) hc (hn ahead) hes
      refine ⟨es ++ fs, ?_, hh.append hh'⟩
      rw [List.map_cons, List.cons_append, Cursor.strides, hstride, List.flatMap_cons, hfs,
        List.append_assoc]

/-! ## What holds behind lines -/

/-- Behind lines that are written so, wherever they stand, the reader is as described. -/
def After (r : Reader) (raws : List (List Char)) (post : Reader → Prop) : Prop :=
  ∀ ls : List Line, ls.map (·.raw) = raws → ∃ r', r.Takes ls r' ∧ post r'

variable {raws others : List (List Char)} {post post' : Reader → Prop}

theorem After.nil (h : post r) : r.After [] post := by
  intro ls hls
  obtain rfl := List.map_eq_nil_iff.mp hls
  exact ⟨r, .nil r, h⟩

theorem After.append (h : r.After raws post) (h' : ∀ r', post r' → r'.After others post') :
    r.After (raws ++ others) post' := by
  intro ls hls
  obtain ⟨first, second, rfl, hf, hs⟩ := List.map_eq_append_iff.mp hls
  obtain ⟨r', ht, hp⟩ := h first hf
  obtain ⟨r'', ht', hp'⟩ := h' r' hp second hs
  exact ⟨r'', ht.append ht', hp'⟩

theorem After.mono (h : r.After raws post) (hp : ∀ r', post r' → post' r') :
    r.After raws post' := by
  intro ls hls
  obtain ⟨r', ht, hr⟩ := h ls hls
  exact ⟨r', ht, hp r' hr⟩

theorem After.cons {raw : List Char} (h : ∀ l : Line, l.raw = raw → ∃ t scanner actions state a,
      r.scanner.classify (.line l) r.state.expected = .token t scanner ∧
      (∀ ls : List Line, ls.map (·.raw) = raws → ∀ ahead,
        r.state.next (t.kind = .tags && r.state.block? = some .examples &&
          scanner.examplesFollow (ls.map .line ++ ahead)) t.kind = some (actions, state)) ∧
      Assembly.Performs t actions r.assembly a ∧
      (⟨state, scanner, a⟩ : Reader).After raws post) : r.After (raw :: raws) post := by
  intro ls hls
  obtain ⟨l, ls, rfl, hl, hrest⟩ := List.map_eq_cons_iff.mp hls
  obtain ⟨t, scanner, actions, state, a, hc, hn, hp, hafter⟩ := h l hl
  obtain ⟨r', ht, hr⟩ := hafter ls hrest
  exact ⟨r', .cons hc (hn ls hrest) hp ht, hr⟩

theorem After.line {raw : List Char} (h : ∀ l : Line, l.raw = raw → ∃ t scanner actions state a,
      r.scanner.classify (.line l) r.state.expected = .token t scanner ∧
      (t.kind ≠ .tags ∨ r.state.block? ≠ some .examples) ∧
      r.state.next false t.kind = some (actions, state) ∧
      Assembly.Performs t actions r.assembly a ∧ post ⟨state, scanner, a⟩) :
    r.After [raw] post := by
  refine .cons fun l hl => ?_
  obtain ⟨t, scanner, actions, state, a, hc, hk, hn, hp, hpost⟩ := h l hl
  refine ⟨t, scanner, actions, state, a, hc, fun ls _ ahead => ?_, hp, .nil hpost⟩
  rcases hk with hk | hk <;> simpa [hk] using hn

/-- Parts that are written one after the other, when each takes the invariant a step further. -/
theorem after_flatMap {α : Type} {lines : α → List (List Char)} {P : List α → Reader → Prop}
    {xs : List α} (hstep : ∀ done, ∀ x ∈ xs, ∀ r, P done r → r.After (lines x) (P (done ++ [x])))
    (done : List α) (h : P done r) : r.After (xs.flatMap lines) (P (done ++ xs)) := by
  induction xs generalizing done r with
  | nil => exact .nil (by simpa using h)
  | cons x xs ih =>
      rw [List.flatMap_cons]
      refine (hstep done x List.mem_cons_self r h).append fun r' hr' => ?_
      have hrest := ih (fun done y hy => hstep done y (List.mem_cons_of_mem x hy)) _ hr'
      rwa [List.append_assoc] at hrest

theorem after_map {α : Type} {line : α → List Char} {P : List α → Reader → Prop} {xs : List α}
    (hstep : ∀ done, ∀ x ∈ xs, ∀ r, P done r → r.After [line x] (P (done ++ [x])))
    (done : List α) (h : P done r) : r.After (xs.map line) (P (done ++ xs)) := by
  rw [List.map_eq_flatMap]
  exact after_flatMap hstep done h

end Reader

end FeaturePlan
