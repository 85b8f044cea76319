import FeaturePlan.Proofs.Document.Findings
import FeaturePlan.Proofs.Document.Reader

/-! # Trees that keep their refused tables

A table whose rows differ in width is refused when it closes. Here it is kept for the time being, so
that a tree holds all lines that were put into it; what is assembled is that tree without the
refused tables, and what is reported is where they were refused. -/

namespace FeaturePlan

namespace Tree

/-- The row at which a rule is refused when it closes around the parts. -/
def refusal? (rule : Rule) (parts : List Tree) : Option Location :=
  if Assembly.isTable rule then unevenRow? parts else none

def isRefused : Tree → Bool
  | leaf _ _ => false
  | node rule parts => (refusal? rule parts).isSome

mutual

def tokens : Tree → List Token
  | leaf t _ => [t]
  | node _ parts => tokensAll parts

def tokensAll : List Tree → List Token
  | [] => []
  | t :: ts => t.tokens ++ tokensAll ts

end

mutual

/-- The rows at which tables of a tree are refused, in the order in which these close. -/
def uneven : Tree → List Location
  | leaf _ _ => []
  | node rule parts => unevenAll parts ++ (refusal? rule parts).toList

def unevenAll : List Tree → List Location
  | [] => []
  | t :: ts => t.uneven ++ unevenAll ts

end

mutual

def prune : Tree → Tree
  | leaf t comments => leaf t comments
  | node rule parts => node rule (pruneAll parts)

def pruneAll : List Tree → List Tree
  | [] => []
  | t :: ts => if t.isRefused then pruneAll ts else t.prune :: pruneAll ts

end

variable (ts more : List Tree)

@[simp] theorem tokensAll_append : tokensAll (ts ++ more) = tokensAll ts ++ tokensAll more := by
  induction ts with
  | nil => rfl
  | cons t ts ih => simp [tokensAll, ih]

@[simp] theorem unevenAll_append : unevenAll (ts ++ more) = unevenAll ts ++ unevenAll more := by
  induction ts with
  | nil => rfl
  | cons t ts ih => simp [unevenAll, ih]

@[simp] theorem pruneAll_append : pruneAll (ts ++ more) = pruneAll ts ++ pruneAll more := by
  induction ts with
  | nil => rfl
  | cons t ts ih =>
      rw [List.cons_append, pruneAll, pruneAll, ih]
      split <;> rfl

@[simp] theorem rows_pruneAll : rows (pruneAll ts) = rows ts := by
  induction ts with
  | nil => rfl
  | cons t ts ih =>
      have hnode : ∀ rule parts, rows (node rule parts :: ts) = rows ts := fun _ _ => rfl
      cases t with
      | leaf token comments =>
          have hleaf :
              pruneAll (leaf token comments :: ts) = [leaf token comments] ++ pruneAll ts :=
            rfl
          rw [hleaf, rows_append, ih, ← rows_append]
          rfl
      | node rule parts =>
          rw [hnode, pruneAll]
          split
          · exact ih
          · exact ih

theorem refusal?_pruneAll (rule : Rule) (parts : List Tree) :
    refusal? rule (pruneAll parts) = refusal? rule parts := by
  simp [refusal?, unevenRow?]

end Tree

namespace Assembly

def grow (a : Assembly) : Event → Assembly
  | .opened rule => { a with frames := (rule, []) :: a.frames }
  | .token t => a.addToken t
  | .closed _ =>
    match a.frames with
    | [] => a
    | (rule, parts) :: frames => { a with frames }.push (.node rule parts)
  | .error _ => a

def growAll (a : Assembly) (events : List Event) : Assembly :=
  events.foldl grow a

def prune (a : Assembly) : Assembly :=
  ⟨a.frames.map fun f => (f.1, Tree.pruneAll f.2), Tree.pruneAll a.trees, a.waiting⟩

def content (a : Assembly) : List Tree :=
  a.trees ++ a.frames.reverse.flatMap Prod.snd

@[simp] theorem growAll_append (a : Assembly) (events more : List Event) :
    a.growAll (events ++ more) = (a.growAll events).growAll more :=
  List.foldl_append

/-! ## What is assembled -/

theorem prune_push (a : Assembly) (t : Tree) :
    (a.push t).prune = if t.isRefused then a.prune else a.prune.push t.prune := by
  obtain ⟨frames, trees, waiting⟩ := a
  cases frames with
  | nil =>
      cases h : t.isRefused <;> simp [push, prune, Tree.pruneAll, h]
  | cons f frames =>
      cases h : t.isRefused <;> simp [push, prune, Tree.pruneAll, h]

/-- Blank lines, comments and the end of the text are no part of any rule. -/
def holds (t : Token) : Bool :=
  t.kind ∉ [.comment, .empty, .eof]

/-- A line that is held becomes a leaf, with the comments that wait if it owns them. -/
theorem addToken_of_holds {t : Token} (h : holds t) (a : Assembly) :
    a.addToken t =
      if ownsComments t.kind then { a with waiting := [] }.push (.leaf t a.waiting)
      else a.push (.leaf t []) := by
  obtain ⟨place, d, content⟩ := t
  cases content <;> first | rfl | simp [holds, Token.kind, Content.kind] at h

theorem addToken_of_not_holds {t : Token} (h : ¬holds t) (a : Assembly) :
    ∃ waiting, ∀ frames trees,
      addToken t ⟨frames, trees, a.waiting⟩ = ⟨frames, trees, waiting⟩ := by
  obtain ⟨place, d, content⟩ := t
  cases content with
  | comment text => exact ⟨a.waiting ++ [⟨place, text⟩], fun _ _ => rfl⟩
  | eof | empty => exact ⟨a.waiting, fun _ _ => rfl⟩
  | _ => simp [holds, Token.kind, Content.kind] at h

theorem prune_addToken (t : Token) (a : Assembly) :
    (a.addToken t).prune = a.prune.addToken t := by
  by_cases h : holds t
  · rw [addToken_of_holds h, addToken_of_holds h]
    split <;> exact prune_push _ _
  · obtain ⟨waiting, hw⟩ := addToken_of_not_holds h a
    rw [show a.addToken t = ⟨a.frames, a.trees, waiting⟩ from hw _ _,
      show a.prune.addToken t = ⟨a.prune.frames, a.prune.trees, waiting⟩ from hw _ _]
    rfl

theorem close_prune (r : Rule) (parts : List Tree) (frames : Parts) (trees : List Tree)
    (w : List Comment) :
    (prune ⟨(r, parts) :: frames, trees, w⟩).close =
      match Tree.refusal? r parts with
      | some place => (prune ⟨frames, trees, w⟩, some (.unevenRow place))
      | none => ((prune ⟨frames, trees, w⟩).push (.node r (Tree.pruneAll parts)), none) := by
  rw [← Tree.refusal?_pruneAll]
  rfl

theorem prune_grow_closed (rule : Rule) (a : Assembly) :
    (a.grow (.closed rule)).prune = a.prune.close.1 := by
  obtain ⟨frames, trees, waiting⟩ := a
  cases frames with
  | nil => rfl
  | cons f frames =>
      obtain ⟨r, parts⟩ := f
      rw [close_prune]
      cases hr : Tree.refusal? r parts with
      | none => simp [grow, prune_push, Tree.isRefused, hr, Tree.prune]
      | some place => simp [grow, prune_push, Tree.isRefused, hr]

theorem take_prune (a : Assembly) (es : List ParseError) (e : Event) :
    ∃ es', Findings.take ⟨a.prune, es⟩ e = ⟨(a.grow e).prune, es'⟩ := by
  cases e with
  | opened rule => exact ⟨es, rfl⟩
  | token t => exact ⟨es, congrArg (Findings.mk · es) (prune_addToken t a).symm⟩
  | closed rule => exact ⟨_, congrArg (Findings.mk · _) (prune_grow_closed rule a).symm⟩
  | error e => exact ⟨_, rfl⟩

/-- What diagnostics assemble is what grows, without its refused tables. -/
theorem assembly_after (events : List Event) (a : Assembly) (es : List ParseError) :
    (Findings.after ⟨a.prune, es⟩ events).assembly = (a.growAll events).prune := by
  induction events generalizing a es with
  | nil => rfl
  | cons event rest ih =>
      obtain ⟨es', h⟩ := take_prune a es event
      rw [Findings.after_cons, h]
      exact ih _ es'

/-! ## What is held -/

theorem content_push (a : Assembly) (t : Tree) : (a.push t).content = a.content ++ [t] := by
  obtain ⟨frames, trees, waiting⟩ := a
  cases frames <;> simp [push, content]

theorem content_addToken_of_holds {t : Token} (h : holds t) (a : Assembly) :
    ∃ comments, (a.addToken t).content = a.content ++ [.leaf t comments] := by
  rw [addToken_of_holds h]
  split <;> exact ⟨_, content_push _ _⟩

theorem content_addToken_of_not_holds {t : Token} (h : ¬holds t) (a : Assembly) :
    (a.addToken t).content = a.content := by
  obtain ⟨waiting, hw⟩ := addToken_of_not_holds h a
  rw [show a.addToken t = ⟨a.frames, a.trees, waiting⟩ from hw _ _]
  rfl

theorem content_grow_closed (rule : Rule) {r : Rule} {parts : List Tree} {frames : Parts}
    {a : Assembly} (h : a.frames = (r, parts) :: frames) :
    ∃ before, a.content = before ++ parts ∧
      (a.grow (.closed rule)).content = before ++ [.node r parts] := by
  refine ⟨a.trees ++ frames.reverse.flatMap Prod.snd, ?_, ?_⟩
  · simp [content, h]
  · simp only [grow, h, content_push]
    rfl

/-- The line that an event hands over, if it becomes part of a rule. -/
def heldToken? : Event → Option Token
  | .token t => if holds t then some t else none
  | _ => none

theorem tokens_grow (a : Assembly) (e : Event) :
    Tree.tokensAll (a.grow e).content =
      Tree.tokensAll a.content ++ (heldToken? e).toList := by
  cases e with
  | opened rule => simp [grow, content, heldToken?]
  | error e => simp [grow, heldToken?]
  | token t =>
      by_cases h : holds t
      · obtain ⟨comments, hc⟩ := content_addToken_of_holds h a
        simp [grow, hc, heldToken?, h, Tree.tokensAll, Tree.tokens]
      · simp [grow, content_addToken_of_not_holds h a, heldToken?, h]
  | closed rule =>
      cases hf : a.frames with
      | nil => simp [grow, hf, heldToken?]
      | cons f frames =>
          obtain ⟨before, hb, hg⟩ := content_grow_closed rule hf
          simp [hb, hg, heldToken?, Tree.tokensAll, Tree.tokens]

/-- What grows holds the lines that were handed over, in their order. -/
theorem tokens_growAll (events : List Event) (a : Assembly) :
    Tree.tokensAll (a.growAll events).content =
      Tree.tokensAll a.content ++ events.filterMap heldToken? := by
  induction events generalizing a with
  | nil => simp [growAll]
  | cons e events ih =>
      have hcons : a.growAll (e :: events) = (a.grow e).growAll events := rfl
      rw [hcons, ih, tokens_grow, List.append_assoc]
      cases h : heldToken? e <;> simp [h]

end Assembly

/-! ## What is reported -/

def Findings.unevenRows (f : Findings) : List Location :=
  (f.errors.filter ParseError.isStructural).map ParseError.place

namespace Assembly

theorem unevenRows_take {a : Assembly} {es : List ParseError}
    (h : Findings.unevenRows ⟨a.prune, es⟩ = Tree.unevenAll a.content) {e : Event}
    (he : ∀ error, e = .error error → error.isSyntax) :
    Findings.unevenRows (Findings.take ⟨a.prune, es⟩ e) = Tree.unevenAll (a.grow e).content := by
  cases e with
  | opened rule => simpa [Findings.unevenRows, Findings.take, grow, content] using h
  | error error =>
      have hs : error.isStructural = false := by
        have hsyn := he error rfl
        cases error <;> simp_all [ParseError.isSyntax, ParseError.isStructural]
      simpa [Findings.unevenRows, Findings.take, grow, hs] using h
  | token t =>
      have hc : Tree.unevenAll (a.addToken t).content = Tree.unevenAll a.content := by
        by_cases ht : holds t
        · obtain ⟨comments, hc⟩ := content_addToken_of_holds ht a
          simp [hc, Tree.unevenAll, Tree.uneven]
        · rw [content_addToken_of_not_holds ht a]
      rw [grow, hc, ← h]
      rfl
  | closed rule =>
      obtain ⟨frames, trees, waiting⟩ := a
      cases frames with
      | nil => simpa [Findings.unevenRows, Findings.take, prune, close, grow] using h
      | cons f frames =>
          obtain ⟨r, parts⟩ := f
          have hframes : (⟨(r, parts) :: frames, trees, waiting⟩ : Assembly).frames =
            (r, parts) :: frames := rfl
          obtain ⟨before, hb, hg⟩ := content_grow_closed rule hframes
          rw [hb, Findings.unevenRows] at h
          rw [hg]
          simp only [Findings.unevenRows, Findings.take, close_prune]
          cases hr : Tree.refusal? r parts with
          | none => simpa [Tree.unevenAll, Tree.uneven, hr] using h
          | some place =>
              have hlast : ([ParseError.unevenRow place].filter ParseError.isStructural).map
                  ParseError.place = [place] := rfl
              simp only [Tree.unevenAll_append] at h
              simp [Tree.unevenAll, Tree.uneven, hr, hlast, h]

/-- Uneven rows are found where tables of what grows are refused, in the order in which these
close. -/
theorem unevenRows_after {events : List Event} {a : Assembly} {es : List ParseError}
    (h : Findings.unevenRows ⟨a.prune, es⟩ = Tree.unevenAll a.content)
    (he : ∀ error, .error error ∈ events → error.isSyntax) :
    Findings.unevenRows (Findings.after ⟨a.prune, es⟩ events) =
      Tree.unevenAll (a.growAll events).content := by
  induction events generalizing a es with
  | nil => exact h
  | cons event rest ih =>
      obtain ⟨es', htake⟩ := take_prune a es event
      have hnext := unevenRows_take h (e := event) fun error herror =>
        he error (herror ▸ List.mem_cons_self)
      rw [htake] at hnext
      rw [Findings.after_cons, htake]
      exact ih hnext fun error herror => he error (List.mem_cons_of_mem event herror)

/-- At the beginning nothing has grown, and nothing was found. -/
theorem unevenRows_after_empty {events : List Event}
    (he : ∀ error, .error error ∈ events → error.isSyntax) :
    (Findings.empty.after events).unevenRows =
      Tree.unevenAll (empty.growAll events).content := by
  have h : Findings.unevenRows ⟨empty.prune, []⟩ = Tree.unevenAll empty.content := rfl
  exact unevenRows_after h he

end Assembly

end FeaturePlan
