import FeaturePlan.Proofs.Document.Renumbering
import FeaturePlan.Proofs.Document.Shape
import FeaturePlan.Proofs.Grammar.Indentation
import Mathlib.Data.List.Forall2

/-! # Documents of indented texts

A text that is indented as a whole has the document of the text itself, further to the right: no
part of it says anything else, but for spaces in comments and in front of the lines of descriptions.
An error is found on the same line. -/

namespace FeaturePlan

open Text (spaces)

def Text.trimmedLines (text : String) : List (List Char) :=
  (Text.lines text.toList).map Text.trim

section

variable (k : Nat)

def Comment.indentBy (c : Comment) : Comment :=
  { c with text := .ofList (spaces k ++ c.text.toList) }

def Step.indentBy (s : Step) : Step :=
  { s.relocate (Location.indentBy k) with comments := s.comments.map (Comment.indentBy k) }

/-! ## Documents that differ in their indentation -/

/-- Lines of descriptions are the same once they are trimmed. -/
structure Heading.IsIndented (h h' : Heading) : Prop where
  place : h'.place = h.place.indentBy k
  keyword : h'.keyword = h.keyword
  name : h'.name = h.name
  description : h'.description.map Text.trimmedLines = h.description.map Text.trimmedLines

structure Background.IsIndented (b b' : Background) : Prop where
  heading : b.toHeading.IsIndented k b'.toHeading
  steps : b'.steps = b.steps.map (Step.indentBy k)
  comments : b'.comments = b.comments.map (Comment.indentBy k)

structure Scenario.IsIndented (s s' : Scenario) : Prop where
  heading : s.toHeading.IsIndented k s'.toHeading
  tags : s'.tags = s.tags.map (Tag.relocate (Location.indentBy k))
  steps : s'.steps = s.steps.map (Step.indentBy k)
  comments : s'.comments = s.comments.map (Comment.indentBy k)

structure Examples.IsIndented (e e' : Examples) : Prop where
  heading : e.toHeading.IsIndented k e'.toHeading
  tags : e'.tags = e.tags.map (Tag.relocate (Location.indentBy k))
  header : e'.header = e.header.map (TableRow.relocate (Location.indentBy k))
  body : e'.body = e.body.map (TableRow.relocate (Location.indentBy k))

structure Outline.IsIndented (o o' : Outline) : Prop where
  heading : o.toHeading.IsIndented k o'.toHeading
  tags : o'.tags = o.tags.map (Tag.relocate (Location.indentBy k))
  steps : o'.steps = o.steps.map (Step.indentBy k)
  examples : List.Forall₂ (Examples.IsIndented k) o.examples o'.examples
  comments : o'.comments = o.comments.map (Comment.indentBy k)

inductive Child.IsIndented : Child → Child → Prop where
  | background {b b' : Background} : b.IsIndented k b' → IsIndented (.background b) (.background b')
  | scenario {s s' : Scenario} : s.IsIndented k s' → IsIndented (.scenario s) (.scenario s')
  | outline {o o' : Outline} : o.IsIndented k o' → IsIndented (.outline o) (.outline o')

structure Feature.IsIndented (f f' : Feature) : Prop where
  heading : f.toHeading.IsIndented k f'.toHeading
  tags : f'.tags = f.tags.map (Tag.relocate (Location.indentBy k))
  language : f'.language = f.language
  children : List.Forall₂ (Child.IsIndented k) f.children f'.children
  comments : f'.comments = f.comments.map (Comment.indentBy k)

/-- The second document is the first with everything further to the right. -/
def Document.IsIndented (d d' : Document) : Prop :=
  Option.Rel (Feature.IsIndented k) d.feature d'.feature

end

variable (k : Nat)

namespace Tree

mutual

/-- The tree with its lines indented; free text that stands immediately in it is text of a doc
string or not. -/
def indentBy (inDocString : Bool) : Tree → Tree
  | leaf t comments => leaf (t.indentBy k inDocString) (comments.map (Comment.indentBy k))
  | node rule parts => node rule (indentAll (rule = .docString) parts)

def indentAll (inDocString : Bool) : List Tree → List Tree
  | [] => []
  | t :: ts => t.indentBy inDocString :: indentAll inDocString ts

end

@[simp] theorem indentAll_eq_map (b : Bool) (ts : List Tree) :
    indentAll k b ts = ts.map (indentBy k b) := by
  induction ts with
  | nil => rfl
  | cons t ts ih => rw [indentAll, ih, List.map_cons]

/-! ## Parts -/

variable (b : Bool) (ts : List Tree)

theorem parts?_indentBy (rule : Rule) :
    parts? rule (ts.map (indentBy k b)) =
      (parts? rule ts).map (List.map (indentBy k (rule = .docString))) := by
  refine findSome?_map_of_comm (fun t => ?_) ts
  cases t with
  | leaf t comments => rfl
  | node r parts =>
    simp only [indentBy, indentAll_eq_map]
    split
    · next h => rw [h, Option.map_some]
    · rfl

theorem title?_indentBy (block : Block) :
    title? block (ts.map (indentBy k b)) = (title? block ts).map fun p =>
      (p.1.indentBy k b, p.2.1.relocate (Location.indentBy k),
        p.2.2.map (Comment.indentBy k)) := by
  refine findSome?_map_of_comm (fun t => ?_) ts
  cases t with
  | node r parts => rfl
  | leaf t comments =>
    obtain ⟨place, d, content⟩ := t
    cases content with
    | title b keyword name =>
      simp only [indentBy, Token.indentBy, Content.indentBy]
      split <;> rfl
    | _ => rfl

theorem rows_indentBy :
    rows (ts.map (indentBy k b)) = (rows ts).map (TableRow.relocate (Location.indentBy k)) := by
  refine filterMap_map_of_comm (fun t => ?_) ts
  cases t with
  | node r parts => rfl
  | leaf t comments =>
    obtain ⟨place, d, content⟩ := t
    cases content with
    | row cells =>
      simp [indentBy, Token.indentBy, Content.indentBy, Content.startsAtMargin, TableRow.relocate,
        spanPlace, Location.indentBy, Span.indentBy]
    | _ => rfl

theorem unevenRow?_indentBy :
    unevenRow? (ts.map (indentBy k b)) = (unevenRow? ts).map (Location.indentBy k) :=
  unevenRow?_of_rows (rows_indentBy k b ts)

theorem tags_indentBy :
    tags (ts.map (indentBy k b)) = (tags ts).map (Tag.relocate (Location.indentBy k)) := by
  rw [tags, tags, parts?_indentBy]
  cases parts? .tags ts with
  | none => rfl
  | some parts =>
    simp only [Option.map_some, Option.getD_some, List.flatMap_map, List.map_flatMap]
    refine List.flatMap_congr fun t _ => ?_
    cases t with
    | node r parts => rfl
    | leaf t comments =>
      obtain ⟨place, d, content⟩ := t
      cases content with
      | tags spans =>
        simp [indentBy, Token.indentBy, Content.indentBy, Content.startsAtMargin, Tag.relocate,
          spanPlace, Location.indentBy, Span.indentBy]
      | _ => rfl

theorem freeLines_indentBy_docString : freeLines (ts.map (indentBy k true)) = freeLines ts := by
  refine (filterMap_map_of_comm (h := id) (fun t => ?_) ts).trans (List.map_id _)
  cases t with
  | node r parts => rfl
  | leaf t comments =>
    obtain ⟨place, d, content⟩ := t
    cases content <;> rfl

theorem freeLines_indentBy_outside :
    freeLines (ts.map (indentBy k false)) =
      (freeLines ts).map fun line => .ofList (spaces k ++ line.toList) := by
  refine filterMap_map_of_comm (fun t => ?_) ts
  cases t with
  | node r parts => rfl
  | leaf t comments =>
    obtain ⟨place, d, content⟩ := t
    cases content <;> rfl

theorem withoutBlankEnd_map_spaces (ls : List String) :
    withoutBlankEnd (ls.map fun line => .ofList (spaces k ++ line.toList)) =
      (withoutBlankEnd ls).map fun line => .ofList (spaces k ++ line.toList) := by
  simp only [withoutBlankEnd, ← List.map_reverse, List.dropWhile_map, Function.comp_def,
    String.toList_ofList, Text.trim_spaces_append]

theorem getLast?_withoutBlankEnd (ls : List String) :
    ∀ line ∈ (withoutBlankEnd ls).getLast?, line.toList ≠ [] := by
  intro line hline hempty
  rw [withoutBlankEnd, List.getLast?_reverse] at hline
  have hlast := List.head?_dropWhile_not (fun l => (Text.trim (String.toList l)).isEmpty) ls.reverse
  rw [Option.mem_def.mp hline] at hlast
  simp [hempty, Text.trim, Text.trimStart, Text.trimEnd] at hlast

/-- Descriptions have the same lines once these are trimmed. -/
theorem description?_indentBy :
    (description? (ts.map (indentBy k b))).map Text.trimmedLines =
      (description? ts).map Text.trimmedLines := by
  rw [description?, description?, parts?_indentBy, Option.map_map, Option.map_map, Option.map_map]
  refine Option.map_congr fun parts _ => ?_
  have hflag : decide (Rule.description = Rule.docString) = false := rfl
  have hlast := getLast?_withoutBlankEnd (freeLines parts)
  generalize hkept : withoutBlankEnd (freeLines parts) = ls at hlast
  have hlines : ∀ line ∈ (ls.map String.toList).getLast?, line ≠ [] := by
    simpa using hlast
  have htrimmed := Text.map_trim_lines_intercalate k hlines
  simp only [Function.comp_def, hflag, freeLines_indentBy_outside, withoutBlankEnd_map_spaces,
    hkept, Text.trimmedLines, Text.joinLines, String.toList_intercalate, List.map_map,
    String.toList_ofList] at htrimmed ⊢
  exact htrimmed

/-! ## Steps -/

theorem argument?_indentBy :
    argument? (ts.map (indentBy k b)) =
      (argument? ts).map (StepArgument.relocate (Location.indentBy k)) := by
  have htable : (dataTable? (ts.map (indentBy k b))).map StepArgument.table =
      ((dataTable? ts).map StepArgument.table).map
        (StepArgument.relocate (Location.indentBy k)) := by
    simp only [dataTable?, parts?_indentBy]
    cases parts? .dataTable ts with
    | none => rfl
    | some parts =>
      simp only [Option.map_some, Option.bind_eq_bind, Option.bind_some, rows_indentBy,
        List.head?_map]
      cases (rows parts).head? <;> rfl
  have hdoc : (docString? (ts.map (indentBy k b))).map StepArgument.docString =
      ((docString? ts).map StepArgument.docString).map
        (StepArgument.relocate (Location.indentBy k)) := by
    simp only [docString?, parts?_indentBy]
    cases parts? .docString ts with
    | none => rfl
    | some parts =>
      simp only [Option.map_some, Option.bind_eq_bind, Option.bind_some, decide_true,
        freeLines_indentBy_docString, Option.map_map]
      rw [findSome?_map_of_comm (h := fun s : DocString =>
        { s with place := s.place.indentBy k }) (fun t => ?_) parts, Option.map_map]
      · rfl
      · cases t with
        | node r ps => rfl
        | leaf t comments =>
          obtain ⟨place, d, content⟩ := t
          cases content <;> rfl
  rw [argument?, argument?, htable, hdoc, ← Option.map_or]

theorem step?_indentBy (t : Tree) : step? (t.indentBy k b) = (step? t).map (Step.indentBy k) := by
  cases t with
  | leaf t comments => rfl
  | node r parts =>
    cases r with
    | step =>
      simp only [indentBy, indentAll_eq_map, step?]
      refine findSome?_map_of_comm (fun t => ?_) parts
      cases t with
      | node r ps => rfl
      | leaf t comments =>
        obtain ⟨place, d, content⟩ := t
        cases content with
        | step keyword text =>
          simp only [indentBy, Token.indentBy, Content.indentBy, argument?_indentBy]
          rfl
        | _ => rfl
    | _ => rfl

theorem steps_indentBy : steps (ts.map (indentBy k b)) = (steps ts).map (Step.indentBy k) := by
  rw [steps, filterMap_map_of_comm (step?_indentBy k b) ts, steps, map_resolveKinds fun _ _ => rfl]

/-! ## Blocks -/

theorem rel_bind {α α' β β' : Type} {R : α → α' → Prop} {S : β → β' → Prop} {f : α → Option β}
    {f' : α' → Option β'} {x : Option α} {x' : Option α'} (h : Option.Rel R x x')
    (hf : ∀ a a', R a a' → Option.Rel S (f a) (f' a')) : Option.Rel S (x.bind f) (x'.bind f') := by
  cases h with
  | none => exact .none
  | some h => exact hf _ _ h

/-- The parts of trees are related when those of each tree are. -/
theorem forall₂_filterMap {α α' : Type} {R : α → α' → Prop} {m : Tree → Tree} {f : Tree → Option α}
    {f' : Tree → Option α'} (h : ∀ t, Option.Rel R (f t) (f' (m t))) :
    List.Forall₂ R (ts.filterMap f) ((ts.map m).filterMap f') := by
  induction ts with
  | nil => exact .nil
  | cons t ts ih =>
    have ht := h t
    rw [List.map_cons, List.filterMap_cons, List.filterMap_cons]
    generalize f t = x, f' (m t) = x' at ht
    cases ht with
    | none => exact ih
    | some hx => exact .cons hx ih

/-- A block has a title line behind spaces as well, and its heading says the same. -/
theorem heading?_indentBy (block : Block) :
    Option.Rel (fun p p' => p.1.IsIndented k p'.1 ∧ p'.2 = p.2.map (Comment.indentBy k))
      (heading? block ts) (heading? block (ts.map (indentBy k b))) := by
  simp only [heading?, title?_indentBy, Option.map_map]
  cases title? block ts with
  | none => exact .none
  | some title => exact .some ⟨⟨rfl, rfl, rfl, description?_indentBy k b ts⟩, rfl⟩

theorem examples?_indentBy (t : Tree) :
    Option.Rel (Examples.IsIndented k) (examples? t) (examples? (t.indentBy k b)) := by
  cases t with
  | leaf t comments => exact .none
  | node r parts =>
    cases r with
    | examplesDefinition =>
      simp only [indentBy, indentAll_eq_map, examples?, parts?_indentBy, Option.bind_eq_bind]
      cases parts? .examples parts with
      | none => exact .none
      | some inner =>
        have htable : rows (((parts? .examplesTable inner).map
            (List.map (indentBy k (decide (Rule.examplesTable = Rule.docString))))).getD []) =
            (rows ((parts? .examplesTable inner).getD [])).map
              (TableRow.relocate (Location.indentBy k)) := by
          cases parts? .examplesTable inner with
          | none => rfl
          | some table => exact rows_indentBy k _ table
        simp only [Option.map_some, Option.bind_some, parts?_indentBy, htable, tags_indentBy]
        exact rel_bind (heading?_indentBy k _ inner .examples) fun p p' hp =>
          .some ⟨hp.1, rfl, List.head?_map, List.map_tail.symm⟩
    | _ => exact .none

theorem child?_indentBy (t : Tree) :
    Option.Rel (Child.IsIndented k) (child? t) (child? (t.indentBy k b)) := by
  cases t with
  | leaf t comments => exact .none
  | node r parts =>
    cases r with
    | background =>
      simp only [indentBy, indentAll_eq_map, child?, steps_indentBy]
      rw [Option.map_eq_bind, Option.map_eq_bind]
      exact rel_bind (heading?_indentBy k _ parts .background) fun p p' hp =>
        .some (.background ⟨hp.1, rfl, hp.2⟩)
    | scenarioDefinition =>
      simp only [indentBy, indentAll_eq_map, child?, parts?_indentBy]
      cases parts? .scenario parts with
      | some inner =>
        simp only [Option.map_some, tags_indentBy, steps_indentBy]
        rw [Option.map_eq_bind, Option.map_eq_bind]
        exact rel_bind (heading?_indentBy k _ inner .scenario) fun p p' hp =>
          .some (.scenario ⟨hp.1, rfl, rfl, hp.2⟩)
      | none =>
        cases parts? .scenarioOutline parts with
        | none => exact .none
        | some inner =>
          simp only [Option.map_none, Option.map_some, Option.bind_eq_bind, Option.bind_some,
            tags_indentBy, steps_indentBy]
          exact rel_bind (heading?_indentBy k _ inner .outline) fun p p' hp =>
            .some (.outline
              ⟨hp.1, rfl, rfl, forall₂_filterMap inner (examples?_indentBy k _), hp.2⟩)
    | _ => exact .none

theorem feature?_indentBy :
    Option.Rel (Feature.IsIndented k) (feature? ts) (feature? (ts.map (indentBy k b))) := by
  simp only [feature?, parts?_indentBy, Option.bind_eq_bind]
  cases parts? .featureHeader ts with
  | none => exact .none
  | some header =>
    simp only [Option.map_some, Option.bind_some, title?_indentBy, tags_indentBy]
    cases title? .feature header with
    | none => exact .none
    | some title =>
      exact .some {
        heading := ⟨rfl, rfl, rfl, description?_indentBy k _ header⟩
        tags := rfl
        language := rfl
        children := forall₂_filterMap ts (child?_indentBy k b)
        comments := rfl }

/-- The document of indented lines is the same further to the right. -/
theorem document_indentBy : (document ts).IsIndented k (document (ts.map (indentBy k b))) := by
  simp only [document, Document.IsIndented, parts?_indentBy]
  cases parts? .document ts with
  | none => exact .none
  | some parts =>
    simp only [Option.map_some, Option.bind_some, parts?_indentBy]
    cases parts? .feature parts with
    | none => exact .none
    | some feature => exact feature?_indentBy k _ feature

end Tree

/-! ## What diagnostics find -/

namespace Assembly

def indentBy (a : Assembly) : Assembly where
  frames := a.frames.map fun f => (f.1, f.2.map (Tree.indentBy k (f.1 = .docString)))
  trees := a.trees.map (Tree.indentBy k false)
  waiting := a.waiting.map (Comment.indentBy k)

def inDocString (a : Assembly) : Bool :=
  a.rules.head? = some .docString

theorem push_indentBy (a : Assembly) (t : Tree) :
    (a.indentBy k).push (t.indentBy k a.inDocString) = (a.push t).indentBy k := by
  obtain ⟨_ | ⟨f, frames⟩, trees, waiting⟩ := a
  · simp [push, indentBy, inDocString, rules]
  · simp [push, indentBy, inDocString, rules]

/-- A line is put where it was put before; text of a doc string is put into one. -/
theorem addToken_indentBy {a : Assembly} {t : Token} {b : Bool}
    (hb : t.kind = .other → b = a.inDocString) :
    (a.indentBy k).addToken (t.indentBy k b) = (a.addToken t).indentBy k := by
  have hflag : t.indentBy k b = t.indentBy k a.inDocString := by
    by_cases hk : t.kind = .other
    · rw [hb hk]
    · exact t.indentBy_of_ne_other k hk b a.inDocString
  rw [hflag]
  by_cases h : holds t
  · have h' : holds (t.indentBy k a.inDocString) := by simpa [holds] using h
    rw [addToken_of_holds h, addToken_of_holds h', Token.kind_indentBy]
    by_cases ho : ownsComments t.kind
    · rw [if_pos ho, if_pos ho]
      exact push_indentBy k { a with waiting := [] } (.leaf t a.waiting)
    · rw [if_neg ho, if_neg ho]
      exact push_indentBy k a (.leaf t [])
  · obtain ⟨place, d, content⟩ := t
    cases content with
    | comment text =>
      simp [addToken, Token.indentBy, Content.indentBy, Content.startsAtMargin, indentBy,
        Comment.indentBy]
    | eof | empty => rfl
    | _ => simp [holds, Token.kind, Content.kind] at h

theorem close_indentBy (a : Assembly) :
    (a.indentBy k).close = (a.close.1.indentBy k, a.close.2.map (ParseError.indentBy k)) := by
  obtain ⟨frames, trees, waiting⟩ := a
  cases frames with
  | nil => rfl
  | cons f frames =>
    obtain ⟨rule, parts⟩ := f
    have hrefused (b : Bool) :
        (if isTable rule then Tree.unevenRow? (parts.map (Tree.indentBy k b)) else none) =
        (if isTable rule then Tree.unevenRow? parts else none).map (Location.indentBy k) := by
      split
      · exact Tree.unevenRow?_indentBy k b parts
      · rfl
    have hnode := push_indentBy k ⟨frames, trees, waiting⟩ (.node rule parts)
    simp only [Tree.indentBy, Tree.indentAll_eq_map] at hnode
    simp only [close, indentBy, List.map_cons, hrefused] at hnode ⊢
    cases (if isTable rule then Tree.unevenRow? parts else none) with
    | some place => rfl
    | none => simp only [Option.map_none, hnode]

theorem rules_close (a : Assembly) : a.close.1.rules = a.rules.tail := by
  obtain ⟨frames, trees, waiting⟩ := a
  cases frames with
  | nil => rfl
  | cons f frames =>
    simp only [close]
    split
    · rfl
    · exact rules_push ⟨frames, trees, waiting⟩ _

theorem rules_addToken (t : Token) (a : Assembly) : (a.addToken t).rules = a.rules :=
  rules_grow a (.token t)

end Assembly

namespace Findings

def indentBy (f : Findings) : Findings :=
  ⟨f.assembly.indentBy k, f.errors.map (ParseError.indentBy k)⟩

theorem take_indentBy {f : Findings} {e : Event} {b : Bool}
    (hb : ∀ t, e = .token t → t.kind = .other → b = f.assembly.inDocString) :
    (f.indentBy k).take (e.indentBy k b) = (f.take e).indentBy k := by
  cases e with
  | opened rule => rfl
  | token t => exact congrArg (Findings.mk · _) (Assembly.addToken_indentBy k (hb t rfl))
  | error e => simp [Event.indentBy, Event.map, take, indentBy]
  | closed rule =>
    simp only [Event.indentBy, Event.map, take, indentBy, Assembly.close_indentBy]
    cases f.assembly.close.2 <;> simp

/-- Where no free text is handed over, it does not matter whether a doc string is open. -/
theorem after_indentBy {events : List Event} {b : Bool}
    (h : ∀ t, .token t ∈ events → t.kind ≠ .other) (f : Findings) :
    (f.indentBy k).after (events.map (Event.indentBy k b)) = (f.after events).indentBy k := by
  induction events generalizing f with
  | nil => rfl
  | cons e events ih =>
    have hfirst := take_indentBy k (f := f) (b := b) (e := e) fun t ht hk =>
      absurd hk (h t (ht ▸ List.mem_cons_self))
    rw [List.map_cons, after_cons, hfirst, ih fun t ht => h t (List.mem_cons_of_mem e ht),
      after_cons]

theorem rules_take (f : Findings) (e : Event) :
    (f.take e).assembly.rules = Event.openRules f.assembly.rules e := by
  cases e with
  | opened rule | error e => rfl
  | token t => exact Assembly.rules_addToken t f.assembly
  | closed rule => exact Assembly.rules_close f.assembly

theorem rules_after (f : Findings) (events : List Event) :
    (f.after events).assembly.rules = events.foldl Event.openRules f.assembly.rules := by
  induction events generalizing f with
  | nil => rfl
  | cons e events ih => rw [after_cons, ih, rules_take, List.foldl_cons]

/-- The findings are those of a text that has been read up to the cursor. -/
structure IsAt (f : Findings) (c : Cursor) : Prop where
  consistent : c.Consistent
  aligned : c.IsAligned
  not_done : c.state ≠ .done
  rules : c.rules = f.assembly.rules

theorem IsAt.consume {f : Findings} {c : Cursor} (h : f.IsAt c) (l : Line) (ahead : List Item) :
    (f.after (c.consume (.line l) ahead).events).IsAt (c.consume (.line l) ahead).cursor := by
  have hbegins := Cursor.consume_begins h.consistent h.not_done l ahead
  exact {
    consistent := hbegins.consistent
    aligned := Cursor.consume_aligned h.aligned l ahead
    not_done := hbegins.not_done
    rules := by rw [hbegins.rules, h.rules, rules_after] }

/-- The doc string that the scanner has opened is the one that is being assembled. -/
theorem IsAt.inDocString {f : Findings} {c : Cursor} (h : f.IsAt c) :
    c.scanner.docString.isSome = f.assembly.inDocString := by
  rw [h.aligned, State.inDocString_eq, Assembly.inDocString, ← h.rules, h.consistent]

theorem IsAt.after_consume_indentBy {f : Findings} {c : Cursor} (h : f.IsAt c) (l : Line)
    (ahead : List Item) :
    (f.indentBy k).after ((c.consume (.line l) ahead).events.map
        (Event.indentBy k c.scanner.docString.isSome)) =
      (f.after (c.consume (.line l) ahead).events).indentBy k := by
  have hcases := c.consumes (.line l) ahead
  generalize c.consume (.line l) ahead = stride at hcases ⊢
  cases hcases with
  | rejected he => exact after_indentBy k (by simp) f
  | @taken item ahead t scanner actions state hclass hnext =>
    by_cases hk : t.kind = .other
    · rw [hk] at hnext
      rcases State.actions_of_other hnext with rfl | ⟨rfl, houtside⟩
      · exact take_indentBy k (e := .token t) fun u hu _ => h.inDocString
      · -- the description is opened first, so that the innermost rule is no doc string
        have hflag : c.scanner.docString.isSome =
            (f.take (.opened .description)).assembly.inDocString := by
          rw [h.aligned, houtside]
          rfl
        exact take_indentBy k (f := f.take (.opened .description)) (e := .token t)
          fun u hu _ => hflag
    · exact after_indentBy k (fun u hu => by rwa [Action.eq_of_mem_performAll hu]) f

theorem IsAt.after_strides_indentBy {f : Findings} {c : Cursor} (h : f.IsAt c) (n : Nat)
    (raws : List (List Char)) :
    (f.indentBy k).after (((c.indentBy k).strides
        ((Item.number n raws).map (Item.indentBy k))).flatMap Stride.events) =
      (f.after ((c.strides (Item.number n raws)).flatMap Stride.events)).indentBy k := by
  induction raws generalizing n c f with
  | nil =>
    have hkind : ∀ t, .token t ∈ (c.consume (.eof ⟨n, 1⟩) []).events → t.kind ≠ .other := by
      intro t ht
      obtain ⟨scanner, hread⟩ := Cursor.read_of_mem_consume ht
      rw [Scanner.kind_eq_eof hread]
      decide
    have hconsume := c.consume_indentBy k (.eof ⟨n, 1⟩) []
    simp only [List.map_nil] at hconsume
    simp only [Item.number, List.map_cons, List.map_nil, Cursor.strides, List.flatMap_cons,
      List.flatMap_nil, List.append_nil, hconsume]
    exact after_indentBy k hkind f
  | cons raw raws ih =>
    simp only [Item.number, List.map_cons, Cursor.strides, List.flatMap_cons, after_append]
    rw [c.consume_indentBy k]
    simp only [h.after_consume_indentBy k]
    exact ih (h.consume ⟨n, raw⟩ _) (n + 1)

end Findings

/-- What is found in an indented text is what is found in the text, further to the right. -/
theorem Findings.after_eventsOf_indented (d : Dialect) (text : String) :
    empty.after (eventsOf d (Text.indented k text)) =
      (empty.after (eventsOf d text)).indentBy k := by
  have hstart : (empty.take (.opened .document)).IsAt (.start d) :=
    ⟨rfl, rfl, by simp [Cursor.start], rfl⟩
  have hrun := hstart.after_strides_indentBy k 1 (Text.lines text.toList)
  have hcursor : (Cursor.start d).indentBy k = .start d := rfl
  have hopened : (empty.take (.opened .document)).indentBy k = empty.take (.opened .document) := rfl
  rw [← Item.number_map_spaces, ← Text.lines_indented, hcursor, hopened] at hrun
  rw [eventsOf, eventsOf, after_cons, after_cons, stridesOf, stridesOf, Item.ofText, Item.ofText]
  exact hrun

/-- Strict reading of an indented text comes to the same error further to the right, or to the same
document. -/
theorem Document.parse_indented (d : Dialect) (text : String) :
    match parse d text with
    | .error e => parse d (Text.indented k text) = .error (e.indentBy k)
    | .ok document => ∃ document', parse d (Text.indented k text) = .ok document' ∧
        document.IsIndented k document' := by
  rw [parse_eq, parse_eq, Diagnostics.ofText_eq, Diagnostics.ofText_eq,
    Findings.after_eventsOf_indented]
  generalize Findings.empty.after (eventsOf d text) = f
  obtain ⟨assembly, _ | ⟨e, errors⟩⟩ := f
  · exact ⟨_, rfl, Tree.document_indentBy k false assembly.trees⟩
  · rfl

end FeaturePlan
