import FeaturePlan.Document.Relocation
import FeaturePlan.Proofs.Document.Growth
import FeaturePlan.Proofs.Grammar.Renumbering

/-! # Line numbers of documents

What is assembled from lines does not depend on their numbers, which only show in the places of its
parts. -/

namespace FeaturePlan

variable (ρ : Nat → Nat)

namespace Tree

mutual

def renumber : Tree → Tree
  | leaf t comments => leaf (t.renumber ρ) (comments.map (Comment.relocate (Location.renumber ρ)))
  | node rule parts => node rule (renumberAll parts)

def renumberAll : List Tree → List Tree
  | [] => []
  | t :: ts => t.renumber :: renumberAll ts

end

@[simp] theorem renumberAll_eq_map (ts : List Tree) : renumberAll ρ ts = ts.map (renumber ρ) := by
  induction ts with
  | nil => rfl
  | cons t ts ih => rw [renumberAll, ih, List.map_cons]

/-! ## Parts -/

theorem findSome?_map_of_comm {α β : Type} {m : Tree → Tree} {f : Tree → Option β}
    {g : Tree → Option α} {h : α → β} (hf : ∀ t, f (m t) = (g t).map h) (ts : List Tree) :
    (ts.map m).findSome? f = (ts.findSome? g).map h := by
  induction ts with
  | nil => rfl
  | cons t ts ih =>
      rw [List.map_cons, List.findSome?_cons, List.findSome?_cons, hf, ih]
      cases g t <;> rfl

theorem filterMap_map_of_comm {α β : Type} {m : Tree → Tree} {f : Tree → Option β}
    {g : Tree → Option α} {h : α → β} (hf : ∀ t, f (m t) = (g t).map h) (ts : List Tree) :
    (ts.map m).filterMap f = (ts.filterMap g).map h := by
  induction ts with
  | nil => rfl
  | cons t ts ih =>
      rw [List.map_cons, List.filterMap_cons, List.filterMap_cons, hf, ih]
      cases g t <;> rfl

variable (ts : List Tree)

theorem parts?_renumber (rule : Rule) :
    parts? rule (ts.map (renumber ρ)) = (parts? rule ts).map (List.map (renumber ρ)) := by
  refine findSome?_map_of_comm (fun t => ?_) ts
  cases t with
  | leaf t comments => rfl
  | node r parts =>
      simp only [renumber, renumberAll_eq_map]
      split <;> rfl

theorem title?_renumber (block : Block) :
    title? block (ts.map (renumber ρ)) = (title? block ts).map fun p =>
      (p.1.renumber ρ, p.2.1.relocate (Location.renumber ρ),
        p.2.2.map (Comment.relocate (Location.renumber ρ))) := by
  refine findSome?_map_of_comm (fun t => ?_) ts
  cases t with
  | node r parts => rfl
  | leaf t comments =>
      obtain ⟨place, d, content⟩ := t
      cases content with
      | title b keyword name =>
          simp only [renumber, Token.renumber]
          split <;> rfl
      | _ => rfl

theorem freeLines_renumber : freeLines (ts.map (renumber ρ)) = freeLines ts := by
  refine (filterMap_map_of_comm (h := id) (fun t => ?_) ts).trans (List.map_id _)
  cases t with
  | node r parts => rfl
  | leaf t comments =>
      obtain ⟨place, d, content⟩ := t
      cases content <;> rfl

theorem rows_renumber :
    rows (ts.map (renumber ρ)) = (rows ts).map (TableRow.relocate (Location.renumber ρ)) := by
  refine filterMap_map_of_comm (fun t => ?_) ts
  cases t with
  | node r parts => rfl
  | leaf t comments =>
      obtain ⟨place, d, content⟩ := t
      cases content with
      | row cells =>
          simp [renumber, Token.renumber, TableRow.relocate, spanPlace, Location.renumber]
      | _ => rfl

/-- Which row of a table is refused does not depend on the places of its rows. -/
theorem unevenRow?_of_rows {ts us : List Tree} {f : Location → Location}
    (h : rows us = (rows ts).map (TableRow.relocate f)) :
    unevenRow? us = (unevenRow? ts).map f := by
  have hwidth (r : TableRow) : (r.relocate f).cells.length = r.cells.length := by
    simp [TableRow.relocate]
  simp only [unevenRow?, h]
  cases rows ts with
  | nil => rfl
  | cons first rest =>
      simp only [List.map_cons, List.find?_map, Function.comp_def, hwidth, Option.map_map]
      rfl

theorem unevenRow?_renumber :
    unevenRow? (ts.map (renumber ρ)) = (unevenRow? ts).map (Location.renumber ρ) :=
  unevenRow?_of_rows (rows_renumber ρ ts)

theorem tags_renumber :
    tags (ts.map (renumber ρ)) = (tags ts).map (Tag.relocate (Location.renumber ρ)) := by
  rw [tags, tags, parts?_renumber]
  cases parts? .tags ts with
  | none => rfl
  | some parts =>
      simp only [Option.map_some, Option.getD_some, List.flatMap_map, List.map_flatMap]
      refine List.flatMap_congr fun t _ => ?_
      cases t with
      | node r parts => rfl
      | leaf t comments =>
          obtain ⟨place, d, content⟩ := t
          cases content with
          | tags spans =>
              simp [renumber, Token.renumber, Tag.relocate, spanPlace, Location.renumber]
          | _ => rfl

theorem description?_renumber : description? (ts.map (renumber ρ)) = description? ts := by
  rw [description?, description?, parts?_renumber, Option.map_map]
  simp only [Function.comp_def, freeLines_renumber]

/-! ## Steps -/

theorem argument?_renumber :
    argument? (ts.map (renumber ρ)) =
      (argument? ts).map (StepArgument.relocate (Location.renumber ρ)) := by
  have htable : (dataTable? (ts.map (renumber ρ))).map StepArgument.table =
      ((dataTable? ts).map StepArgument.table).map
        (StepArgument.relocate (Location.renumber ρ)) := by
    simp only [dataTable?, parts?_renumber]
    cases parts? .dataTable ts with
    | none => rfl
    | some parts =>
        simp only [Option.map_some, Option.bind_eq_bind, Option.bind_some, rows_renumber,
          List.head?_map]
        cases (rows parts).head? <;> rfl
  have hdoc : (docString? (ts.map (renumber ρ))).map StepArgument.docString =
      ((docString? ts).map StepArgument.docString).map
        (StepArgument.relocate (Location.renumber ρ)) := by
    simp only [docString?, parts?_renumber]
    cases parts? .docString ts with
    | none => rfl
    | some parts =>
        simp only [Option.map_some, Option.bind_eq_bind, Option.bind_some, freeLines_renumber,
          Option.map_map]
        rw [findSome?_map_of_comm (h := fun s : DocString =>
          { s with place := s.place.renumber ρ }) (fun t => ?_) parts, Option.map_map]
        · rfl
        · cases t with
          | node r ps => rfl
          | leaf t comments =>
              obtain ⟨place, d, content⟩ := t
              cases content <;> rfl
  rw [argument?, argument?, htable, hdoc, ← Option.map_or]

theorem step?_renumber (t : Tree) :
    step? (t.renumber ρ) = (step? t).map (Step.relocate (Location.renumber ρ)) := by
  cases t with
  | leaf t comments => rfl
  | node r parts =>
      cases r with
      | step =>
          simp only [renumber, renumberAll_eq_map, step?]
          refine findSome?_map_of_comm (fun t => ?_) parts
          cases t with
          | node r ps => rfl
          | leaf t comments =>
              obtain ⟨place, d, content⟩ := t
              cases content with
              | step keyword text =>
                  simp only [renumber, Token.renumber, argument?_renumber]
                  rfl
              | _ => rfl
      | _ => rfl

theorem steps_renumber :
    steps (ts.map (renumber ρ)) = (steps ts).map (Step.relocate (Location.renumber ρ)) := by
  rw [steps, filterMap_map_of_comm (step?_renumber ρ) ts, steps, map_relocate_resolveKinds]

/-! ## Blocks -/

theorem heading?_renumber (block : Block) :
    heading? block (ts.map (renumber ρ)) = (heading? block ts).map fun p =>
      (p.1.relocate (Location.renumber ρ), p.2.map (Comment.relocate (Location.renumber ρ))) := by
  simp only [heading?, title?_renumber, description?_renumber, Option.map_map]
  rfl

theorem examples?_renumber (t : Tree) :
    examples? (t.renumber ρ) = (examples? t).map (Examples.relocate (Location.renumber ρ)) := by
  cases t with
  | leaf t comments => rfl
  | node r parts =>
      cases r with
      | examplesDefinition =>
          simp only [renumber, renumberAll_eq_map, examples?, parts?_renumber]
          cases parts? .examples parts with
          | none => rfl
          | some inner =>
              have htable : rows (((parts? .examplesTable inner).map
                  (List.map (renumber ρ))).getD []) =
                  (rows ((parts? .examplesTable inner).getD [])).map
                    (TableRow.relocate (Location.renumber ρ)) := by
                cases parts? .examplesTable inner with
                | none => rfl
                | some table => exact rows_renumber ρ table
              simp only [Option.map_some, Option.bind_eq_bind, Option.bind_some,
                heading?_renumber, parts?_renumber, htable, tags_renumber, List.head?_map,
                ← List.map_tail]
              cases heading? .examples inner <;> rfl
      | _ => rfl

theorem child?_renumber (t : Tree) :
    child? (t.renumber ρ) = (child? t).map (Child.relocate (Location.renumber ρ)) := by
  cases t with
  | leaf t comments => rfl
  | node r parts =>
      cases r with
      | background =>
          simp only [renumber, renumberAll_eq_map, child?, heading?_renumber, steps_renumber,
            Option.map_map]
          rfl
      | scenarioDefinition =>
          simp only [renumber, renumberAll_eq_map, child?, parts?_renumber]
          cases parts? .scenario parts with
          | some inner =>
              simp only [Option.map_some, heading?_renumber, steps_renumber, tags_renumber,
                Option.map_map]
              rfl
          | none =>
              cases parts? .scenarioOutline parts with
              | none => rfl
              | some inner =>
                  simp only [Option.map_none, Option.map_some, Option.bind_eq_bind,
                    Option.bind_some, heading?_renumber, steps_renumber, tags_renumber,
                    filterMap_map_of_comm (examples?_renumber ρ)]
                  cases heading? .outline inner <;> rfl
      | _ => rfl

theorem feature?_renumber :
    feature? (ts.map (renumber ρ)) =
      (feature? ts).map (Feature.relocate (Location.renumber ρ)) := by
  simp only [feature?, parts?_renumber, filterMap_map_of_comm (child?_renumber ρ)]
  cases parts? .featureHeader ts with
  | none => rfl
  | some header =>
      simp only [Option.map_some, Option.bind_eq_bind, Option.bind_some, title?_renumber,
        tags_renumber, description?_renumber]
      cases title? .feature header <;> rfl

/-- The document of lines that are numbered otherwise is the same at other places. -/
theorem document_renumber :
    document (ts.map (renumber ρ)) = (document ts).relocate (Location.renumber ρ) := by
  simp only [document, parts?_renumber, Document.relocate]
  cases parts? .document ts with
  | none => rfl
  | some parts =>
      simp only [Option.map_some, Option.bind_some, parts?_renumber]
      cases parts? .feature parts with
      | none => rfl
      | some feature => exact congrArg Document.mk (feature?_renumber ρ feature)

end Tree

/-! ## What diagnostics find -/

namespace Assembly

def renumber (a : Assembly) : Assembly where
  frames := a.frames.map fun f => (f.1, f.2.map (Tree.renumber ρ))
  trees := a.trees.map (Tree.renumber ρ)
  waiting := a.waiting.map (Comment.relocate (Location.renumber ρ))

theorem push_renumber (a : Assembly) (t : Tree) :
    (a.renumber ρ).push (t.renumber ρ) = (a.push t).renumber ρ := by
  obtain ⟨frames, trees, waiting⟩ := a
  cases frames <;> simp [push, renumber]

theorem addToken_renumber (t : Token) (a : Assembly) :
    (a.renumber ρ).addToken (t.renumber ρ) = (a.addToken t).renumber ρ := by
  have hkind : (t.renumber ρ).kind = t.kind := rfl
  by_cases h : holds t
  · rw [addToken_of_holds h, addToken_of_holds (t := t.renumber ρ) h, hkind]
    by_cases ho : ownsComments t.kind
    · rw [if_pos ho, if_pos ho]
      exact push_renumber ρ { a with waiting := [] } (.leaf t a.waiting)
    · rw [if_neg ho, if_neg ho]
      exact push_renumber ρ a (.leaf t [])
  · obtain ⟨place, d, content⟩ := t
    cases content with
    | comment text => simp [addToken, Token.renumber, renumber, Comment.relocate]
    | eof | empty => rfl
    | _ => simp [holds, Token.kind, Content.kind] at h

theorem close_renumber (a : Assembly) :
    (a.renumber ρ).close = (a.close.1.renumber ρ, a.close.2.map (ParseError.renumber ρ)) := by
  obtain ⟨frames, trees, waiting⟩ := a
  cases frames with
  | nil => rfl
  | cons f frames =>
      obtain ⟨rule, parts⟩ := f
      have hrefused :
          (if isTable rule then Tree.unevenRow? (parts.map (Tree.renumber ρ)) else none) =
          (if isTable rule then Tree.unevenRow? parts else none).map (Location.renumber ρ) := by
        split
        · exact Tree.unevenRow?_renumber ρ parts
        · rfl
      have hnode := push_renumber ρ ⟨frames, trees, waiting⟩ (.node rule parts)
      simp only [Tree.renumber, Tree.renumberAll_eq_map] at hnode
      simp only [close, renumber, List.map_cons, hrefused] at hnode ⊢
      cases (if isTable rule then Tree.unevenRow? parts else none) with
      | some place => rfl
      | none => simp only [Option.map_none, hnode]

end Assembly

namespace Findings

def renumber (f : Findings) : Findings :=
  ⟨f.assembly.renumber ρ, f.errors.map (ParseError.renumber ρ)⟩

theorem take_renumber (f : Findings) (e : Event) :
    (f.renumber ρ).take (e.renumber ρ) = (f.take e).renumber ρ := by
  cases e with
  | opened rule => rfl
  | token t => exact congrArg (Findings.mk · _) (Assembly.addToken_renumber ρ t f.assembly)
  | error e => simp [Event.renumber, take, renumber]
  | closed rule =>
      simp only [Event.renumber, take, renumber, Assembly.close_renumber]
      cases f.assembly.close.2 <;> simp

/-- Events at other places lead to the same findings at other places. -/
theorem after_renumber (events : List Event) (f : Findings) :
    (f.renumber ρ).after (events.map (Event.renumber ρ)) = (f.after events).renumber ρ := by
  induction events generalizing f with
  | nil => rfl
  | cons e events ih => rw [List.map_cons, after_cons, take_renumber, ih, after_cons]

end Findings

end FeaturePlan
