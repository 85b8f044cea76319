import FeaturePlan.Document.Order
import FeaturePlan.Proofs.Document.Contents
import FeaturePlan.Proofs.Document.SourceOrder
import FeaturePlan.Proofs.Document.Subtrees
import Mathlib.Data.List.DropRight
import Mathlib.Data.List.Nodup

/-! # Where comments go

A comment belongs to the next line below it that is a step or the title of a block other than
examples. No other line takes it away, and behind the last such line comments belong to nothing. -/

namespace FeaturePlan

theorem List.eq_of_map_eq_of_subset {α β : Type _} {f : α → β} {l m : List α}
    (hmap : l.map f = m.map f) (hdistinct : (m.map f).Nodup) (hsub : l ⊆ m) : l = m := by
  have hlength := congrArg List.length hmap
  rw [List.length_map, List.length_map] at hlength
  refine List.ext_getElem hlength fun i hi hi' => ?_
  have hf : f l[i] = f m[i] := by
    have hi := List.getElem_of_eq hmap (i := i) (by simpa using hi)
    simpa using hi
  exact List.inj_on_of_nodup_map hdistinct (hsub (List.getElem_mem hi)) (List.getElem_mem hi') hf

/-! ## Comments of lines -/

def Token.comment? : Token → Option Comment
  | ⟨place, _, .comment text⟩ => some ⟨place, text⟩
  | _ => none

def Token.isAnchor (t : Token) : Bool :=
  Assembly.ownsComments t.kind

theorem Token.comment?_of_isAnchor {t : Token} (h : t.isAnchor) : t.comment? = none := by
  obtain ⟨place, d, content⟩ := t
  cases content <;> first | rfl | cases h

namespace Anchor

/-- Lines with the comments that belong to them, where some comments wait already. -/
def gather (waiting : List Comment) : List Token → List Anchor
  | [] => []
  | t :: lines =>
    if t.isAnchor then ⟨t.place, waiting⟩ :: gather [] lines
    else gather (waiting ++ t.comment?.toList) lines

theorem gather_places (waiting : List Comment) (lines : List Token) :
    (gather waiting lines).map place = (lines.filter Token.isAnchor).map Token.place := by
  induction lines generalizing waiting with
  | nil => rfl
  | cons t lines ih =>
    rw [gather, List.filter_cons]
    split
    · rw [List.map_cons, ih, List.map_cons]
    · exact ih _

/-- The lines between two anchors hold the comments of the second. -/
theorem gather_comments (waiting : List Comment) (lines : List Token) :
    (gather waiting lines).map comments =
      (((lines.splitOnP Token.isAnchor).map (List.filterMap Token.comment?)).modifyHead
        (waiting ++ ·)).dropLast := by
  induction lines generalizing waiting with
  | nil => simp [gather]
  | cons t lines ih =>
    have hne := List.splitOnP_ne_nil Token.isAnchor lines
    rw [gather, List.splitOnP_cons_eq_if_modifyHead]
    generalize lines.splitOnP Token.isAnchor = groups at ih hne
    obtain ⟨group, groups, rfl⟩ := List.exists_cons_of_ne_nil hne
    split
    · simp [ih]
    · cases hc : t.comment? <;> simp [ih, hc]

theorem rdropWhile_cons (p : Token → Bool) (t : Token) (lines : List Token) :
    (t :: lines).rdropWhile p =
      if lines.rdropWhile p = [] then [t].rdropWhile p else t :: lines.rdropWhile p := by
  rw [List.rdropWhile, List.reverse_cons, List.dropWhile_append]
  simp only [List.rdropWhile, List.isEmpty_iff, List.reverse_eq_nil_iff]
  split <;> simp

/-- All that has been gathered stands before the last anchor. -/
theorem flatMap_gather (waiting : List Comment) (lines : List Token) :
    (gather waiting lines).flatMap comments =
      if lines.rdropWhile (fun t => !t.isAnchor) = [] then []
      else waiting ++ (lines.rdropWhile fun t => !t.isAnchor).filterMap Token.comment? := by
  induction lines generalizing waiting with
  | nil => simp [gather]
  | cons t lines ih =>
    rw [gather, rdropWhile_cons]
    by_cases ht : t.isAnchor
    · have hnone := Token.comment?_of_isAnchor ht
      by_cases hrest : lines.rdropWhile (fun t => !t.isAnchor) = []
      · simp [ht, ih, hrest, hnone, List.rdropWhile_singleton]
      · simp [ht, ih, hrest, hnone]
    · by_cases hrest : lines.rdropWhile (fun t => !t.isAnchor) = []
      · simp [ht, ih, hrest, List.rdropWhile_singleton]
      · cases hc : t.comment? <;> simp [ht, ih, hrest, hc]

end Anchor

/-! ## Comments of trees -/

namespace Tree

def anchor? : Tree → Option Anchor
  | leaf t comments => if t.isAnchor then some ⟨t.place, comments⟩ else none
  | node _ _ => none

def anchorsAll (ts : List Tree) : List Anchor :=
  (subtreesAll ts).filterMap anchor?

@[simp] theorem anchorsAll_append (ts more : List Tree) :
    anchorsAll (ts ++ more) = anchorsAll ts ++ anchorsAll more := by
  simp [anchorsAll]

@[simp] theorem anchorsAll_node (rule : Rule) (parts : List Tree) :
    anchorsAll [node rule parts] = anchorsAll parts := by
  simp [anchorsAll, subtreesAll, subtrees, anchor?, List.filterMap_cons]

theorem mem_anchorsAll_of_mem_anchors {ts : List Tree} {a : Anchor}
    (h : a ∈ (document (pruneAll ts)).anchors) : a ∈ anchorsAll ts := by
  obtain ⟨t, ht, hplace, hk⟩ := exists_leaf_of_mem_anchors h
  refine List.mem_filterMap.mpr ⟨_, leaf_mem_of_pruneAll ht, ?_⟩
  rw [anchor?, Token.isAnchor, if_pos hk, hplace]

end Tree

namespace Assembly

theorem waiting_push (a : Assembly) (t : Tree) : (a.push t).waiting = a.waiting := by
  obtain ⟨_ | _, trees, waiting⟩ := a <;> rfl

/-- A line takes all comments that wait, or leaves them and may be one more. -/
theorem anchors_addToken (t : Token) (a : Assembly) :
    Tree.anchorsAll (a.addToken t).content =
        Tree.anchorsAll a.content ++ (if t.isAnchor then [⟨t.place, a.waiting⟩] else []) ∧
      (a.addToken t).waiting = if t.isAnchor then [] else a.waiting ++ t.comment?.toList := by
  by_cases h : holds t
  · have hcomment : t.comment? = none := by
      obtain ⟨place, d, content⟩ := t
      cases content <;> first | rfl | simp [holds, Token.kind, Content.kind] at h
    have hcontent : ({ a with waiting := [] } : Assembly).content = a.content := rfl
    have hleaf (cs : List Comment) : Tree.anchorsAll [.leaf t cs] =
        if t.isAnchor then [⟨t.place, cs⟩] else [] := by
      cases hk : t.isAnchor <;>
        simp [Tree.anchorsAll, Tree.subtreesAll, Tree.subtrees, Tree.anchor?, hk]
    rw [addToken_of_holds h, ← Token.isAnchor]
    cases hk : t.isAnchor <;> simp [content_push, waiting_push, hcomment, hleaf, hk, hcontent]
  · rw [content_addToken_of_not_holds h]
    obtain ⟨place, d, content⟩ := t
    cases content with
    | comment text | empty | eof =>
      simp [addToken, Token.isAnchor, Token.comment?, ownsComments, Token.kind, Content.kind]
    | _ => simp [holds, Token.kind, Content.kind] at h

theorem anchors_growAll (events : List Event) (a : Assembly) :
    Tree.anchorsAll (a.growAll events).content =
      Tree.anchorsAll a.content ++ Anchor.gather a.waiting (events.filterMap Event.token?) := by
  induction events generalizing a with
  | nil => simp [growAll, Anchor.gather]
  | cons e events ih =>
    rw [growAll_cons, ih, List.filterMap_cons]
    cases e with
    | opened rule => simp [grow, content, Event.token?]
    | error e => simp [grow, Event.token?]
    | closed rule =>
      cases hf : a.frames with
      | nil => simp [grow, hf, Event.token?]
      | cons f frames =>
        obtain ⟨before, hb, hg⟩ := content_grow_closed rule hf
        have hwaiting : (a.grow (.closed rule)).waiting = a.waiting := by
          simp [grow, hf, waiting_push]
        rw [hg, hb, hwaiting]
        simp [Event.token?]
    | token t =>
      obtain ⟨hanchors, hwaiting⟩ := anchors_addToken t a
      rw [grow, hanchors, hwaiting]
      cases hk : t.isAnchor <;> simp [Event.token?, Anchor.gather, hk]

end Assembly

/-! ## Comments of documents -/

theorem Child.allComments_eq (c : Child) :
    c.allComments = c.anchors.flatMap Anchor.comments := by
  cases c <;> simp [allComments, anchors, anchor, steps, List.flatMap_map, Step.anchor]

theorem Document.allComments_eq (d : Document) :
    d.allComments = d.anchors.flatMap Anchor.comments := by
  have hchildren : Child.allComments = fun c => c.anchors.flatMap Anchor.comments :=
    funext Child.allComments_eq
  obtain ⟨_ | f⟩ := d
  · rfl
  · simp [allComments, anchors, hchildren, List.flatMap_assoc]

theorem Child.anchors_places (c : Child) : c.anchors.map Anchor.place =
    (c.constructs.filter fun c => Assembly.ownsComments c.kind).map Construct.place := by
  cases c <;>
    simp [constructs, anchors, anchor, steps, Assembly.ownsComments, List.filter_map,
      Function.comp_def, Step.construct, Step.anchor, Examples.construct]

/-- What can have comments are the constructs, save blocks of examples. -/
theorem Document.anchors_places (d : Document) : d.anchors.map Anchor.place =
    (d.constructs.filter fun c => Assembly.ownsComments c.kind).map Construct.place := by
  obtain ⟨_ | f⟩ := d
  · rfl
  · simp [constructs, anchors, Feature.constructs, Assembly.ownsComments, List.map_flatMap,
      List.filter_flatMap, Child.anchors_places]

/-! ## Texts -/

/-- The lines that are handed over stand one below the other. -/
theorem token?_eventsOf_pairwise (d : Dialect) (text : String) :
    ((eventsOf d text).filterMap Event.token?).Pairwise fun t u => t.place.line < u.place.line := by
  have hsub (events : List Event) :
      ((events.filterMap Event.token?).map fun t => t.place.line).Sublist
        (events.filterMap Event.line?) := by
    induction events with
    | nil => exact .slnil
    | cons e events ih =>
      cases e with
      | opened rule | closed rule => exact ih
      | error e => exact ih.cons _
      | token t => exact ih.cons_cons _
  exact List.pairwise_map.mp ((line?_eventsOf_pairwise d text).sublist (hsub _))

/-- The lines that a delivery hands over are those of the events. -/
theorem filterMap_token?_deliver (d : Dialect) (text : String) :
    (deliver d text Assembly.builder Sink.collect .empty []).events.filterMap Event.token? =
      (eventsOf d text).filterMap Event.token? := by
  rw [deliver_eq_run, Delivery.filterMap_token?_run_collect]

namespace Diagnostics

/-- A document is read off what its lines grow into, without the tables that are refused. -/
theorem document_eq (d : Dialect) (text : String) :
    (ofText d text).document =
      Tree.document (Tree.pruneAll (Assembly.empty.growAll (eventsOf d text)).trees) := by
  have hafter : (Findings.empty.after (eventsOf d text)).assembly =
      (Assembly.empty.growAll (eventsOf d text)).prune :=
    Assembly.assembly_after (eventsOf d text) .empty []
  rw [ofText_eq, hafter]
  rfl

theorem mem_gather_of_mem_anchors {d : Dialect} {text : String} {a : Anchor}
    (h : a ∈ (ofText d text).document.anchors) :
    a ∈ Anchor.gather [] ((eventsOf d text).filterMap Event.token?) := by
  rw [document_eq] at h
  have hgrown := Tree.mem_anchorsAll_of_mem_anchors h
  have hall := Assembly.anchors_growAll (eventsOf d text) .empty
  rw [Assembly.content, Tree.anchorsAll_append] at hall
  have hempty : Tree.anchorsAll Assembly.empty.content = [] := rfl
  rw [hempty, List.nil_append] at hall
  exact hall ▸ List.mem_append_left _ hgrown

/-- The constructs of a document are those that its lines start. -/
theorem starts_eq (d : Dialect) (text : String) :
    ((ofText d text).document.constructs.map fun c => (c.kind, c.place)) =
      (((eventsOf d text).filterMap Event.token?).filter Token.starts).map fun t =>
        (t.kind, t.place) := by
  have hstarts := (accounts_ofText d text).1
  rwa [Construct.filterMap_start?_flatMap, Token.filterMap_start?_flatMap] at hstarts

/-- What can have comments in a document are the anchors among the lines. -/
theorem anchors_places (d : Dialect) (text : String) :
    (ofText d text).document.anchors.map Anchor.place =
      (((eventsOf d text).filterMap Event.token?).filter Token.isAnchor).map Token.place := by
  have hanchors := congrArg
    (fun ps => (ps.filter fun p => Assembly.ownsComments p.1).map Prod.snd) (starts_eq d text)
  have hstart : ∀ t : Token, (Assembly.ownsComments t.kind && t.starts) = t.isAnchor := by
    rintro ⟨place, d, content⟩
    cases content <;> first | rfl | exact Bool.and_true _
  simp only [List.filter_map, List.map_map, List.filter_filter, Function.comp_def] at hanchors
  rw [Document.anchors_places, hanchors]
  simp only [hstart]

/-- The anchors of a document are those of its lines, each with the comments above it. -/
theorem anchors_eq_gather (d : Dialect) (text : String) :
    (ofText d text).document.anchors =
      Anchor.gather [] ((eventsOf d text).filterMap Event.token?) := by
  refine List.eq_of_map_eq_of_subset
    ((anchors_places d text).trans (Anchor.gather_places [] _).symm) ?_
    fun a ha => mem_gather_of_mem_anchors ha
  rw [Anchor.gather_places]
  have hlines := (token?_eventsOf_pairwise d text).sublist
    (List.filter_sublist (p := Token.isAnchor))
  refine List.pairwise_map.mpr (hlines.imp fun hlt heq => ?_)
  rw [heq] at hlt
  exact absurd hlt (lt_irrefl _)

/-- The comments of a document are those above the last line that can have any, unchanged and in
their order. They stand where they belong: whatever has comments in the document is a step or the
title of a block, and what stands between it and the last such line above holds just its comments.
Tags, rows, examples and lines that were turned away make no difference. -/
theorem comments_eq (d : Dialect) (text : String) :
    let document := (ofText d text).document
    let delivery := deliver d text Assembly.builder Sink.collect .empty []
    let lines := delivery.events.filterMap Event.token?
    document.allComments =
        (lines.rdropWhile fun t => !t.isAnchor).filterMap Token.comment? ∧
      document.anchors.map Anchor.place = (lines.filter Token.isAnchor).map Token.place ∧
      document.anchors.map Anchor.comments =
        (lines.splitOnP Token.isAnchor).dropLast.map (List.filterMap Token.comment?) := by
  intro document delivery lines
  have hlines : lines = (eventsOf d text).filterMap Event.token? :=
    filterMap_token?_deliver d text
  have hanchors : document.anchors = Anchor.gather [] lines :=
    (anchors_eq_gather d text).trans (hlines ▸ rfl)
  refine ⟨?_, ?_, ?_⟩
  · rw [Document.allComments_eq, hanchors, Anchor.flatMap_gather, List.nil_append]
    split
    · next hnone => rw [hnone, List.filterMap_nil]
    · rfl
  · rw [hanchors, Anchor.gather_places]
  · rw [hanchors, Anchor.gather_comments, List.map_dropLast]
    congr 1
    cases (lines.splitOnP Token.isAnchor).map (List.filterMap Token.comment?) <;> rfl

/-- The examples leave the comment above them to the scenario below, and the line that is turned
away takes none. -/
example :
    (ofText .english ("Feature: F\nScenario Outline: O\n# a\nGiven x\n# b\nExamples:\n|c|\n" ++
      "nonsense\n# d\n@t\nScenario: S\n# e\n")).document.anchors =
      [⟨⟨1, 1⟩, []⟩, ⟨⟨2, 1⟩, []⟩, ⟨⟨4, 1⟩, [⟨⟨3, 1⟩, "# a"⟩]⟩,
        ⟨⟨11, 1⟩, [⟨⟨5, 1⟩, "# b"⟩, ⟨⟨9, 1⟩, "# d"⟩]⟩] := by
  decide +kernel

end Diagnostics

end FeaturePlan
