import FeaturePlan.Proofs.Document.Legal
import FeaturePlan.Token

/-! # What is made of the lines

Each title and each step becomes a construct of the document. Tags belong to the construct below
them and rows to the construct above them, so that a document can be compared with the lines that it
was made of one by one. -/

namespace FeaturePlan

/-- A feature, a background, a scenario, an outline, a block of examples or a step, with what
belongs to it alone. It is of the kind of its first line. -/
structure Construct where
  kind : TokenKind
  place : Location
  tags : List Tag
  rows : List TableRow
deriving DecidableEq, Repr

/-! ## Constructs of a document -/

def StepArgument.rows : StepArgument → List TableRow
  | table t => t.rows
  | docString _ => []

def Step.construct (s : Step) : Construct :=
  ⟨.step, s.place, [], (s.argument.map StepArgument.rows).getD []⟩

def Examples.construct (e : Examples) : Construct :=
  ⟨.title .examples, e.place, e.tags, e.rows⟩

def Child.constructs : Child → List Construct
  | background b => ⟨.title .background, b.place, [], []⟩ :: b.steps.map Step.construct
  | scenario s => ⟨.title .scenario, s.place, s.tags, []⟩ :: s.steps.map Step.construct
  | outline o =>
    ⟨.title .outline, o.place, o.tags, []⟩ :: o.steps.map Step.construct ++
      o.examples.map Examples.construct

def Feature.constructs (f : Feature) : List Construct :=
  ⟨.title .feature, f.place, f.tags, []⟩ :: f.children.flatMap Child.constructs

/-- The constructs of a document in its order: each before its steps, and steps before examples. -/
def Document.constructs (d : Document) : List Construct :=
  d.feature.toList.flatMap Feature.constructs

theorem Document.feature_eq_none_iff (d : Document) :
    d.feature = none ↔ ∀ c ∈ d.constructs, c.kind ≠ .title .feature := by
  obtain ⟨_ | f⟩ := d
  · simp [constructs]
  · simp [constructs, Feature.constructs]

/-! ## Constructs of lines -/

inductive Entry where
  | tag (t : Tag)
  | start (kind : TokenKind) (place : Location)
  | row (r : TableRow)
deriving DecidableEq, Repr

def Entry.start? : Entry → Option (TokenKind × Location)
  | start kind place => some (kind, place)
  | _ => none

/-- The entries of a line: a title or a step starts a construct, the other classes add tags or a
row, or nothing. -/
def Token.entries (t : Token) : List Entry :=
  match t.content with
  | .title block _ _ => [.start (.title block) t.place]
  | .step _ _ => [.start .step t.place]
  | .tags spans => spans.map fun s => .tag ⟨⟨t.place.line, s.column⟩, s.text⟩
  | .row cells => [.row ⟨t.place, cells.map fun c => ⟨⟨t.place.line, c.column⟩, c.text⟩⟩]
  | _ => []

def Token.starts (t : Token) : Bool :=
  match t.kind with
  | .title _ | .step => true
  | _ => false

/-- The entries of a construct, in the order in which they are written. -/
def Construct.entries (c : Construct) : List Entry :=
  c.tags.map .tag ++ .start c.kind c.place :: c.rows.map .row

theorem Token.filterMap_start?_flatMap (lines : List Token) :
    (lines.flatMap entries).filterMap Entry.start? =
      (lines.filter starts).map fun t => (t.kind, t.place) := by
  induction lines with
  | nil => rfl
  | cons t lines ih =>
      have ht : t.entries.filterMap Entry.start? =
          if t.starts then [(t.kind, t.place)] else [] := by
        obtain ⟨place, d, content⟩ := t
        cases content with
        | tags spans =>
            simp [entries, starts, kind, Content.kind, List.filterMap_map, Function.comp_def,
              Entry.start?]
        | _ => rfl
      rw [List.flatMap_cons, List.filterMap_append, ht, ih]
      cases h : t.starts <;> simp [h]

theorem Construct.filterMap_start?_flatMap (cs : List Construct) :
    (cs.flatMap entries).filterMap Entry.start? = cs.map fun c => (c.kind, c.place) := by
  induction cs with
  | nil => rfl
  | cons c cs ih =>
      have hc : c.entries.filterMap Entry.start? = [(c.kind, c.place)] := by
        simp [entries, List.filterMap_map, Function.comp_def, Entry.start?]
      rw [List.flatMap_cons, List.filterMap_append, hc, ih, List.map_cons, List.singleton_append]

/-- Constructs that entries lead to: those that were started, the last of them first, and the tags
that wait for the next. -/
structure Gathering where
  started : List Construct
  waiting : List Tag

namespace Gathering

def add (g : Gathering) : Entry → Gathering
  | .tag t => { g with waiting := g.waiting ++ [t] }
  | .start kind place => ⟨⟨kind, place, g.waiting, []⟩ :: g.started, []⟩
  | .row r =>
    match g.started with
    | [] => g
    | c :: started => { g with started := { c with rows := c.rows ++ [r] } :: started }

theorem foldl_add_tags (started : List Construct) (waiting tags : List Tag) :
    (tags.map Entry.tag).foldl add ⟨started, waiting⟩ = ⟨started, waiting ++ tags⟩ := by
  induction tags generalizing waiting with
  | nil => simp
  | cons t tags ih => simp [add, ih]

theorem foldl_add_rows (c : Construct) (started : List Construct) (waiting : List Tag)
    (rows : List TableRow) :
    (rows.map Entry.row).foldl add ⟨c :: started, waiting⟩ =
      ⟨{ c with rows := c.rows ++ rows } :: started, waiting⟩ := by
  induction rows generalizing c with
  | nil => simp
  | cons r rows ih => simp [add, ih]

theorem foldl_add_entries (c : Construct) (started : List Construct) :
    c.entries.foldl add ⟨started, []⟩ = ⟨c :: started, []⟩ := by
  rw [Construct.entries, List.foldl_append, foldl_add_tags, List.foldl_cons]
  exact foldl_add_rows _ _ _ _

theorem foldl_add_flatMap (cs started : List Construct) :
    (cs.flatMap Construct.entries).foldl add ⟨started, []⟩ = ⟨cs.reverse ++ started, []⟩ := by
  induction cs generalizing started with
  | nil => rfl
  | cons c cs ih =>
      rw [List.flatMap_cons, List.foldl_append, foldl_add_entries, ih]
      simp

end Gathering

/-- The constructs that entries describe: tags belong to the construct that starts next, rows to the
one that was started last. -/
def Construct.gather (entries : List Entry) : List Construct :=
  (entries.foldl Gathering.add ⟨[], []⟩).started.reverse

theorem Construct.gather_flatMap (cs : List Construct) :
    gather (cs.flatMap Construct.entries) = cs := by
  simp [gather, Gathering.foldl_add_flatMap]

end FeaturePlan
