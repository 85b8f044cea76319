import FeaturePlan.Proofs.Dialect
import FeaturePlan.Proofs.Table.Row
import Mathlib.Data.List.Infix

/-! # Documents that can be written down

Not every document is the document of a text: a name cannot hold a line feed, and a line of a
description cannot look like a step. These are the conditions under which nothing of a document is
lost, or taken for something else, when its text is read again. All of them can be decided. -/

namespace FeaturePlan

def Text.IsName (s : String) : Prop :=
  Text.trim s.toList = s.toList ∧ '\n' ∉ s.toList

instance (s : String) : Decidable (Text.IsName s) :=
  inferInstanceAs (Decidable (_ ∧ _))

def Tag.IsLegal (t : Tag) : Prop :=
  t.name.toList.head? = some '@' ∧ t.name.toList.tail ≠ [] ∧
    ∀ c ∈ t.name.toList, Text.isBlank c = false

instance (t : Tag) : Decidable t.IsLegal :=
  -- only the characters of the name are tried, not all there are
  haveI := List.decidableBAll (fun c => Text.isBlank c = false) t.name.toList
  inferInstanceAs (Decidable (_ ∧ _))

def Comment.IsLegal (c : Comment) : Prop :=
  Text.IsLine c.text.toList ∧ (Text.trimStart c.text.toList).head? = some '#'

instance (c : Comment) : Decidable c.IsLegal :=
  inferInstanceAs (Decidable (_ ∧ _))

/-! ## Headings -/

def Dialect.IsFree (d : Dialect) (line : List Char) : Prop :=
  ∀ kind ∈ TokenKind.inOrder, kind ≠ .other →
    (Scanner.start d).accepts kind (.line ⟨1, line⟩) = false

instance (d : Dialect) (line : List Char) : Decidable (d.IsFree line) :=
  inferInstanceAs (Decidable (∀ kind ∈ TokenKind.inOrder, _))

instance (cs : List Char) : Decidable (Text.isInvisible cs) :=
  inferInstanceAs (Decidable (_ = _))

def Dialect.IsDescription (d : Dialect) (text : String) : Prop :=
  (∀ line ∈ textLines text, Text.IsLine line ∧ (Text.isInvisible line ∨ d.IsFree line)) ∧
    (∀ line ∈ (textLines text).head?, ¬Text.isInvisible line) ∧
    ∀ line ∈ (textLines text).getLast?, ¬Text.isInvisible line

instance (d : Dialect) (text : String) : Decidable (d.IsDescription text) :=
  inferInstanceAs (Decidable (_ ∧ _))

def Heading.IsLegal (d : Dialect) (b : Block) (h : Heading) : Prop :=
  h.keyword ∈ d.titles b ∧ Text.IsName h.name ∧ ∀ text ∈ h.description, d.IsDescription text

instance (d : Dialect) (b : Block) (h : Heading) : Decidable (h.IsLegal d b) :=
  inferInstanceAs (Decidable (_ ∧ _))

/-! ## Steps -/

instance (value : List Char) : Decidable (Cell.IsTrimmed value) :=
  haveI (o : Option Char) : Decidable (∀ c ∈ o, Text.isBlank c = true → c = '\n') :=
    Option.decidableForallMem o
  decidable_of_iff ((∀ c ∈ value.head?, Text.isBlank c = true → c = '\n') ∧
      ∀ c ∈ value.getLast?, Text.isBlank c = true → c = '\n')
    ⟨fun h => ⟨h.1, h.2⟩, fun h => ⟨h.head, h.last⟩⟩

/-- All rows are as wide as the first, and no cell has blanks around its value. -/
def TableRow.AreLegal (rows : List TableRow) : Prop :=
  (∀ r ∈ rows, ∀ first ∈ rows.head?, r.cells.length = first.cells.length) ∧
    ∀ r ∈ rows, ∀ v ∈ r.values, Cell.IsTrimmed v.toList

instance (rows : List TableRow) : Decidable (TableRow.AreLegal rows) :=
  inferInstanceAs (Decidable (_ ∧ _))

/-- No line of the text holds what an escaped delimiter looks like. -/
def DocString.IsLegal (s : DocString) : Prop :=
  (∀ type ∈ s.contentType, type ≠ "" ∧ Text.IsName type) ∧
    ∀ line ∈ textLines s.content, Text.IsLine line ∧ ¬s.delimiter.escapedChars <:+: line

instance (s : DocString) : Decidable s.IsLegal :=
  inferInstanceAs (Decidable (_ ∧ _))

def StepArgument.IsLegal : StepArgument → Prop
  | table t => t.rows ≠ [] ∧ TableRow.AreLegal t.rows
  | docString s => s.IsLegal

instance : (a : StepArgument) → Decidable a.IsLegal
  | .table t => inferInstanceAs (Decidable (t.rows ≠ [] ∧ TableRow.AreLegal t.rows))
  | .docString s => inferInstanceAs (Decidable s.IsLegal)

def Step.IsLegal (d : Dialect) (s : Step) : Prop :=
  s.keyword ∈ d.steps ∧ Text.IsName s.text ∧
    (∀ k ∈ d.steps, k.toList <+: (s.keyword ++ s.text).toList → k.length ≤ s.keyword.length) ∧
    (∀ a ∈ s.argument, a.IsLegal) ∧ ∀ c ∈ s.comments, c.IsLegal

instance (d : Dialect) (s : Step) : Decidable (s.IsLegal d) :=
  inferInstanceAs (Decidable (_ ∧ _))

/-- The steps of a block, each of the category that it takes after the steps before it. -/
def Step.AreLegal (d : Dialect) (steps : List Step) : Prop :=
  (∀ s ∈ steps, s.IsLegal d) ∧
    steps.map (·.kind) = StepKind.resolveAll none (steps.map fun s => d.stepKind s.keyword)

instance (d : Dialect) (steps : List Step) : Decidable (Step.AreLegal d steps) :=
  inferInstanceAs (Decidable (_ ∧ _))

/-! ## Blocks -/

def Examples.rows (e : Examples) : List TableRow :=
  e.header.toList ++ e.body

def Examples.IsLegal (d : Dialect) (e : Examples) : Prop :=
  e.toHeading.IsLegal d .examples ∧ (∀ t ∈ e.tags, t.IsLegal) ∧
    (e.header = none → e.body = []) ∧ TableRow.AreLegal e.rows

instance (d : Dialect) (e : Examples) : Decidable (e.IsLegal d) :=
  inferInstanceAs (Decidable (_ ∧ _))

def Background.IsLegal (d : Dialect) (b : Background) : Prop :=
  b.toHeading.IsLegal d .background ∧ Step.AreLegal d b.steps ∧ ∀ c ∈ b.comments, c.IsLegal

instance (d : Dialect) (b : Background) : Decidable (b.IsLegal d) :=
  inferInstanceAs (Decidable (_ ∧ _))

def Scenario.IsLegal (d : Dialect) (s : Scenario) : Prop :=
  s.toHeading.IsLegal d .scenario ∧ (∀ t ∈ s.tags, t.IsLegal) ∧ Step.AreLegal d s.steps ∧
    ∀ c ∈ s.comments, c.IsLegal

instance (d : Dialect) (s : Scenario) : Decidable (s.IsLegal d) :=
  inferInstanceAs (Decidable (_ ∧ _))

def Outline.IsLegal (d : Dialect) (o : Outline) : Prop :=
  o.toHeading.IsLegal d .outline ∧ (∀ t ∈ o.tags, t.IsLegal) ∧ Step.AreLegal d o.steps ∧
    (∀ c ∈ o.comments, c.IsLegal) ∧ o.examples ≠ [] ∧ ∀ e ∈ o.examples, e.IsLegal d

instance (d : Dialect) (o : Outline) : Decidable (o.IsLegal d) :=
  inferInstanceAs (Decidable (_ ∧ _))

def Child.IsLegal (d : Dialect) : Child → Prop
  | background b => b.IsLegal d
  | scenario s => s.IsLegal d
  | outline o => o.IsLegal d

instance (d : Dialect) : (c : Child) → Decidable (c.IsLegal d)
  | .background b => inferInstanceAs (Decidable (b.IsLegal d))
  | .scenario s => inferInstanceAs (Decidable (s.IsLegal d))
  | .outline o => inferInstanceAs (Decidable (o.IsLegal d))

def Child.isDefinition : Child → Bool
  | background _ => false
  | _ => true

def Feature.IsLegal (d : Dialect) (f : Feature) : Prop :=
  f.toHeading.IsLegal d .feature ∧ (∀ t ∈ f.tags, t.IsLegal) ∧ (∀ c ∈ f.comments, c.IsLegal) ∧
    (∀ c ∈ f.children, c.IsLegal d) ∧ ∀ c ∈ f.children.tail, c.isDefinition

instance (d : Dialect) (f : Feature) : Decidable (f.IsLegal d) :=
  inferInstanceAs (Decidable (_ ∧ _))

def Document.IsLegal (doc : Document) : Prop :=
  ∃ f ∈ doc.feature, ∃ d ∈ Dialect.find? f.language, f.IsLegal d

instance (doc : Document) : Decidable doc.IsLegal :=
  inferInstanceAs (Decidable (∃ f ∈ doc.feature, _))

end FeaturePlan
