import FeaturePlan.Document

/-! Documents whose places are changed while everything else stays. -/

namespace FeaturePlan

def Tag.relocate (f : Location → Location) (t : Tag) : Tag :=
  { t with place := f t.place }

def Comment.relocate (f : Location → Location) (c : Comment) : Comment :=
  { c with place := f c.place }

def TableRow.relocate (f : Location → Location) (r : TableRow) : TableRow where
  place := f r.place
  cells := r.cells.map fun c => { c with place := f c.place }

def StepArgument.relocate (f : Location → Location) : StepArgument → StepArgument
  | table t => table ⟨f t.place, t.rows.map (TableRow.relocate f)⟩
  | docString d => docString { d with place := f d.place }

def Step.relocate (f : Location → Location) (s : Step) : Step :=
  { s with
    place := f s.place
    argument := s.argument.map (StepArgument.relocate f)
    comments := s.comments.map (Comment.relocate f) }

def Heading.relocate (f : Location → Location) (h : Heading) : Heading :=
  { h with place := f h.place }

def Background.relocate (f : Location → Location) (b : Background) : Background where
  toHeading := b.toHeading.relocate f
  steps := b.steps.map (Step.relocate f)
  comments := b.comments.map (Comment.relocate f)

def Scenario.relocate (f : Location → Location) (s : Scenario) : Scenario where
  toHeading := s.toHeading.relocate f
  tags := s.tags.map (Tag.relocate f)
  steps := s.steps.map (Step.relocate f)
  comments := s.comments.map (Comment.relocate f)

def Examples.relocate (f : Location → Location) (e : Examples) : Examples where
  toHeading := e.toHeading.relocate f
  tags := e.tags.map (Tag.relocate f)
  header := e.header.map (TableRow.relocate f)
  body := e.body.map (TableRow.relocate f)

def Outline.relocate (f : Location → Location) (o : Outline) : Outline where
  toHeading := o.toHeading.relocate f
  tags := o.tags.map (Tag.relocate f)
  steps := o.steps.map (Step.relocate f)
  examples := o.examples.map (Examples.relocate f)
  comments := o.comments.map (Comment.relocate f)

def Child.relocate (f : Location → Location) : Child → Child
  | background b => background (b.relocate f)
  | scenario s => scenario (s.relocate f)
  | outline o => outline (o.relocate f)

def Feature.relocate (f : Location → Location) (feature : Feature) : Feature where
  toHeading := feature.toHeading.relocate f
  tags := feature.tags.map (Tag.relocate f)
  language := feature.language
  children := feature.children.map (Child.relocate f)
  comments := feature.comments.map (Comment.relocate f)

def Document.relocate (f : Location → Location) (d : Document) : Document :=
  ⟨d.feature.map (Feature.relocate f)⟩

def Document.SameText (d e : Document) : Prop :=
  d.relocate (fun _ => ⟨1, 1⟩) = e.relocate fun _ => ⟨1, 1⟩

end FeaturePlan
