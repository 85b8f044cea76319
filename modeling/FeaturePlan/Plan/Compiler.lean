import FeaturePlan.Document
import FeaturePlan.Plan.Declaration
import FeaturePlan.Plan.Error
import FeaturePlan.Plan.Expansion
import FeaturePlan.Plan.Log
import FeaturePlan.RegexEngine
import FeaturePlan.TagExpr.Parse
import FeaturePlan.Text.Lines

/-! From documents to plan nodes. Scenarios start with the steps of the background, take over the
tags and properties of their feature, and are left out of the plan unless the tag filter is true
of their tags. -/

namespace FeaturePlan

/-- Tells which tags are ids, if any, and which scenarios belong to the plan. -/
structure Compiler where
  isId : String → Bool
  filter : Option TagExpr

structure Element where
  heading : Heading
  tags : List Tag
  comments : List Comment
deriving DecidableEq, Repr, Inhabited

def Tag.names (tags : List Tag) : List String :=
  (tags.map fun t =>
    String.ofList ((Text.after? ['@'] t.name.toList).getD t.name.toList)).eraseDups

namespace Compiler

/-- The test for ids that a pattern describes. Without a pattern no tag is an id. The pattern is put
between anchors as a text, whether it is an expression by itself or not. -/
def idTest (engine : RegexEngine) : Option String → Except PlanError (String → Bool)
  | none => .ok fun _ => false
  | some text =>
    match engine.compile? ("^(?:" ++ text ++ ")$") with
    | some test => .ok test
    | none => .error (.badIdPattern text)

def filterOf : Option String → Except PlanError (Option TagExpr)
  | none => .ok none
  | some text =>
    match TagExpr.parse text with
    | .ok e => .ok (some e)
    | .error e => .error (.badTagFilter text e)

def ofConfig (engine : RegexEngine) (c : Config) : Except PlanError Compiler := do
  let isId ← idTest engine c.idTagPattern
  let filter ← filterOf c.tagFilter
  return ⟨isId, filter⟩

def selects (c : Compiler) (n : Node) : Bool :=
  match c.filter with
  | none => true
  | some e => e.holds n.tags

/-- The id among the tags of an element: the one tag that is an id, if there is one. -/
def id (c : Compiler) (tags : List String) (name : String) (source : Source) :
    Except PlanError (Option String) :=
  match tags.filter c.isId with
  | [] => .ok none
  | [tag] => .ok (some tag)
  | found => .error (.ambiguousId name source.text found)

/-- The lines of a description, each without the blanks around it. -/
def descriptionLines : Option String → List String
  | none => []
  | some text => (Text.lines text.toList).map fun line => .ofList (Text.trim line)

/-- The label of an element inside a parent. Its own tags follow those of the parent; only its own
can be ids. -/
def label (c : Compiler) (kind : NodeKind) (resource : String) (e : Element)
    (language : String) (inherited : List String × Properties) : Except PlanError Label := do
  let own := Tag.names e.tags
  let source : Source := ⟨resource, e.heading.place⟩
  let id ← c.id own e.heading.name source
  return {
    kind
    id
    name := Text.trimmed e.heading.name
    keyword := Text.trimmed e.heading.keyword
    language
    description := descriptionLines e.heading.description
    tags := Node.withTags (Node.withTags [] inherited.1) own
    properties := inherited.2.declaredIn e.comments
    source := some source
    background := false
    data := none }

/-- What a step's node knows of the argument. The cells of tables lose the blanks around them. -/
def stepData : StepArgument → StepData
  | .table t => .table (t.rows.map fun row => row.cells.map fun c => Text.trimmed c.value)
  | .docString d => .document d.content d.contentType

def step (resource language : String) (inherited : Properties) (s : Step) : Node where
  kind := .step
  id := none
  name := Text.trimmed s.text
  keyword := Text.trimmed s.keyword
  language
  description := []
  tags := []
  properties := inherited.declaredIn s.comments
  source := some ⟨resource, s.place⟩
  background := false
  data := s.argument.map stepData
  children := []
  outline := none

def steps (resource : String) (parent : Label) (ss : List Step) : List Node :=
  ss.map (step resource parent.language parent.properties)

def backgroundSteps (resource : String) (parent : Label) : Option Background → List Node
  | none => []
  | some b =>
    b.steps.map fun s =>
      { step resource parent.language (parent.properties.declaredIn b.comments) s with
        background := true }

def examplesTable (e : Examples) : ExamplesTable where
  tags := Tag.names e.tags
  header := match e.header with
    | some row => row.values
    | none => []
  rows := e.body.map TableRow.values

/-- The key under which features keep the code of their language. -/
def languageKey : String := "language"

/-- The label of a feature. No comment can change its language. -/
def featureLabel (c : Compiler) (resource : String) (f : Feature) : Except PlanError Label := do
  let l ← c.label .feature resource ⟨f.toHeading, f.tags, f.comments⟩ f.language ([], .empty)
  return { l with properties := l.properties.insert languageKey f.language }

def scenario (c : Compiler) (resource : String) (background : Option Background) (parent : Label)
    (s : Scenario) : Except PlanError Node := do
  let l ← c.label .scenario resource ⟨s.toHeading, s.tags, s.comments⟩ parent.language
    (parent.tags, parent.properties)
  return ⟨l, backgroundSteps resource l background ++ steps resource l s.steps, none⟩

/-- The node of an outline, with the scenarios that its examples make of it. -/
def outline (c : Compiler) (resource : String) (background : Option Background) (parent : Label)
    (o : Outline) : Except PlanError Node := do
  let l ← c.label .outline resource ⟨o.toHeading, o.tags, o.comments⟩ parent.language
    (parent.tags, parent.properties)
  let template : Template Node :=
    ⟨steps resource l o.steps, o.examples.map examplesTable, backgroundSteps resource l background⟩
  return ⟨l, Node.expand ⟨l, [], none⟩ template template.examples, some template⟩

/-- The nodes of a feature's children, save those that the filter leaves out. -/
def children (c : Compiler) (resource : String) (background : Option Background) (parent : Label) :
    List Child → Except PlanError (List Node)
  | [] => .ok []
  | .background _ :: rest => c.children resource background parent rest
  | .scenario s :: rest => do
    let n ← c.scenario resource background parent s
    let ns ← c.children resource background parent rest
    return if c.selects n then n :: ns else ns
  | .outline o :: rest => do
    let n ← c.outline resource background parent o
    let ns ← c.children resource background parent rest
    return if c.selects n then n :: ns else ns

/-- The node of a feature, with the children that the filter lets through. -/
def feature (c : Compiler) (resource : String) (f : Feature) : Except PlanError Node := do
  let l ← c.featureLabel resource f
  let children ← c.children resource f.background? l f.children
  return ⟨l, children, none⟩

/-- The node of a document's feature, and the events on the way. There is none without a feature,
nor without a scenario that belongs to the plan. -/
def compileLogged (c : Compiler) (resource : String) (d : Document) :
    Except PlanError (Option Node) × List LogEvent :=
  match d.feature with
  | none => (.ok none, [.noFeature resource])
  | some f =>
    match c.feature resource f with
    | .error e => (.error e, [])
    | .ok n =>
      let event := LogEvent.featureCompiled resource n.name n.children.length
      if n.isLeaf then (.ok none, [event, .noFeature resource]) else (.ok (some n), [event])

def compile (c : Compiler) (resource : String) (d : Document) : Except PlanError (Option Node) :=
  (c.compileLogged resource d).1

end Compiler

end FeaturePlan
