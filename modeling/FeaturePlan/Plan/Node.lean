import FeaturePlan.Location
import FeaturePlan.Plan.Properties

/-! Nodes of a plan. A plan is a list of feature nodes; every node holds its children in the order
in which they are carried out. -/

namespace FeaturePlan

/-- What a node stands for. Virtual steps are written nowhere; they are made when scenarios are
merged. -/
inductive NodeKind where
  | feature | background | scenario | outline | step | virtualStep
deriving DecidableEq, Repr, Inhabited

namespace NodeKind

def name : NodeKind → String
  | feature => "FEATURE"
  | background => "BACKGROUND"
  | scenario => "SCENARIO"
  | outline => "SCENARIO_OUTLINE"
  | step => "STEP"
  | virtualStep => "VIRTUAL_STEP"

def isStep : NodeKind → Bool
  | step | virtualStep => true
  | _ => false

end NodeKind

structure Source where
  resource : String
  place : Location
deriving DecidableEq, Repr, Inhabited

def Source.text (s : Source) : String :=
  s.resource ++ "[" ++ toString s.place.line ++ "," ++ toString s.place.column ++ "]"

inductive StepData where
  | table (rows : List (List String))
  | document (content : String) (contentType : Option String)
deriving DecidableEq, Repr, Inhabited

def StepData.mapText (f : String → String) : StepData → StepData
  | table rows => .table (rows.map fun row => row.map f)
  | document content contentType => .document (f content) contentType

/-- A block of examples: its tags without their at signs, the names of its columns and its rows. -/
structure ExamplesTable where
  tags : List String
  header : List String
  rows : List (List String)
deriving DecidableEq, Repr, Inhabited

/-- What the scenarios of an outline are made from: steps with placeholders, the steps of the
background, and blocks of examples. -/
structure Template (α : Type) where
  steps : List α
  examples : List ExamplesTable
  background : List α
deriving DecidableEq, Repr, Inhabited

/-- What a node says of itself. Tags are without their at signs. A step has the `background` flag
if it comes from a background. -/
structure Label where
  kind : NodeKind
  id : Option String
  name : String
  keyword : String
  language : String
  description : List String
  tags : List String
  properties : Properties
  source : Option Source
  background : Bool
  data : Option StepData
deriving DecidableEq, Repr, Inhabited

def Label.plain (kind : NodeKind) (name : String) : Label :=
  ⟨kind, none, name, "", "", [], [], .empty, none, false, none⟩

/-- A node; outlines keep the template that their scenarios were made from. -/
structure Node extends Label where
  children : List Node
  outline : Option (Template Node)
deriving Repr, Inhabited

namespace Node

def virtual (name : String) : Node :=
  ⟨.plain .virtualStep name, [], none⟩

def hasTag (n : Node) (tag : String) : Bool :=
  n.tags.contains tag

/-- A list of tags with further tags at its end, as far as it does not hold them yet. -/
def withTags (tags : List String) : List String → List String
  | [] => tags
  | tag :: more =>
    if tags.contains tag then withTags tags more else withTags (tags ++ [tag]) more

/-- The name of a node in messages. Scenarios and outlines start with their id, if they have one. -/
def displayName (n : Node) : String :=
  let title := n.keyword ++ ": " ++ n.name
  match n.kind with
  | .scenario | .outline =>
    match n.id with
    | some id => "[" ++ id ++ "] " ++ title
    | none => title
  | .step => n.keyword ++ " " ++ n.name
  | .virtualStep => n.name
  | .feature | .background => title

def locator (n : Node) : String :=
  match n.source with
  | some s => s.text
  | none => "<synthetic>"

def isLeaf (n : Node) : Bool :=
  n.children.isEmpty

mutual

def walk : Node → List Node
  | ⟨label, children, outline⟩ => ⟨label, children, outline⟩ :: walkAll children

def walkAll : List Node → List Node
  | [] => []
  | n :: ns => n.walk ++ walkAll ns

end

theorem walk_eq (n : Node) : n.walk = n :: walkAll n.children := by
  cases n
  rfl

theorem mem_walkAll {n : Node} {ns : List Node} : n ∈ walkAll ns ↔ ∃ m ∈ ns, n ∈ m.walk := by
  induction ns with
  | nil => simp [walkAll]
  | cons m ns ih => simp [walkAll, ih]

theorem mem_walk_self (n : Node) : n ∈ n.walk := by
  rw [walk_eq]
  exact List.mem_cons_self

theorem mem_walk_of_mem_children {f n m : Node} (hn : n ∈ f.children) (hm : m ∈ n.walk) :
    m ∈ f.walk := by
  rw [walk_eq]
  exact List.mem_cons_of_mem _ (mem_walkAll.mpr ⟨n, hn, hm⟩)

mutual

def count : Node → Nat
  | ⟨_, children, _⟩ => 1 + countAll children

def countAll : List Node → Nat
  | [] => 0
  | n :: ns => n.count + countAll ns

end

/-- The first node that satisfies a condition, in the order of `walkAll`. -/
def find? (features : List Node) (p : Node → Bool) : Option Node :=
  (walkAll features).find? p

/-- The node at the end of a path of child numbers, which starts at a list of trees. -/
def at? : List Node → List Nat → Option Node
  | _, [] => none
  | ns, [i] => ns[i]?
  | ns, i :: path => (ns[i]?).bind fun n => at? n.children path

def modifyAt (f : Node → Node) : List Node → List Nat → List Node
  | ns, [] => ns
  | ns, [i] => ns.modify i f
  | ns, i :: path => ns.modify i fun n => { n with children := modifyAt f n.children path }

mutual

def decEq : (m n : Node) → Decidable (m = n)
  | ⟨l, cs, o⟩, ⟨l', cs', o'⟩ =>
    match instDecidableEqLabel l l', decEqAll cs cs', decEqOutline o o' with
    | isTrue h, isTrue h', isTrue h'' => isTrue (by rw [h, h', h''])
    | isFalse h, _, _ => isFalse fun e => h (by cases e; rfl)
    | _, isFalse h, _ => isFalse fun e => h (by cases e; rfl)
    | _, _, isFalse h => isFalse fun e => h (by cases e; rfl)

def decEqAll : (ms ns : List Node) → Decidable (ms = ns)
  | [], [] => isTrue rfl
  | [], _ :: _ => isFalse nofun
  | _ :: _, [] => isFalse nofun
  | m :: ms, n :: ns =>
    match decEq m n, decEqAll ms ns with
    | isTrue h, isTrue h' => isTrue (by rw [h, h'])
    | isFalse h, _ => isFalse fun e => h (by cases e; rfl)
    | _, isFalse h => isFalse fun e => h (by cases e; rfl)

def decEqOutline : (s t : Option (Template Node)) → Decidable (s = t)
  | none, none => isTrue rfl
  | none, some _ => isFalse nofun
  | some _, none => isFalse nofun
  | some ⟨steps, examples, background⟩, some ⟨steps', examples', background'⟩ =>
    match decEqAll steps steps', (inferInstance : Decidable (examples = examples')),
        decEqAll background background' with
    | isTrue h, isTrue h', isTrue h'' => isTrue (by rw [h, h', h''])
    | isFalse h, _, _ => isFalse fun e => h (by cases e; rfl)
    | _, isFalse h, _ => isFalse fun e => h (by cases e; rfl)
    | _, _, isFalse h => isFalse fun e => h (by cases e; rfl)

end

instance : DecidableEq Node :=
  decEq

end Node

end FeaturePlan
