import FeaturePlan.Plan.Merge

/-! Redefinition of a plan: every definition is merged with the implementation of the same id,
wherever in the plan it is, and implementations leave the plan. -/

namespace FeaturePlan

/-- The place of a child in a plan: the number of its feature and its own. -/
structure Address where
  feature : Nat
  child : Nat
deriving DecidableEq, Repr, Inhabited

structure Candidate where
  id : String
  address : Address
  ref : NodeRef
deriving DecidableEq, Repr, Inhabited

/-- What has become of a plan, the events on the way, and the reason to stop, if any. -/
structure Redefinition where
  features : List Node
  log : List LogEvent
  error : Option (Failure RedefinitionError)
deriving DecidableEq, Repr, Inhabited

namespace Redefinition

def unchanged (features : List Node) : Redefinition :=
  ⟨features, [], none⟩

def andThen (r : Redefinition) (next : List Node → Redefinition) : Redefinition :=
  match r.error with
  | some _ => r
  | none =>
    let after := next r.features
    { after with log := r.log ++ after.log }

def numbered (feature : Nat) : Nat → List Node → List (Address × Node)
  | _, [] => []
  | child, n :: ns => (⟨feature, child⟩, n) :: numbered feature (child + 1) ns

def addressed : Nat → List Node → List (Address × Node)
  | _, [] => []
  | feature, f :: fs => numbered feature 0 f.children ++ addressed (feature + 1) fs

def node? (features : List Node) (a : Address) : Option Node :=
  (features[a.feature]?).bind fun f => f.children[a.child]?

def modify (features : List Node) (a : Address) (f : Node → Node) : List Node :=
  features.modify a.feature fun n => { n with children := n.children.modify a.child f }

/-- Collects candidates after those already found. Nodes without an id are passed over with a
warning; a second node with one id is an error. -/
def collectFrom (tag : String) (found : List Candidate) :
    List (Address × Node) → List Candidate × List LogEvent × Option RedefinitionError
  | [] => (found, [], none)
  | (address, n) :: rest =>
    match n.id with
    | none =>
      let (all, log, error) := collectFrom tag found rest
      (all, .idMissing n.locator n.displayName :: log, error)
    | some id =>
      match found.find? fun c => decide (c.id = id) with
      | some first => (found, [], some (.duplicateId id tag n.ref first.ref))
      | none => collectFrom tag (found ++ [⟨id, address, n.ref⟩]) rest

def carriers (features : List Node) (kind : NodeKind) (tag : String) : List (Address × Node) :=
  (addressed 0 features).filter fun (_, n) => n.kind = kind && n.hasTag tag

def collect (features : List Node) (kind : NodeKind) (tag : String) :
    List Candidate × List LogEvent × Option RedefinitionError :=
  collectFrom tag [] (carriers features kind tag)

def withCandidates (features : List Node) (kind : NodeKind) (tag : String)
    (next : List Candidate → Redefinition) : Redefinition :=
  let (found, log, error) := collect features kind tag
  (⟨features, log, error.map .error⟩ : Redefinition).andThen fun _ => next found

def clear (features : List Node) (found : List Candidate) : List Node :=
  found.foldl (fun fs c => modify fs c.address fun n => { n with children := [] }) features

/-- Merges each definition with the implementation of the same id, as the plan holds it by then. -/
def mergeEach (merge : Node → Node → Merge) (missing : String → NodeRef → RedefinitionError)
    (implementations : List Candidate) : List Candidate → List Node → Redefinition
  | [], features => unchanged features
  | d :: ds, features =>
    let source := (implementations.find? fun c => decide (c.id = d.id)).bind fun c =>
      node? features c.address
    match source with
    | none =>
      let ref := match node? features d.address with
        | some n => n.ref
        | none => d.ref
      ⟨features, [], some (.error (missing d.id ref))⟩
    | some source =>
      match node? features d.address with
      | none => mergeEach merge missing implementations ds features
      | some target =>
        let m := merge target source
        (⟨modify features d.address fun _ => m.node, m.log, m.error⟩ : Redefinition).andThen
          (mergeEach merge missing implementations ds)

mutual

def prune (tag : String) : Node → Node
  | ⟨label, children, outline⟩ => ⟨label, pruneAll tag children, outline⟩

def pruneAll (tag : String) : List Node → List Node
  | [] => []
  | n :: ns => if n.hasTag tag then pruneAll tag ns else prune tag n :: pruneAll tag ns

end

/-- A plan without the nodes that have a tag and the features of which nothing is left. -/
def removeTagged (tag : String) (features : List Node) : List Node :=
  (pruneAll tag features).filter fun f => !f.isLeaf

/-- Redefines a plan. Implementing outlines first lose their scenarios; then scenarios are merged,
then outlines; implementations are removed in the end. What has been done before an error stays. -/
def run (w : Arithmetic) (c : RedefinitionConfig) (features : List Node) : Redefinition :=
  if !c.enabled then unchanged features
  else
    withCandidates features .outline c.implementationTag fun outlines =>
      let features := clear features outlines
      withCandidates features .scenario c.implementationTag fun scenarios =>
        withCandidates features .scenario c.definitionTag fun definitions =>
          (mergeEach (Merge.scenario w c.stepMapProperty) .missingImplementation scenarios
            definitions features).andThen fun features =>
              withCandidates features .outline c.definitionTag fun definitions =>
                (mergeEach (Merge.outline w c.stepMapProperty) .missingOutline outlines definitions
                  features).andThen fun features =>
                    unchanged (removeTagged c.implementationTag features)

end Redefinition

end FeaturePlan
