import FeaturePlan.Document.Tree
import FeaturePlan.Grammar.Delivery

/-! Trees assembled from events. Comments wait for the next line that can own them: a title line
other than that of an examples block, or a step. A table whose rows differ in width is refused
when it closes, and leaves nothing behind. -/

namespace FeaturePlan

/-- What has been assembled so far: the open rules with their parts, innermost first, the trees
outside of all rules, and the comments that wait for their owner. -/
structure Assembly where
  frames : List (Rule × List Tree)
  trees : List Tree
  waiting : List Comment
deriving Repr, Inhabited

namespace Assembly

def empty : Assembly :=
  ⟨[], [], []⟩

def push (a : Assembly) (t : Tree) : Assembly :=
  match a.frames with
  | [] => { a with trees := a.trees ++ [t] }
  | (rule, parts) :: frames => { a with frames := (rule, parts ++ [t]) :: frames }

def ownsComments : TokenKind → Bool
  | .title .examples => false
  | .title _ | .step => true
  | _ => false

/-- Adds a line. Blank lines and the end of the text leave no trace. -/
def addToken (t : Token) (a : Assembly) : Assembly :=
  match t.content with
  | .comment text => { a with waiting := a.waiting ++ [⟨t.place, text⟩] }
  | .empty | .eof => a
  | _ =>
    if ownsComments t.kind then { a with waiting := [] }.push (.leaf t a.waiting)
    else a.push (.leaf t [])

def isTable : Rule → Bool
  | .dataTable | .examplesTable => true
  | _ => false

def close (a : Assembly) : Assembly × Option ParseError :=
  match a.frames with
  | [] => (a, none)
  | (rule, parts) :: frames =>
    match if isTable rule then Tree.unevenRow? parts else none with
    | some place => ({ a with frames }, some (.unevenRow place))
    | none => ({ a with frames }.push (.node rule parts), none)

def builder : Builder Assembly where
  opened rule a := { a with frames := (rule, []) :: a.frames }
  token := addToken
  closed _ a := a.close

def document (a : Assembly) : Document :=
  Tree.document a.trees

end Assembly

end FeaturePlan
