import FeaturePlan.Json
import FeaturePlan.Plan.Node

/-! Plans as JSON. Members that would say nothing are left out; templates of outlines are not
written. -/

namespace FeaturePlan

namespace Json

def strings (items : List String) : Json :=
  .array (items.map .string)

def textMember (key text : String) : List (String × Json) :=
  if text = "" then [] else [(key, .string text)]

def optionMember (key : String) : Option String → List (String × Json)
  | none => []
  | some text => [(key, .string text)]

def listMember (key : String) (items : List String) : List (String × Json) :=
  if items.isEmpty then [] else [(key, strings items)]

end Json

def StepData.json : StepData → Json
  | table rows =>
    .object [("kind", .string "data_table"), ("rows", .array (rows.map Json.strings))]
  | document content contentType =>
    .object (("kind", .string "document") :: ("content", .string content) ::
      Json.optionMember "content_type" contentType)

def Label.members (l : Label) : List (String × Json) :=
  [("node_type", .string l.kind.name)] ++
    Json.optionMember "id" l.id ++
    [("name", .string l.name)] ++
    Json.textMember "keyword" l.keyword ++
    Json.textMember "language" l.language ++
    Json.listMember "description" l.description ++
    Json.listMember "tags" l.tags ++
    (if l.properties.entries.isEmpty then []
      else [("properties", .object (l.properties.entries.map fun (k, v) => (k, .string v)))]) ++
    Json.optionMember "source" (l.source.map Source.text) ++
    (if l.background then [("background", .bool true)] else []) ++
    (match l.data with
      | none => []
      | some d => [("data", d.json)])

namespace Node

mutual

def json : Node → Json
  | ⟨label, children, _⟩ =>
    .object (label.members ++
      match children with
      | [] => []
      | n :: ns => [("children", .array (n.json :: jsonAll ns))])

def jsonAll : List Node → List Json
  | [] => []
  | n :: ns => n.json :: jsonAll ns

end

mutual

/-- A node without the templates of the outlines in it: as much of it as is written. -/
def written : Node → Node
  | ⟨label, children, _⟩ => ⟨label, writtenAll children, none⟩

def writtenAll : List Node → List Node
  | [] => []
  | n :: ns => n.written :: writtenAll ns

end

end Node

def Json.ofPlan (features : List Node) : Json :=
  .object [("features", .array (Node.jsonAll features))]

end FeaturePlan
