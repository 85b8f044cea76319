import FeaturePlan.Document
import FeaturePlan.Plan.Properties
import FeaturePlan.Text.Blank

/-! Properties declared in comments. A comment declares a property when its text is one or more
hash signs, a key, a colon and a value, with blanks between them as one likes; neither key nor
value contains a blank. Where a comment can be read in several ways, as many hash signs as
possible are left out of the key, and the key is as long as possible. -/

namespace FeaturePlan.Declaration

def isWord (cs : List Char) : Bool :=
  !cs.isEmpty && cs.all fun c => !Text.isBlank c

def valueAfter? (rest : List Char) : Option (List Char) := do
  let value ← Text.after? [':'] (Text.trimStart rest)
  let value := Text.trimStart value
  if isWord value then some value else none

def entry? : List Char → Option (List Char × List Char)
  | [] => none
  | c :: cs =>
    if Text.isBlank c then none
    else
      match entry? cs with
      | some (key, value) => some (c :: key, value)
      | none => (valueAfter? cs).map fun value => ([c], value)

/-- The entry behind some hash signs. The last of them belongs to the key when there is no other
way, if it is not the only one. More of them would not help: what follows the key is the same. -/
def afterHashes? (text : List Char) : Option (List Char × List Char) :=
  let hashes := text.takeWhile (· == '#')
  let body := text.dropWhile (· == '#')
  if hashes = [] then none
  else
    match entry? (Text.trimStart body) with
    | some e => some e
    | none => if hashes.length = 1 then none else entry? ('#' :: body)

def ofComment? (comment : String) : Option (String × String) :=
  (afterHashes? (Text.trim comment.toList)).map fun (key, value) => (.ofList key, .ofList value)

end FeaturePlan.Declaration

namespace FeaturePlan.Properties

/-- The properties changed by what comments declare; of two declarations the later counts. -/
def declaredIn (inherited : Properties) (comments : List Comment) : Properties :=
  comments.foldl (fun p c =>
    match Declaration.ofComment? c.text with
    | some (key, value) => p.insert key value
    | none => p) inherited

end FeaturePlan.Properties
