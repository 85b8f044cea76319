import FeaturePlan.Document.Assembly
import FeaturePlan.Grammar.Engine

/-! Reading documents: strictly, up to the first error, or with all errors and whatever can be
made of the rest. -/

namespace FeaturePlan

/-- The dialect of a language code that was asked for from outside the text. -/
def Dialect.request (code : String) : Except ParseError Dialect :=
  match Dialect.find? code with
  | some d => .ok d
  | none => .error (.unknownLanguage code ⟨1, 1⟩)

def Event.language? : Event → Option String
  | .token ⟨_, _, .language code⟩ => some code
  | _ => none

namespace Document

def strictly (d : Dialect) (text : String) : Delivery Assembly Unit :=
  deliver d text Assembly.builder Sink.failFast .empty ()

def parse (d : Dialect) (text : String) : Except ParseError Document :=
  let delivery := strictly d text
  match delivery.stopped with
  | some e => .error e
  | none => .ok delivery.builder.document

end Document

/-- What can be made of a text, and its errors in the order in which they were found. -/
structure Diagnostics where
  document : Document
  errors : List ParseError
deriving DecidableEq, Repr, Inhabited

namespace Diagnostics

def ofText (d : Dialect) (text : String) : Diagnostics :=
  let delivery := deliver d text Assembly.builder Sink.collect .empty []
  ⟨delivery.builder.document, delivery.sink ++ delivery.stopped.toList⟩

def isClean (d : Diagnostics) : Bool :=
  d.errors.isEmpty

end Diagnostics

end FeaturePlan
