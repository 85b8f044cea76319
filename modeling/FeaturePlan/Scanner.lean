import FeaturePlan.Dialect.Known
import FeaturePlan.Text.Lines
import FeaturePlan.Token

/-! Classification of lines. The scanner is asked whether a line belongs to a given class; the
grammar decides which classes to ask for. All it remembers from one line to the next is the
dialect and the doc string that is open, if one is. -/

namespace FeaturePlan

/-- A doc string whose end has not been seen: its delimiter, and the indentation of the line that
opened it, which its other lines lose. -/
structure OpenDocString where
  delimiter : Delimiter
  indent : Nat
deriving DecidableEq, Repr, Inhabited

structure Scanner where
  dialect : Dialect
  docString : Option OpenDocString
deriving DecidableEq, Repr, Inhabited

/-- What the grammar consumes one by one: the lines of a text, then its end. -/
inductive Item where
  | line (l : Line)
  | eof (place : Location)
deriving DecidableEq, Repr, Inhabited

namespace Item

/-- Numbers lines from `number` on and puts the end of the text on the line after the last. -/
def number (number : Nat) : List (List Char) → List Item
  | [] => [.eof ⟨number, 1⟩]
  | raw :: rest => .line ⟨number, raw⟩ :: Item.number (number + 1) rest

def ofText (text : String) : List Item :=
  Item.number 1 (Text.lines text.toList)

end Item

/-- The answer to the question whether an item belongs to a class. -/
inductive Reading where
  | refused
  | token (t : Token) (next : Scanner)
  | unknownLanguage (code : String) (place : Location)
deriving DecidableEq, Repr, Inhabited

namespace Scanner

def start (d : Dialect) : Scanner :=
  ⟨d, none⟩

/-- Number of blanks that free text loses at the start of each line. -/
def indentToDrop (s : Scanner) : Nat :=
  match s.docString with
  | none => 0
  | some o => o.indent

def keep (s : Scanner) (place : Location) : Option Content → Reading
  | none => .refused
  | some content => .token ⟨place, s.dialect, content⟩ s

def titles (s : Scanner) : Block → List String
  | .feature => s.dialect.feature
  | .background => s.dialect.background
  | .scenario => s.dialect.scenario
  | .outline => s.dialect.outline
  | .examples => s.dialect.examples

/-- A line that names a known language changes the dialect, from that line on. -/
def readLanguage (s : Scanner) (l : Line) : Reading :=
  match l.language? with
  | none => .refused
  | some code =>
    match Dialect.find? code with
    | none => .unknownLanguage code l.start
    | some d => .token ⟨l.start, d, .language code⟩ { s with dialect := d }

/-- Outside doc strings either delimiter opens one; inside, only the delimiter that opened it
counts, whatever follows it on the line. -/
def readSeparator (s : Scanner) (l : Line) : Reading :=
  match s.docString with
  | some o =>
    if (Text.after? o.delimiter.chars l.body).isSome then
      .token ⟨l.start, s.dialect, .separator o.delimiter ""⟩ { s with docString := none }
    else .refused
  | none =>
    match [Delimiter.quotes, Delimiter.backticks].findSome? fun d =>
        (l.textAfter? d.text).map fun contentType => (d, contentType) with
    | none => .refused
    | some (d, contentType) =>
      .token ⟨l.start, s.dialect, .separator d contentType⟩
        { s with docString := some ⟨d, l.indent⟩ }

def freeText (s : Scanner) (l : Line) : String :=
  let text := l.unindented s.indentToDrop
  match s.docString with
  | none => .ofList text
  | some o => .ofList (o.delimiter.unescape text)

def readLine (s : Scanner) (l : Line) : TokenKind → Reading
  | .eof => .refused
  | .empty => s.keep l.start (if l.isBlank then some .empty else none)
  | .comment =>
    s.keep l.margin (if l.body.head? = some '#' then some (.comment (.ofList l.raw)) else none)
  | .tags => s.keep l.start (l.tags?.map .tags)
  | .title block =>
    s.keep l.start <| (s.titles block).findSome? fun keyword =>
      (l.titleAfter? keyword).map (.title block keyword)
  | .step =>
    s.keep l.start <| s.dialect.steps.findSome? fun keyword =>
      (l.textAfter? keyword).map (.step keyword)
  | .separator => s.readSeparator l
  | .row => s.keep l.start (l.cells?.map .row)
  | .language => s.readLanguage l
  | .other => s.keep l.margin (some (.other (s.freeText l)))

/-- Asks whether an item belongs to a class. The end of the text has a class of its own. -/
def read (s : Scanner) (kind : TokenKind) : Item → Reading
  | .line l => s.readLine l kind
  | .eof place => s.keep place (if kind = .eof then some .eof else none)

/-- The first class of the list to which the item belongs. An unknown language ends the search. -/
def classify (s : Scanner) (item : Item) : List TokenKind → Reading
  | [] => .refused
  | kind :: kinds =>
    match s.read kind item with
    | .refused => s.classify item kinds
    | reading => reading

def accepts (s : Scanner) (kind : TokenKind) (item : Item) : Bool :=
  match s.read kind item with
  | .token _ _ => true
  | _ => false

/-- The first item that is neither blank nor a comment nor a line of tags is the title of an
examples block. -/
def examplesFollow (s : Scanner) : List Item → Bool
  | [] => false
  | item :: rest =>
    if s.accepts .empty item || s.accepts .comment item || s.accepts .tags item then
      s.examplesFollow rest
    else s.accepts (.title .examples) item

end Scanner

end FeaturePlan
