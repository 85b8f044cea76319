import FeaturePlan.Grammar.Rule

/-! The automaton of the grammar. It reads a text line by line and remembers no more than what was
read last; that is enough to tell which rules a line closes and opens. Inside a description a
blank line is part of the text, and a comment ends the text. -/

namespace FeaturePlan

namespace Block

def rule : Block → Rule
  | feature => .featureHeader
  | background => .background
  | scenario => .scenario
  | outline => .scenarioOutline
  | examples => .examples

/-- The classes of lines that may follow the description of a block. -/
def follows : Block → TokenKind → Bool
  | feature, kind =>
    kind ∈ [.eof, .tags, .title .background, .title .scenario, .title .outline]
  | background, kind | scenario, kind =>
    kind ∈ [.eof, .tags, .title .scenario, .title .outline, .step]
  | outline, kind => kind ∈ [.tags, .title .examples, .step]
  | examples, kind =>
    kind ∈ [.eof, .tags, .title .scenario, .title .outline, .title .examples, .row]

end Block

/-- What was read last, as far as it decides what may come next. -/
inductive State where
  | start
  | headerLanguage
  | headerTags
  | scenarioTags
  | examplesTags
  | title (block : Block)
  | description (block : Block)
  | afterDescription (block : Block)
  | step (block : Block)
  | dataTable (block : Block)
  | docString (block : Block)
  | afterDocString (block : Block)
  | examplesTable
  | done
deriving DecidableEq, Repr, Inhabited

/-- What the automaton does with the rules that are open when it takes a line. -/
inductive Action where
  /-- Opens a rule inside the innermost one. -/
  | enter (rule : Rule)
  /-- Closes rules until the given one is the innermost. -/
  | leaveTo (rule : Rule)
  /-- Closes the innermost rule. -/
  | leave
  /-- Puts the line into the innermost rule. -/
  | shift
deriving DecidableEq, Repr

namespace State

def block? : State → Option Block
  | title b | description b | afterDescription b | step b | dataTable b | docString b
  | afterDocString b => some b
  | examplesTable => some .examples
  | start | headerLanguage | headerTags | scenarioTags | examplesTags | done => none

def accepts : State → TokenKind → Bool
  | start, kind => kind ∈ [.eof, .empty, .comment, .language, .tags, .title .feature]
  | headerLanguage, kind | headerTags, kind =>
    kind ∈ [.empty, .comment, .tags, .title .feature]
  | scenarioTags, kind => kind ∈ [.empty, .comment, .tags, .title .scenario, .title .outline]
  | examplesTags, kind => kind ∈ [.empty, .comment, .tags, .title .examples]
  | title b, kind => kind ∈ [.empty, .comment, .other] || b.follows kind
  | description b, kind => kind ∈ [.comment, .other] || b.follows kind
  | afterDescription b, kind | afterDocString b, kind =>
    kind ∈ [.empty, .comment] || b.follows kind
  | step b, kind => kind ∈ [.empty, .comment, .row, .separator] || b.follows kind
  | dataTable b, kind => kind ∈ [.empty, .comment, .row] || b.follows kind
  | docString _, kind => kind ∈ [.separator, .other]
  | examplesTable, kind => kind ∈ [.empty, .comment] || Block.follows .examples kind
  | done, _ => false

/-- The classes that a state takes, in the order in which they are tried. -/
def expected (s : State) : List TokenKind :=
  TokenKind.inOrder.filter s.accepts

/-- Lines that end what a block holds so far. Tags belong to the next examples block below an
outline's steps, and below an examples block if the title that they lead to says so. -/
def follow (block : Block) (examplesAhead : Bool) : TokenKind → Option (List Action × State)
  | .title .background =>
    some ([.leaveTo .feature, .enter .background, .shift], title .background)
  | .tags =>
    if block = .outline ∨ (block = .examples ∧ examplesAhead) then
      some ([.leaveTo .scenarioOutline, .enter .examplesDefinition, .enter .tags, .shift],
        examplesTags)
    else
      some ([.leaveTo .feature, .enter .scenarioDefinition, .enter .tags, .shift], scenarioTags)
  | .title .scenario =>
    some ([.leaveTo .feature, .enter .scenarioDefinition, .enter .scenario, .shift],
      title .scenario)
  | .title .outline =>
    some ([.leaveTo .feature, .enter .scenarioDefinition, .enter .scenarioOutline, .shift],
      title .outline)
  | .title .examples =>
    some ([.leaveTo .scenarioOutline, .enter .examplesDefinition, .enter .examples, .shift],
      title .examples)
  | .step => some ([.leaveTo block.rule, .enter .step, .shift], step block)
  | .row => some ([.leaveTo .examples, .enter .examplesTable, .shift], examplesTable)
  | _ => none

def followBlock (s : State) (examplesAhead : Bool) (kind : TokenKind) :
    Option (List Action × State) :=
  s.block?.bind fun block => follow block examplesAhead kind

/-- What a state does with a line of a class, and the state after it. -/
def next (s : State) (examplesAhead : Bool) : TokenKind → Option (List Action × State)
  | .eof => some ([.leaveTo .document, .shift, .leave], done)
  | .empty => some ([.shift], s)
  | .comment =>
    match s with
    | title b => some ([.shift], afterDescription b)
    | description b => some ([.leaveTo b.rule, .shift], afterDescription b)
    | _ => some ([.shift], s)
  | .language =>
    match s with
    | start => some ([.enter .feature, .enter .featureHeader, .shift], headerLanguage)
    | _ => none
  | .tags =>
    match s with
    | start => some ([.enter .feature, .enter .featureHeader, .enter .tags, .shift], headerTags)
    | headerLanguage => some ([.enter .tags, .shift], headerTags)
    | headerTags | scenarioTags | examplesTags => some ([.shift], s)
    | _ => s.followBlock examplesAhead .tags
  | .title .feature =>
    match s with
    | start =>
      some ([.enter .feature, .enter .featureHeader, .leaveTo .featureHeader, .shift],
        title .feature)
    | headerLanguage | headerTags => some ([.leaveTo .featureHeader, .shift], title .feature)
    | _ => none
  | .title .scenario =>
    match s with
    | scenarioTags =>
      some ([.leaveTo .scenarioDefinition, .enter .scenario, .shift], title .scenario)
    | _ => s.followBlock examplesAhead (.title .scenario)
  | .title .outline =>
    match s with
    | scenarioTags =>
      some ([.leaveTo .scenarioDefinition, .enter .scenarioOutline, .shift], title .outline)
    | _ => s.followBlock examplesAhead (.title .outline)
  | .title .examples =>
    match s with
    | examplesTags =>
      some ([.leaveTo .examplesDefinition, .enter .examples, .shift], title .examples)
    | _ => s.followBlock examplesAhead (.title .examples)
  | .title .background => s.followBlock examplesAhead (.title .background)
  | .step => s.followBlock examplesAhead .step
  | .separator =>
    match s with
    | step b => some ([.enter .docString, .shift], docString b)
    | docString b => some ([.shift, .leave], afterDocString b)
    | _ => none
  | .row =>
    match s with
    | step b => some ([.enter .dataTable, .shift], dataTable b)
    | dataTable _ | examplesTable => some ([.shift], s)
    | _ => s.followBlock examplesAhead .row
  | .other =>
    match s with
    | title b => some ([.enter .description, .shift], description b)
    | description _ | docString _ => some ([.shift], s)
    | _ => none

end State

end FeaturePlan
