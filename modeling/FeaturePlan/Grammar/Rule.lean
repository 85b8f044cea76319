import FeaturePlan.Token

/-! The grammar of feature documents. Each rule holds lines and other rules in an order that its
production describes. Productions do not mention blank lines and comments, which may stand between
any two lines save those of a doc string. -/

namespace FeaturePlan

/-- The constructs that the grammar opens and closes. -/
inductive Rule where
  | document
  | feature
  | featureHeader
  | background
  | scenarioDefinition
  | scenario
  | scenarioOutline
  | examplesDefinition
  | examples
  | examplesTable
  | step
  | dataTable
  | docString
  | tags
  | description
deriving DecidableEq, Repr, Inhabited

def Rule.name : Rule → String
  | document => "Document"
  | feature => "Feature"
  | featureHeader => "FeatureHeader"
  | background => "Background"
  | scenarioDefinition => "ScenarioDefinition"
  | scenario => "Scenario"
  | scenarioOutline => "ScenarioOutline"
  | examplesDefinition => "ExamplesDefinition"
  | examples => "Examples"
  | examplesTable => "ExamplesTable"
  | step => "Step"
  | dataTable => "DataTable"
  | docString => "DocString"
  | tags => "Tags"
  | description => "Description"

/-- What may stand in a row: lines of a class, other rules, and combinations of them. -/
inductive Production where
  | line (kind : TokenKind)
  | rule (r : Rule)
  | nothing
  | seq (first second : Production)
  | either (left right : Production)
  | many (p : Production)
deriving DecidableEq, Repr, Inhabited

namespace Production

def inOrder : List Production → Production
  | [] => nothing
  | p :: ps => seq p (inOrder ps)

def optional (p : Production) : Production :=
  either p nothing

def several (p : Production) : Production :=
  seq p (many p)

end Production

open Production in
def Rule.production : Rule → Production
  | document => inOrder [optional (.rule feature), .line .eof]
  | feature =>
    inOrder [.rule featureHeader, optional (.rule background), many (.rule scenarioDefinition)]
  | featureHeader =>
    inOrder [optional (.line .language), optional (.rule tags), .line (.title .feature),
      optional (.rule description)]
  | background =>
    inOrder [.line (.title .background), optional (.rule description), many (.rule step)]
  | scenarioDefinition =>
    inOrder [optional (.rule tags), either (.rule scenario) (.rule scenarioOutline)]
  | scenario =>
    inOrder [.line (.title .scenario), optional (.rule description), many (.rule step)]
  | scenarioOutline =>
    inOrder [.line (.title .outline), optional (.rule description), many (.rule step),
      several (.rule examplesDefinition)]
  | examplesDefinition => inOrder [optional (.rule tags), .rule examples]
  | examples =>
    inOrder [.line (.title .examples), optional (.rule description),
      optional (.rule examplesTable)]
  | examplesTable => several (.line .row)
  | step => inOrder [.line .step, optional (either (.rule dataTable) (.rule docString))]
  | dataTable => several (.line .row)
  | docString => inOrder [.line .separator, many (.line .other), .line .separator]
  | tags => several (.line .tags)
  | description => several (.line .other)

end FeaturePlan
