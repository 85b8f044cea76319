import FeaturePlan.Config
import FeaturePlan.Delimiter
import FeaturePlan.Dialect
import FeaturePlan.Dialect.Known
import FeaturePlan.Document
import FeaturePlan.Document.Assembly
import FeaturePlan.Document.Order
import FeaturePlan.Document.Parse
import FeaturePlan.Document.Relocation
import FeaturePlan.Document.Render
import FeaturePlan.Document.Tree
import FeaturePlan.Grammar.Delivery
import FeaturePlan.Grammar.Derivation
import FeaturePlan.Grammar.Engine
import FeaturePlan.Grammar.Event
import FeaturePlan.Grammar.Rule
import FeaturePlan.Grammar.State
import FeaturePlan.Json
import FeaturePlan.Json.Lexeme
import FeaturePlan.Json.Read
import FeaturePlan.Json.Write
import FeaturePlan.Line
import FeaturePlan.Location
import FeaturePlan.LogLevel
import FeaturePlan.ParseError
import FeaturePlan.Pattern
import FeaturePlan.Pattern.Brackets
import FeaturePlan.Pattern.CharSet
import FeaturePlan.Pattern.Compose
import FeaturePlan.Pattern.Escape
import FeaturePlan.Pattern.Flags
import FeaturePlan.Pattern.Footprint
import FeaturePlan.Pattern.Footprint.Basic
import FeaturePlan.Pattern.Footprint.Chars
import FeaturePlan.Pattern.Footprint.Slots
import FeaturePlan.Pattern.Footprint.Words
import FeaturePlan.Pattern.Matches
import FeaturePlan.Pattern.Parse
import FeaturePlan.Pattern.Search
import FeaturePlan.Plan.Build
import FeaturePlan.Plan.Compiler
import FeaturePlan.Plan.Declaration
import FeaturePlan.Plan.Error
import FeaturePlan.Plan.Expansion
import FeaturePlan.Plan.Export
import FeaturePlan.Plan.Log
import FeaturePlan.Plan.Merge
import FeaturePlan.Plan.Node
import FeaturePlan.Plan.Placeholder
import FeaturePlan.Plan.Properties
import FeaturePlan.Plan.Redefine
import FeaturePlan.Plan.Relocation
import FeaturePlan.Plan.StepMap
import FeaturePlan.Proofs.Config
import FeaturePlan.Proofs.Delimiter
import FeaturePlan.Proofs.Dialect
import FeaturePlan.Proofs.Document.Blocks
import FeaturePlan.Proofs.Document.Comments
import FeaturePlan.Proofs.Document.Constructs
import FeaturePlan.Proofs.Document.Contents
import FeaturePlan.Proofs.Document.Definitions
import FeaturePlan.Proofs.Document.Denotation
import FeaturePlan.Proofs.Document.DocStrings
import FeaturePlan.Proofs.Document.ExamplesTags
import FeaturePlan.Proofs.Document.Findings
import FeaturePlan.Proofs.Document.Growth
import FeaturePlan.Proofs.Document.Indentation
import FeaturePlan.Proofs.Document.Language
import FeaturePlan.Proofs.Document.Legal
import FeaturePlan.Proofs.Document.Lines
import FeaturePlan.Proofs.Document.Origin
import FeaturePlan.Proofs.Document.Reader
import FeaturePlan.Proofs.Document.Renumbering
import FeaturePlan.Proofs.Document.Repair
import FeaturePlan.Proofs.Document.RoundTrip
import FeaturePlan.Proofs.Document.Settling
import FeaturePlan.Proofs.Document.Shape
import FeaturePlan.Proofs.Document.SourceOrder
import FeaturePlan.Proofs.Document.StepKinds
import FeaturePlan.Proofs.Document.Subtrees
import FeaturePlan.Proofs.Document.Tables
import FeaturePlan.Proofs.Document.Violations
import FeaturePlan.Proofs.Grammar.Accounting
import FeaturePlan.Proofs.Grammar.Beginnings
import FeaturePlan.Proofs.Grammar.DocStrings
import FeaturePlan.Proofs.Grammar.Engine
import FeaturePlan.Proofs.Grammar.Indentation
import FeaturePlan.Proofs.Grammar.LookAhead
import FeaturePlan.Proofs.Grammar.Nesting
import FeaturePlan.Proofs.Grammar.Recovery
import FeaturePlan.Proofs.Grammar.Renumbering
import FeaturePlan.Proofs.Grammar.Residual
import FeaturePlan.Proofs.Grammar.Sentences
import FeaturePlan.Proofs.Grammar.Steps
import FeaturePlan.Proofs.Grammar.Stopping
import FeaturePlan.Proofs.Grammar.Strides
import FeaturePlan.Proofs.Json.RoundTrip
import FeaturePlan.Proofs.Pattern.Classes
import FeaturePlan.Proofs.Pattern.Compose
import FeaturePlan.Proofs.Pattern.Engine
import FeaturePlan.Proofs.Pattern.Groups
import FeaturePlan.Proofs.Pattern.Locality
import FeaturePlan.Proofs.Pattern.Matches
import FeaturePlan.Proofs.Pattern.Parts
import FeaturePlan.Proofs.Pattern.Reading
import FeaturePlan.Proofs.Pattern.Search
import FeaturePlan.Proofs.Plan.Candidates
import FeaturePlan.Proofs.Plan.Cascade
import FeaturePlan.Proofs.Plan.Cells
import FeaturePlan.Proofs.Plan.Columns
import FeaturePlan.Proofs.Plan.Compiled
import FeaturePlan.Proofs.Plan.Conservation
import FeaturePlan.Proofs.Plan.Declaration
import FeaturePlan.Proofs.Plan.Expansion
import FeaturePlan.Proofs.Plan.Export
import FeaturePlan.Proofs.Plan.Faults
import FeaturePlan.Proofs.Plan.Filter
import FeaturePlan.Proofs.Plan.Frame
import FeaturePlan.Proofs.Plan.IdPattern
import FeaturePlan.Proofs.Plan.Ids
import FeaturePlan.Proofs.Plan.Indentation
import FeaturePlan.Proofs.Plan.Independence
import FeaturePlan.Proofs.Plan.Leftovers
import FeaturePlan.Proofs.Plan.Outcome
import FeaturePlan.Proofs.Plan.Placeholders
import FeaturePlan.Proofs.Plan.Replacement
import FeaturePlan.Proofs.Plan.Rows
import FeaturePlan.Proofs.Plan.StepMap
import FeaturePlan.Proofs.Plan.Substitution
import FeaturePlan.Proofs.Plan.Totals
import FeaturePlan.Proofs.Plan.Warnings
import FeaturePlan.Proofs.Plan.WellFormed
import FeaturePlan.Proofs.Scanner.Classify
import FeaturePlan.Proofs.Scanner.Indentation
import FeaturePlan.Proofs.Scanner.Keywords
import FeaturePlan.Proofs.Scanner.Reading
import FeaturePlan.Proofs.Scanner.Spelling
import FeaturePlan.Proofs.Scanner.Tags
import FeaturePlan.Proofs.Scanner.Unambiguous
import FeaturePlan.Proofs.Scanner.Written
import FeaturePlan.Proofs.Table.Row
import FeaturePlan.Proofs.TagExpr.Derivation
import FeaturePlan.Proofs.TagExpr.FirstFault
import FeaturePlan.Proofs.TagExpr.Sentences
import FeaturePlan.Proofs.TagExpr.Spelling
import FeaturePlan.Proofs.Text.Blank
import FeaturePlan.Proofs.Text.Count
import FeaturePlan.Proofs.Text.Indentation
import FeaturePlan.Proofs.Text.Lines
import FeaturePlan.Proofs.Text.Words
import FeaturePlan.RegexEngine
import FeaturePlan.Scanner
import FeaturePlan.StepKind
import FeaturePlan.Table.Cell
import FeaturePlan.TagExpr
import FeaturePlan.TagExpr.Grammar
import FeaturePlan.TagExpr.Lexeme
import FeaturePlan.TagExpr.Parse
import FeaturePlan.Text.Blank
import FeaturePlan.Text.CaseFold
import FeaturePlan.Text.Count
import FeaturePlan.Text.Letter
import FeaturePlan.Text.Lines
import FeaturePlan.Text.Printable
import FeaturePlan.Text.Quoted
import FeaturePlan.Text.Ranges
import FeaturePlan.Text.Replace
import FeaturePlan.Text.Utf8
import FeaturePlan.Text.WordChar
import FeaturePlan.Token
