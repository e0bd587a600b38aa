import ComponentLint.Component.Blocks
import ComponentLint.Component.Element
import ComponentLint.Component.Frame
import ComponentLint.Component.Script
import ComponentLint.Component.WriteBack
import ComponentLint.Decimal.Shortest
import ComponentLint.Files.Tree
import ComponentLint.Glob.Pattern
import ComponentLint.Glob.Walk
import ComponentLint.Json.Fault
import ComponentLint.Json.Printer
import ComponentLint.Json.Reader
import ComponentLint.Json.Shape
import ComponentLint.Json.Value
import ComponentLint.Lint.BlankLines
import ComponentLint.Lint.Config
import ComponentLint.Lint.Diagnostic
import ComponentLint.Lint.Fixes
import ComponentLint.Lint.Fixing
import ComponentLint.Lint.Linter
import ComponentLint.Lint.Rule
import ComponentLint.Lint.UnresolvedImports
import ComponentLint.Lint.UnusedImports
import ComponentLint.Main
import ComponentLint.Path.Basic
import ComponentLint.Path.Key
import ComponentLint.Program.Basic
import ComponentLint.Program.Build
import ComponentLint.Program.Diagnosis
import ComponentLint.Program.Record
import ComponentLint.Program.Scan
import ComponentLint.Proofs.Component.Choice
import ComponentLint.Proofs.Component.Composition
import ComponentLint.Proofs.Component.Guards
import ComponentLint.Proofs.Component.Layout
import ComponentLint.Proofs.Component.Locality
import ComponentLint.Proofs.Component.Nesting
import ComponentLint.Proofs.Component.Reassembly
import ComponentLint.Proofs.Component.Scan
import ComponentLint.Proofs.Component.Slots
import ComponentLint.Proofs.Distinct
import ComponentLint.Proofs.Fallible
import ComponentLint.Proofs.Files.Places
import ComponentLint.Proofs.Files.Rewriting
import ComponentLint.Proofs.Glob.Reach
import ComponentLint.Proofs.Glob.Spelling
import ComponentLint.Proofs.Glob.Walk
import ComponentLint.Proofs.Json.RoundTrip
import ComponentLint.Proofs.Json.Taking
import ComponentLint.Proofs.Json.Tokens
import ComponentLint.Proofs.Lint.BlankRuns
import ComponentLint.Proofs.Lint.ImportRanges
import ComponentLint.Proofs.Lint.ImportRepair
import ComponentLint.Proofs.Lint.Indifference
import ComponentLint.Proofs.Lint.Insertions
import ComponentLint.Proofs.Lint.Mentions
import ComponentLint.Proofs.Lint.Reporting
import ComponentLint.Proofs.Lint.Rounds
import ComponentLint.Proofs.Lint.Sequence
import ComponentLint.Proofs.Lint.Splicing
import ComponentLint.Proofs.Lint.Substitution
import ComponentLint.Proofs.Path.Above
import ComponentLint.Proofs.Path.Absolute
import ComponentLint.Proofs.Path.Canonical
import ComponentLint.Proofs.Path.Climbing
import ComponentLint.Proofs.Path.Endings
import ComponentLint.Proofs.Path.Joining
import ComponentLint.Proofs.Path.Normal
import ComponentLint.Proofs.Path.Order
import ComponentLint.Proofs.Program.Exporting
import ComponentLint.Proofs.Program.Findings
import ComponentLint.Proofs.Program.Membership
import ComponentLint.Proofs.Program.Rebuild
import ComponentLint.Proofs.Report.Entries
import ComponentLint.Proofs.Report.Lines
import ComponentLint.Proofs.Report.Output
import ComponentLint.Proofs.Report.Tally
import ComponentLint.Proofs.Resolution.Aliases
import ComponentLint.Proofs.Resolution.Containment
import ComponentLint.Proofs.Resolution.FirstMatch
import ComponentLint.Proofs.Resolution.Spelling
import ComponentLint.Proofs.Run.Account
import ComponentLint.Proofs.Run.Discovered
import ComponentLint.Proofs.Run.Incremental
import ComponentLint.Proofs.Run.Independence
import ComponentLint.Proofs.Run.Integrity
import ComponentLint.Proofs.Run.Sources
import ComponentLint.Proofs.Source.Served
import ComponentLint.Proofs.Text.Lines
import ComponentLint.Proofs.Text.Position
import ComponentLint.Proofs.Text.Slice
import ComponentLint.Proofs.Text.Split
import ComponentLint.Proofs.Text.Trim
import ComponentLint.Proofs.Text.Within
import ComponentLint.Proofs.Text.Words
import ComponentLint.Proofs.TsConfig.Cycles
import ComponentLint.Proofs.TsConfig.Directories
import ComponentLint.Proofs.TsConfig.Excluding
import ComponentLint.Proofs.TsConfig.FileSet
import ComponentLint.Proofs.TsConfig.Precedence
import ComponentLint.Proofs.TypeScript.Patterns
import ComponentLint.Report.Basic
import ComponentLint.Report.Format
import ComponentLint.Report.Json
import ComponentLint.Report.Prose
import ComponentLint.Report.Snippet
import ComponentLint.Report.Text
import ComponentLint.Resolution.Alias
import ComponentLint.Resolution.Search
import ComponentLint.Run.CommandLine
import ComponentLint.Run.Discovery
import ComponentLint.Run.Lint
import ComponentLint.Run.Workspace
import ComponentLint.Sorting
import ComponentLint.Source.Host
import ComponentLint.Source.Kind
import ComponentLint.Source.Unit
import ComponentLint.Text.Basic
import ComponentLint.Text.Blank
import ComponentLint.Text.Position
import ComponentLint.Text.Quoted
import ComponentLint.Text.Width
import ComponentLint.Text.Words
import ComponentLint.TsConfig.Basic
import ComponentLint.TsConfig.Extends
import ComponentLint.TsConfig.FileSet
import ComponentLint.TypeScript.Classes
import ComponentLint.TypeScript.Cursor
import ComponentLint.TypeScript.Declaration
import ComponentLint.TypeScript.Declarations
import ComponentLint.TypeScript.Elements
import ComponentLint.TypeScript.Expressions
import ComponentLint.TypeScript.Fault
import ComponentLint.TypeScript.Functions
import ComponentLint.TypeScript.Generics
import ComponentLint.TypeScript.Grammar
import ComponentLint.TypeScript.Items
import ComponentLint.TypeScript.Module
import ComponentLint.TypeScript.Outline
import ComponentLint.TypeScript.Scanner
import ComponentLint.TypeScript.Signature
import ComponentLint.TypeScript.Statements
import ComponentLint.TypeScript.Token
import ComponentLint.TypeScript.Types
