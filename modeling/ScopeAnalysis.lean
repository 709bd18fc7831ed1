import ScopeAnalysis.Analysis
import ScopeAnalysis.Command
import ScopeAnalysis.CommandLine
import ScopeAnalysis.CommandLine.Help
import ScopeAnalysis.Config
import ScopeAnalysis.Definition
import ScopeAnalysis.Discovery
import ScopeAnalysis.Event
import ScopeAnalysis.Event.Replay
import ScopeAnalysis.Event.Walk
import ScopeAnalysis.FileTree
import ScopeAnalysis.Json
import ScopeAnalysis.Json.Reader
import ScopeAnalysis.Main
import ScopeAnalysis.Node
import ScopeAnalysis.Options
import ScopeAnalysis.ParsedFile
import ScopeAnalysis.Path
import ScopeAnalysis.Pattern
import ScopeAnalysis.Program
import ScopeAnalysis.Program.Decode
import ScopeAnalysis.Prologue
import ScopeAnalysis.Report
import ScopeAnalysis.Report.Outcome
import ScopeAnalysis.Scope
import ScopeAnalysis.ScopeTree
import ScopeAnalysis.ScopeTree.Closing
import ScopeAnalysis.ScopeTree.Operation
import ScopeAnalysis.ScopeTree.Query
import ScopeAnalysis.Source
import ScopeAnalysis.SourceFile
import ScopeAnalysis.SourceFile.Decode
import ScopeAnalysis.Span
import ScopeAnalysis.Syntax
import ScopeAnalysis.Text.Record
import ScopeAnalysis.Text.Unprintable
import ScopeAnalysis.Toml
import ScopeAnalysis.Toml.Reader
import ScopeAnalysis.Toml.Scalar
import ScopeAnalysis.Proofs.Chain
import ScopeAnalysis.Proofs.Step
import ScopeAnalysis.Proofs.Effect
import ScopeAnalysis.Proofs.Stacked
import ScopeAnalysis.Proofs.Closing
import ScopeAnalysis.Proofs.Owned
import ScopeAnalysis.Proofs.Journey
import ScopeAnalysis.Proofs.Nesting
import ScopeAnalysis.Proofs.Walked
import ScopeAnalysis.Proofs.Declares
import ScopeAnalysis.Proofs.Emitted
import ScopeAnalysis.Proofs.Openers
import ScopeAnalysis.Proofs.Tours
import ScopeAnalysis.Proofs.Pieces
import ScopeAnalysis.Proofs.Readings
import ScopeAnalysis.Proofs.Items
import ScopeAnalysis.Proofs.ModuleSyntax
import ScopeAnalysis.Proofs.Through
import ScopeAnalysis.Proofs.StackDiscipline
import ScopeAnalysis.Proofs.Orderly
import ScopeAnalysis.Proofs.Progress
import ScopeAnalysis.Proofs.Lookup
import ScopeAnalysis.Proofs.Define
import ScopeAnalysis.Proofs.Closure
import ScopeAnalysis.Proofs.Conservation
import ScopeAnalysis.Proofs.Explicit
import ScopeAnalysis.Proofs.Lockstep
import ScopeAnalysis.Proofs.Strictness
import ScopeAnalysis.Proofs.Dynamic
import ScopeAnalysis.Proofs.Optimism
import ScopeAnalysis.Proofs.WalkOrder
import ScopeAnalysis.Proofs.Folding
import ScopeAnalysis.Proofs.VarWalk
import ScopeAnalysis.Proofs.Transparency
import ScopeAnalysis.Proofs.Frame
import ScopeAnalysis.Proofs.Preorder
import ScopeAnalysis.Proofs.ImplicitOrder
import ScopeAnalysis.Proofs.Recorded
import ScopeAnalysis.Proofs.Escape
import ScopeAnalysis.Proofs.SloppyWrite
import ScopeAnalysis.Proofs.ImplicitGlobals
import ScopeAnalysis.Proofs.IgnoredEval
import ScopeAnalysis.Proofs.Sites
import ScopeAnalysis.Proofs.Reads
import ScopeAnalysis.Proofs.Operations
import ScopeAnalysis.Proofs.Tables
import ScopeAnalysis.Proofs.Additions
import ScopeAnalysis.Proofs.VariableTables
import ScopeAnalysis.Proofs.Headings
import ScopeAnalysis.Proofs.NodeIndex
import ScopeAnalysis.Proofs.Matching
import ScopeAnalysis.Proofs.Hoisting
import ScopeAnalysis.Proofs.EvalMarks
import ScopeAnalysis.Proofs.Accounts
import ScopeAnalysis.Proofs.ReferenceOrder
import ScopeAnalysis.Proofs.StrictScopes
import ScopeAnalysis.Proofs.Flags
import ScopeAnalysis.Proofs.Spans
import ScopeAnalysis.Proofs.Positions
import ScopeAnalysis.Proofs.JsonText
import ScopeAnalysis.Proofs.FileGrowth
import ScopeAnalysis.Proofs.Documents
import ScopeAnalysis.Proofs.Wrapping
import ScopeAnalysis.Proofs.WrappedWalk
import ScopeAnalysis.Proofs.Wrapper
import ScopeAnalysis.Proofs.PatternWalk
import ScopeAnalysis.Proofs.Outset
import ScopeAnalysis.Proofs.Visits
import ScopeAnalysis.Proofs.WriteTargets
import ScopeAnalysis.Proofs.PartialMarks
import ScopeAnalysis.Proofs.Bare
import ScopeAnalysis.Proofs.Parentheses
import ScopeAnalysis.Proofs.Holdings
import ScopeAnalysis.Proofs.Confined
import ScopeAnalysis.Proofs.Origins
import ScopeAnalysis.Proofs.LexicalLoops
import ScopeAnalysis.Proofs.Innermost
import ScopeAnalysis.Proofs.Indentation
import ScopeAnalysis.Proofs.NameScopes
import ScopeAnalysis.Proofs.ExportTable
import ScopeAnalysis.Proofs.Coordinates
import ScopeAnalysis.Proofs.Places
import ScopeAnalysis.Proofs.ConfigSearch
import ScopeAnalysis.Proofs.Discovered
