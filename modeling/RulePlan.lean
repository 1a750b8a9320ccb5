import RulePlan.Artifact
import RulePlan.Command.Help
import RulePlan.Command.Line
import RulePlan.Command.Option
import RulePlan.Command.Outcome
import RulePlan.Command.Run
import RulePlan.Config
import RulePlan.Diagnostic
import RulePlan.Digest.Sha256
import RulePlan.Document
import RulePlan.Document.Export
import RulePlan.Document.Import
import RulePlan.Duration
import RulePlan.Equation
import RulePlan.EvalOrder
import RulePlan.Event
import RulePlan.Event.Collector
import RulePlan.Event.Format
import RulePlan.Expression
import RulePlan.Expression.Numeral
import RulePlan.Expression.Reader
import RulePlan.Expression.Tree
import RulePlan.FileTree
import RulePlan.Graph
import RulePlan.Graph.Components
import RulePlan.Graph.Reach
import RulePlan.Host
import RulePlan.Main
import RulePlan.Names
import RulePlan.Path
import RulePlan.Plan
import RulePlan.Plan.Cache
import RulePlan.Plan.Compile
import RulePlan.Program
import RulePlan.Program.Check
import RulePlan.Program.Ingest
import RulePlan.Proofs.Acceptance
import RulePlan.Proofs.AliasClashes
import RulePlan.Proofs.AliasIdentifiers
import RulePlan.Proofs.AliasOrigins
import RulePlan.Proofs.AnonymousVariables
import RulePlan.Proofs.AssignedVariable
import RulePlan.Proofs.CacheHistory
import RulePlan.Proofs.CacheTransparency
import RulePlan.Proofs.CanonicalViews
import RulePlan.Proofs.ClosedEquations
import RulePlan.Proofs.Columns
import RulePlan.Proofs.CompilationTrace
import RulePlan.Proofs.CompiledPlan
import RulePlan.Proofs.CompiledRule
import RulePlan.Proofs.ComponentWalk
import RulePlan.Proofs.Components
import RulePlan.Proofs.ConsultedViews
import RulePlan.Proofs.Convergence
import RulePlan.Proofs.Derivation
import RulePlan.Proofs.DiagnosticModes
import RulePlan.Proofs.DocumentText
import RulePlan.Proofs.ElementParsing
import RulePlan.Proofs.EquationDocuments
import RulePlan.Proofs.EquationMeaning
import RulePlan.Proofs.EvaluationOrder
import RulePlan.Proofs.EvaluationRanks
import RulePlan.Proofs.ExportedPlan
import RulePlan.Proofs.ExpressionLexemes
import RulePlan.Proofs.ExpressionReading
import RulePlan.Proofs.FailureClasses
import RulePlan.Proofs.FlaggedVariables
import RulePlan.Proofs.Increment
import RulePlan.Proofs.KeptArtifacts
import RulePlan.Proofs.KeptPredicates
import RulePlan.Proofs.LegibleRule
import RulePlan.Proofs.Levels
import RulePlan.Proofs.MarkedText
import RulePlan.Proofs.MintedViews
import RulePlan.Proofs.NegativeCycles
import RulePlan.Proofs.Nesting
import RulePlan.Proofs.OrderInvariance
import RulePlan.Proofs.PlannedRules
import RulePlan.Proofs.PredicateNames
import RulePlan.Proofs.ProgramTables
import RulePlan.Proofs.Reachability
import RulePlan.Proofs.RecordReading
import RulePlan.Proofs.Relocations
import RulePlan.Proofs.RenderedRule
import RulePlan.Proofs.RenderedTerms
import RulePlan.Proofs.Reordering
import RulePlan.Proofs.RequestKey
import RulePlan.Proofs.RuleGrammar
import RulePlan.Proofs.RuleOrder
import RulePlan.Proofs.RuleParsing
import RulePlan.Proofs.SavedConfig
import RulePlan.Proofs.ScalarReading
import RulePlan.Proofs.ScannedTokens
import RulePlan.Proofs.ScannerRun
import RulePlan.Proofs.SourceBounds
import RulePlan.Proofs.SourceDiscipline
import RulePlan.Proofs.SpelledExpressions
import RulePlan.Proofs.StableSort
import RulePlan.Proofs.StoreHistory
import RulePlan.Proofs.Strata
import RulePlan.Proofs.TimeScalars
import RulePlan.Proofs.TimeText
import RulePlan.Proofs.TokenLayout
import RulePlan.Proofs.TokenSpelling
import RulePlan.Proofs.ViewNames
import RulePlan.Proofs.ViewShapes
import RulePlan.Proofs.WrittenForm
import RulePlan.Proofs.WrittenText
import RulePlan.Report
import RulePlan.Rule
import RulePlan.Rule.Fault
import RulePlan.Rule.Parser
import RulePlan.Solution
import RulePlan.SourceLine
import RulePlan.Store
import RulePlan.Store.File
import RulePlan.Stratum
import RulePlan.StratumPlan
import RulePlan.SymbolTable
import RulePlan.Table
import RulePlan.Term
import RulePlan.Text.Base64
import RulePlan.Text.Blank
import RulePlan.Text.Bytes
import RulePlan.Text.Cluster
import RulePlan.Text.Comma
import RulePlan.Text.Decimal
import RulePlan.Text.Escape
import RulePlan.Text.Fixed
import RulePlan.Text.HexDump
import RulePlan.Text.Integer
import RulePlan.Text.LowerCase
import RulePlan.Text.Printable
import RulePlan.Text.Quoted
import RulePlan.Text.Ranges
import RulePlan.Text.Scientific
import RulePlan.Text.Width
import RulePlan.Timestamp
import RulePlan.Token
import RulePlan.Token.Lexer
import RulePlan.View
import RulePlan.Yaml.CharClass
import RulePlan.Yaml.Cursor
import RulePlan.Yaml.Decode
import RulePlan.Yaml.Fault
import RulePlan.Yaml.Form
import RulePlan.Yaml.Node
import RulePlan.Yaml.Node.Compose
import RulePlan.Yaml.Scalar
import RulePlan.Yaml.Style
import RulePlan.Yaml.Token
import RulePlan.Yaml.Token.Block
import RulePlan.Yaml.Token.Comment
import RulePlan.Yaml.Token.Gap
import RulePlan.Yaml.Token.Plain
import RulePlan.Yaml.Token.Property
import RulePlan.Yaml.Token.Quoted
import RulePlan.Yaml.Token.Scanner
import RulePlan.Yaml.Writer
