import TreeScript.Text.Span
import TreeScript.Text.Category
import TreeScript.Text.Script
import TreeScript.Text.Case
import TreeScript.Text.Basic
import TreeScript.Text.Quote
import TreeScript.Decimal.Basic
import TreeScript.Decimal.Text
import TreeScript.Decimal.Binary
import TreeScript.Decimal.Power
import TreeScript.Json.Basic
import TreeScript.Json.Reader
import TreeScript.Json.Writer
import TreeScript.Syntax.Node
import TreeScript.Syntax.Code
import TreeScript.Syntax.Decode
import TreeScript.Syntax.Encode
import TreeScript.Pattern.Expr
import TreeScript.Pattern.Parser
import TreeScript.Pattern.Program
import TreeScript.Pattern.Search
import TreeScript.Store.Content
import TreeScript.Store.Table
import TreeScript.Store.Error
import TreeScript.Store.Machine
import TreeScript.Store.Frame
import TreeScript.Store.Display
import TreeScript.Store.Trace
import TreeScript.Store.Export
import TreeScript.Store.Compare
import TreeScript.Method.Name
import TreeScript.Store.Access
import TreeScript.Operator.Basic
import TreeScript.Operator.Apply
import TreeScript.Method.Object
import TreeScript.Method.Text
import TreeScript.Eval.Basic
import TreeScript.Eval.Debugger
import TreeScript.Eval.Suggestion
import TreeScript.Eval.Resolve
import TreeScript.Eval.Statement
import TreeScript.Host.Instance
import TreeScript.Eval.Expression
import TreeScript.Eval.Native
import TreeScript.Eval.Interp
import TreeScript.Session.Source
import TreeScript.Session.Basic
import TreeScript.Yaml.Basic
import TreeScript.Yaml.Scanner
import TreeScript.Yaml.Tree
import TreeScript.Yaml.Scalar
import TreeScript.Project.Glob
import TreeScript.Project.Files
import TreeScript.Project.Manifest
import TreeScript.Project.Decode
import TreeScript.Project.Loader
import TreeScript.Command.Arguments
import TreeScript.Command.Execute
import TreeScript.Main
import TreeScript.Proofs.ControlFlow
import TreeScript.Proofs.Call
import TreeScript.Proofs.Alike
import TreeScript.Proofs.Comparison.Basic
import TreeScript.Proofs.Comparison.Store
import TreeScript.Proofs.Comparison.Laws
import TreeScript.Proofs.Comparison.Methods
import TreeScript.Proofs.Comparison.Natives
import TreeScript.Proofs.Chain
import TreeScript.Proofs.Comparison.Resolve
import TreeScript.Proofs.Comparison.Statements
import TreeScript.Proofs.Comparison.Evaluation
import TreeScript.Proofs.Comparison.Twins
import TreeScript.Proofs.Comparison.Observers
import TreeScript.Proofs.LexicalScope
import TreeScript.Proofs.CallEffects
import TreeScript.Proofs.Walk
import TreeScript.Proofs.ModuleIsolation
import TreeScript.Proofs.Evolution
import TreeScript.Proofs.Invariant
import TreeScript.Proofs.Sources
import TreeScript.Proofs.Observation
import TreeScript.Proofs.Objects.Table
import TreeScript.Proofs.Iteration.LookAhead
import TreeScript.Proofs.Enclosure.Basic
import TreeScript.Proofs.Enclosure.Store
import TreeScript.Proofs.Enclosure.Values
import TreeScript.Proofs.Enclosure.Methods
import TreeScript.Proofs.Enclosure.Resolve
import TreeScript.Proofs.Enclosure.Evaluation
import TreeScript.Proofs.Enclosure.Sessions
import TreeScript.Proofs.Enclosure.Declaring
import TreeScript.Proofs.Enclosure.CoreModules
import TreeScript.Proofs.ClosedModules
import TreeScript.Proofs.DanglingImports
import TreeScript.Proofs.InjectedSymbols
import TreeScript.Proofs.Objects.History
import TreeScript.Proofs.Objects.Variables
import TreeScript.Proofs.Objects.ReadBack
import TreeScript.Proofs.Objects.KeyCells
import TreeScript.Proofs.Objects.SharedCells
import TreeScript.Proofs.Trees.JsonText
import TreeScript.Proofs.Trees.Written
import TreeScript.Proofs.Trees.RoundTrip
import TreeScript.Proofs.Sessions.Evaluating
import TreeScript.Proofs.Sessions.Amending
import TreeScript.Proofs.Sessions.Requests
import TreeScript.Proofs.Sessions.Evaluated
import TreeScript.Proofs.Sessions.Linking
import TreeScript.Proofs.Sessions.Loading
import TreeScript.Proofs.Sessions.RunOrder
import TreeScript.Proofs.Sessions.LoadOrder
import TreeScript.Proofs.Sessions.UniqueNames
import TreeScript.Proofs.Tandem.Basic
import TreeScript.Proofs.Tandem.Methods
import TreeScript.Proofs.Tandem.Natives
import TreeScript.Proofs.Tandem.Evaluation
import TreeScript.Proofs.FirstFailure
import TreeScript.Proofs.Sessions.Keeping
import TreeScript.Proofs.BalancedTraces
import TreeScript.Proofs.FunctionLabels
import TreeScript.Proofs.BlockScopes
import TreeScript.Proofs.Objects.Entries
import TreeScript.Proofs.Equality.Comparing
import TreeScript.Proofs.Equality.Bisimilarity
import TreeScript.Proofs.Numbers.Rational
import TreeScript.Proofs.Numbers.Numerals
import TreeScript.Proofs.Numbers.PlainText
import TreeScript.Proofs.Objects.Copies
import TreeScript.Proofs.Objects.MapHistory
import TreeScript.Proofs.Objects.InsertionOrder
import TreeScript.Proofs.Broadcasting.Growth
import TreeScript.Proofs.Broadcasting.Leaves
import TreeScript.Proofs.Broadcasting.Elementwise
import TreeScript.Proofs.Broadcasting.Commuting
import TreeScript.Proofs.Broadcasting.Sparing
import TreeScript.Proofs.Numbers.Formatting
import TreeScript.Proofs.Numbers.Division
import TreeScript.Proofs.Numbers.Powers
import TreeScript.Proofs.Export.NumberText
import TreeScript.Proofs.Export.Forms
import TreeScript.Proofs.Export.Exporting
import TreeScript.Proofs.Export.Rebuilding
import TreeScript.Proofs.Export.ReadingBack
import TreeScript.Proofs.Settings.Starting
import TreeScript.Proofs.Settings.InForce
import TreeScript.Proofs.Settings.Quotients
import TreeScript.Proofs.ConfiguredOptions
import TreeScript.Proofs.Rendering.Display
import TreeScript.Proofs.Rendering.Export
import TreeScript.Proofs.Objects.ArrayKeys
import TreeScript.Proofs.Iteration.Sorting
import TreeScript.Proofs.Iteration.Walks
import TreeScript.Proofs.Iteration.Arrays
import TreeScript.Proofs.Enclosure.Additions
import TreeScript.Proofs.Iteration.Loops
import TreeScript.Proofs.Iteration.Methods
import TreeScript.Proofs.Rendering.ArrayOrder
import TreeScript.Proofs.ShortCircuit
import TreeScript.Proofs.Objects.Construction
import TreeScript.Proofs.Objects.Concatenation
import TreeScript.Proofs.Objects.Stepping
import TreeScript.Proofs.Objects.PartialSteps
import TreeScript.Proofs.Objects.Storage
import TreeScript.Proofs.Activations
import TreeScript.Proofs.CapturedCells
import TreeScript.Proofs.Numbers.Remainders
import TreeScript.Proofs.Ordering.Measures
import TreeScript.Proofs.Ordering.Arrangements
import TreeScript.Proofs.Ordering.StableSorting
import TreeScript.Proofs.Ordering.SortMethods
import TreeScript.Proofs.Ordering.NaturalSort
import TreeScript.Proofs.Ordering.SortByFunction
import TreeScript.Proofs.Numbers.Ranges
import TreeScript.Proofs.Iteration.Folds
import TreeScript.Proofs.Objects.Frequencies
import TreeScript.Proofs.Rendering.MemberNames
import TreeScript.Proofs.Objects.Increments
import TreeScript.Proofs.Numbers.CharacterRanges
import TreeScript.Proofs.Numbers.Repetition
import TreeScript.Proofs.Iteration.Texts
import TreeScript.Proofs.Iteration.Consumers
import TreeScript.Proofs.Patterns.WholeTexts
import TreeScript.Proofs.OperatorTable
import TreeScript.Proofs.CallSpelling
import TreeScript.Proofs.Objects.Stacks
import TreeScript.Proofs.Objects.KeySelection
import TreeScript.Proofs.Manifests.UnknownKeys
import TreeScript.Proofs.Manifests.Loading
import TreeScript.Proofs.Suggestions
