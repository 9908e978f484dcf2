import EffectAudit.CommandLine.Execution
import EffectAudit.CommandLine.Invocation
import EffectAudit.Config.Basic
import EffectAudit.Config.Policy
import EffectAudit.Data.Digraph
import EffectAudit.Data.NumberSet
import EffectAudit.Data.OrderedMap
import EffectAudit.Data.Revision
import EffectAudit.Data.Sorting
import EffectAudit.Diagnostic.Basic
import EffectAudit.Diagnostic.Finding
import EffectAudit.Diagnostic.Label
import EffectAudit.Effects.Chain
import EffectAudit.Effects.Summary
import EffectAudit.Effects.Verdict
import EffectAudit.Function.Binding
import EffectAudit.Function.Linked
import EffectAudit.Function.Scope
import EffectAudit.Function.Signature
import EffectAudit.Function.SymbolMaps
import EffectAudit.Function.SymbolTable
import EffectAudit.Json.Decoder
import EffectAudit.Json.Printer
import EffectAudit.Json.Reader
import EffectAudit.Json.Value
import EffectAudit.Main
import EffectAudit.Modules.Cycle
import EffectAudit.Modules.Graph
import EffectAudit.Modules.Program
import EffectAudit.Modules.Resolution
import EffectAudit.Modules.Schedule
import EffectAudit.Number.Binary64
import EffectAudit.Number.Decimal
import EffectAudit.Path.Basic
import EffectAudit.Path.Glob
import EffectAudit.Proofs.CallGraph
import EffectAudit.Proofs.Config
import EffectAudit.Proofs.Diagnostic
import EffectAudit.Proofs.Digraph.Components
import EffectAudit.Proofs.Digraph.Embedding
import EffectAudit.Proofs.Digraph.Paths
import EffectAudit.Proofs.Digraph.Reach
import EffectAudit.Proofs.Digraph.Upstream
import EffectAudit.Proofs.Digraph.Vertices
import EffectAudit.Proofs.Effects.Chain
import EffectAudit.Proofs.Effects.Completeness
import EffectAudit.Proofs.Effects.FaultNodes
import EffectAudit.Proofs.Effects.Faults
import EffectAudit.Proofs.Effects.FixedPoint
import EffectAudit.Proofs.Effects.InTable
import EffectAudit.Proofs.Effects.Inference
import EffectAudit.Proofs.Effects.Origin
import EffectAudit.Proofs.Effects.Requirement
import EffectAudit.Proofs.Effects.Verdict
import EffectAudit.Proofs.Function.Accounting
import EffectAudit.Proofs.Function.Affected
import EffectAudit.Proofs.Function.Binding
import EffectAudit.Proofs.Function.CallPlaces
import EffectAudit.Proofs.Function.Candidates
import EffectAudit.Proofs.Function.FileSymbols
import EffectAudit.Proofs.Function.Groups
import EffectAudit.Proofs.Function.ImportOrder
import EffectAudit.Proofs.Function.Numbering
import EffectAudit.Proofs.Function.Scope
import EffectAudit.Proofs.Json.Decoder
import EffectAudit.Proofs.Json.Omission
import EffectAudit.Proofs.Labels
import EffectAudit.Proofs.Lists
import EffectAudit.Proofs.Locality
import EffectAudit.Proofs.Messages
import EffectAudit.Proofs.Modules.Attribution
import EffectAudit.Proofs.Modules.Conflicts
import EffectAudit.Proofs.Modules.Cycle
import EffectAudit.Proofs.Modules.CycleLocality
import EffectAudit.Proofs.Modules.Exposure
import EffectAudit.Proofs.Modules.FailedImport
import EffectAudit.Proofs.Modules.Files
import EffectAudit.Proofs.Modules.Graph
import EffectAudit.Proofs.Modules.ImportPaths
import EffectAudit.Proofs.Modules.Interface
import EffectAudit.Proofs.Modules.Order
import EffectAudit.Proofs.Modules.Ownership
import EffectAudit.Proofs.Modules.Resolution
import EffectAudit.Proofs.Modules.Schedule
import EffectAudit.Proofs.Modules.Separation
import EffectAudit.Proofs.Nodes
import EffectAudit.Proofs.OrderedMap
import EffectAudit.Proofs.Path
import EffectAudit.Proofs.Results.Discharge
import EffectAudit.Proofs.Results.Judgement
import EffectAudit.Proofs.Results.Matching
import EffectAudit.Proofs.Session.Accounting
import EffectAudit.Proofs.Session.Agreement
import EffectAudit.Proofs.Session.Bound
import EffectAudit.Proofs.Session.Chains
import EffectAudit.Proofs.Session.Change
import EffectAudit.Proofs.Session.Clean
import EffectAudit.Proofs.Session.Current
import EffectAudit.Proofs.Session.Distinct
import EffectAudit.Proofs.Session.Edit
import EffectAudit.Proofs.Session.ExportLists
import EffectAudit.Proofs.Session.FailedImport
import EffectAudit.Proofs.Session.FileImports
import EffectAudit.Proofs.Session.Filtering
import EffectAudit.Proofs.Session.ImportOrder
import EffectAudit.Proofs.Session.Incremental
import EffectAudit.Proofs.Session.Isolation
import EffectAudit.Proofs.Session.Listing
import EffectAudit.Proofs.Session.Placement
import EffectAudit.Proofs.Session.Propagation
import EffectAudit.Proofs.Session.Rebinding
import EffectAudit.Proofs.Session.Reordering
import EffectAudit.Proofs.Session.Visibility
import EffectAudit.Proofs.Sorting
import EffectAudit.Proofs.SymbolTable
import EffectAudit.Proofs.Syntax.Occurrence
import EffectAudit.Proofs.Syntax.Omission
import EffectAudit.Proofs.Syntax.Positions
import EffectAudit.Proofs.Syntax.RoundTrip
import EffectAudit.Proofs.Syntax.Walk
import EffectAudit.Results.Discharge
import EffectAudit.Session.Analysis
import EffectAudit.Session.Report
import EffectAudit.Session.State
import EffectAudit.Syntax.Draft
import EffectAudit.Syntax.JsonForm
import EffectAudit.Syntax.Layout
import EffectAudit.Syntax.Line
import EffectAudit.Syntax.Occurrence
import EffectAudit.Syntax.Span
import EffectAudit.Syntax.Tree
import EffectAudit.Syntax.Ty
import EffectAudit.Vocabulary.Effect
import EffectAudit.Vocabulary.EffectSet
import EffectAudit.Vocabulary.Operation
import EffectAudit.Vocabulary.Registry
import EffectAudit.Vocabulary.Rule
