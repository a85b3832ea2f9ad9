import QueryGraph.Number.BinaryFormat
import QueryGraph.Number.Arithmetic
import QueryGraph.Number.Decimal
import QueryGraph.Catalog.Schema
import QueryGraph.Expr.Promotion
import QueryGraph.Expr.Eval
import QueryGraph.Graph.TopologicalOrder
import QueryGraph.Node.Payload
import QueryGraph.Node.Content
import QueryGraph.Node.Construction
import QueryGraph.Node.Fragment
import QueryGraph.Plan.Lowering
import QueryGraph.Plan.Text
import QueryGraph.Plan.Comparison
import QueryGraph.Wire.Basic
import QueryGraph.Json.Printer
import QueryGraph.Json.Parser
import QueryGraph.Json.Number
import QueryGraph.Wire.Json
import QueryGraph.Wire.Octets
import QueryGraph.Journal
import QueryGraph.Proofs.Graph.ChildrenFirst
import QueryGraph.Proofs.Plan.FailedBuild
import QueryGraph.Proofs.Plan.Lossless
import QueryGraph.Proofs.Plan.Determined
import QueryGraph.Proofs.Wire.RoundTrip
import QueryGraph.Proofs.Plan.Schedule
import QueryGraph.Proofs.Wire.Acceptance
import QueryGraph.Proofs.Plan.TopLevelOrder
import QueryGraph.Proofs.Node.SameTree
import QueryGraph.Proofs.Plan.ScanPairs
import QueryGraph.Proofs.Plan.TreeComparison
import QueryGraph.Proofs.Expr.Typing
import QueryGraph.Proofs.Plan.Continuation
import QueryGraph.Proofs.Plan.Session
import QueryGraph.Proofs.Octets.Values
import QueryGraph.Proofs.Octets.Plans
import QueryGraph.Proofs.Json.Text
import QueryGraph.Proofs.Json.Parsing
import QueryGraph.Proofs.Json.Values
import QueryGraph.Proofs.Json.Plans
import QueryGraph.Proofs.Json.Constants
import QueryGraph.Proofs.Wire.Encodings
import QueryGraph.Proofs.Octets.Truncation
import QueryGraph.Proofs.Wire.NormalForm
import QueryGraph.Proofs.Wire.Summary
import QueryGraph.Proofs.Graph.History
import QueryGraph.Proofs.Plan.TopLevelQueries
import QueryGraph.Proofs.Expr.MissingValues
import QueryGraph.Proofs.Expr.IntegerArithmetic
import QueryGraph.Proofs.Expr.ExactIntegers
import QueryGraph.Proofs.Plan.Unfolding
import QueryGraph.Proofs.Plan.ComparisonWalk
import QueryGraph.Proofs.Node.Captures
import QueryGraph.Proofs.Expr.UniqueReading
import QueryGraph.Proofs.Expr.JoinedRows
import QueryGraph.Proofs.Plan.Outline
import QueryGraph.Proofs.Expr.Comparisons
import QueryGraph.Proofs.Node.ChildViews
import QueryGraph.Proofs.Plan.ScanBijection
