import Lineage.Main
import Lineage.Graph.Lemmas
import Lineage.Proofs.Graph.Arena
import Lineage.Proofs.Graph.Batches
import Lineage.Proofs.Graph.Contract
import Lineage.Proofs.Graph.Cycle
import Lineage.Proofs.Graph.Digraph
import Lineage.Proofs.Graph.Expansion
import Lineage.Proofs.Graph.Indexed
import Lineage.Proofs.Graph.Plan
import Lineage.Proofs.Graph.Recontract
import Lineage.Proofs.Graph.Selection
import Lineage.Proofs.Json.Codec
import Lineage.Proofs.Json.ReadBack
import Lineage.Proofs.Json.Reader
import Lineage.Proofs.Json.Scalar
import Lineage.Proofs.Json.Value
import Lineage.Proofs.Manifest.Link
import Lineage.Proofs.Manifest.Relink
import Lineage.Proofs.Manifest.Resync
import Lineage.Proofs.Manifest.RoundTrip
import Lineage.Proofs.Manifest.TestEdges
import Lineage.Proofs.Manifest.Validate
import Lineage.Proofs.Manifest.Edits
import Lineage.Proofs.Resolve.Macro
import Lineage.Proofs.Json.Focus
import Lineage.Proofs.Json.Rewrite
import Lineage.Proofs.Manifest.Focus
import Lineage.Proofs.Manifest.Preserve
import Lineage.Proofs.Graph.LeastWalk
import Lineage.Proofs.Manifest.Severity
import Lineage.Proofs.Manifest.Findings
import Lineage.Proofs.Graph.IndexedSearch
import Lineage.Proofs.Graph.Loop
import Lineage.Proofs.Graph.IndexedContract
import Lineage.Proofs.Manifest.Incremental
import Lineage.Proofs.Manifest.Dangling
import Lineage.Proofs.Resolve.Highest
import Lineage.Proofs.Resolve.Tier
import Lineage.Proofs.Manifest.Duplicates
import Lineage.Proofs.Decimal.Digits
import Lineage.Proofs.Decimal.Exact
import Lineage.Proofs.Decimal.Shortest
import Lineage.Proofs.Decimal.Spelling
import Lineage.Proofs.Json.Leading
import Lineage.Proofs.Json.Exact
import Lineage.Proofs.Version.Normal
import Lineage.Proofs.Resolve.Materialization
import Lineage.Proofs.Adapter.Inheritance
import Lineage.Proofs.Selector.Reading
import Lineage.Proofs.Selector.Writing
import Lineage.Proofs.Manifest.Reload
import Lineage.Proofs.Manifest.Groups
import Lineage.Proofs.Manifest.MissingMacros
import Lineage.Proofs.Manifest.Removal
import Lineage.Proofs.Graph.HasPath
import Lineage.Proofs.Graph.Induce
import Lineage.Proofs.Manifest.RecordedCalls
import Lineage.Proofs.Resolve.Source
import Lineage.Proofs.Graph.IndexedSelection
import Lineage.Proofs.Graph.IndexedBatches
