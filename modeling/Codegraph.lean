import Codegraph.PointsTo.Permutation
import Codegraph.PointsTo.SystemSolution
import Codegraph.Csr.ShortestPaths
import Codegraph.Strata.Stratification
import Codegraph.TaintV2.Flows
import Codegraph.Grep.ScanBudget
import Codegraph.Session.Soundness
import Codegraph.Daemon.Exclusion
import Codegraph.Daemon.Lifecycle
import Codegraph.Scip.RoundTrip
import Codegraph.Sync.References
import Codegraph.Db.Recovery
import Codegraph.Db.NodesFts
import Codegraph.Db.EdgeUpdates
import Codegraph.Db.Transaction
import Codegraph.Explore.Allocation
import Codegraph.Deps.Consistency
import Codegraph.Traverser.Impact
import Codegraph.Traverser.PathFinding
import Codegraph.Traverser.DepthFirst
import Codegraph.Output.Xref
import Codegraph.Output.NodePayload
import Codegraph.Grep.RowLines
import Codegraph.Watcher.Completeness
import Codegraph.Algorithms.GpuDominatorTree
import Codegraph.Grep.LineHits
import Codegraph.StripComments.Exactness
import Codegraph.Algorithms.Distances
import Codegraph.Algorithms.PredecessorWalk
import Codegraph.Algorithms.ApproximateReachability
import Codegraph.Algorithms.GpuComponents
import Codegraph.Algorithms.TypeFlow
import Codegraph.Communities.Levels
import Codegraph.Graph.Reindex
import Codegraph.Communities.Moves
import Codegraph.TaintFlow.AllocatedTypes
import Codegraph.Resolution.LineIndex
import Codegraph.TaintFlow.CalleesFirst
import Codegraph.TaintFlow.DominatorsSound
import Codegraph.TaintFlow.PositionalReads
import Codegraph.Algorithms.ParallelEdits
import Codegraph.Dsl.Provenance
import Codegraph.Dsl.TopK
import Codegraph.EventLog.Answers
import Codegraph.Installer.TomlTable
import Codegraph.LabelReachability.Closure
import Codegraph.RustCfg.Recorded
import Codegraph.Traversal.AllSimplePaths
import Codegraph.Db.NodeCache
import Codegraph.Installer.MarkedSection
