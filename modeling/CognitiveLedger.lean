import CognitiveLedger.Core.CommitExact
import CognitiveLedger.Core.TimestampReader
import CognitiveLedger.Dag.Relations
import CognitiveLedger.Dag.WindowCalls
import CognitiveLedger.Rdf.Delta
import CognitiveLedger.Merge.Symmetry
import CognitiveLedger.Store.WindowedScalar
import CognitiveLedger.Store.AncestryWindow
import CognitiveLedger.Dag.MergeBase
import CognitiveLedger.Merge.Preview
import CognitiveLedger.Store.Replay
import CognitiveLedger.Store.Preserve
import CognitiveLedger.Store.Resolutions
import CognitiveLedger.Projection.UpdateEffect
import CognitiveLedger.Api.RequestIdentity
import CognitiveLedger.Store.StoreRuns
import CognitiveLedger.Store.ByteTotals
import CognitiveLedger.Migrate.MigrationRuns
import CognitiveLedger.File.FileHeads
import CognitiveLedger.Store.Deadlock
import CognitiveLedger.Store.BranchPoints
import CognitiveLedger.Store.PreviewTokens
import CognitiveLedger.Api.Conflicts
import CognitiveLedger.Projection.TargetGraph
import CognitiveLedger.Protocol.ContextIdentity
import CognitiveLedger.Protocol.Response
import CognitiveLedger.Api.Validate
import CognitiveLedger.Projection.Fencing
import CognitiveLedger.Store.Isolation
