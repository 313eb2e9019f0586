import ValkeyFdw.Refine.Rename
import ValkeyFdw.Safety.Legal
import ValkeyFdw.Safety.Loss
import ValkeyFdw.Safety.Update
import ValkeyFdw.Session.Serial
import ValkeyFdw.Session.Savepoint
import ValkeyFdw.Scan.Strings
import ValkeyFdw.Lib.Nest
import ValkeyFdw.Script.Lua
import ValkeyFdw.Script.Refine
import ValkeyFdw.Flush.Attempt
import ValkeyFdw.Flush.Retry
import ValkeyFdw.Safety.Keyset
import ValkeyFdw.Session.Race
import ValkeyFdw.Cluster.Machine
import ValkeyFdw.Cluster.Complete
import ValkeyFdw.Cluster.Rescan
import ValkeyFdw.Cluster.Lookup
import ValkeyFdw.Cluster.Paths
import ValkeyFdw.Scan.Stored
import ValkeyFdw.Refine.Body
import ValkeyFdw.Scan.Insert
import ValkeyFdw.Lib.Intern
import ValkeyFdw.Script.Encode
import ValkeyFdw.Flush.Slot
import ValkeyFdw.Cluster.Once
import ValkeyFdw.Search.Filter
import ValkeyFdw.Search.Knn
import ValkeyFdw.Lib.Raise
import ValkeyFdw.Pool.Conn
import ValkeyFdw.Pool.Use
import ValkeyFdw.Pool.Session
import ValkeyFdw.Pool.Lease
import ValkeyFdw.Pool.Replies
import ValkeyFdw.Pool.Bond
import ValkeyFdw.Pool.Catalog
import ValkeyFdw.Pool.Routes
import ValkeyFdw.Lib.Stamped
import ValkeyFdw.Overlay.Cache
import ValkeyFdw.Overlay.Tail
import ValkeyFdw.Lib.Deficit
import ValkeyFdw.Safety.Removals
import ValkeyFdw.Scan.Pattern
import ValkeyFdw.Scan.Shapes
import ValkeyFdw.Lib.Pipeline
import ValkeyFdw.Scan.Pipeline
import ValkeyFdw.Pool.Estimate
import ValkeyFdw.Pool.Facts
import ValkeyFdw.Pool.Follow
import ValkeyFdw.Scan.Commit
import ValkeyFdw.Lib.Gf2
import ValkeyFdw.Cluster.Discover
import ValkeyFdw.Cluster.Tag
import ValkeyFdw.Search.Vector
import ValkeyFdw.Table.Duration
import ValkeyFdw.Table.Score
import ValkeyFdw.Pool.Served
import ValkeyFdw.Pool.Readers
import ValkeyFdw.Flush.Commit
import ValkeyFdw.Options.Catalog
import ValkeyFdw.Search.Answer
