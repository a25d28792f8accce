import Redis.Util.Glob
import Redis.Dictionary.SafeIteration
import Redis.Dictionary.ScanCycle
import Redis.Listpack.Integrity
import Redis.Listpack.Search
import Redis.RadixTree.Iteration
import Redis.RadixTree.Recompression
import Redis.Multi.Links
import Redis.Networking.ReplyOrder
import Redis.Networking.RequestRuns
import Redis.Replication.Psync
import Redis.Replication.Wait
import Redis.Aof.Flush
import Redis.Aof.RewriteCrash
import Redis.Cluster.ElectionSafety
import Redis.Cluster.Migration
import Redis.Cluster.SlotConvergence
import Redis.Cluster.SlotTable
import Redis.Sentinel.ElectionSafety
import Redis.Skiplist.Refinement
import Redis.IntegerSet.Sizes
import Redis.SortedSets.Aggregate
import Redis.SortedSets.Diff
import Redis.Streams.History
import Redis.Streams.IdSyntax
import Redis.Blocked.Wakeups
import Redis.Bitops.Extremes
import Redis.Lists.Lpos
import Redis.Rio.Conn
import Redis.Tracking.Prefixes
