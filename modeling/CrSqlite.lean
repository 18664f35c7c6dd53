import CrSqlite.Library.Keyed
import CrSqlite.Library.Run
import CrSqlite.Library.Gossip
import CrSqlite.Library.Cursor
import CrSqlite.MergeStatements
import CrSqlite.FeedStatements
import CrSqlite.MergeJoin
import CrSqlite.TrackedPeers
import CrSqlite.ChangesRead
import CrSqlite.Feed
import CrSqlite.Pushdown
import CrSqlite.Versions
import CrSqlite.DeltaSync
import CrSqlite.PeerCursor
import CrSqlite.Alter
import CrSqlite.ChangeStream
import CrSqlite.FlowControl
import CrSqlite.StreamChain
import CrSqlite.SendCursor
import CrSqlite.ReceiveCursor
import CrSqlite.Poke
import CrSqlite.PokeNotify
import CrSqlite.Connection
import CrSqlite.Replicator
import CrSqlite.ActiveDbs
import CrSqlite.ExtData
import CrSqlite.DbVersionCache
import CrSqlite.SchemaCaches
import CrSqlite.Convergence
import CrSqlite.FractSafety
import CrSqlite.FractLists
import CrSqlite.UpdateLog
import CrSqlite.ClockGrowth
import CrSqlite.MergeAccepts
import CrSqlite.MergeFrame
import CrSqlite.QueryCache
import CrSqlite.TransactionIsolation
import CrSqlite.GeneratedSql
import CrSqlite.KeyDecoders
import CrSqlite.WireFormat
import CrSqlite.AlterErrors
import CrSqlite.AsOrdered
import CrSqlite.LastOrdered
import CrSqlite.FractConflict
import CrSqlite.FractView
import CrSqlite.VersionLimits
import CrSqlite.SeenPeersArray
import CrSqlite.PromiseJobs
import CrSqlite.QueryHooks
import CrSqlite.Joiners
import CrSqlite.GetTable
import CrSqlite.TblRx
import CrSqlite.SiteId
import CrSqlite.WebSocketWrapper
import CrSqlite.TableInfoMemory
import CrSqlite.ChangesCursor
import CrSqlite.NestedTransactions
