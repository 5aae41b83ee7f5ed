import Loxim.Lib.Bytes
import Loxim.Lib.Prefix
import Loxim.Lib.ComparatorMap
import Loxim.Lib.Chain
import Loxim.Lib.Run
import Loxim.Lib.Census
import Loxim.Lib.Keyed
import Loxim.Lib.Memory
import Loxim.Lib.Decoder
import Loxim.Lib.Sorting
import Loxim.Lib.InPlace
import Loxim.Lib.Acyclic
import Loxim.Lib.OrderedMap
import Loxim.Lib.Limited
import Loxim.Util.RWSemaphore
import Loxim.Util.RWUJSemaphore
import Loxim.Lock.SingleLock
import Loxim.Lock.LockManager
import Loxim.Lock.LockAll
import Loxim.Lock.Comparator
import Loxim.Lock.WaitDie
import Loxim.Lock.LockTable
import Loxim.Lock.LockLife
import Loxim.Lock.LockKept
import Loxim.Store.PageManager
import Loxim.Store.DBDataValue
import Loxim.Store.RoundTrip
import Loxim.Store.DBStoreManager
import Loxim.Store.MapFile
import Loxim.Store.SlottedPage
import Loxim.Store.PageLayout
import Loxim.Store.PageRun
import Loxim.Store.NamedItems
import Loxim.Store.ItemHistory
import Loxim.Store.Buffer
import Loxim.Store.FreeMap
import Loxim.Store.PageWriter
import Loxim.Store.Checkpoint
import Loxim.Log.LogIO
import Loxim.Log.LogFile
import Loxim.Log.LogThread
import Loxim.Log.IdSequence
import Loxim.Log.LogRecord
import Loxim.Store.StoreCalls
import Loxim.Log.Rollback
import Loxim.Log.CrashRecovery
import Loxim.Log.History
import Loxim.Log.Recover
import Loxim.Log.RollbackMarks
import Loxim.Log.LogRun
import Loxim.Log.RunHistory
import Loxim.Log.RunFrame
import Loxim.Log.Serial
import Loxim.TransactionManager.Transaction
import Loxim.TransactionManager.LockedRun
import Loxim.TransactionManager.CallRun
import Loxim.TransactionManager.Isolation
import Loxim.TransactionManager.SerialRun
import Loxim.QueryExecutor.QueryResult
import Loxim.QueryExecutor.ResultOrder
import Loxim.QueryExecutor.OrderBy
import Loxim.QueryExecutor.ResultEffects
import Loxim.QueryExecutor.ClassGraph
import Loxim.QueryExecutor.ClassIndex
import Loxim.QueryExecutor.ClassUndo
import Loxim.QueryExecutor.Inheritance
import Loxim.QueryExecutor.BindMap
import Loxim.QueryExecutor.InterfaceMatcher
import Loxim.QueryExecutor.LoginRights
import Loxim.QueryExecutor.InterfaceMaps
import Loxim.QueryExecutor.InterfaceHierarchy
import Loxim.QueryExecutor.InterfaceBinding
import Loxim.QueryExecutor.BindCycles
import Loxim.QueryExecutor.AccessMap
import Loxim.QueryExecutor.EnvironmentStack
import Loxim.QueryExecutor.SectionRights
import Loxim.QueryParser.TreeNode
import Loxim.QueryParser.TypeComparison
import Loxim.QueryParser.Scanner
import Loxim.QueryParser.Signature
import Loxim.QueryParser.Parser
import Loxim.QueryParser.Lexing
import Loxim.QueryParser.Reading
import Loxim.QueryParser.DeParse
import Loxim.Indexes.Basic
import Loxim.Indexes.NonloggedDataSerializer
import Loxim.Indexes.IndexHandler
import Loxim.Indexes.NewNodeMutex
import Loxim.Indexes.NodeLists
import Loxim.Indexes.NodeCache
import Loxim.Indexes.CacheBooks
import Loxim.Indexes.CacheCalls
import Loxim.Indexes.Comparator
import Loxim.Indexes.VisibilityResolver
import Loxim.Indexes.Cleaner
import Loxim.Indexes.TransactionList
import Loxim.Indexes.SiblingLocks
import Loxim.Indexes.Snapshot
import Loxim.Indexes.EntrySieve
import Loxim.Indexes.CleanerMoves
import Loxim.Indexes.CleanerQueries
import Loxim.Indexes.BTree
import Loxim.Indexes.QueryOptimizer
import Loxim.Indexes.QueryScan
import Loxim.Indexes.QueryRewrite
import Loxim.Indexes.KeyOrder
import Loxim.Indexes.KeyTotal
import Loxim.Indexes.LeafTraveller
import Loxim.Indexes.RangeScan
import Loxim.Protocol.Schema
import Loxim.Protocol.Package
import Loxim.Protocol.DataStream
import Loxim.Protocol.FileDataStream
import Loxim.Protocol.PackageCodec
import Loxim.Protocol.Framing
import Loxim.Protocol.PackageRoundTrip
import Loxim.Server.Worker
import Loxim.Server.SessionAnswers
import Loxim.Lib.Packed
import Loxim.Store.ItemPage
import Loxim.Store.ItemFile
import Loxim.QueryExecutor.AddResult
import Loxim.QueryExecutor.BindAgreement
import Loxim.QueryParser.StaticEval
import Loxim.QueryParser.StaticBalance
import Loxim.QueryParser.StackInvariant
import Loxim.QueryParser.Rewriting
import Loxim.QueryParser.NameScopes
import Loxim.QueryParser.Factoring
import Loxim.QueryParser.FactoringLoop
import Loxim.QueryParser.DeadParts
import Loxim.QueryParser.Simplifying
import Loxim.QueryParser.Optimisation
import Loxim.QueryParser.Clone
import Loxim.Lib.SortedMerge
import Loxim.QueryExecutor.BagOperators
import Loxim.Lib.Exploring
import Loxim.QueryExecutor.Closures
import Loxim.QueryExecutor.StoredValues
import Loxim.Lib.Accumulators
import Loxim.QueryExecutor.Aggregates
import Loxim.QueryExecutor.CreateOperator
import Loxim.QueryExecutor.SentVirtuals
import Loxim.Lib.Drawn
import Loxim.Indexes.TreeLeaves
import Loxim.Indexes.TreeContent
import Loxim.Indexes.TreeOrder
import Loxim.Indexes.TreeFind
