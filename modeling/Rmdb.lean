import Rmdb.Defs
import Rmdb.Lib.OrderedList
import Rmdb.Lib.Chain
import Rmdb.Lib.Overwrite
import Rmdb.Lib.Block
import Rmdb.Lib.StableSort
import Rmdb.Lib.Recency
import Rmdb.Lib.Calendar
import Rmdb.Lib.Decimal
import Rmdb.Lib.TokenStream
import Rmdb.Lib.Reading
import Rmdb.Lib.Assignments
import Rmdb.Lib.Bag
import Rmdb.Lib.RigorousSchedule
import Rmdb.Common.RawData
import Rmdb.Common.Value
import Rmdb.Common.LongDouble
import Rmdb.Replacer.LruReplacer
import Rmdb.Storage.DiskManager
import Rmdb.Storage.BufferPool
import Rmdb.Storage.FrameInvariant
import Rmdb.Storage.Coherence
import Rmdb.Storage.EvictionOrder
import Rmdb.Storage.FailedIo
import Rmdb.Record.RmFileHandle
import Rmdb.Record.RmRecords
import Rmdb.Record.RecScan
import Rmdb.Record.RmScan
import Rmdb.Record.RmManager
import Rmdb.Record.RmRun
import Rmdb.Record.RmPageHandle
import Rmdb.Record.RmFileBytes
import Rmdb.Record.RmRefine
import Rmdb.Record.RecordMap
import Rmdb.Record.FreePages
import Rmdb.Record.Bitmap
import Rmdb.Index.IxIndexHandle
import Rmdb.Index.Levels
import Rmdb.Index.NodeHeap
import Rmdb.Index.Tree
import Rmdb.Index.Split
import Rmdb.Index.Insert
import Rmdb.Index.Search
import Rmdb.Index.Entry
import Rmdb.Index.Maintain
import Rmdb.Index.Siblings
import Rmdb.Index.Redistribute
import Rmdb.Index.Coalesce
import Rmdb.Index.Delete
import Rmdb.Index.IxCompare
import Rmdb.Index.IxManager
import Rmdb.Index.OrderedMap
import Rmdb.Index.Invariant
import Rmdb.Index.IxScan
import Rmdb.Index.RankKey
import Rmdb.Index.IxHandle
import Rmdb.Index.RangeScan
import Rmdb.Index.IxFileHdr
import Rmdb.Index.DatetimeOrder
import Rmdb.System.SmMeta
import Rmdb.System.SmManager
import Rmdb.System.Catalog
import Rmdb.System.Agreement
import Rmdb.System.Ddl
import Rmdb.System.DdlEffect
import Rmdb.System.TableLayout
import Rmdb.System.CreateIndex
import Rmdb.System.CatalogText
import Rmdb.Analyze.Analyze
import Rmdb.Analyze.AcceptedConditions
import Rmdb.Analyze.LiteralConversion
import Rmdb.Parser.Lexer
import Rmdb.Parser.Requests
import Rmdb.Optimizer.SortPlan
import Rmdb.Optimizer.AggregatePlan
import Rmdb.Execution.ExecutorUtils
import Rmdb.Execution.SeqScan
import Rmdb.Execution.IndexScan
import Rmdb.Execution.RawOrder
import Rmdb.Execution.ScanRange
import Rmdb.Execution.Executors
import Rmdb.Execution.RowWrites
import Rmdb.Execution.WriteAhead
import Rmdb.Execution.AbstractExecutor
import Rmdb.Execution.NestedLoopJoin
import Rmdb.Execution.JoinRun
import Rmdb.Execution.JoinComplete
import Rmdb.Execution.SortExecutor
import Rmdb.Execution.Statements
import Rmdb.Execution.AbortInverse
import Rmdb.Execution.AggregateExecutor
import Rmdb.Execution.SumRange
import Rmdb.Execution.AggregateValues
import Rmdb.Execution.ScanKeys
import Rmdb.Execution.IndexScanExact
import Rmdb.Execution.Atomicity
import Rmdb.Execution.CompareOrder
import Rmdb.Execution.ScanExecutors
import Rmdb.Optimizer.Planner
import Rmdb.Optimizer.JoinOrder
import Rmdb.Optimizer.ConditionMeaning
import Rmdb.Optimizer.PlanScans
import Rmdb.Optimizer.PlanRun
import Rmdb.Optimizer.PlanExact
import Rmdb.Optimizer.MisplacedConditions
import Rmdb.Optimizer.PlanMeaning
import Rmdb.Execution.ProjectionExecutor
import Rmdb.Optimizer.SelectPlan
import Rmdb.Optimizer.SelectMeaning
import Rmdb.Optimizer.AggregateSelect
import Rmdb.Optimizer.AggregateMeaning
import Rmdb.Optimizer.DmlPlan
import Rmdb.Transaction.LockManager
import Rmdb.Transaction.TransactionManager
import Rmdb.Transaction.LockSafety
import Rmdb.Transaction.TxnLog
import Rmdb.Transaction.LogOrder
import Rmdb.Transaction.ClientHandler
import Rmdb.Transaction.Rollback
import Rmdb.Transaction.DatabaseRuns
import Rmdb.Transaction.LockModes
import Rmdb.Transaction.ReplyBuffer
import Rmdb.Recovery.LogManager
import Rmdb.Recovery.RecoveryManager
import Rmdb.Recovery.Replay
import Rmdb.Recovery.FreeChain
import Rmdb.Recovery.TxnIds
import Rmdb.Recovery.SecondRecovery
import Rmdb.Recovery.LogCodec
import Rmdb.Recovery.ReadAllLogs
import Rmdb.Recovery.LogBuffer
import Rmdb.Recovery.PersistLsn
import Rmdb.Recovery.LogReads
import Rmdb.Execution.DmlRows
import Rmdb.Optimizer.DmlMeaning
import Rmdb.Optimizer.SelectAnswer
import Rmdb.Optimizer.StatementMeaning
import Rmdb.Transaction.SelectLocks
import Rmdb.Transaction.Service
