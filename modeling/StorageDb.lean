import StorageDb.Lib.Prog
import StorageDb.Lib.Bytes
import StorageDb.Lib.Bisect
import StorageDb.Lib.SortedAssoc
import StorageDb.Lib.SepChain
import StorageDb.Lib.SlotPage
import StorageDb.Lib.FrameLog
import StorageDb.Lib.Schedule
import StorageDb.Lib.Weather
import StorageDb.Lib.ShiftRegister
import StorageDb.Lib.Words
import StorageDb.Disk.Page
import StorageDb.Disk.DiskManager
import StorageDb.Disk.Crc32
import StorageDb.Buffer.Pool
import StorageDb.Buffer.PoolInvariant
import StorageDb.Buffer.Clock
import StorageDb.Buffer.ClockExact
import StorageDb.Buffer.PoolSpec
import StorageDb.Buffer.Pins
import StorageDb.Buffer.PoolRun
import StorageDb.Buffer.DiskFaults
import StorageDb.Buffer.FaultyDisk
import StorageDb.Buffer.FaultyPool
import StorageDb.Buffer.FaultyCalls
import StorageDb.Buffer.Leaks
import StorageDb.Btree.Node
import StorageDb.Btree.Header
import StorageDb.Btree.SlotNode
import StorageDb.Btree.LeafPage
import StorageDb.Btree.LeafOps
import StorageDb.Btree.InternalPage
import StorageDb.Btree.InternalOps
import StorageDb.Btree.Tree
import StorageDb.Btree.FlatStore
import StorageDb.Btree.Refinement
import StorageDb.Btree.Shape
import StorageDb.Btree.ShapeInsert
import StorageDb.Btree.RootedTree
import StorageDb.Btree.Stored
import StorageDb.Btree.Simulation
import StorageDb.Btree.InsertLeaf
import StorageDb.Btree.InsertBranch
import StorageDb.Btree.Insertion
import StorageDb.Btree.TreeWrites
import StorageDb.Btree.TreeReads
import StorageDb.Btree.TreeRun
import StorageDb.Btree.Create
import StorageDb.Btree.Capacity
import StorageDb.Btree.MapRefinement
import StorageDb.Btree.Height
import StorageDb.Btree.ParentPointers
import StorageDb.Btree.Appending
import StorageDb.Btree.Checksums
import StorageDb.Wal.LogRecord
import StorageDb.Wal.WalManager
import StorageDb.Wal.Durability
import StorageDb.Wal.Bookkeeping
import StorageDb.Wal.Reopen
import StorageDb.Wal.TornTail
import StorageDb.Wal.RecordGrammar
import StorageDb.Wal.Corruption
import StorageDb.Wal.LsnOrder
import StorageDb.Wal.Analysis
import StorageDb.Wal.LogReader
import StorageDb.Wal.Checkpoints
import StorageDb.Wal.UndoChain
import StorageDb.Txn.LockManager
import StorageDb.Txn.LockTable
import StorageDb.Txn.TransactionManager
import StorageDb.Txn.Serializability
import StorageDb.Txn.LockFootprint
import StorageDb.Txn.Lifecycle
import StorageDb.Txn.UndoOrder
import StorageDb.Txn.WriteSetUndo
import StorageDb.Txn.FailedCommit
import StorageDb.Lib.Restart
import StorageDb.Buffer.FileTail
import StorageDb.Engine.StorageEngine
import StorageDb.Engine.PageRecovery
import StorageDb.Engine.Restartable
import StorageDb.Wal.PageLogging
import StorageDb.Engine.PageLevel
import StorageDb.Engine.EngineCall
import StorageDb.Engine.LogShape
import StorageDb.Engine.Sessions
import StorageDb.Engine.DataPath
import StorageDb.Engine.TxnEffects
import StorageDb.Engine.WriteAhead
import StorageDb.Engine.Persistence
import StorageDb.Engine.ShortImages
import StorageDb.Engine.Bench
import StorageDb.Engine.Footprint
import StorageDb.Engine.Reopening
import StorageDb.Btree.PageMaps
import StorageDb.Btree.TreeContract
import StorageDb.Btree.InsertContract
import StorageDb.Btree.LeafSplit
import StorageDb.Btree.InternalSplit
import StorageDb.Btree.FailedInsert
import StorageDb.Btree.FirstLeaf
import StorageDb.Btree.AmplePool
import StorageDb.Btree.FaultyTree
import StorageDb.Cli.Command
import StorageDb.Cli.Session
