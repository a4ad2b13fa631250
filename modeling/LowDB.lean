import LowDB.Lib.Utf8
import LowDB.Lib.Codec
import LowDB.Lib.Layered
import LowDB.Lib.Merge
import LowDB.Lib.Chains
import LowDB.Lib.Linearizable
import LowDB.Lib.LeadsTo
import LowDB.Lib.FileSystem
import LowDB.Lib.Isolation
import LowDB.Lib.Snapshots
import LowDB.Common
import LowDB.Format
import LowDB.Wal.Reader
import LowDB.Wal.Writer
import LowDB.MemTable
import LowDB.MemTable.SkipList
import LowDB.MemTable.Concurrent
import LowDB.MemTable.Readers
import LowDB.MemTable.Iteration
import LowDB.MemTable.Memory
import LowDB.MemTable.Height
import LowDB.Storage.Wal
import LowDB.Storage.Replay
import LowDB.Sstable.Bloom
import LowDB.Sstable.Writer
import LowDB.Sstable.Blocks
import LowDB.Sstable.Table
import LowDB.Sstable.Reopen
import LowDB.Sstable.Overflow
import LowDB.Sstable.Filter
import LowDB.Sstable.Scan
import LowDB.Sstable.Checked
import LowDB.Sstable.Compaction
import LowDB.Storage.Disk
import LowDB.Storage.Directory
import LowDB.Storage.PowerFailures
import LowDB.Storage.Logs
import LowDB.Transaction.Oracle
import LowDB.Engine.System
import LowDB.Engine.Step
import LowDB.Engine.Names
import LowDB.Engine.Conflicts
import LowDB.Engine.Phases
import LowDB.Engine.Files
import LowDB.Engine.Recovery
import LowDB.Engine.Open
import LowDB.Engine.Refine
import LowDB.Engine.Reads
import LowDB.Engine.Accounting
import LowDB.Engine.Handles
import LowDB.Engine.Failures
import LowDB.Engine.Progress
import LowDB.Engine.Crash
import LowDB.Engine.Captured
import LowDB.Engine.Current
import LowDB.Engine.Layering
import LowDB.Engine.Kept
import LowDB.Engine.Flushing
import LowDB.Engine.Backlog
import LowDB.Engine.Lifetime
import LowDB.Engine.Backpressure
import LowDB.Engine.Transactions
import LowDB.Engine.Isolation
import LowDB.Lib.Formats
import LowDB.Wal.Grammar
import LowDB.Storage.Restore
import LowDB.Engine.Compacted
import LowDB.Engine.Damaged
import LowDB.Lib.Crc
import LowDB.Sstable.Damage
