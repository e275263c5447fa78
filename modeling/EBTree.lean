import EBTree.Audit.Proof.Anchor
import EBTree.Audit.Proof.Batches
import EBTree.Audit.Proof.Binding
import EBTree.Audit.Proof.ContractAttestor
import EBTree.Audit.Proof.Fips
import EBTree.Audit.Proof.PhysicalAttestor
import EBTree.BTree.Proof.Complete
import EBTree.BTree.Proof.Heal
import EBTree.BTree.Proof.Overlay
import EBTree.BTree.Proof.PageCache
import EBTree.BTree.Proof.Pointers
import EBTree.BTree.Proof.Pruning
import EBTree.Codec.Proof.RoundTrip
import EBTree.Engine.Proof.BatchRead
import EBTree.Engine.Proof.ChainFile
import EBTree.Engine.Proof.ChainSpill
import EBTree.Engine.Proof.DatafileLoad
import EBTree.Engine.Proof.DatafileOrder
import EBTree.Engine.Proof.DiskTrace
import EBTree.Engine.Proof.FairLock
import EBTree.Engine.Proof.FallbackLoad
import EBTree.Engine.Proof.GcDeferral
import EBTree.Engine.Proof.GcMetaFile
import EBTree.Engine.Proof.PinnedReads
import EBTree.Engine.Proof.RecordAt
import EBTree.Engine.Proof.Regions
import EBTree.Engine.Proof.Retries
import EBTree.Engine.Proof.SfsCache
import EBTree.Engine.Proof.Snapshot
import EBTree.Engine.Proof.StableLsn
import EBTree.Engine.Proof.Summary
import EBTree.Engine.Proof.Tagged
import EBTree.Engine.Proof.Tiers
import EBTree.Engine.Proof.TimeTravel
import EBTree.Engine.Proof.TornRecord
import EBTree.Sql.Proof.Aggregate
import EBTree.Sql.Proof.Comparison
import EBTree.Sql.Proof.Exists
import EBTree.Sql.Proof.ExprParse
import EBTree.Sql.Proof.FreshTables
import EBTree.Sql.Proof.Identity
import EBTree.Sql.Proof.InnerSelect
import EBTree.Sql.Proof.InsertParse
import EBTree.Sql.Proof.InsertSelect
import EBTree.Sql.Proof.IntegerArithmetic
import EBTree.Sql.Proof.Joins
import EBTree.Sql.Proof.KeyCodec
import EBTree.Sql.Proof.Lexer
import EBTree.Sql.Proof.LikeMatch
import EBTree.Sql.Proof.Pins
import EBTree.Sql.Proof.RowCodec
import EBTree.Sql.Proof.Select
import EBTree.Sql.Proof.SetOps
import EBTree.Sql.Proof.Update
import EBTree.Sql.Proof.Window
import EBTree.Superblock.Proof.Commit
import EBTree.Wal.Proof.Agreement
import EBTree.Wal.Proof.Batch
import EBTree.Wal.Proof.FsyncCoordinator
import EBTree.Wal.Proof.NewestRecord
import EBTree.Wal.Proof.Truncate
import EBTree.Wal.Proof.TwoWriters
import EBTree.Sharded.Proof.Reads
import EBTree.Audit.Proof.RarMonitor
import EBTree.Sql.Proof.PredicateText
import EBTree.Sql.Proof.RangeTickets
import EBTree.Sql.Proof.IndexComplete
