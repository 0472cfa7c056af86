import OosLite.Lib.Process
import OosLite.Lib.Framing
import OosLite.Env
import OosLite.Object
import OosLite.Manifest
import OosLite.Snapshot
import OosLite.Wal.Log
import OosLite.Lib.Execution
import OosLite.Wal.Proofs.FailedAppends
import OosLite.Segment.Proofs.SwapCrash
import OosLite.Segment.Proofs.ReaderAgreement
import OosLite.Segment.Proofs.FailedCompaction
import OosLite.Segment.Proofs.FailedWrites
import OosLite.Watcher.Proofs.RenameSimulation
import OosLite.Watcher.Proofs.ScanSafety
import OosLite.Wal.Proofs.Codec
import OosLite.Wal.Proofs.PrefixScan
import OosLite.Wal.Proofs.DamagedHeaders
import OosLite.Engine.Proofs.Edits
import OosLite.Engine.Proofs.Snapshots
import OosLite.Watcher.Proofs.IgnoreRules
import OosLite.Chunk.Proofs.Streaming
import OosLite.Metadata.Proofs.MigrationRuns
import OosLite.Metadata.Proofs.Codecs
import OosLite.Engine.Proofs.Fsck
import OosLite.Engine.Proofs.Rollback
import OosLite.Engine.Proofs.Restore
import OosLite.Engine.Execution
import OosLite.Segment.Proofs.BodiesCompaction
import OosLite.Share.Proofs.ZipEntries
import OosLite.Vfs.Proofs.Shows
import OosLite.Wal.Proofs.Records
import OosLite.Engine.Proofs.DurableCalls
import OosLite.Chunk.Proofs.ReadErrors
import OosLite.Vfs.Proofs.Cache
import OosLite.Vfs.Proofs.NodeTable
import OosLite.Mount.Proofs.HttpDate
import OosLite.Mount.Proofs.Ranges
import OosLite.Mount.Proofs.Listings
import OosLite.Engine.Proofs.Collection
import OosLite.Engine.Proofs.SnapshotRuns
import OosLite.Engine.Proofs.Consistency
import OosLite.Ui.Proofs.LineDiff
import OosLite.Share.Proofs.Persistence
import OosLite.Share.Proofs.Expiry
import OosLite.Identifier
import OosLite.Watcher.Proofs.RenameRuns
import OosLite.Engine.Proofs.Versions
import OosLite.Vfs.Proofs.MountedRuns
import OosLite.Vault.Proofs.Runs
import OosLite.Mount.Proofs.Fuse
