import Alpm.CString
import Alpm.General.MarkedWord
import Alpm.Version.Vercmp
import Alpm.Version.Segments
import Alpm.Version.Transitivity
import Alpm.List
import Alpm.Package
import Alpm.Deps.Depcmp
import Alpm.Deps.Checkdeps
import Alpm.General.Worklist
import Alpm.General.WorklistOrder
import Alpm.Deps.Recursedeps
import Alpm.Deps.RemovalOrder
import Alpm.Remove
import Alpm.General.DepthFirst
import Alpm.Deps.Graph
import Alpm.Deps.Sortbydeps
import Alpm.Deps.TransactionOrder
import Alpm.General.OpenAddressing
import Alpm.General.Overlay
import Alpm.Pkghash
import Alpm.General.Execution
import Alpm.Groupcache
import Alpm.Lock
import Alpm.General.Journal
import Alpm.Files.FileSystem
import Alpm.Files.Filelist
import Alpm.Files.Intersection
import Alpm.Files.Fileconflicts
import Alpm.Files.Commit
import Alpm.Files.Ownership
import Alpm.Files.Backup
import Alpm.Files.PacsaveRotation
import Alpm.Files.BackupTransaction
import Alpm.Version.Reference
import Alpm.Deps.Depstring
import Alpm.General.LinkedHeap
import Alpm.ListHeap
import Alpm.ListRun
import Alpm.ListBuilders
import Alpm.Signing
import Alpm.General.Splits
import Alpm.Sync.Resolvedeps
import Alpm.Sync.Closure
import Alpm.Sync.Conflict
import Alpm.Sync.Prepare
import Alpm.Sync.Safety
import Alpm.Sync.ErrorData
import Alpm.Sync.Targets
import Alpm.Sync.GroupPkgs
import Alpm.Sync.Satisfier
import Alpm.Sync.Sysupgrade
import Alpm.Sync.Replacing
import Alpm.Sync.Load
import Alpm.Sync.Commit
import Alpm.Sync.Prepared
import Alpm.Sync.Interrupted
import Alpm.Sync.Lifecycle
import Alpm.Util
import Alpm.Archive
import Alpm.ArchiveLines
import Alpm.Syncdb
import Alpm.General.Components
import Alpm.SyncdbPopulate
import Alpm.LocalDb
import Alpm.Sizes
import Alpm.LocalDbLines
import Alpm.LocalDbRoundTrip
import Alpm.LocalDbDesc
import Alpm.LocalDbReason
import Alpm.LocalDbReopen
import Alpm.LocalDbFiles
import Alpm.Splitname
import Alpm.LocalDbPopulate
import Alpm.Cascade
import Alpm.RequiredBy
import Alpm.General.SortedRuns
import Alpm.General.MergeOrder
import Alpm.Hook.Trigger
import Alpm.Hook.Run
import Alpm.Hook.Selection
import Alpm.General.Framing
import Alpm.Chroot
import Alpm.Hook.Targets
import Alpm.General.Scan
import Alpm.General.Orbit
import Alpm.Keyid.Extract
import Alpm.Keyid.Bounds
import Alpm.Keyid.Ends
import Alpm.Keyid.Packets
import Alpm.Base64
import Alpm.Diskspace.MountPoint
import Alpm.Diskspace.Blocks
import Alpm.Diskspace.Transaction
import Alpm.ListDiff
import Alpm.FileLoops.ReadLoop
import Alpm.FileLoops.Copyfile
import Alpm.Dload.SortPayloads
import Alpm.Dload.LargestFirst
import Alpm.Dload.Transfers
import Alpm.Dload.Completion
import Alpm.Dload.Confinement
import Alpm.Dload.Attempts
import Alpm.PkgFile.Recorded
