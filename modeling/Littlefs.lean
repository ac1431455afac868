import Littlefs.Lib.BitCounts
import Littlefs.Lib.SkipLists
import Littlefs.Lib.Checked
import Littlefs.Lib.Program
import Littlefs.Lib.Outcome
import Littlefs.Lib.Machines
import Littlefs.Lib.Keeping
import Littlefs.Lib.Normalising
import Littlefs.Lib.Arithmetic
import Littlefs.Lib.Edits
import Littlefs.Basic
import Littlefs.Tag
import Littlefs.Device
import Littlefs.Fetch
import Littlefs.Traverse
import Littlefs.Ctz
import Littlefs.Alloc
import Littlefs.File
import Littlefs.Commit
import Littlefs.Relocate
import Littlefs.Find
import Littlefs.Handle
import Littlefs.Ops
import Littlefs.Session
import Littlefs.Reading
import Littlefs.FailedOpen
import Littlefs.Replay
import Littlefs.Compaction
import Littlefs.Lib.Segments
import Littlefs.Walk
import Littlefs.Window
import Littlefs.Scan
import Littlefs.Allocation
import Littlefs.Working
import Littlefs.Rewrite
import Littlefs.InUse
import Littlefs.AllocRun
import Littlefs.AllocLimits
import Littlefs.NoSpace
import Littlefs.Deltas
import Littlefs.Rewritten
import Littlefs.Splitting
import Littlefs.Halving
import Littlefs.Appending
import Littlefs.Conserved
import Littlefs.FailedCompaction
import Littlefs.Moving
import Littlefs.Agreement
import Littlefs.Lib.Cycles
import Littlefs.TailLoops
import Littlefs.TailCycles
import Littlefs.Lookup
import Littlefs.Paths
import Littlefs.Mounting
import Littlefs.Utils
import Littlefs.Init
import Littlefs.CtzIndex
import Littlefs.FileBytes
import Littlefs.CtzFind
import Littlefs.CtzTraverse
import Littlefs.Traversal
import Littlefs.TraversalReads
import Littlefs.CtzExtend
import Littlefs.Lib.Words
import Littlefs.Lib.Images
import Littlefs.Lib.Crc
import Littlefs.Disk.Tags
import Littlefs.Disk.Fetchmatch
import Littlefs.Disk.TraverseStack
import Littlefs.Disk.Commits
import Littlefs.Disk.Lookups
import Littlefs.Disk.Believing
import Littlefs.Disk.CompleteCommits
import Littlefs.Disk.Committing
import Littlefs.Disk.Encoding
import Littlefs.Disk.Closing
import Littlefs.Disk.Rereading
import Littlefs.Disk.RoundTrip
import Littlefs.Disk.Getting
import Littlefs.Disk.Getread
import Littlefs.Disk.DirCommit
import Littlefs.Disk.Writing
import Littlefs.Disk.Replaying
import Littlefs.Disk.Headers
import Littlefs.Disk.ScanBounds
import Littlefs.Disk.Getinfo
import Littlefs.Disk.CheckedFetch
import Littlefs.Disk.HostOrder
import Littlefs.Disk.Checksum
import Littlefs.Disk.Finalising
import Littlefs.Disk.CachedReads
import Littlefs.Disk.LostProgs
import Littlefs.Lib.Commuting
import Littlefs.FileOps
import Littlefs.ByteFile
import Littlefs.OpenFiles
import Littlefs.Attempts
import Littlefs.FileLists
import Littlefs.Serving
import Littlefs.OpenModes
import Littlefs.ReadingFiles
import Littlefs.FreshLists
import Littlefs.WritingFiles
import Littlefs.WriteLoop
import Littlefs.FlushedWrites
import Littlefs.Flushing
import Littlefs.Seeking
import Littlefs.FileWrites
import Littlefs.Truncating
import Littlefs.FileCalls
import Littlefs.ManyFiles
import Littlefs.Lib.Cursors
import Littlefs.OpenDirs
