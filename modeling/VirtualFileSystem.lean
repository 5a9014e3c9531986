import VirtualFileSystem.Lib.ByteImage
import VirtualFileSystem.Lib.Bisect
import VirtualFileSystem.Lib.Trace
import VirtualFileSystem.Lib.Extents
import VirtualFileSystem.Structs
import VirtualFileSystem.Arr
import VirtualFileSystem.Helper
import VirtualFileSystem.Hash
import VirtualFileSystem.Filesystem
import VirtualFileSystem.ArrSpec
import VirtualFileSystem.Order
import VirtualFileSystem.SortedArr
import VirtualFileSystem.Lib.KeyedSet
import VirtualFileSystem.KeyedArr
import VirtualFileSystem.Steps
import VirtualFileSystem.Calls
import VirtualFileSystem.Live
import VirtualFileSystem.System
import VirtualFileSystem.Init
import VirtualFileSystem.NameIndex
import VirtualFileSystem.Directory
import VirtualFileSystem.Mirror
import VirtualFileSystem.MirrorCalls
import VirtualFileSystem.Load
import VirtualFileSystem.MirrorRun
import VirtualFileSystem.Repack
import VirtualFileSystem.Room
import VirtualFileSystem.Layout
import VirtualFileSystem.LayoutRun
import VirtualFileSystem.Reopen
import VirtualFileSystem.Lib.HashTree
import VirtualFileSystem.Tree
import VirtualFileSystem.Total
import VirtualFileSystem.AllOrNothing
import VirtualFileSystem.Admission
import VirtualFileSystem.Truncation
import VirtualFileSystem.Bytes
import VirtualFileSystem.Rehash
import VirtualFileSystem.Compact
import VirtualFileSystem.FirstFit
import VirtualFileSystem.Contents
import VirtualFileSystem.ReadBack
import VirtualFileSystem.Creation
import VirtualFileSystem.GrowingWrite
import VirtualFileSystem.WideOffsets
import VirtualFileSystem.FullHash
import VirtualFileSystem.Coherence
import VirtualFileSystem.Lib.ChainedSum
import VirtualFileSystem.Fletcher
import VirtualFileSystem.Tamper
import VirtualFileSystem.Incremental
import VirtualFileSystem.Confidential
import VirtualFileSystem.Lib.Interleave
import VirtualFileSystem.Fuse
import VirtualFileSystem.FuseWrite
import VirtualFileSystem.FuseRuns
import VirtualFileSystem.Lib.ByteStore
import VirtualFileSystem.Contained
import VirtualFileSystem.Refinement
import VirtualFileSystem.RefinementRun
import VirtualFileSystem.Gapless
import VirtualFileSystem.Scan
import VirtualFileSystem.Close
import VirtualFileSystem.Remount
import VirtualFileSystem.Session
import VirtualFileSystem.Format
import VirtualFileSystem.Daemon
import VirtualFileSystem.Serve
import VirtualFileSystem.Lib.Regions
import VirtualFileSystem.Isolation
import VirtualFileSystem.Audit
import VirtualFileSystem.Stream
import VirtualFileSystem.Steady
import VirtualFileSystem.Serial
import VirtualFileSystem.Lib.Mutex
import VirtualFileSystem.Threads
