import YakKernel.TransitionSystem
import YakKernel.Tally
import YakKernel.Kmutex
import YakKernel.RwlockWakeup
import YakKernel.PmmRefcount
import YakKernel.VmUnmap
import YakKernel.VmLocks
import YakKernel.RwlockExclusion
import YakKernel.SchedPlacement
import YakKernel.WaitInvariant
import YakKernel.WaitSteps
import YakKernel.WaitConservation
import YakKernel.WaitRuns
import YakKernel.VmObjectTeardown
import YakKernel.VfsLookup
import YakKernel.VmemRuns
import YakKernel.BucketTable
import YakKernel.FileTable
import YakKernel.FileIndices
import YakKernel.FileRefs
import YakKernel.FileRuns
import YakKernel.LinearProbing
import YakKernel.HashTable
import YakKernel.HashTableMap
import YakKernel.RingBuffer
import YakKernel.RemoteCalls
import YakKernel.Timers
import YakKernel.Shootdown
import YakKernel.ShootdownRuns
import YakKernel.RadixTree
import YakKernel.Pmap
import YakKernel.PmapTables
import YakKernel.PmapCalls
import YakKernel.PmapFree
import YakKernel.PmapRuns
import YakKernel.SchedPriority
import YakKernel.SchedRealTime
import YakKernel.SchedDispatch
import YakKernel.JobLog
import YakKernel.Softint
import YakKernel.SoftintRuns
import YakKernel.PagedBytes
import YakKernel.FileContents
import YakKernel.FileOffset
import YakKernel.Roster
import YakKernel.JobCtl
import YakKernel.JobCtlRegistry
import YakKernel.JobCtlRuns
import YakKernel.Tmpfs
import YakKernel.TmpfsRuns
import YakKernel.ProcTree
import YakKernel.ProcTreeInvariant
import YakKernel.ProcTreeSteps
import YakKernel.ProcTreeRuns
import YakKernel.WaitpidRuns
import YakKernel.NTty
import YakKernel.NTtyWakeup
import YakKernel.Pieces
import YakKernel.NTtyLines
import YakKernel.LockOrder
import YakKernel.VfsLocks
import YakKernel.VfsDeadlock
import YakKernel.Transducer
import YakKernel.Ps2Keyboard
import YakKernel.Irq
import YakKernel.VmBacking
import YakKernel.VmSearch
import YakKernel.VmMmio
import YakKernel.PmapEntry
import YakKernel.VmMmioFault
import YakKernel.VmProtect
import YakKernel.VmFault
import YakKernel.DepthFirst
import YakKernel.InitNode
import YakKernel.InitRuns
import YakKernel.PathComponents
import YakKernel.Initrd
import YakKernel.TarArchive
import YakKernel.TarReading
import YakKernel.InitrdRuns
import YakKernel.InitrdTree
import YakKernel.PmapWalk
import YakKernel.PmapDecode
import YakKernel.PmapLarge
import YakKernel.PmapRelease
import YakKernel.Amap
import YakKernel.AmapTables
import YakKernel.AmapCopy
import YakKernel.AmapRuns
import YakKernel.PmmLookup
import YakKernel.PmmAddRegion
import YakKernel.VmemFit
import YakKernel.VmemTags
import YakKernel.VmMapFail
import YakKernel.KmemCache
import YakKernel.VmemAligned
import YakKernel.VmemCache
import YakKernel.VmemCacheRuns
import YakKernel.KmemGeometry
import YakKernel.KmemIndex
import YakKernel.KmemIndexRuns
import YakKernel.Kmalloc
import YakKernel.PollMany
import YakKernel.LapicTimer
import YakKernel.Clocksource
import YakKernel.HashTableFail
import YakKernel.FileDuplicate
import YakKernel.NestedCalls
import YakKernel.VfsLinks
import YakKernel.VfsSlashes
import YakKernel.NTtyPoll
import YakKernel.NTtyRaw
import YakKernel.KernelThread
import YakKernel.ByteMemory
import YakKernel.UserStack
import YakKernel.Launch
import YakKernel.LaunchStack
import YakKernel.SysPoll
import YakKernel.Batches
import YakKernel.Getdents
import YakKernel.Openat
import YakKernel.Aborts
import YakKernel.ElfLoad
import YakKernel.ElfSafe
import YakKernel.TarNumbers
import YakKernel.Strndup
import YakKernel.Madt
import YakKernel.IoApic
import YakKernel.Ecam
import YakKernel.Dictionary
import YakKernel.DictionaryRuns
import YakKernel.InitrdBounds
import YakKernel.Symbols
import YakKernel.SymbolLookup
import YakKernel.VmMapFixed
import YakKernel.VmProtectRange
import YakKernel.VmSpace
import YakKernel.VmReservation
import YakKernel.ElfSegments
import YakKernel.ElfMapping
import YakKernel.ElfExact
import YakKernel.RbRemove
import YakKernel.RbRefine
import YakKernel.VmEntryTree
import YakKernel.ProcTreeParents
