import Mimik.Basic
import Mimik.GuardedRun
import Mimik.LinkedRing
import Mimik.ListRing
import Mimik.Slab
import Mimik.SlabInvariant
import Mimik.SlabGrowth
import Mimik.SlabSafety
import Mimik.Bitmap
import Mimik.BitmapRuns
import Mimik.Pm
import Mimik.PmInvariant
import Mimik.PmBoot
import Mimik.PmSafety
import Mimik.PmCursor
import Mimik.PmFill
import Mimik.PmLocks
import Mimik.PmGrow
import Mimik.PmLedger
import Mimik.PmRange
import Mimik.PmOnward
import Mimik.PmRow
import Mimik.PageEntry
import Mimik.FaultState
import Mimik.Vm
import Mimik.RadixWalk
import Mimik.PageWalk
import Mimik.RadixPlace
import Mimik.Handout
import Mimik.VmWindow
import Mimik.VmFlat
import Mimik.VmGrow
import Mimik.VmUnmap
import Mimik.VmFlag
import Mimik.VmKernel
import Mimik.KernelRemap
import Mimik.VmVisit
import Mimik.VmMapEffect
import Mimik.VmFindSpace
import Mimik.VmMapExact
import Mimik.VmOverrun
import Mimik.VmRefused
import Mimik.VmSpent
import Mimik.VmSearch
import Mimik.VmMapRan
import Mimik.VmCut
import Mimik.VmSparse
import Mimik.VmFlagExact
import Mimik.VmStrict
import Mimik.VmPlace
import Mimik.VmLeafCall
import Mimik.VmBacking
import Mimik.VmStale
import Mimik.VmNeighbours
import Mimik.VmReserved
import Mimik.VmCarry
import Mimik.Mm
import Mimik.MmLend
import Mimik.MmFresh
import Mimik.MmOwned
import Mimik.MmExact
import Mimik.MmKept
import Mimik.VmLinks
import Mimik.MmHeap
import Mimik.VmTmpWindow
import Mimik.ByteMemory
import Mimik.AddressRange
import Mimik.MemRoutines
import Mimik.Crc
import Mimik.Crc32
import Mimik.BootPaging
import Mimik.BootMirror
import Mimik.BootInfo
import Mimik.BootInfoRun
import Mimik.BootInfoSurvives
import Mimik.Str
import Mimik.Printk
import Mimik.PrintkSafety
import Mimik.PrintkNumbers
import Mimik.PrintkWidth
import Mimik.Initfs
import Mimik.InitfsScan
import Mimik.InitfsArchive
import Mimik.InitfsSafety
import Mimik.Acpi
import Mimik.AcpiTables
import Mimik.AcpiChecks
import Mimik.Pic
import Mimik.Pit
import Mimik.PicAck
import Mimik.X86
import Mimik.Isr
import Mimik.IsrStub
import Mimik.IsrRun
import Mimik.IrqStart
