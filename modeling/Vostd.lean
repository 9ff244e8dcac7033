import Vostd.Lib.Exec
import Vostd.Lib.Collect
import Vostd.PageTable.AddressSpace
import Vostd.PageTable.Config
import Vostd.PageTable.Node
import Vostd.PageTable.Walk
import Vostd.PageTable.WellFormed
import Vostd.PageTable.Effect
import Vostd.PageTable.Grow
import Vostd.PageTable.NodeSpec
import Vostd.PageTable.Cursor
import Vostd.PageTable.CursorInv
import Vostd.PageTable.Stray
import Vostd.PageTable.Replace
import Vostd.PageTable.CursorSpec
import Vostd.PageTable.CursorOps
import Vostd.PageTable.Locking
import Vostd.Lib.ByteMap
import Vostd.Lib.System
import Vostd.Lib.Locks
import Vostd.Lib.RefCount
import Vostd.PageTable.Translation
import Vostd.PageTable.Table
import Vostd.PageTable.Refinement
import Vostd.PageTable.OpEffect
import Vostd.PageTable.Leaves
import Vostd.PageTable.System
import Vostd.PageTable.Exclusion
import Vostd.PageTable.Sharing
import Vostd.PageTable.Drop
import Vostd.PageTable.References
import Vostd.PageTable.Ownership
import Vostd.PageTable.Conservation
import Vostd.PageTable.Release
import Vostd.PageTable.Faults
import Vostd.PageTable.Query
import Vostd.PageTable.MapItems
import Vostd.PageTable.LargestPages
import Vostd.PageTable.BootPt
import Vostd.Alloc.IdAlloc
import Vostd.Lib.WordBitmap
import Vostd.Cpu.CpuSet
import Vostd.Lib.Threads
import Vostd.Sync.LockWord
import Vostd.Sync.LockOps
import Vostd.Sync.RwLock
import Vostd.Sync.WaitQueue
import Vostd.Sync.WakeUps
import Vostd.Sync.Progress
import Vostd.Sync.Mutex
import Vostd.Sync.RwMutex
import Vostd.Sync.Either
import Vostd.Task.FifoScheduler
import Vostd.Task.Placement
import Vostd.Lib.Spans
import Vostd.Lib.SortedMap
import Vostd.Util.RangeAlloc
import Vostd.Lib.Runs
import Vostd.Lib.InPlace
import Vostd.Util.AlignExt
import Vostd.Boot.MemoryRegion
import Vostd.Boot.NonOverlapping
import Vostd.Boot.Capacity
import Vostd.Lib.BitFields
import Vostd.Arch.Entry
import Vostd.Arch.X86
import Vostd.Arch.Riscv
import Vostd.Arch.Loongarch
import Vostd.Kspace.KVirtArea
import Vostd.PageTable.Landing
import Vostd.PageTable.PageCount
import Vostd.VmSpace.Tlb
import Vostd.VmSpace.CursorMut
import Vostd.VmSpace.Position
import Vostd.VmSpace.Unmap
import Vostd.Lib.Chains
import Vostd.Frame.LinkedList
import Vostd.Frame.ListWorld
import Vostd.Frame.Handles
import Vostd.Frame.Shares
import Vostd.Frame.CountProtocol
import Vostd.Mm.WriteVals
import Vostd.Bzimage.BootAlloc
import Vostd.Lib.Records
import Vostd.Bzimage.Builder
import Vostd.Bzimage.FlatBinary
import Vostd.Bzimage.PeImage
import Vostd.Bzimage.Layout
import Vostd.Lib.Layout
import Vostd.Lib.Sequences
import Vostd.Acpi.Remapping
import Vostd.Acpi.Dmar
import Vostd.Lib.Memory
import Vostd.Heap.SlotList
import Vostd.Heap.Slab
import Vostd.Heap.World
import Vostd.Heap.Placement
import Vostd.Heap.Invariant
import Vostd.Heap.Safety
import Vostd.Mm.Cursors
import Vostd.Mm.Streams
import Vostd.Smp.Calls
import Vostd.Smp.Invariant
import Vostd.Smp.Progress
