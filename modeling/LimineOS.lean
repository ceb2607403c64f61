import LimineOS.Lib.ByteMemory
import LimineOS.Lib.Transition
import LimineOS.Lib.Ledger
import LimineOS.Lib.TableTree
import LimineOS.Lib.LinkedList
import LimineOS.Util
import LimineOS.Mm.PmmAccounting
import LimineOS.Mm.VmmRuns
import LimineOS.Fs.ElfImage
import LimineOS.Fs.ElfCopies
import LimineOS.Fs.ElfReads
import LimineOS.Fs.ElfFailures
import LimineOS.Sched.Dispatch
import LimineOS.Lib.Logged
import LimineOS.Mm.BitmapFits
import LimineOS.Mm.DirectMap
import LimineOS.Sched.Agreement
import LimineOS.Cpu.Topology
import LimineOS.Cpu.Selectors
import LimineOS.Fs.Vfs
import LimineOS.Fs.Descriptors
import LimineOS.Fs.ReadBounds
import LimineOS.Fs.Failures
import LimineOS.Fs.Mounts
import LimineOS.Fs.Routing
import LimineOS.Fs.Independence
import LimineOS.Fs.RoundTrip
import LimineOS.Lib.Unwinding
import LimineOS.Lib.Mutex
import LimineOS.Fs.Chunks
import LimineOS.Fs.ExactNames
import LimineOS.Lib.Reads
import LimineOS.Fs.InitrdBounds
import LimineOS.Mm.PmmHalts
import LimineOS.Mm.PmmZeroed
import LimineOS.Sched.NextThread
import LimineOS.Sched.Contexts
import LimineOS.Sched.LockDiscipline
import LimineOS.Fs.HashNodes
import LimineOS.Dev.Acpi
import LimineOS.Dev.Madt
import LimineOS.Dev.IoApic
import LimineOS.Cpu.TrapFrames
import LimineOS.Lib.Numerals
import LimineOS.Drivers.Itoa
import LimineOS.Lib.Fuel
import LimineOS.Drivers.Printf
import LimineOS.Drivers.NeverBlocks
import LimineOS.Drivers.Cursor
import LimineOS.Strings
import LimineOS.Memmove
import LimineOS.Lib.Occurrences
import LimineOS.Fs.StrRemove
import LimineOS.Drivers.Hpet
import LimineOS.Doubly
import LimineOS.Lib.Masks
import LimineOS.Drivers.PciBar
import LimineOS.Drivers.GfxMem
import LimineOS.Lib.Traced
import LimineOS.Drivers.Pata
import LimineOS.Lib.Tiling
import LimineOS.Mm.Heap
import LimineOS.Mm.HeapTags
import LimineOS.Mm.HeapShape
import LimineOS.Mm.HeapOps
import LimineOS.Mm.HeapMalloc
import LimineOS.Mm.HeapFree
import LimineOS.Mm.HeapClients
import LimineOS.Mm.HeapRuns
import LimineOS.Mm.HeapSpace
import LimineOS.Mm.HeapMisuse
import LimineOS.Kernel.Loading
