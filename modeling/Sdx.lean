import Sdx.Base
import Sdx.Core.AhciCmd
import Sdx.Core.Disk
import Sdx.Core.DiskPart
import Sdx.Core.DiskRequests
import Sdx.Core.DiskScan
import Sdx.Core.DiskWrite
import Sdx.Core.GptParts
import Sdx.Core.GptReads
import Sdx.Core.Im
import Sdx.Core.PartTable
import Sdx.Core.Serial
import Sdx.Fs.Devices
import Sdx.Fs.Elf
import Sdx.Fs.ElfBias
import Sdx.Fs.ElfCheck
import Sdx.Fs.ElfContents
import Sdx.Fs.ElfFits
import Sdx.Fs.ElfLoad
import Sdx.Fs.ElfPages
import Sdx.Fs.Fat32
import Sdx.Fs.Fat32Name
import Sdx.Fs.Fat32Scan
import Sdx.Fs.Fat32Listing
import Sdx.Fs.Fat32Read
import Sdx.Fs.Fat32Volume
import Sdx.Fs.Fat32Requests
import Sdx.Fs.Fat32Namei
import Sdx.Fs.Fat32Chain
import Sdx.Fs.Fat32Decode
import Sdx.Fs.Fat32Ends
import Sdx.Fs.Fat32Lookup
import Sdx.Fs.Fat32Inside
import Sdx.Fs.FmtLoad
import Sdx.Fs.Rootfs
import Sdx.Fs.Vfs
import Sdx.Fs.VfsFiles
import Sdx.Fs.VfsLookup
import Sdx.Fs.VfsMount
import Sdx.Fs.VfsOpen
import Sdx.Fs.VfsPath
import Sdx.Fs.VfsPut
import Sdx.Fs.VfsRefs
import Sdx.Fs.VfsResolve
import Sdx.Fs.VfsDrop
import Sdx.Fs.VfsUmount
import Sdx.Lib.Bytes
import Sdx.Lib.Calendar
import Sdx.Lib.Fuel
import Sdx.Lib.LinkedList
import Sdx.Lib.Run
import Sdx.Lib.Scan
import Sdx.Lib.Trace
import Sdx.Mm.Heap
import Sdx.Mm.HeapList
import Sdx.Mm.HeapAlloc
import Sdx.Mm.HeapFree
import Sdx.Mm.HeapConservation
import Sdx.Mm.HeapGrow
import Sdx.Mm.HeapFit
import Sdx.Mm.HeapRealloc
import Sdx.Mm.PageTree
import Sdx.Mm.PageTreeEdit
import Sdx.Mm.Paging
import Sdx.Mm.Pmm
import Sdx.Mm.PmmFirstFit
import Sdx.Mm.PmmFlat
import Sdx.Mm.PmmFree
import Sdx.Mm.PmmInit
import Sdx.Mm.PmmLedger
import Sdx.Mm.Region
import Sdx.Mm.RegionContents
import Sdx.Mm.RegionCopy
import Sdx.Mm.RegionMap
import Sdx.Mm.Vmm
import Sdx.Mm.VmmClear
import Sdx.Mm.VmmExact
import Sdx.Mm.VmmFind
import Sdx.Mm.VmmGraft
import Sdx.Mm.VmmLinear
import Sdx.Mm.VmmMapTo
import Sdx.Mm.VmmMapped
import Sdx.Mm.VmmPages
import Sdx.Mm.VmmRoundTrip
import Sdx.Mm.VmmSync
import Sdx.Mm.VmmStarve
import Sdx.Mm.VmmSynced
import Sdx.Mm.VmmWalk
import Sdx.Sched.Files
import Sdx.Sched.FileClear
import Sdx.Sched.Fork
import Sdx.Sched.ForkLeak
import Sdx.Sched.Parents
import Sdx.Sched.Pid
import Sdx.Sched.Queue
import Sdx.Sched.RoundRobin
import Sdx.Sched.Signal
import Sdx.Sched.Stack
import Sdx.Sched.Switch
import Sdx.Sched.Task
import Sdx.Sched.Timer
import Sdx.Sched.Wait
import Sdx.Sched.Waitq
import Sdx.Syscall.Exec
import Sdx.Syscall.ExecArgs
import Sdx.Syscall.ExecCopy
import Sdx.Util.Charlist
import Sdx.Util.Dlist
import Sdx.Util.Slist
import Sdx.Util.Spinlock
import Sdx.Util.Str
import Sdx.Util.Timestamp
import Sdx.Video.Fb
import Sdx.Video.Terminal
import Sdx.Lib.Numeral
import Sdx.Mm.PageCount
import Sdx.Util.Number
import Sdx.Util.Printf
import Sdx.Util.Strstr
import Sdx.Video.FbAccess
import Sdx.Core.AhciSata
import Sdx.Core.Acpi
import Sdx.Core.Pci
import Sdx.Fs.ElfWrites
import Sdx.Lib.Asm
import Sdx.Lib.AsmStack
import Sdx.Core.Handler
import Sdx.Syscall.SysHandler
import Sdx.Syscall.Start
import Sdx.Boot.PagingSetup
import Sdx.Boot.BootMap
import Sdx.Boot.Multiboot
import Sdx.Mm.PmmInfo
