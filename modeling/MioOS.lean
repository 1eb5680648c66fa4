import MioOS.Pmm.Reclaim
import MioOS.Pmm.CarveTag
import MioOS.Paging.Rights
import MioOS.Paging.Hhdm
import MioOS.Paging.KernelMap
import MioOS.Paging.Protect
import MioOS.Paging.Address
import MioOS.Syscall.KernelStack
import MioOS.Syscall.Dispatch
import MioOS.Time.KernelTime
import MioOS.Time.Sources
import MioOS.Time.Rtc
import MioOS.Acpi.Bounds
import MioOS.Interrupts.Ioapic
import MioOS.Interrupts.Uacpi
import MioOS.Interrupts.Init
import MioOS.Smp.Startup
import MioOS.Slub.Geometry
import MioOS.Boot.Multiboot
import MioOS.Boot.MmapIterator
import MioOS.Console.Refinement
import MioOS.Console.Print
import MioOS.Console.Line
import MioOS.Util.Refinement
import MioOS.Util.Memory
import MioOS.Util.Number
import MioOS.Slub.Cache
import MioOS.Slub.Routing
import MioOS.Interrupts.Delivery
import MioOS.Slub.Linearizable
