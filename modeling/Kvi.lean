import Kvi.Library.Links
import Kvi.Library.Tiles
import Kvi.Alloc.Heap
import Kvi.Alloc.Tags
import Kvi.Alloc.Bins
import Kvi.Alloc.Regions
import Kvi.Alloc.Invariant
import Kvi.Alloc.Steps
import Kvi.Alloc.Pages
import Kvi.Alloc.Malloc
import Kvi.Alloc.Free
import Kvi.Alloc.Store
import Kvi.Alloc.System
import Kvi.Alloc.Guarantees
import Kvi.Page.Pool
import Kvi.Boot.E820
import Kvi.Page.Layout
import Kvi.Apic.Stacks
import Kvi.Library.Ring
import Kvi.Ixgbe.Config
import Kvi.Ixgbe.Transmit
import Kvi.Ixgbe.Receive
import Kvi.Library.ExchangeSort
import Kvi.Init.CString
import Kvi.Init.Order
import Kvi.Init.Shutdown
import Kvi.Timer.Hpet
import Kvi.Timer.Sleep
import Kvi.Alloc.Reuse
import Kvi.Alloc.Refused
import Kvi.Alloc.Beside
import Kvi.Alloc.Large
import Kvi.Alloc.Sizes
import Kvi.Printf.Convert
import Kvi.Printf.Output
import Kvi.Printf.Sinks
import Kvi.Printf.Snprintf
import Kvi.Apic.Startup
import Kvi.Drivers.Binding
import Kvi.Acpi.Stages
import Kvi.Timer.Usleep
import Kvi.Acpi.Processors
import Kvi.Acpi.Lookup
import Kvi.Acpi.RootPointer
import Kvi.Drivers.Bars
import Kvi.Ixgbe.Send
import Kvi.Ixgbe.Recv
import Kvi.Ixgbe.Linkup
import Kvi.Acpi.Revision
import Kvi.Acpi.Trailing
import Kvi.Library.Numeral
import Kvi.Printf.Digits
import Kvi.Printf.Texts
import Kvi.Printf.Layout
import Kvi.Printf.Lengths
import Kvi.Boot.PageTables
import Kvi.Timer.Pmt
import Kvi.Page.Setup
import Kvi.Alloc.Aligned
import Kvi.Ixgbe.Rings
import Kvi.Library.Exclusive
import Kvi.Lock.Spinlock
import Kvi.Library.Turns
import Kvi.Lock.Sections
import Kvi.Printf.Console
import Kvi.Alloc.Poke
import Kvi.Alloc.Shared
import Kvi.Page.Kernel
import Kvi.Ixgbe.Queues
import Kvi.Apic.Shutdown
import Kvi.Alloc.Retention
import Kvi.Apic.Wakeup
import Kvi.Alloc.Tenants
import Kvi.Ixgbe.Transfers
import Kvi.Timer.Main
