import TtBhLinux.Common.System
import TtBhLinux.Common.Emits
import TtBhLinux.Common.Recorded
import TtBhLinux.Common.Sections
import TtBhLinux.Common.Service
import TtBhLinux.Common.Cells
import TtBhLinux.Common.Circular
import TtBhLinux.Common.Fifo
import TtBhLinux.Common.Memory
import TtBhLinux.Pll.Agreement
import TtBhLinux.Pll.Concurrent
import TtBhLinux.Console.Lossless
import TtBhLinux.Console.Deadlock
import TtBhLinux.Console.Escape
import TtBhLinux.Console.Layout
import TtBhLinux.Console.Sessions
import TtBhLinux.L2cpu.MemoryPtr
import TtBhLinux.L2cpu.Bounds
import TtBhLinux.L2cpu.Teardown
import TtBhLinux.Virtio.Features
import TtBhLinux.Virtio.LoopVisit
import TtBhLinux.Virtio.WalkEnds
import TtBhLinux.Virtio.UsedLength
import TtBhLinux.Virtio.ExactlyOnce
import TtBhLinux.Virtio.Callbacks
import TtBhLinux.Virtio.Progress
import TtBhLinux.Virtio.InFlight
import TtBhLinux.Virtio.Interrupts
import TtBhLinux.Virtio.Shutdown
import TtBhLinux.Virtio.RingSize
import TtBhLinux.Virtio.Reset
import TtBhLinux.Virtio.Selectors
import TtBhLinux.Virtio.GuestMemory
import TtBhLinux.Virtio.Independence
import TtBhLinux.Disk.Refinement
import TtBhLinux.Disk.Capacity
import TtBhLinux.Disk.Served
import TtBhLinux.Network.Transmit
import TtBhLinux.Network.Receive
import TtBhLinux.Network.Delivery
import TtBhLinux.Network.Arrival
import TtBhLinux.Boot.Regions
import TtBhLinux.Boot.Release
