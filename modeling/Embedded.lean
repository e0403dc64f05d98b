import Embedded.Bootloader.Bootargs
import Embedded.Dbg.LineRoundTrip
import Embedded.Kernel.CallEffects
import Embedded.Kernel.Cwd
import Embedded.Kernel.DirList
import Embedded.Kernel.FileGrowth
import Embedded.Kernel.FileRefs
import Embedded.Kernel.FileSlots
import Embedded.Kernel.Gunzip
import Embedded.Kernel.KmallocRuns
import Embedded.Kernel.Layout
import Embedded.Kernel.Scripts
import Embedded.Libc.DsoLookup
import Embedded.Libc.MallocRuns
import Embedded.Rtos.Cores
import Embedded.Rtos.HeapRuns
import Embedded.Rtos.Log
import Embedded.Rtos.RoundRobin
import Embedded.Rtos.Sleep
import Embedded.Rtos.TinyfsRefines
import Embedded.Rtos.Udp
import Embedded.Rtos.Waiting
import Embedded.Sim.Exceptions
import Embedded.Sim.ItBlock
import Embedded.Sim.Nvic
import Embedded.Toolchain.Aapcs
import Embedded.Toolchain.Cpp.Expansion
import Embedded.Toolchain.Cpp.Relex
import Embedded.Toolchain.DivConst
import Embedded.Toolchain.Ld.Branches
import Embedded.Toolchain.Ld.Loading
import Embedded.Toolchain.Ld.Reachable
import Embedded.Toolchain.Ld.RelAdjust
import Embedded.Toolchain.Ld.Resolution
import Embedded.Toolchain.StructLayout
