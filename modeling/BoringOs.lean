import BoringOs.BufCacheCoherence
import BoringOs.O2fsCrash
import BoringOs.Spinlock
import BoringOs.Sleep
import BoringOs.Handle
import BoringOs.ProcessExit
import BoringOs.ThreadDestroy
import BoringOs.ThreadWait
import BoringOs.CondVar
import BoringOs.CrossCall
import BoringOs.Malloc
import BoringOs.Slab
import BoringOs.Pthread
import BoringOs.Teardown
import BoringOs.DirectMap
import BoringOs.BufCacheFault
import BoringOs.NewfsTree
import BoringOs.VfsExhaustion
import BoringOs.O2fsHoles
import BoringOs.O2fsAtomic
import BoringOs.KTimeClock
import BoringOs.Rtc
import BoringOs.BootMemory
import BoringOs.LibcTime
import BoringOs.SpawnResources
import BoringOs.SleepAlarm
import BoringOs.LoaderContained
import BoringOs.Console
import BoringOs.Ps2
import BoringOs.Vga
import BoringOs.PrintfFormat
import BoringOs.Pci
import BoringOs.Exit
import BoringOs.PthreadMutex
import BoringOs.CString
import BoringOs.Stdio
import BoringOs.E1000
import BoringOs.Ide
