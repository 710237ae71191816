import Saios.HeapServes
import Saios.Sched.Interrupts
import Saios.Sched.Fairness
import Saios.Storage.Refine
import Saios.Storage.Failure
import Saios.Storage.Partitions
import Saios.Vfs.RefineRun
import Saios.Vfs.Clients
import Saios.Vfs.WayBack
import Saios.Vfs.SharedFiles
import Saios.Vfs.Syscall
import Saios.Mounts.Agreement
import Saios.Ksf.Dependencies
import Saios.Vmm.Frame
import Saios.Vmm.Interleaving
import Saios.Vmm.LowTables
import Saios.Boot.Image
import Saios.Shell.Control
import Saios.Shell.Quoting
import Saios.Shell.Completion
import Saios.Shell.Nesting
import Saios.Shell.Regex
import Saios.Console.Mirror
import Saios.Console.Bounds
import Saios.Saifs.TwoResolvers
import Saios.Saifs.Handles
import Saios.Input.Ps2
import Saios.Driver.Xhci
import Saios.Driver.Registry
