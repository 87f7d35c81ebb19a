import Xv6.Bio.Theorems
import Xv6.Console.Theorems
import Xv6.Count.Theorems
import Xv6.Fs.Theorems
import Xv6.Intr.Theorems
import Xv6.Kernel.Exec.Theorems
import Xv6.Kernel.Memory.Sbrk
import Xv6.Kernel.Memory.Theorems
import Xv6.Kernel.Theorems
import Xv6.Offset.Theorems
import Xv6.Pipe.Theorems
import Xv6.Ptable.Theorems
import Xv6.Screen.Theorems
import Xv6.Shell.Theorems
import Xv6.Sleeplock.Theorems
import Xv6.Umalloc.Theorems
import Xv6.Vm.Theorems
