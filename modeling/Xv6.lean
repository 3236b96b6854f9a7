import Xv6.Log.Admission
import Xv6.Bio.Recovery
import Xv6.Fs.Logged
import Xv6.Fs.Shared
import Xv6.Proc.Switch
import Xv6.Proc.Reap
import Xv6.Proc.Hygiene
import Xv6.Proc.Deadlock
import Xv6.Pipe.Sleepers
import Xv6.Virtio.Protocol
import Xv6.Console.Discipline
import Xv6.Console.Transmit
import Xv6.Vm.SysExec
import Xv6.Vm.PageMap
import Xv6.Vm.Uvmcopy
import Xv6.Vm.Piperead
import Xv6.Sysfile.Path
import Xv6.Sh.Command
import Xv6.Mkfs.Agree
import Xv6.Umalloc.Sbrk
import Xv6.Intr.State
import Xv6.User.Xargs
import Xv6.User.Find
import Xv6.User.Memmove
import Xv6.User.Printf
