import Xv6.Lib.Program
import Xv6.Lib.Bytes
import Xv6.Param
import Xv6.Log.Disk
import Xv6.Log.Recovery
import Xv6.Lib.Transition
import Xv6.Log.Group
import Xv6.Log.Atomicity
import Xv6.Log.Capacity
import Xv6.Fs.Mapping
import Xv6.Fs.Content
import Xv6.Fs.Truncate
import Xv6.Fs.Integrity
import Xv6.Sys.Write
import Xv6.Proc.Sleep
import Xv6.Proc.Slots
import Xv6.Proc.Scheduler
import Xv6.Sys.Args
import Xv6.Proc.Boot
import Xv6.Proc.Sbrk
import Xv6.Fs.File
import Xv6.Sys.Namei
import Xv6.Log.Waiting
import Xv6.Pipe.Ready
import Xv6.Mkfs.Lookup
import Xv6.Bio.Invariant
import Xv6.Ide.Refines
import Xv6.Bio.Refines
import Xv6.Sys.Descriptors
import Xv6.Console.Readers
import Xv6.Vm.Spaces
import Xv6.Vm.Args
import Xv6.Proc.Leaks
import Xv6.User.Match
import Xv6.Sys.Holding
