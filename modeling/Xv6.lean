import Xv6.Logging.Admission
import Xv6.Vm.UserAddress
import Xv6.Pipes.Sleepers
import Xv6.Sched.History
import Xv6.Vm.SharedFrame
import Xv6.Console.LineEditor
import Xv6.Sched.Pids
import Xv6.Virtio.Protocol
import Xv6.Vm.CopyOnWrite
import Xv6.Pipes.Delivery
import Xv6.Vm.FailedFork
import Xv6.Vm.Arguments
import Xv6.Fs.DirectoryMap
import Xv6.Fs.FailedOpen
import Xv6.Vm.UserString
import Xv6.Vm.UserWrite
import Xv6.Vm.PageMap
import Xv6.Fs.BlockMap
import Xv6.User.Umalloc
import Xv6.User.Grep
import Xv6.Bio.Cache
import Xv6.User.Memmove
import Xv6.Logging.Recovery
import Xv6.Sched.LockOrder
