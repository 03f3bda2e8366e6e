import Xv6.Spin
import Xv6.Killable
import Xv6.Stopped
import Xv6.Uncatchable
import Xv6.Privilege
import Xv6.Dispatch
import Xv6.ForkSignals
import Xv6.Reuse
import Xv6.Delivery
import Xv6.Pipe
import Xv6.Vm.Ownership
import Xv6.Bio.Cache
import Xv6.Log.Crash
import Xv6.Sh.Strings
import Xv6.Sh.Redirect
import Xv6.Grep.Lines
import Xv6.Fs.Counted
import Xv6.Fs.Tree
import Xv6.Blocks.Filewrite
import Xv6.Blocks.Icache
import Xv6.Mkfs.WellFormed
import Xv6.Console
import Xv6.Ide
import Xv6.Umalloc.Huge
import Xv6.Vm.ExecSafe
import Xv6.Memmove
import Xv6.Mp
