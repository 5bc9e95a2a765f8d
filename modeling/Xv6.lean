import Xv6.Log.Proof.Operations
import Xv6.Log.Proof.Reserve
import Xv6.Bio.Proof.Faults
import Xv6.Bio.Proof.Room
import Xv6.Bio.Proof.Recency
import Xv6.Ipc.Counter
import Xv6.Ipc.Proof.Wakeup
import Xv6.Sync.Proof.Sleeplock
import Xv6.Sync.Proof.Spinlock
import Xv6.Proc.Proof.Exclusive
import Xv6.Proc.Proof.Kill
import Xv6.Vm.Proof.Descriptors
import Xv6.Vm.Proof.Leak
import Xv6.Vm.Proof.Mappages
import Xv6.Vm.Proof.Range
import Xv6.Vm.Proof.Args
import Xv6.Vm.Proof.Elf
import Xv6.Vm.Proof.Stale
import Xv6.Console.Proof.Discipline
import Xv6.Console.Proof.Bounds
import Xv6.Fs.Proof.Shared
import Xv6.Fs.Proof.Flat
import Xv6.Fs.Proof.Link
import Xv6.Net.Proof.Answers
import Xv6.Net.Proof.Buffers
import Xv6.Net.Proof.Checksum
import Xv6.Net.Proof.Exhaustion
import Xv6.Net.Proof.Transmit
import Xv6.Net.Proof.Receive
import Xv6.User.Proof.Redirect
import Xv6.Boot.Proof.Loader
import Xv6.Boot.Proof.Madt
import Xv6.User.Proof.Grep
