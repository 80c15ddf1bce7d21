import HaloOS.Lib.Exec
import HaloOS.Lib.Trace
import HaloOS.Lib.Radix
import HaloOS.Lib.Frame
import HaloOS.Lib.Ring
import HaloOS.Lib.Tally
import HaloOS.Lib.Numbering
import HaloOS.Lib.Owned
import HaloOS.Lib.Logged
import HaloOS.Lib.Copy
import HaloOS.Lib.Circle
import HaloOS.Lib.Asm
import HaloOS.Param
import HaloOS.Bcache.Model
import HaloOS.Bcache.Contents
import HaloOS.Bcache.Sharing
import HaloOS.Bcache.Transparency
import HaloOS.Bcache.Recency
import HaloOS.Fs.Bitmap
import HaloOS.Virtio.Model
import HaloOS.Virtio.Pool
import HaloOS.Virtio.Base
import HaloOS.Virtio.Replay
import HaloOS.Virtio.Chains
import HaloOS.Virtio.Queues
import HaloOS.Virtio.Lifecycle
import HaloOS.Virtio.Wakeup
import HaloOS.Virtio.Progress
import HaloOS.Vm.Model
import HaloOS.Vm.Pool
import HaloOS.Vm.Tree
import HaloOS.Vm.Walk
import HaloOS.Vm.Space
import HaloOS.Vm.Uvm
import HaloOS.Vm.Teardown
import HaloOS.Vm.Build
import HaloOS.Vm.Sv39
import HaloOS.Vm.Mapping
import HaloOS.Vm.Resize
import HaloOS.Vm.Cloning
import HaloOS.Vm.Agreement
import HaloOS.Vm.Freeing
import HaloOS.Vm.Copyout
import HaloOS.Vm.Copyinstr
import HaloOS.Vm.KernelTable
import HaloOS.Vm.Kmem
import HaloOS.Fs.Model
import HaloOS.Fs.Layout
import HaloOS.Fs.Clean
import HaloOS.Fs.WriteThrough
import HaloOS.Fs.Resting
import HaloOS.Fs.BitSearch
import HaloOS.Fs.Frame
import HaloOS.Fs.Locks
import HaloOS.Fs.InodeCache
import HaloOS.Fs.References
import HaloOS.Fs.Putting
import HaloOS.Fs.Lookup
import HaloOS.Mkfs.Model
import HaloOS.Mkfs.Blocks
import HaloOS.Mkfs.Append
import HaloOS.Mkfs.Volume
import HaloOS.Mkfs.Image
import HaloOS.Mkfs.Consistency
import HaloOS.Mkfs.Format
import HaloOS.Mkfs.Capacity
import HaloOS.Fs.Encoding
import HaloOS.Fs.Store
import HaloOS.Fs.BlockMap
import HaloOS.Fs.Bmap
import HaloOS.Fs.Truncate
import HaloOS.Fs.Writing
import HaloOS.Fs.Reading
import HaloOS.Kernel.Model
import HaloOS.Kernel.Ledger
import HaloOS.Fs.Calm
import HaloOS.Kernel.Spaces
import HaloOS.Kernel.Image
import HaloOS.Kernel.Stack
import HaloOS.Kernel.Reader
import HaloOS.Kernel.ExecSpec
import HaloOS.Kernel.Runs
import HaloOS.Kernel.Memory
import HaloOS.Kernel.Arguments
import HaloOS.Kernel.Program
import HaloOS.Kernel.OpenFiles
import HaloOS.Kernel.Copyin
import HaloOS.Kernel.Growproc
import HaloOS.Kernel.OpenFailure
import HaloOS.Kernel.Paths
import HaloOS.Kernel.InodeRefs
import HaloOS.Kernel.Fileread
import HaloOS.Kernel.Syscall
import HaloOS.Kernel.Respect
import HaloOS.Kernel.Isolation
import HaloOS.Kernel.Forking
import HaloOS.Kernel.Footprint
import HaloOS.Kernel.Waiting
import HaloOS.Kernel.Trap
import HaloOS.Kernel.Resume
import HaloOS.Proc.SleepLock
import HaloOS.Proc.Scheduler
import HaloOS.Proc.Reaping
import HaloOS.Proc.Nesting
import HaloOS.Console.Uart
import HaloOS.Console.Input
import HaloOS.Console.Printf
import HaloOS.Console.Digits
import HaloOS.Util.Memmove
import HaloOS.Util.Strings
import HaloOS.Fs.Linking
import HaloOS.User.Sh
import HaloOS.User.Umem
import HaloOS.User.Malloc
import HaloOS.User.Heap
