import Kenux.Bpf.Proofs.ArrayMap
import Kenux.Bpf.Proofs.Jit
import Kenux.Bpf.Proofs.NextKey
import Kenux.Bpf.Proofs.Stores
import Kenux.Build.Proofs.Runs
import Kenux.Cfs.Proofs.Runs
import Kenux.Cfs.Proofs.Vruntime
import Kenux.Cgroup.Proofs.Runs
import Kenux.Conntrack.Proofs.Runs
import Kenux.Dns.Proofs.Cache
import Kenux.Dns.Proofs.Response
import Kenux.Eevdf.Proofs.Weights
import Kenux.Elf.Stack
import Kenux.Epoll.Proofs.Runs
import Kenux.Exfat.EntrySets
import Kenux.Exfat.Files
import Kenux.Ext3.Proofs.Alloc
import Kenux.Ext4.Proofs.Extents
import Kenux.Fat.Proofs.Buffers
import Kenux.Fat.Proofs.Format
import Kenux.Ipc.Proofs.Futex
import Kenux.Ipc.Proofs.Messages
import Kenux.Ipc.Proofs.Semaphores
import Kenux.Jbd2.Proofs.Slots
import Kenux.Kal.Proofs.Runs
import Kenux.Kapi.Hash
import Kenux.Kapi.Kfifo
import Kenux.Kapi.Mempool
import Kenux.Kapi.Printf
import Kenux.Kapi.Proofs.Heapsort
import Kenux.Kapi.Proofs.Runs
import Kenux.Kapi.Text
import Kenux.Kmalloc.Proofs.Krealloc
import Kenux.Ldso.Lookup
import Kenux.Ldso.Proofs.Runs
import Kenux.Mmap.Proofs.FrameLedger
import Kenux.Mmap.Proofs.FreeArea
import Kenux.Mmap.Proofs.PageView
import Kenux.Mmap.Proofs.Protect
import Kenux.Module
import Kenux.Net.Config
import Kenux.Net.Datagrams
import Kenux.Net.Dhcp
import Kenux.Net.Proofs.Send
import Kenux.Net.Proofs.Stream
import Kenux.Netfilter.Proofs.Runs
import Kenux.NodeCache.Proofs.Interleavings
import Kenux.PageCache.Proofs.Pool
import Kenux.Pe.Relocations
import Kenux.Pmap.Proofs.Cow
import Kenux.Pmap.Proofs.Isolation
import Kenux.Rcu.GracePeriods
import Kenux.Route.Lookup
import Kenux.Signal.Proofs.Runs
import Kenux.Slab.Proofs.Layout
import Kenux.Slab.Proofs.Runs
import Kenux.Swap.Proofs.Counters
import Kenux.TcpCong.Proofs.Runs
import Kenux.Timer.Proofs.Calls
import Kenux.Tmpfs.Files
import Kenux.Unixsock.Proofs.Pipes
import Kenux.Unixsock.Proofs.Sequences
import Kenux.Vfs.Proofs.Descriptors
import Kenux.Vfs.Proofs.Namespace
import Kenux.Workqueue
