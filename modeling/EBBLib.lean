import EBBLib.EventMgr.Imp
import EBBLib.EventMgr.Replicas
import EBBLib.Library.Chain
import EBBLib.Library.Coalescing
import EBBLib.Library.FirstFit
import EBBLib.Library.Pool
import EBBLib.Library.Transducer
import EBBLib.Library.Transition
import EBBLib.Library.Word
import EBBLib.MemMgr.Arena
import EBBLib.MemMgr.Calls
import EBBLib.MemMgr.FreeOrder
import EBBLib.MemMgr.Run
import EBBLib.MemMgr.Simple
import EBBLib.MemMgr.Tiling
import EBBLib.Msg.Store
import EBBLib.Msg.Wakeup
import EBBLib.Pic.CoreId
import EBBLib.Root.Ctr
import EBBLib.Root.Multi
import EBBLib.SSAC.SimpleSharedArray
import EBBLib.SSAC.Transparent
import EBBLib.Start.Init
import EBBLib.Start.Publication
import EBBLib.Start.RoundTrip
import EBBLib.Start.StartInfo
import EBBLib.Trans.Address
import EBBLib.Trans.Alloc
import EBBLib.Trans.Dispatch
import EBBLib.Trans.Rebind
import EBBLib.Trans.Recycle
import EBBLib.Trans.Table
import EBBLib.Types
import EBBLib.Pic.Startup
import EBBLib.Pic.Vectors
import EBBLib.Trans.Unique
import EBBLib.SSAC.Clients
import EBBLib.SSAC.Holds
import EBBLib.SSAC.Readers
import EBBLib.Msg.NoLostWakeup
import EBBLib.Library.Partition
import EBBLib.Msg.Delivery
import EBBLib.Msg.Roster
import EBBLib.Msg.Places
import EBBLib.Msg.ExactlyOnce
import EBBLib.MemMgr.Stupid
import EBBLib.Pic.Calls
import EBBLib.Pic.Loop
import EBBLib.Trans.Exhaustion
import EBBLib.Root.Misses
import EBBLib.Root.Walk
import EBBLib.Root.CtrWalk
import EBBLib.Msg.Order
import EBBLib.EventMgr.Register
import EBBLib.EventMgr.Failing
import EBBLib.EventMgr.Bounds
import EBBLib.SSAC.Flush
import EBBLib.SSAC.Sets
import EBBLib.SSAC.Failure
import EBBLib.SSAC.LazyInit
import EBBLib.Start.Accounting
import EBBLib.Stdio.Prints
import EBBLib.Stdio.Printi
import EBBLib.Stdio.Vfprintf
import EBBLib.Stdio.Format
import EBBLib.Stdio.Directives
import EBBLib.Stdio.Numbers
import EBBLib.Stdio.Standard
import EBBLib.Stdio.Zero
import EBBLib.Stdio.Texts
import EBBLib.Stdio.Alignment
import EBBLib.Library.Numeral
import EBBLib.Stdio.ReadBack
import EBBLib.Library.Leftmost
import EBBLib.SSAC.Victim
import EBBLib.Trans.Invalidate
import EBBLib.Trans.CoreSet
import EBBLib.Library.Mask
import EBBLib.SSAC.SimplePartitionedArray
import EBBLib.Bare.Bic
import EBBLib.Bare.Ioapic
import EBBLib.Bare.Acpi
import EBBLib.Library.Keyed
import EBBLib.Library.Bits
import EBBLib.Library.Coherence
import EBBLib.Library.Refinement
import EBBLib.SSAC.SimpleReplicatedArray
import EBBLib.SSAC.ReplicatedTables
import EBBLib.SSAC.ReplicatedDirectory
import EBBLib.SSAC.ReplicatedMisses
import EBBLib.SSAC.ReplicatedClients
import EBBLib.SSAC.ReplicatedCoherence
import EBBLib.SSAC.ReplicatedFrame
import EBBLib.SSAC.ReplicatedRegisters
import EBBLib.SSAC.ReplicatedSole
import EBBLib.Library.Barrier
import EBBLib.Apps.Barrier
import EBBLib.Apps.BindTst
import EBBLib.SSAC.PartitionedCache
import EBBLib.Library.Paging
import EBBLib.Library.Fifo
import EBBLib.Bare.Paging
import EBBLib.Bare.Mailbox
import EBBLib.Apps.Console
