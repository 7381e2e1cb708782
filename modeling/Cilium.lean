import Cilium.Bitlpm.Trie
import Cilium.Bitlpm.Invariant
import Cilium.Bitlpm.Update
import Cilium.Bitlpm.Unsigned
import Cilium.Bitlpm.Refinement
import Cilium.Bitlpm.Bounded
import Cilium.Bitlpm.Iterators
import Cilium.Lib.MapHistory
import Cilium.Lib.GoHeap
import Cilium.Policy.Types
import Cilium.Policy.Origin
import Cilium.Policy.MapState
import Cilium.Policy.Insert
import Cilium.Policy.Datapath
import Cilium.Policy.Indices
import Cilium.Policy.Reachable
import Cilium.IPCache.IPCache
import Cilium.Lib.AListSum
import Cilium.Identity.Labels
import Cilium.Identity.Allocator
import Cilium.IPCache.Metadata
import Cilium.IPCache.Inject
import Cilium.IPCache.Balance
import Cilium.Lib.Dyadic
import Cilium.Policy.PortRange
import Cilium.Bitlpm.Queries
import Cilium.Policy.Selector
import Cilium.Fqdn.MatchPattern
import Cilium.Fqdn.NameManager
import Cilium.Lib.CyclicPosition
import Cilium.Hubble.Ring
import Cilium.IdPool.Pool
import Cilium.LoadBalancer.IdAllocator
import Cilium.LoadBalancer.Reconciler
import Cilium.Lib.Stride
import Cilium.Maglev.Permutation
import Cilium.Maglev.Table
import Cilium.Maglev.Complete
import Cilium.Lib.BitSet
import Cilium.Ipam.Bitmap
import Cilium.Ipam.IPAllocator
import Cilium.Ipam.RangeReachable
import Cilium.Ipam.CidrSet
import Cilium.Lib.GoSlices
import Cilium.Container.ImmSet
import Cilium.Lib.SliceHeap
import Cilium.Container.ImmSetMemory
import Cilium.Container.RingBuffer
import Cilium.LoadBalancer.Writer
import Cilium.Labels.ArrayList
import Cilium.Labels.MergeSorted
import Cilium.Counter.Prefixes
import Cilium.IPCache.PrefixLengths
import Cilium.Fqdn.Zombies
import Cilium.Ipalloc.HashAllocator
import Cilium.Ipalloc.Blocks
import Cilium.Ipalloc.Safety
import Cilium.Fqdn.Glob
import Cilium.Lib.Trace
import Cilium.Trigger.Trigger
import Cilium.Trigger.Run
import Cilium.Trigger.Spec
import Cilium.Policy.SelectorCache
import Cilium.Allocator.Allocator
import Cilium.Allocator.Runs
import Cilium.Ipam.Pool
import Cilium.Fqdn.Cache
import Cilium.Fqdn.CacheSteps
import Cilium.Fqdn.CacheCalls
import Cilium.Fqdn.CacheRuns
import Cilium.IPCache.Invalidation
import Cilium.Lib.LowByte
import Cilium.Policy.ToMapState
import Cilium.Policy.Distill
import Cilium.Lib.GoNet
import Cilium.Ip.Coalesce
import Cilium.Ip.Merge
import Cilium.Xds.Cache
import Cilium.Xds.Ack
import Cilium.Xds.AckRuns
import Cilium.Xds.CacheRuns
import Cilium.Xds.Delta
