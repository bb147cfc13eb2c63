import Hcl.Lib.Runs
import Hcl.Lib.Shards
import Hcl.Lib.Keyed
import Hcl.Lib.Chain
import Hcl.Lib.Levels
import Hcl.Lib.Sorted
import Hcl.Lib.Checked
import Hcl.Lib.Faults
import Hcl.Lib.Partition
import Hcl.Lib.LockOrder
import Hcl.Lib.Mutex
import Hcl.Lib.Atomic
import Hcl.Lib.Monitor
import Hcl.Lib.Session
import Hcl.Container
import Hcl.UnorderedMap
import Hcl.UnorderedMap.Exclusion
import Hcl.UnorderedMap.Occupied
import Hcl.KeyValue
import Hcl.Map
import Hcl.Multimap
import Hcl.Set
import Hcl.Set.Head
import Hcl.Ordered
import Hcl.Queues
import Hcl.Queues.Concurrent
import Hcl.Sequencer
import Hcl.KeyValue.Concurrent
import Hcl.WritePath
import Hcl.BlockMap.MemoryPool
import Hcl.BlockMap.Basic
import Hcl.BlockMap.Walks
import Hcl.BlockMap.Refinement
import Hcl.BlockMap.Get
import Hcl.BlockMap.Threads
import Hcl.BlockMap.Places
import Hcl.BlockMap.Conservation
import Hcl.BlockMap.Accounts
import Hcl.BlockMap.Calls
import Hcl.BlockMap.Progress
import Hcl.ConcurrentUnorderedMap.Basic
import Hcl.ConcurrentUnorderedMap.Partition
import Hcl.ConcurrentUnorderedMap.Network
import Hcl.ConcurrentUnorderedMap.Handlers
import Hcl.Config.Uri
import Hcl.Config.ServerList
import Hcl.Config.Configure
import Hcl.Config.Consistency
import Hcl.Config.Served
import Hcl.Config.Rejected
import Hcl.Config.UriFormat
import Hcl.Config.LoadServers
import Hcl.Config.Buffer
import Hcl.Config.BackedFile
import Hcl.SkipList.Node
import Hcl.SkipList.Basic
import Hcl.SkipList.Layers
import Hcl.SkipList.Search
import Hcl.SkipList.Skipper
import Hcl.SkipList.Recycler
import Hcl.SkipList.Loops
import Hcl.SkipList.Quiet
import Hcl.SkipList.Refinement
import Hcl.SkipList.Representation
import Hcl.SkipList.Accessor
import Hcl.SkipList.GracePeriod
import Hcl.SkipList.Threads
import Hcl.SkipList.Invariant
import Hcl.SkipList.Log
import Hcl.SkipList.Safety
import Hcl.SkipList.Steps
import Hcl.SkipList.Changes
import Hcl.SkipList.Alone
import Hcl.SkipList.Interleaving
import Hcl.SkipList.GuardOrder
import Hcl.SkipList.GuardSteps
import Hcl.SkipList.Deadlock
import Hcl.SkipList.Conservation
import Hcl.SkipList.Destruction
import Hcl.SkipList.Calls
import Hcl.SkipList.Matching
import Hcl.SkipList.Linearization
import Hcl.SkipList.Reuse
import Hcl.ConcurrentSkiplist
import Hcl.ConcurrentSkiplist.Handlers
