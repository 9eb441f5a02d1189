import Tasvir.RunLength
import Tasvir.WriteLog
import Tasvir.SyncList
import Tasvir.ParseLog
import Tasvir.ParseUnits
import Tasvir.ParseSpec
import Tasvir.Machine
import Tasvir.InternalParse
import Tasvir.InternalSync
import Tasvir.OwnerRun
import Tasvir.Emission
import Tasvir.External
import Tasvir.AgedLogs
import Tasvir.OwnerNode
import Tasvir.Coverage
import Tasvir.CoverageRun
import Tasvir.LongRun
import Tasvir.GuardedWalk
import Tasvir.InitRequest
import Tasvir.Receiver
import Tasvir.AtomicUpdate
import Tasvir.RemoteArea
import Tasvir.Retransmit
import Tasvir.ReportedVersion
import Tasvir.Changes
import Tasvir.Replication
import Tasvir.ThreadTable
import Tasvir.Container
import Tasvir.Routing
import Tasvir.RpcCalls
import Tasvir.RpcOnce
import Tasvir.Subscription
import Tasvir.CoopSync
import Tasvir.Deactivate
import Tasvir.Jobs
import Tasvir.Ownership
import Tasvir.Barrier
import Tasvir.Versions
import Tasvir.Feed
import Tasvir.ReadYourWrites
import Tasvir.Sender
import Tasvir.ParseExact
import Tasvir.EmissionExact
import Tasvir.SyncWidths
import Tasvir.DaemonList
import Tasvir.KillThread
import Tasvir.ArrayBarrier
import Tasvir.Ledger
import Tasvir.RpcBuffers
import Tasvir.PendingRing
import Tasvir.ByteMem
import Tasvir.KvAlloc
import Tasvir.AllocSound
import Tasvir.KvStore
import Tasvir.KvHeap
import Tasvir.KvUpdate
import Tasvir.KvReplica
import Tasvir.KvLeak
import Tasvir.AreaLayout
import Tasvir.NewArea
import Tasvir.ServiceNodes
import Tasvir.ThreadRings
import Tasvir.RpcMarshal
import Tasvir.Attach
import Tasvir.Takeover
import Tasvir.LogExact
import Tasvir.ArrayLog
import Tasvir.Stats
import Tasvir.SlotTable
import Tasvir.CuckooMap
import Tasvir.CuckooSpace
import Tasvir.CuckooInv
import Tasvir.CuckooRun
import Tasvir.CuckooIter
import Tasvir.CuckooReplica
import Tasvir.ShortestWalks
import Tasvir.RoutingDynamic
import Tasvir.LeastFirst
import Tasvir.RoutingDijkstra
import Tasvir.UnionForest
import Tasvir.Interleaving
import Tasvir.CycladesPartition
import Tasvir.CycladesTrain
import Tasvir.GenerateLut
import Tasvir.SpinLocks
import Tasvir.ReverseCursor
import Tasvir.DictScan
