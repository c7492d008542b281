import Kioshun.Lib.LinkedList
import Kioshun.Lib.CellStore
import Kioshun.Lib.Iteration
import Kioshun.Cache.Config
import Kioshun.Cache.Runtime
import Kioshun.Cache.Lru
import Kioshun.Cache.Lfu
import Kioshun.Cache.Admission
import Kioshun.Cache.Shard
import Kioshun.Cache.ShardRep
import Kioshun.Cache.SectionSpec
import Kioshun.Cache.RemovalSpec
import Kioshun.Cache.InMemory
import Kioshun.Cache.Frame
import Kioshun.Cache.Clock
import Kioshun.Cache.OpSpec
import Kioshun.Cache.WriteSpec
import Kioshun.Cache.SweepSpec
import Kioshun.Cache.Runs
import Kioshun.Cache.Refinement
import Kioshun.Cache.Concurrent
import Kioshun.Lib.Lww
import Kioshun.Cluster.Hlc
import Kioshun.Cluster.Wire
import Kioshun.Cluster.Ring
import Kioshun.Cluster.Node
import Kioshun.Cluster.NodeSpec
import Kioshun.Cluster.Convergence
import Kioshun.Cluster.Handlers
import Kioshun.Cluster.Backfill
import Kioshun.Cluster.Client
import Kioshun.Cluster.Reach
import Kioshun.Cluster.ReadBack
import Kioshun.Cluster.Rebalance
import Kioshun.Cluster.PushVersion
import Kioshun.Cluster.RingSpec
import Kioshun.Cluster.HlcSpec
import Kioshun.Cluster.Load
import Kioshun.Cluster.RateLimiter
import Kioshun.Cluster.ClockSpec
import Kioshun.Lib.Causality
import Kioshun.Cluster.Causality
import Kioshun.Cluster.Pages
import Kioshun.Cluster.Handoff
import Kioshun.Cluster.HandoffSpec
import Kioshun.Cluster.Hints
import Kioshun.Cluster.Membership
import Kioshun.Cluster.MembershipSpec
import Kioshun.Cluster.OwnRing
import Kioshun.Cluster.Agreement
import Kioshun.Lib.Recency
import Kioshun.Cache.Order
import Kioshun.Cache.Sections
import Kioshun.Cache.Victims
import Kioshun.Cluster.WriteConcern
import Kioshun.Cluster.LoadRace
import Kioshun.Cluster.Lease
import Kioshun.Cluster.RebalanceRace
import Kioshun.Cluster.Transport
import Kioshun.Cluster.TransportSpec
import Kioshun.Cluster.Connection
import Kioshun.Http.PatternIndex
import Kioshun.Http.Message
import Kioshun.Http.Middleware
import Kioshun.Http.Invalidation
import Kioshun.Http.InvalidationRace
import Kioshun.Http.Replay
import Kioshun.Http.Keys
import Kioshun.Cluster.Gossip
import Kioshun.Cluster.Merge
import Kioshun.Cache.Manager
import Kioshun.Cache.ManagerRace
import Kioshun.Cache.ManagerLeaks
import Kioshun.Cache.Lifetime
import Kioshun.Cache.Snapshot
import Kioshun.Cache.Closing
import Kioshun.Cluster.Replies
import Kioshun.Cache.Declined
import Kioshun.Cluster.OwnWrites
import Kioshun.Cluster.HintOrder
import Kioshun.Cluster.HintInvariant
import Kioshun.Cluster.HintRuns
import Kioshun.Cluster.HintEnqueue
import Kioshun.Cluster.HintPositions
import Kioshun.Cluster.HintLosses
import Kioshun.Cluster.HintReplay
import Kioshun.Cluster.HlcRuns
import Kioshun.Cluster.Transfer
import Kioshun.Cluster.Digests
import Kioshun.Cluster.BackfillPass
import Kioshun.Cluster.DigestBatch
import Kioshun.Cluster.Hedge
import Kioshun.Cluster.LeaseChannels
import Kioshun.Lib.Summary
import Kioshun.Cluster.Heat
import Kioshun.Cluster.Tombstones
import Kioshun.Cache.LfuRuns
import Kioshun.Cache.LockUpgrade
import Kioshun.Cache.Accounting
import Kioshun.Cache.Ttl
import Kioshun.Cache.AdmissionInsert
import Kioshun.Cache.Callbacks
import Kioshun.Cache.Doorkeeper
import Kioshun.Cache.Hash
import Kioshun.Cache.ManagerRemoval
import Kioshun.Cache.Sketch
import Kioshun.Cluster.Frames
import Kioshun.Cluster.KeyCodecs
import Kioshun.Cluster.PeerTable
import Kioshun.Http.Freshness
import Kioshun.Http.IndexGrowth
