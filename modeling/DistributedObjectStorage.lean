import DistributedObjectStorage.Library.Transition
import DistributedObjectStorage.Library.Quorum
import DistributedObjectStorage.Library.ReplicatedLog
import DistributedObjectStorage.Library.ReplicatedLogSafety
import DistributedObjectStorage.Library.ReplicatedLogCommit
import DistributedObjectStorage.Library.Framing
import DistributedObjectStorage.Library.AssocList
import DistributedObjectStorage.Library.EraseDups
import DistributedObjectStorage.Library.Scanning
import DistributedObjectStorage.Library.PrefixRange
import DistributedObjectStorage.Library.BlockStream
import DistributedObjectStorage.Library.Utf8
import DistributedObjectStorage.Library.Json
import DistributedObjectStorage.Library.SecureHash
import DistributedObjectStorage.Library.ShiftRegister
import DistributedObjectStorage.Library.Exposition
import DistributedObjectStorage.Library.ExpositionSamples
import DistributedObjectStorage.Library.ExpositionDocuments
import DistributedObjectStorage.Common.Sha256
import DistributedObjectStorage.Common.Sha256Standard
import DistributedObjectStorage.Common.Wire
import DistributedObjectStorage.Common.Metrics
import DistributedObjectStorage.Common.Histogram
import DistributedObjectStorage.Common.MetricsText
import DistributedObjectStorage.Common.LruCache
import DistributedObjectStorage.Common.Decimal
import DistributedObjectStorage.Common.ThreadPool
import DistributedObjectStorage.Consensus.RaftStorage
import DistributedObjectStorage.Consensus.RaftStorageDurability
import DistributedObjectStorage.Consensus.RaftStorageFormat
import DistributedObjectStorage.Consensus.RaftNode
import DistributedObjectStorage.Consensus.RaftCluster
import DistributedObjectStorage.Consensus.RaftSchedule
import DistributedObjectStorage.Consensus.RaftLog
import DistributedObjectStorage.Consensus.RaftRefinement
import DistributedObjectStorage.Consensus.RaftHandlers
import DistributedObjectStorage.Consensus.RaftSimulation
import DistributedObjectStorage.Consensus.RaftSafety
import DistributedObjectStorage.Consensus.RaftBounds
import DistributedObjectStorage.Consensus.RaftTerms
import DistributedObjectStorage.Consensus.LeaderHints
import DistributedObjectStorage.Consensus.RaftHighestTerm
import DistributedObjectStorage.Consensus.RaftTrialRound
import DistributedObjectStorage.Consensus.RaftPreVote
import DistributedObjectStorage.Consensus.RaftFaults
import DistributedObjectStorage.Cluster.ClusterMap
import DistributedObjectStorage.Cluster.MetadataRepository
import DistributedObjectStorage.Cluster.FailureDetector
import DistributedObjectStorage.Cluster.Placement
import DistributedObjectStorage.Cluster.RingDisruption
import DistributedObjectStorage.Cluster.RingMembership
import DistributedObjectStorage.Cluster.CachingMetadataView
import DistributedObjectStorage.Consensus.RaftHistory
import DistributedObjectStorage.Consensus.CatchUp
import DistributedObjectStorage.Consensus.LateAppend
import DistributedObjectStorage.Consensus.LeaderBookkeeping
import DistributedObjectStorage.Consensus.RaftOnDisk
import DistributedObjectStorage.Consensus.RaftRounds
import DistributedObjectStorage.Consensus.RaftElectable
import DistributedObjectStorage.Consensus.RaftAvailability
import DistributedObjectStorage.Cluster.RaftMetadataRepository
import DistributedObjectStorage.Cluster.RaftMetadataSafety
import DistributedObjectStorage.Cluster.SequentialReads
import DistributedObjectStorage.Cluster.SingleReplica
import DistributedObjectStorage.Network.MetadataServer
import DistributedObjectStorage.Network.MembershipChange
import DistributedObjectStorage.Common.OrderedMap
import DistributedObjectStorage.Storage.MetadataStore
import DistributedObjectStorage.Storage.MetadataListing
import DistributedObjectStorage.Storage.Wal
import DistributedObjectStorage.Storage.WalFormat
import DistributedObjectStorage.Storage.BurstErrors
import DistributedObjectStorage.Storage.LocalObjectStore
import DistributedObjectStorage.Storage.StoreMachine
import DistributedObjectStorage.Storage.StoreSlot
import DistributedObjectStorage.Storage.StoreFaults
import DistributedObjectStorage.Storage.FailedWrite
import DistributedObjectStorage.Storage.StoreInvariant
import DistributedObjectStorage.Storage.StoreRecovery
import DistributedObjectStorage.Storage.StoreReachable
import DistributedObjectStorage.Storage.StoreDurability
import DistributedObjectStorage.Storage.StoreAtomicity
import DistributedObjectStorage.Storage.StoreReplay
import DistributedObjectStorage.Storage.StoreShape
import DistributedObjectStorage.Storage.StoreRows
import DistributedObjectStorage.Storage.StoreVersions
import DistributedObjectStorage.Storage.FaultyVersions
import DistributedObjectStorage.Storage.NodeWinner
import DistributedObjectStorage.Storage.RecoveryRestart
import DistributedObjectStorage.Storage.InterruptedWrite
import DistributedObjectStorage.Storage.InterruptedRetry
import DistributedObjectStorage.Storage.PowerLoss
import DistributedObjectStorage.Storage.StoreRefinement
import DistributedObjectStorage.Network.Coordinator
import DistributedObjectStorage.Network.FailedPut
import DistributedObjectStorage.Network.VersionOrder
import DistributedObjectStorage.Network.Interleaving
import DistributedObjectStorage.Network.ReplicaAgreement
import DistributedObjectStorage.Network.RepairRace
import DistributedObjectStorage.Network.ConditionalRace
import DistributedObjectStorage.Network.SingleWinner
import DistributedObjectStorage.Network.ReadableWrite
import DistributedObjectStorage.Network.QuorumWrite
import DistributedObjectStorage.Network.RepairRedundancy
import DistributedObjectStorage.Network.RepairFrame
import DistributedObjectStorage.Network.ReplicationTransparency
import DistributedObjectStorage.Network.HttpServer
import DistributedObjectStorage.Network.HttpConnections
import DistributedObjectStorage.Network.HttpClient
import DistributedObjectStorage.Network.HttpResponses
import DistributedObjectStorage.Network.HttpGateway
import DistributedObjectStorage.Network.GatewayInstruments
import DistributedObjectStorage.Network.ObjectListing
import DistributedObjectStorage.Network.HttpEndToEnd
