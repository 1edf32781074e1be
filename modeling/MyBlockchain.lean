import MyBlockchain.Epoch.CommittedWrites
import MyBlockchain.Epoch.ReplicaAgreement
import MyBlockchain.Coordinator.Barrier
import MyBlockchain.Coordinator.InjectedWrites
import MyBlockchain.Transaction.NothingLost
import MyBlockchain.Comm.EpochMessages
import MyBlockchain.Comm.EpochOrder
import MyBlockchain.Comm.CyclicBarrier
import MyBlockchain.Comm.HashInterleaving
import MyBlockchain.Block.HashChain
import MyBlockchain.Block.RootBinding
import MyBlockchain.Block.SignedBlocks
import MyBlockchain.Database.StorageGranularity
import MyBlockchain.ReserveTable.HashMapReserveTable
import MyBlockchain.ReserveTable.LeastReserver
import MyBlockchain.Epoch.Progress
import MyBlockchain.Comm.SignedMessage
import MyBlockchain.Block.CanonicalBody
import MyBlockchain.Database.MergeIsSum
import MyBlockchain.Database.ConcurrentBuffers
import MyBlockchain.Transaction.Ownership
import MyBlockchain.Epoch.CounterSums
import MyBlockchain.Coordinator.NoDeadlock
import MyBlockchain.Common.HashMapRefinement
import MyBlockchain.Coordinator.WorkloadPrefix
import MyBlockchain.Comm.FullBatch
import MyBlockchain.Transaction.Integrity
import MyBlockchain.Transaction.Rejection
import MyBlockchain.Block.MerkleHashes
import MyBlockchain.Common.BlockingQueueDelivery
import MyBlockchain.Common.Base64RoundTrip
import MyBlockchain.Comm.BatchHandOver
import MyBlockchain.Common.ConcurrentHashMapCalls
import MyBlockchain.Common.ConcurrentHashMapReturns
import MyBlockchain.Comm.EpochNodes
import MyBlockchain.Comm.CollectedBatches
