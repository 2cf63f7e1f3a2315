import SvpChain.Lib.Bytes
import SvpChain.Lib.Program
import SvpChain.Lib.HashTree
import SvpChain.Lib.Table
import SvpChain.Core.Message
import SvpChain.Core.Binding
import SvpChain.Core.Commit
import SvpChain.Merkle.Tree
import SvpChain.Merkle.Update
import SvpChain.Storage.Storage
import SvpChain.Storage.Indexes
import SvpChain.Storage.Verified
import SvpChain.Execution.Tracker
import SvpChain.Execution.TxExecutor
import SvpChain.Execution.BlkExecutor
import SvpChain.Execution.Serializable
import SvpChain.Lib.TwoChain
import SvpChain.TxPool.TxPool
import SvpChain.Consensus.Driver
import SvpChain.Consensus.Handlers
import SvpChain.Consensus.Steps
import SvpChain.Consensus.DriverSteps
import SvpChain.Consensus.HandlerSteps
import SvpChain.Consensus.Replay
import SvpChain.Consensus.Votes
import SvpChain.Consensus.Leader
import SvpChain.Consensus.Links
import SvpChain.Core.Certificate
import SvpChain.Node.RoleStore
import SvpChain.Node.Validation
import SvpChain.Storage.Roots
import SvpChain.Storage.Failures
import SvpChain.Storage.Recovery
import SvpChain.Consensus.Certified
import SvpChain.Consensus.Stake
import SvpChain.Consensus.Rotation
import SvpChain.Lib.Interleaving
import SvpChain.Consensus.Network
import SvpChain.Consensus.Quorum
import SvpChain.Consensus.Agreement
import SvpChain.Lib.Heap
import SvpChain.TxPool.ItemStore
import SvpChain.TxPool.Refinement
import SvpChain.Consensus.Pending
import SvpChain.Execution.Isolation
import SvpChain.Lib.Reorder
import SvpChain.Execution.SRole
import SvpChain.Consensus.Crashes
import SvpChain.Consensus.CommitRecursive
import SvpChain.Consensus.ParentSync
import SvpChain.Lib.Threads
import SvpChain.Consensus.SyncThreads
import SvpChain.Consensus.Proposals
import SvpChain.Core.Assembly
import SvpChain.Consensus.VoteRounds
import SvpChain.Execution.Coins
import SvpChain.Execution.PCoin
import SvpChain.Merkle.Verify
import SvpChain.Consensus.Between
import SvpChain.Consensus.Restart
import SvpChain.Consensus.Deadlock
import SvpChain.Evm.NativeProxy
import SvpChain.TxPool.Order
import SvpChain.Lib.Workers
import SvpChain.TxPool.AddTxList
import SvpChain.TxPool.Resubmission
import SvpChain.Consensus.RandomVote
import SvpChain.Consensus.Views
import SvpChain.Node.PeerStore
import SvpChain.Consensus.Genesis
import SvpChain.Consensus.Stops
import SvpChain.Evm.StateDB
import SvpChain.Evm.Call
import SvpChain.Evm.Runner
import SvpChain.Evm.SharedProxy
import SvpChain.Evm.TAddr
import SvpChain.Evm.Transfer
import SvpChain.Execution.Wakeups
import SvpChain.Execution.LostWakeups
import SvpChain.Storage.Positions
import SvpChain.P2p.Framing
