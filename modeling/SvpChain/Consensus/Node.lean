import SvpChain.Consensus.Status
import SvpChain.TxPool.TxPool

/-!
# The state of a node

What the handlers of package `consensus` read and write: `state`, `status`, `rotator`, the role store, the
storage and the transaction pool.  Maps are lists with at most one entry of each key.  The record
of a node's calls is kept beside its state; only theorems read it.
-/

namespace SvpChain.Consensus

open Core TxPool

/-! ## Blocks and certificates in memory -/

/-- The block of a hash. -/
def findBlock (blocks : List Block) (hash : Bytes) : Option Block :=
  blocks.find? fun blk => blk.hash = hash

/-- Put a block under its hash. -/
def putBlock (blocks : List Block) (blk : Block) : List Block :=
  blk :: blocks.filter fun other => other.hash ≠ blk.hash

/-- Put a certificate under its block hash. -/
def putQC (qcs : List QuorumCert) (qc : QuorumCert) : List QuorumCert :=
  qc :: qcs.filter fun other => other.blockHash ≠ qc.blockHash

/-- `state`. -/
structure State where
  blocks : List Block
  committed : List Bytes
  qcs : List QuorumCert
  /-- Zero until a block is committed. -/
  committedHeight : UInt64
  committedTxCount : UInt64

namespace State

/-- `newState`. -/
def new : State := ⟨[], [], [], 0, 0⟩

/-- `state.deleteBlock`. -/
def deleteBlock (state : State) (hash : Bytes) : State :=
  { state with blocks := state.blocks.filter fun blk => blk.hash ≠ hash }

/-- `state.deleteQC`. -/
def deleteQC (state : State) (hash : Bytes) : State :=
  { state with qcs := state.qcs.filter fun qc => qc.blockHash ≠ hash }

/-- `state.setCommittedBlock`. -/
def setCommittedBlock (state : State) (blk : Block) : State :=
  { state with
    committed := blk.hash :: state.committed.filter (· ≠ blk.hash)
    committedHeight := blk.height }

/-- `state.deleteCommitted`. -/
def deleteCommitted (state : State) (hash : Bytes) : State :=
  { state with committed := state.committed.filter (· ≠ hash) }

/-- `state.getOlderBlocks`. -/
def getOlderBlocks (state : State) (height : UInt64) : List Block :=
  state.blocks.filter fun blk => blk.height < height

/-- `state.getUncommittedOlderBlocks`. -/
def getUncommittedOlderBlocks (state : State) (blk : Block) : List Block :=
  state.blocks.filter fun other => other.height < blk.height ∧ other.hash ∉ state.committed

end State

/-! ## The storage -/

/-- The chain tables of the storage, with the state root. -/
structure ChainStore where
  blocks : List Block
  /-- `BLOCK_HASH_BY_HEIGHT`. -/
  hashByHeight : List (UInt64 × Bytes)
  blockHeight : UInt64
  qcs : List QuorumCert
  /-- `LAST_QC_BLOCK_HASH`. -/
  lastQC : Bytes
  /-- The hashes of the stored transactions. -/
  txs : List Bytes
  merkleRoot : Bytes

namespace ChainStore

/-- `Storage.StoreBlock`. -/
def storeBlock (store : ChainStore) (blk : Block) : ChainStore :=
  { store with
    blocks := putBlock store.blocks blk
    hashByHeight := (blk.height, blk.hash) ::
      store.hashByHeight.filter fun entry => entry.1 ≠ blk.height }

/-- `Storage.StoreQC`. -/
def storeQC (store : ChainStore) (qc : QuorumCert) : ChainStore :=
  { store with qcs := putQC store.qcs qc, lastQC := qc.blockHash }

/-- `Storage.Commit` of a block with the transactions executed and the state root reached. -/
def commit (store : ChainStore) (blk : Block) (txs : List Transaction) (merkleRoot : Bytes) :
    ChainStore :=
  { store.storeBlock blk with
    txs := txs.map Transaction.hash ++ store.txs
    merkleRoot := merkleRoot
    blockHeight := blk.height }

/-- `Storage.HasTx`. -/
def hasTx (store : ChainStore) (hash : Bytes) : Bool := hash ∈ store.txs

/-- `Storage.GetBlockByHeight`. -/
def getBlockByHeight (store : ChainStore) (height : UInt64) : Option Block :=
  (store.hashByHeight.lookup height).bind (findBlock store.blocks)

end ChainStore

/-! ## Configuration and surroundings -/

/-- The flags of the package and the fields of `Config` that the handlers read. -/
structure Config where
  executeTxFlag : Bool
  preserveTxFlag : Bool
  twoPhaseBFTFlag : Bool
  blockTxLimit : ℕ
  voteStrategy : UInt8

/-- What is fixed while a node runs. -/
structure Params where
  crypto : Crypto
  config : Config

/-- What `Execution.Execute` leaves behind; native code may change the role store. -/
structure Executed where
  merkleRoot : Bytes
  roleStore : RoleStore

/-- The answers that one handler call gets: the peers' answers to its requests, by their number,
the results of executions, the iteration orders of Go maps and of the pool's workers, the clock and a
random number. -/
structure Env where
  requestBlock : ℕ → PublicKey → Bytes → Option Block
  requestBlockByHeight : ℕ → PublicKey → UInt64 → Option Block
  requestTxList : ℕ → PublicKey → List Bytes → Option (List Transaction)
  execute : RoleStore → ChainStore → Block → List Transaction → Executed
  verifyTx : Transaction → Bool
  txOrder : List Transaction → List Transaction
  txOrder_perm : ∀ txs, (txOrder txs).Perm txs
  voteOrder : List Vote → List Vote
  voteOrder_perm : ∀ votes, (voteOrder votes).Perm votes
  blockOrder : List Block → List Block
  blockOrder_perm : ∀ blks, (blockOrder blks).Perm blks
  now : Int64
  rand : UInt64

/-! ## The node -/

/-- The votes that a certificate is built from, with the role store and the window of that time. -/
structure Tally where
  votes : List Vote
  roleStore : RoleStore
  window : Window
  deriving DecidableEq

/-- Calls of a node that theorems speak about. -/
inductive Event where
  /-- `createProposal` made the block. -/
  | proposed (blk : Block)
  /-- A proposal from outside passed `Block.Validate`. -/
  | validated (blk : Block)
  /-- `state.setBlock` of a block from outside, which has passed `Block.Validate`. -/
  | received (blk : Block)
  /-- `requestBlockByHeight` returned the block. -/
  | receivedByHeight (blk : Block)
  /-- `MsgSvc.BroadcastProposal`. -/
  | broadcastProposal (blk : Block)
  /-- `MsgSvc.SendVote` of a vote for the block to its proposer. -/
  | sendVote (blk : Block) (vote : Vote)
  /-- `MsgSvc.SendQC`. -/
  | sendQC (peer : PublicKey) (qc : QuorumCert)
  /-- `Host.SetLeader`. -/
  | setLeader (index : ℕ)
  /-- `approveViewLeader` took the view and the leader from a proposal. -/
  | approve (view leader : UInt32)
  /-- The rotation entered the next view. -/
  | enterView (view leader : UInt32)
  /-- A certificate received by itself passed `Validate`. -/
  | receivedQC (qc : QuorumCert)
  /-- `QuorumCert.Build` from the votes for the proposal in progress. -/
  | builtQC (qc : QuorumCert) (tally : Tally)
  /-- A message sent for a view change, or the node's own timeout, was counted in `highQCCount`. -/
  | countedQC (sender : PublicKey) (change : UInt32)
  /-- `rotator.newViewProposal` for a view, with the role store of that time. -/
  | newView (view : UInt32) (roleStore : RoleStore)
  /-- `status.setQCHigh` with a certificate and its block, for the role store and the window of that
  time. -/
  | setQCHigh (qc : QuorumCert) (blk1 : Block) (roleStore : RoleStore) (window : Window)
  /-- `driver.commit`. -/
  | commit (blk : Block)
  /-- `Execution.Execute`. -/
  | execute (blk : Block) (txs : List Transaction)
  deriving DecidableEq

/-- The counters of `rotator`. -/
structure Rotator where
  timeoutCount : ℕ
  highQCCount : ℕ
  oldView : UInt32

/-- A node. -/
structure Node where
  signer : Signer
  roleStore : RoleStore
  storage : ChainStore
  txPool : TxStore
  state : State
  status : Status
  rotator : Rotator
  /-- Tokens sent on `proposeCh` that the pacemaker has not used yet. -/
  proposeCh : ℕ
  /-- The driver was stopped. -/
  isExisted : Bool
  /-- Requests made to peers. -/
  requests : ℕ
  /-- The calls made, the latest first. -/
  trace : List Event
  /-- No fault has ended the process. -/
  alive : Bool

/-- Errors returned by the handlers. -/
inductive ConsensusError where
  | core (reason : CoreError)
  | txPool (reason : TxPoolError)
  | vote (reason : VoteError)
  /-- `request block failed`. -/
  | requestBlock
  /-- `cannot get block, height %d`. -/
  | requestBlockByHeight (height : UInt64)
  /-- `missing genesis block`. -/
  | missingGenesis
  /-- `old qc ref %d`. -/
  | oldQCRef (height : UInt64)
  /-- `cannot connect chain, parent not found`. -/
  | parentNotFound
  /-- `invalid block, height %d, parent %d`. -/
  | invalidHeight (height parent : UInt64)
  /-- `not same view`. -/
  | notSameView
  /-- `cannot vote by lower qc`. -/
  | lowerQC
  /-- `proposer %d is not leader`. -/
  | notLeader (proposer : ℕ)
  /-- `cannot vote because of strategy`. -/
  | strategy
  /-- `invalid exec height, expected %d, got %d`. -/
  | invalidExecHeight (expected got : UInt64)
  /-- `invalid merkle root, height %d`. -/
  | invalidMerkleRoot (height : UInt64)
  /-- `tx %s already committed`. -/
  | txCommitted (hash : Bytes)
  /-- `tx %s not found`. -/
  | txNotFound (hash : Bytes)
  /-- `tx %s expired`. -/
  | txExpired (hash : Bytes)
  /-- `discard vote when view change`. -/
  | viewChange
  deriving DecidableEq, Repr

/-- A handler, or a part of one. -/
abbrev Handler := Program ConsensusError Node

namespace Node

/-- `state.setBlock`. -/
def setBlock (node : Node) (blk : Block) : Node :=
  { node with state := { node.state with blocks := putBlock node.state.blocks blk } }

/-- `Storage.StoreQC`. -/
def storeQC (node : Node) (qc : QuorumCert) : Node := { node with storage := node.storage.storeQC qc }

/-- `Storage.StoreBlock`. -/
def storeBlock (node : Node) (blk : Block) : Node :=
  { node with storage := node.storage.storeBlock blk }

/-- The validator index of a block's proposer, as `uint32`. -/
def proposerIndex (node : Node) (blk : Block) : UInt32 :=
  UInt32.ofNat (node.roleStore.getValidatorIndex blk.proposer)

/-- Record a call. -/
def record (node : Node) (event : Event) : Node := { node with trace := event :: node.trace }

/-- `state.setBlock` of a block from outside. -/
def acceptBlock (node : Node) (blk : Block) : Node := (node.setBlock blk).record (.received blk)

/-- Replace the status. -/
def setStatus (node : Node) (status : Status) : Node := { node with status := status }

end Node

/-- Run a validation on the role store. -/
def onRoleStore {α : Type} (program : Program CoreError RoleStore α) : Handler α :=
  Program.zoom Node.roleStore (fun store node => { node with roleStore := store })
    ConsensusError.core program

/-- Run an operation of the pool. -/
def onTxPool {α : Type} (program : Program TxPoolError TxStore α) : Handler α :=
  Program.zoom Node.txPool (fun store node => { node with txPool := store })
    ConsensusError.txPool program

/-- A result that may be a fault. -/
def ofFault {α : Type} : Except Fault α → Handler α
  | .ok value => pure value
  | .error reason => Program.fault reason

/-- The number of the next request. -/
def nextRequest : Handler ℕ := do
  let number ← Program.gets Node.requests
  Program.modify fun node => { node with requests := number + 1 }
  pure number

end SvpChain.Consensus
