import SvpChain.Consensus.Driver

/-!
# The handlers

The entry points of `validator`, `rotator` and `pacemaker`, the start of a node after the genesis block, and
runs of one node.  A timer may fire at any time, and a proposal token is used at any later time.
-/

namespace SvpChain.Consensus

open Core TxPool

section

variable (params : Params) (env : Env)

/-! ## Validator -/

/-- `validator.verifyExecHeight`. -/
def verifyExecHeight (blk : Block) : Handler Unit := do
  let node ← Program.get
  Program.throwIf (node.storage.blockHeight ≠ blk.execHeight)
    (.invalidExecHeight node.storage.blockHeight blk.execHeight)

/-- `validator.verifyMerkleRoot`. -/
def verifyMerkleRoot (blk : Block) : Handler Unit := do
  let node ← Program.get
  Program.throwIf (params.config.executeTxFlag ∧ node.storage.merkleRoot ≠ blk.merkleRoot)
    (.invalidMerkleRoot blk.height)

/-- The loop of `validator.verifyBlockTxs`. -/
def verifyTxs (blk : Block) : List Bytes → Handler Unit
  | [] => pure ()
  | hash :: hashes => do
      let node ← Program.get
      Program.throwIf (node.storage.hasTx hash) (.txCommitted hash)
      match node.txPool.getTx hash with
      | none => Program.throw (.txNotFound hash)
      | some tx => do
          Program.throwIf (tx.expiry ≠ 0 ∧ tx.expiry < blk.height) (.txExpired hash)
          verifyTxs blk hashes

/-- `validator.verifyBlockTxs`. -/
def verifyBlockTxs (blk : Block) : Handler Unit :=
  Program.when params.config.executeTxFlag (verifyTxs blk blk.transactions)

/-- `validator.verifyBlockToVote`. -/
def verifyBlockToVote (blk : Block) : Handler Unit := do
  let node ← Program.get
  -- on node restart, not committed any blocks yet, don't check merkle root
  Program.when (node.state.committedHeight ≠ 0) do
    verifyExecHeight blk
    verifyMerkleRoot params blk
  verifyBlockTxs params blk

/-- `MsgSvc.SendVote`, after the transactions of the block are set pending. -/
def sendVote (blk : Block) (quota : UInt64) (node : Node) : Node :=
  let pool :=
    if params.config.preserveTxFlag then node.txPool
    else node.txPool.setTxsPending blk.transactions
  { node with txPool := pool }.record (.sendVote blk (blk.vote node.signer quota))

/-- `validator.voteProposal`. -/
def voteProposal (blk : Block) : Handler Unit := do
  let node ← Program.get
  Program.throwIf (isLeader node blk.proposer = false)
    (.notLeader (node.roleStore.getValidatorIndex blk.proposer))
  verifyBlockToVote params blk
  let quota ← getVoteQuota params env
  Program.modify (sendVote params blk quota)
  let qc ← Program.deref blk.quorumCert
  let _ ← qcRefHeight qc

/-- `validator.onReceiveProposal`. -/
def onReceiveProposal (blk : Block) : Handler Unit := do
  onRoleStore (blk.validate params.crypto)
  Program.modify fun node => node.record (.validated blk)
  let _ ← syncParentBlock params env blk
  Program.when params.config.executeTxFlag (syncTxs params env blk.proposer blk.transactions)
  Program.modify fun node => node.acceptBlock blk
  rotatorReceiveProposal params blk
  let node ← Program.get
  Program.throwIf (blk.view < node.status.view) .notSameView
  let order ← cmpQCPriority blk.quorumCert (some node.status.qcHigh)
  Program.throwIf (order = .lt) .lowerQC
  updateQCHigh params env blk.quorumCert
  voteProposal params env blk

/-- `validator.onReceiveVote`. -/
def onReceiveVote (vote : Vote) : Handler Unit := do
  onRoleStore (vote.validate params.crypto)
  let node ← Program.get
  Program.throwIf (node.status.viewChange ≠ .success) .viewChange
  driverReceiveVote params env vote

/-! ## Proposals -/

/-- The broadcast of a new proposal and the proposer's own vote. -/
def broadcastAndVote (blk : Block) : Handler Unit := do
  Program.modify fun node => node.record (.broadcastProposal blk)
  updateQCHigh params env blk.quorumCert
  let quota ← getVoteQuota params env
  let node ← Program.get
  -- the error of the own vote is not looked at
  Program.discardError (driverReceiveVote params env (blk.vote node.signer quota))

/-- `pacemaker.newProposal`. -/
def newProposal : Handler Unit := do
  let node ← Program.get
  if node.status.viewChange ≠ .success then pure ()
  else if isLeader node node.signer.pubKey = false then pure ()
  else do
    let blk ← createProposal params env node.status.view node.status.bLeaf node.status.qcHigh
    broadcastAndVote params env blk

/-- `rotator.newViewProposal`. -/
def newViewProposal : Handler Unit := do
  Program.modify fun node => node.record (.newView node.status.view node.roleStore)
  let qcHigh ← Program.gets fun node => node.status.qcHigh
  let parent ← Program.deref (← getBlockByHash qcHigh.blockHash)
  let node ← Program.get
  let blk ← createProposal params env node.status.view parent qcHigh
  broadcastAndVote params env blk

/-! ## Rotator -/

/-- The leader that follows a view. -/
def nextLeaderIndex (roleStore : RoleStore) (view : UInt32) : Except Fault UInt32 :=
  let count := UInt32.ofNat roleStore.validatorCount
  if count = 0 then .error (.panic "integer divide by zero") else .ok ((view + 1) % count)

/-- A view change begins. -/
def beginViewChange (nextIdx : UInt32) (node : Node) : Node :=
  { node.record (.setLeader nextIdx.toNat) with
    status := { node.status with viewChange := .ongoing }
    rotator := { node.rotator with highQCCount := 0 } }

/-- `highQCCount` goes up for a message of a view change. -/
def countQC (sender : PublicKey) (change : UInt32) (node : Node) : Node :=
  { node.record (.countedQC sender change) with
    rotator := { node.rotator with highQCCount := node.rotator.highQCCount + 1 } }

/-- `rotator.changeView`. -/
def changeView : Handler Unit := do
  let node ← Program.get
  let nextIdx ← ofFault (nextLeaderIndex node.roleStore node.rotator.oldView)
  let nextLeader ← Program.deref (node.roleStore.getValidator nextIdx.toNat)
  Program.when (node.rotator.oldView = node.status.view) do
    Program.modify (beginViewChange nextIdx)
    if node.signer.pubKey ≠ nextLeader then
      Program.modify fun node => node.record (.sendQC nextLeader node.status.qcHigh)
    else
      Program.modify (countQC nextLeader (node.rotator.oldView + 1))

/-- `rotator.onLeaderTimeout`. -/
def onLeaderTimeout : Handler Unit := do
  Program.modify fun node => { node with
    rotator := { node.rotator with
      timeoutCount := node.rotator.timeoutCount + 1
      oldView := node.status.view } }
  changeView
  let node ← Program.get
  let faultyCount := node.roleStore.validatorCount - node.roleStore.majorityValidatorCount
  Program.when (faultyCount < node.rotator.timeoutCount)
    (Program.modify fun node => node.setStatus { node.status with viewChange := .failed })

/-- `rotator.onViewTimeout`. -/
def onViewTimeout : Handler Unit := do
  Program.modify fun node => { node with
    rotator := { node.rotator with oldView := node.status.view } }
  changeView

/-- The view after the remembered one and its leader are set. -/
def setNextView (nextIdx : UInt32) (node : Node) : Node :=
  (node.setStatus { node.status with
    view := node.rotator.oldView + 1
    leaderIndex := nextIdx }).record (.enterView (node.rotator.oldView + 1) nextIdx)

/-- The next view is entered when certificates arrive during a view change. -/
def enterNextView : Handler Unit := do
  let node ← Program.get
  Program.when (node.status.viewChange = .ongoing ∧ node.rotator.oldView = node.status.view) do
    let nextIdx ← ofFault (nextLeaderIndex node.roleStore node.rotator.oldView)
    Program.modify (setNextView nextIdx)
    let _ ← qcRefHeight node.status.qcHigh

/-- `rotator.onReceiveQC`. The sender and the view change it speaks for are only recorded. -/
def onReceiveQC (sender : PublicKey) (change : UInt32) (qc : QuorumCert) : Handler Unit := do
  onRoleStore (qc.validate params.crypto)
  Program.modify fun node => node.record (.receivedQC qc)
  let blk ← getOrRequestBlock params env qc.proposer qc.blockHash
  let _ ← syncParentBlock params env blk
  Program.when params.config.executeTxFlag (syncTxs params env qc.proposer blk.transactions)
  updateQCHigh params env (some qc)
  enterNextView
  Program.modify (countQC sender change)
  let node ← Program.get
  Program.when (node.roleStore.majorityValidatorCount ≤ node.rotator.highQCCount ∧
    isLeader node node.signer.pubKey) (newViewProposal params env)

/-! ## Runs of a node -/

/-- What reaches a node. -/
inductive Input where
  /-- The pacemaker uses a token. -/
  | propose
  | proposal (blk : Block)
  | vote (vote : Vote)
  /-- A certificate, with its sender and the view change that the sender has begun. -/
  | qc (sender : PublicKey) (change : UInt32) (qc : QuorumCert)
  | leaderTimeout
  | viewTimeout
  /-- A transaction submitted by a client, or received from a peer. -/
  | submitTx (tx : Transaction)
  | receiveTx (tx : Transaction)

/-- Handle an input. -/
def handle : Input → Handler Unit
  | .propose => do
      let node ← Program.get
      if node.proposeCh = 0 then pure ()
      else do
        Program.modify fun node => { node with proposeCh := node.proposeCh - 1 }
        newProposal params env
  | .proposal blk => onReceiveProposal params env blk
  | .vote vote => onReceiveVote params env vote
  | .qc sender change qc => onReceiveQC params env sender change qc
  | .leaderTimeout => onLeaderTimeout
  | .viewTimeout => onViewTimeout
  | .submitTx tx => do
      let node ← Program.get
      onTxPool (TxPool.submitTx (services params env node) tx)
  | .receiveTx tx => do
      let node ← Program.get
      onTxPool (TxPool.addNewTx (services params env node) tx)

/-- The node after an input. A fault ends the process. -/
def Node.receive (input : Input) (node : Node) : Node :=
  match handle params env input node with
  | (.error (.fault _), node') => { node' with alive := false }
  | (_, node') => node'

end

/-! ## The start of a node -/

/-- The loop of `setupWindow`, from the last place of the window down. -/
def fillWindow : ℕ → Option QuorumCert → Window → Handler Window
  | 0, _, w => pure w
  | _, none, w => pure w
  | place + 1, some qc, w => do
      let node ← Program.get
      match qc.findVote node.signer with
      | none => Program.fault .indexOutOfRange
      | some vote => do
          let w := { w with
            qcQuotas := w.qcQuotas.set place qc.sumQuota
            qcAcc := w.qcAcc + qc.sumQuota
            voteQuotas := w.voteQuotas.set place vote
            voteAcc := w.voteAcc + vote }
          let blk ← Program.deref (← getBlockByHash qc.blockHash)
          fillWindow place blk.quorumCert w

/-- `Consensus.setupWindow`. -/
def setupWindow (params : Params) (qc : QuorumCert) : Handler Unit := do
  let node ← Program.get
  let size := node.roleStore.windowSize
  match node.roleStore.getValidatorQuota node.signer.pubKey with
  | none => Program.fault .indexOutOfRange
  | some limit => do
      let height ← qcRefHeight qc
      let w ← fillWindow size (some qc)
        { qcQuotas := List.replicate size 0
          qcAcc := 0
          voteQuotas := List.replicate size 0
          voteAcc := 0
          majority := node.roleStore.majorityQuotaCount
          limit := limit
          height := height
          size := size
          strategy := params.config.voteStrategy
          recover := false }
      Program.modify fun node => node.setStatus { node.status with window := w }

/-- A window that nothing reads. -/
def emptyWindow : Window := ⟨[], 0, [], 0, 0, 0, 0, 0, 0, false⟩

/-- The node that `Consensus.start` sets up with an executed block, a leaf and its certificate. -/
def setupNode (params : Params) (signer : Signer) (roleStore : RoleStore) (storage : ChainStore)
    (txPool : TxStore) (exec leaf : Block) (qc : QuorumCert) : Node where
  signer := signer
  roleStore := roleStore
  storage := storage
  txPool := txPool
  state := { State.new with blocks := [leaf], qcs := [qc] }
  status :=
    { bExec := exec
      bLeaf := leaf
      qcHigh := qc
      view := qc.view
      leaderIndex := UInt32.ofNat (roleStore.getValidatorIndex qc.proposer)
      viewChange := .success
      proposal := none
      votes := []
      quotaCount := 0
      window := emptyWindow }
  rotator := ⟨0, 0, 0⟩
  -- `pacemaker.start` sends a first token in benchmarks
  proposeCh := if params.config.preserveTxFlag then 1 else 0
  isExisted := false
  requests := 0
  trace := []
  alive := true

/-- The storage after `genesis.commit`, with the transactions executed and the state root reached. -/
def genesisStore (b0 : Block) (q0 : QuorumCert) (txs : List Bytes) (merkleRoot : Bytes) :
    ChainStore where
  blocks := [b0]
  hashByHeight := [(b0.height, b0.hash)]
  blockHeight := b0.height
  qcs := [q0]
  lastQC := q0.blockHash
  txs := txs
  merkleRoot := merkleRoot

/-- The genesis block and a certificate for it, as `genesis.propose` and `acceptVote` make them. -/
structure Genesis (params : Params) (roleStore : RoleStore) (b0 : Block) (q0 : QuorumCert) :
    Prop where
  sum_eq : b0.data.sum params.crypto = b0.hash
  view_eq : b0.view = 0
  height_eq : b0.height = 0
  proposer_eq : roleStore.getValidatorIndex b0.proposer = 0
  quorumCert_eq : b0.quorumCert = none
  certifies : q0.blockHash = b0.hash
  certView_eq : q0.view = 0
  leader_eq : roleStore.getValidatorIndex q0.proposer = 0

/-- A node that has just started after the genesis block. -/
def Started (params : Params) (signer : Signer) (roleStore : RoleStore) (b0 : Block) (node : Node) :
    Prop :=
  ∃ q0 txs merkleRoot pool, Genesis params roleStore b0 q0 ∧
    Program.when (params.config.twoPhaseBFTFlag = false) (setupWindow params q0)
      (setupNode params signer roleStore (genesisStore b0 q0 txs merkleRoot) pool b0 b0 q0) =
        (.ok (), node)

/-- The states of a running node, with any inputs and the given surroundings. -/
inductive NodeRun (params : Params) (surroundings : Env → Prop) (start : Node) : Node → Prop where
  | start : NodeRun params surroundings start start
  | step {node : Node} (run : NodeRun params surroundings start node) (alive : node.alive = true)
      {env : Env} (surrounds : surroundings env) (input : Input) :
      NodeRun params surroundings start (node.receive params env input)

/-- Any surroundings. -/
def anyEnv : Env → Prop := fun _ => True

/-- The validator set is fixed: no execution changes the role store. -/
def fixedRoles : Env → Prop := fun env =>
  ∀ roleStore storage blk txs, (env.execute roleStore storage blk txs).roleStore = roleStore

end SvpChain.Consensus
