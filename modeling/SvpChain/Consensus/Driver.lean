import SvpChain.Consensus.Node

/-!
# The driver

`driver` of package `consensus`, with the part of `rotator` that it calls: fetching missing blocks, proposals,
votes, the highest certificate, and commits.  A handler runs as one step, so the locks do not appear.
-/

namespace SvpChain.Consensus

open Core TxPool

/-! ## Blocks and priorities -/

/-- `driver.isLeader`. -/
def isLeader (node : Node) (pubKey : PublicKey) : Bool :=
  node.roleStore.isValidator pubKey &&
    node.status.leaderIndex == UInt32.ofNat (node.roleStore.getValidatorIndex pubKey)

/-- `driver.getBlockByHash`. -/
def getBlockByHash (hash : Bytes) : Handler (Option Block) := do
  let node ← Program.get
  match findBlock node.state.blocks hash with
  | some blk => pure (some blk)
  | none =>
      match findBlock node.storage.blocks hash with
      | none => pure none
      | some blk => do
          Program.modify fun node => node.setBlock blk
          pure (some blk)

/-- `driver.qcRefHeight`. -/
def qcRefHeight (qc : QuorumCert) : Handler UInt64 := do
  let blk ← Program.deref (← getBlockByHash qc.blockHash)
  pure blk.height

/-- `driver.cmpBlockHeight`. -/
def cmpBlockHeight : Option Block → Option Block → Handler Ordering
  | some b1, some b2 => pure (compare b1.height b2.height)
  | _, _ => Program.fault (.panic "failed to compare nil block height")

/-- `driver.cmpQCPriority`. -/
def cmpQCPriority : Option QuorumCert → Option QuorumCert → Handler Ordering
  | some qc1, some qc2 =>
      if qc2.view < qc1.view then pure .gt
      else if qc1.view < qc2.view then pure .lt
      else do
        let height1 ← qcRefHeight qc1
        let height2 ← qcRefHeight qc2
        pure (compare height1 height2)
  | _, _ => Program.fault (.panic "failed to compare nil qc priority")

section

variable (params : Params) (env : Env)

/-- The services that the pool uses. -/
def services (node : Node) : Services where
  crypto := params.crypto
  hasTx := node.storage.hasTx
  verifyTx := env.verifyTx
  now := env.now.toInt

/-- `TxPool.SyncTxs`. -/
def syncTxs (peer : PublicKey) (hashes : List Bytes) : Handler Unit := do
  let number ← nextRequest
  let node ← Program.get
  onTxPool (TxPool.syncTxs (services params env node) (env.requestTxList number peer) env.txOrder
    hashes)

/-- `driver.requestBlock`. -/
def requestBlock (peer : PublicKey) (hash : Bytes) : Handler Block := do
  let number ← nextRequest
  match env.requestBlock number peer hash with
  | none => Program.throw .requestBlock
  | some blk => do
      onRoleStore (blk.validate params.crypto)
      Program.modify fun node => node.acceptBlock blk
      pure blk

/-- `driver.requestBlockByHeight`. -/
def requestBlockByHeight (peer : PublicKey) (height : UInt64) : Handler Block := do
  let number ← nextRequest
  match env.requestBlockByHeight number peer height with
  | none => Program.throw (.requestBlockByHeight height)
  | some blk => do
      onRoleStore (blk.validate params.crypto)
      Program.modify fun node => node.acceptBlock blk
      Program.modify fun node => node.record (.receivedByHeight blk)
      pure blk

/-! ## Commits -/

/-- The deletions at the end of `cleanStateOnCommitted`. -/
def deleteBlocks (state : State) (blks : List Block) : State :=
  blks.foldl (fun state blk => (state.deleteBlock blk.hash).deleteCommitted blk.hash) state

/-- `driver.cleanStateOnCommitted`. -/
def cleanStateOnCommitted (blk : Block) (node : Node) : Node :=
  let state := node.state.deleteQC blk.hash
  let pool :=
    if params.config.preserveTxFlag then node.txPool else node.txPool.removeTxs blk.transactions
  let state := state.setCommittedBlock blk
  -- put txs from forked block back to queue
  let forked := env.blockOrder (state.getUncommittedOlderBlocks blk)
  let pool := forked.foldl (fun pool blk => pool.putTxsToQueue blk.transactions) pool
  let state := forked.foldl (fun state blk => (state.deleteBlock blk.hash).deleteQC blk.hash) state
  -- delete committed older blocks
  let state :=
    if blk.height < 20 then state else deleteBlocks state (state.getOlderBlocks blk.height)
  { node with state := state, txPool := pool }

/-- `Execute` and `Storage.Commit` of a block with its transactions. -/
def executeAndStore (blk : Block) (txs : List Transaction) (node : Node) : Node :=
  let result := env.execute node.roleStore node.storage blk txs
  { node.record (.execute blk txs) with
    roleStore := result.roleStore
    storage := node.storage.commit blk txs result.merkleRoot }

/-- `MockExecute` and `Storage.Commit`: nothing is executed and no state changes. -/
def mockExecuteAndStore (blk : Block) (node : Node) : Node :=
  { node with storage := node.storage.commit blk [] node.storage.merkleRoot }

/-- Count the transactions of a commit and clean up. -/
def finishCommit (blk : Block) (txCount : ℕ) (node : Node) : Node :=
  let state := { node.state with
    committedTxCount := node.state.committedTxCount + UInt64.ofNat txCount }
  cleanStateOnCommitted params env blk { node with state := state }

/-- `driver.commit`. -/
def commit (blk : Block) : Handler Unit := do
  Program.modify fun node => node.record (.commit blk)
  let node ← Program.get
  if node.isExisted then
    Program.modify (finishCommit params env blk blk.transactions.length)
  else if params.config.executeTxFlag then do
    let (txs, _) ← onTxPool (getTxsToExecute node.storage.hasTx blk.transactions)
    Program.modify (executeAndStore env blk txs)
    Program.modify (finishCommit params env blk txs.length)
  else do
    Program.modify (mockExecuteAndStore blk)
    Program.modify (finishCommit params env blk blk.transactions.length)

/-- `driver.onCommit`, descending at most `fuel` times. -/
def onCommit : ℕ → Option Block → Handler Unit
  | fuel, blk => do
      let bExec ← Program.gets fun node => node.status.bExec
      let order ← cmpBlockHeight blk (some bExec)
      let blk ← Program.deref blk
      if order = .gt then
        match fuel with
        | 0 => Program.fault .diverges
        | fuel + 1 => do
            onCommit fuel (← getBlockByHash blk.parentHash)
            commit params env blk
      else if bExec.hash ≠ blk.hash then Program.fault (.fatal "safety breached")
      else pure ()

/-- `driver.commitRecursive`. A path of parents without repetition is not longer than all blocks. -/
def commitRecursive (blk : Block) : Handler Unit := do
  let node ← Program.get
  onCommit params env (node.state.blocks.length + node.storage.blocks.length + 1) (some blk)
  Program.modify fun node => node.setStatus { node.status with bExec := blk }

/-! ## Synchronisation -/

/-- `driver.verifyParentAndCommitRecursive`. -/
def verifyParentAndCommitRecursive (peer : PublicKey) (blk parent : Block) : Handler Unit := do
  Program.throwIf (blk.height ≠ parent.height + 1) (.invalidHeight blk.height parent.height)
  Program.when params.config.executeTxFlag (syncTxs params env peer blk.transactions)
  commitRecursive params env blk

/-- `driver.syncForwardCommittedBlocks`, for a number of heights from the given one. -/
def syncForwardCommittedBlocks (peer : PublicKey) : ℕ → UInt64 → Handler Unit
  | 0, _ => pure ()
  | count + 1, height => do
      let blk ← requestBlockByHeight params env peer height
      match ← getBlockByHash blk.parentHash with
      | none => Program.throw .parentNotFound
      | some parent => do
          verifyParentAndCommitRecursive params env peer blk parent
          syncForwardCommittedBlocks peer count (height + 1)

/-- A block in memory or in the storage, or else the answer of a peer. -/
def getOrRequestBlock (peer : PublicKey) (hash : Bytes) : Handler Block := do
  match ← getBlockByHash hash with
  | some blk => pure blk
  | none => requestBlock params env peer hash

/-- `driver.syncMissingCommittedBlocks`. -/
def syncMissingCommittedBlocks (blk : Block) : Handler Unit := do
  let commitHeight ← Program.gets fun node => node.storage.blockHeight
  if blk.execHeight ≤ commitHeight then pure ()
  else do
    Program.throwIf (blk.height = 0) .missingGenesis
    let qcRef ← getOrRequestBlock params env blk.proposer blk.parentHash
    Program.throwIf (qcRef.height < commitHeight) (.oldQCRef qcRef.height)
    let start := commitHeight + 1
    syncForwardCommittedBlocks params env blk.proposer (blk.execHeight.toNat - start.toNat) start

/-- `driver.syncMissingParentRecursive`, descending at most `fuel` times. -/
def syncMissingParentRecursive (peer : PublicKey) : ℕ → Block → Handler Block
  | fuel, blk => do
      let parent ← getOrRequestBlock params env peer blk.parentHash
      let commitHeight ← Program.gets fun node => node.storage.blockHeight
      if blk.height = commitHeight then pure parent
      else do
        Program.throwIf (blk.height ≠ parent.height + 1) (.invalidHeight blk.height parent.height)
        Program.when params.config.executeTxFlag (syncTxs params env peer parent.transactions)
        match fuel with
        | 0 => Program.fault .diverges
        | fuel + 1 => do
            let _ ← syncMissingParentRecursive peer fuel parent
            pure parent

/-- `driver.syncParentBlock`. The heights go down to the committed one. -/
def syncParentBlock (blk : Block) : Handler (Option Block) := do
  if blk.height = 0 then pure none
  else
    match ← getBlockByHash blk.parentHash with
    | some parent => pure (some parent)
    | none => do
        syncMissingCommittedBlocks params env blk
        let commitHeight ← Program.gets fun node => node.storage.blockHeight
        let parent ← syncMissingParentRecursive params env blk.proposer
          (blk.height - commitHeight).toNat blk
        pure (some parent)

/-! ## The highest certificate -/

/-- The certificate and its block become the highest ones. -/
def setHigh (qc : QuorumCert) (blk1 : Block) (node : Node) : Node :=
  { node.record (.setQCHigh qc blk1 node.roleStore node.status.window) with
    state := { node.state with qcs := putQC node.state.qcs qc }
    status := { node.status with qcHigh := qc, bLeaf := blk1 } }

/-- `status.updateWindow` with a certificate. -/
def updateWindow (qc : QuorumCert) (blk1 : Block) : Handler Unit := do
  let node ← Program.get
  match qc.findVote node.signer with
  | none => Program.fault .indexOutOfRange
  | some vote => do
      let window ← ofFault (node.status.window.update qc.sumQuota vote blk1.height)
      Program.modify fun node => node.setStatus { node.status with window := window }

/-- `driver.updateQCHigh`. -/
def updateQCHigh (qc : Option QuorumCert) : Handler Unit := do
  let qcHigh ← Program.gets fun node => node.status.qcHigh
  let order ← cmpQCPriority qc (some qcHigh)
  let qc ← Program.deref qc
  if order = .gt then do
    let blk1 ← Program.deref (← getBlockByHash qc.blockHash)
    let blk0 ← getBlockByHash blk1.parentHash
    Program.modify (setHigh qc blk1)
    Program.when (params.config.twoPhaseBFTFlag = false) (updateWindow qc blk1)
    Program.modify fun node => node.storeQC qc
    Program.modify fun node => node.storeBlock blk1
    let bExec ← Program.gets fun node => node.status.bExec
    let order0 ← cmpBlockHeight blk0 (some bExec)
    let blk0 ← Program.deref blk0
    Program.when (order0 = .gt ∧ blk0.view = blk1.view) (commitRecursive params env blk0)
  else pure ()

/-! ## Proposals and votes -/

/-- `rotator.isNewViewApproval`. -/
def isNewViewApproval (status : Status) (view proposer : UInt32) : Bool :=
  if status.view < view then true
  else if view = status.view then
    (status.viewChange = .success && proposer ≠ status.leaderIndex) ||
      (status.viewChange = .ongoing && proposer = status.leaderIndex)
  else false

/-- `rotator.approveViewLeader`. -/
def approveViewLeader (view proposer : UInt32) (node : Node) : Node :=
  { node.record (.approve view proposer) with
    status := { node.status with
      viewChange := .success
      view := view
      leaderIndex := proposer
      window := { node.status.window with
        recover := node.status.window.recover || (!params.config.twoPhaseBFTFlag && view == 2) } }
    rotator := { node.rotator with timeoutCount := 0, highQCCount := 0 } }

/-- `rotator.onReceiveProposal`, without the timers. -/
def rotatorReceiveProposal (blk : Block) : Handler Unit := do
  let node ← Program.get
  let proposer := node.proposerIndex blk
  Program.when (isNewViewApproval node.status blk.view proposer)
    (Program.modify (approveViewLeader params blk.view proposer))

/-- The transactions of a proposal. -/
def takeTxs : Handler (List Bytes) := do
  let node ← Program.get
  if params.config.preserveTxFlag then
    pure (node.txPool.getTxsFromQueue params.config.blockTxLimit)
  else do
    let (txs, pool) := node.txPool.popTxsFromQueue params.config.blockTxLimit
    Program.modify fun node => { node with txPool := pool }
    pure txs

/-- The block that `createProposal` builds and signs. -/
def proposalBlock (node : Node) (view : UInt32) (parent : Block) (qcHigh : QuorumCert)
    (txs : List Bytes) : Block :=
  Block.sign params.crypto node.signer
    { hash := []
      view := view
      height := parent.height + 1
      parentHash := parent.hash
      execHeight := node.storage.blockHeight
      merkleRoot := node.storage.merkleRoot
      timestamp := env.now
      transactions := txs
      quorumCert := some qcHigh.data
      signature := none } (some qcHigh)

/-- The new block becomes the leaf and the proposal in progress. -/
def startProposal (blk : Block) (node : Node) : Node :=
  ((node.setBlock blk).record (.proposed blk)).setStatus
    ({ node.status with bLeaf := blk }.startProposal blk)

/-- `driver.createProposal`. -/
def createProposal (view : UInt32) (parent : Block) (qcHigh : QuorumCert) : Handler Block := do
  let txs ← takeTxs params
  let node ← Program.get
  let blk := proposalBlock params env node view parent qcHigh txs
  Program.modify (startProposal blk)
  rotatorReceiveProposal params blk
  let _ ← qcRefHeight qcHigh
  pure blk

/-- The condition for a certificate. -/
def isVoteEnough (node : Node) : Except Fault Bool := do
  let votes := node.roleStore.majorityValidatorCount ≤ node.status.votes.length
  if params.config.twoPhaseBFTFlag then return votes
  else if votes then
    return node.roleStore.majorityQuotaCount ≤ (← node.status.getQuotaCount)
  else return false

/-- `driver.onReceiveVote`. -/
def driverReceiveVote (vote : Vote) : Handler Unit := do
  let node ← Program.get
  match node.status.addVote vote with
  | .error reason => Program.throw (.vote reason)
  | .ok status => do
      Program.modify fun node => node.setStatus status
      let _ ← Program.deref (← getBlockByHash vote.blockHash)
      let node ← Program.get
      if ← ofFault (isVoteEnough params node) then do
        let qc := QuorumCert.build node.signer (env.voteOrder node.status.votes)
        let tally : Tally := ⟨node.status.votes, node.roleStore, node.status.window⟩
        Program.modify fun node => node.record (.builtQC qc tally)
        Program.modify fun node => node.setStatus node.status.endProposal
        updateQCHigh params env (some qc)
        Program.modify fun node => { node with proposeCh := node.proposeCh + 1 }
      else pure ()

/-- `status.getVoteQuota`, or one with the flag of the two-phase protocol. -/
def getVoteQuota : Handler UInt64 := do
  if params.config.twoPhaseBFTFlag then pure 1
  else do
    let node ← Program.get
    let (quota, ok) ← ofFault (node.status.window.vote params.config.preserveTxFlag env.rand)
    Program.throwIf (ok = false) .strategy
    pure quota

end

end SvpChain.Consensus
