import SvpChain.Consensus.ParentSync
import SvpChain.Lib.Threads

/-!
# Synchronisation by two loops at once

The proposal loop and the loop of certificates both call `syncParentBlock`, and only the body under `mtxUpdate`
is atomic: everything else is cut into single steps here.  On a single chain, `onCommit` reports a breach of
safety exactly when a block is committed that is lower than the last executed one, which happens when the other
loop has gone on meanwhile.
-/

namespace SvpChain.Consensus

open Core TxPool Program Relation

/-- A thread of the driver. A label names the block of a commit under `mtxUpdate`. -/
abbrev DriverThread := Thread (Option Block) ConsensusError Node

namespace Threaded

/-- A step that is not a commit of a synchronisation. -/
def aside {α : Type} (program : Handler α) : DriverThread α := Thread.lift none program

/-- `driver.getBlockByHash`. -/
def getBlockByHash (hash : Bytes) : DriverThread (Option Block) := do
  match ← aside (Program.gets fun node => findBlock node.state.blocks hash) with
  | some blk => pure (some blk)
  | none =>
      match ← aside (Program.gets fun node => findBlock node.storage.blocks hash) with
      | none => pure none
      | some blk => do
          aside (Program.modify fun node => node.setBlock blk)
          pure (some blk)

section

variable (params : Params) (env : Env)

/-- `driver.requestBlock`. -/
def requestBlock (peer : PublicKey) (hash : Bytes) : DriverThread Block := do
  let number ← aside nextRequest
  match env.requestBlock number peer hash with
  | none => .halted (.error .requestBlock)
  | some blk => do
      aside (onRoleStore (blk.validate params.crypto))
      aside (Program.modify fun node => node.acceptBlock blk)
      pure blk

/-- `driver.requestBlockByHeight`. -/
def requestBlockByHeight (peer : PublicKey) (height : UInt64) : DriverThread Block := do
  let number ← aside nextRequest
  match env.requestBlockByHeight number peer height with
  | none => .halted (.error (.requestBlockByHeight height))
  | some blk => do
      aside (onRoleStore (blk.validate params.crypto))
      aside (Program.modify fun node => node.acceptBlock blk)
      aside (Program.modify fun node => node.record (.receivedByHeight blk))
      pure blk

/-- `driver.verifyParentAndCommitRecursive`. The commit holds `mtxUpdate`. -/
def verifyParentAndCommitRecursive (peer : PublicKey) (blk parent : Block) : DriverThread Unit := do
  aside (Program.throwIf (blk.height ≠ parent.height + 1) (.invalidHeight blk.height parent.height))
  aside (Program.when params.config.executeTxFlag (syncTxs params env peer blk.transactions))
  Thread.lift (some blk) (commitRecursive params env blk)

/-- `driver.syncForwardCommittedBlocks`, for a number of heights from the given one. -/
def syncForwardCommittedBlocks (peer : PublicKey) : ℕ → UInt64 → DriverThread Unit
  | 0, _ => pure ()
  | count + 1, height => do
      let blk ← requestBlockByHeight params env peer height
      match ← getBlockByHash blk.parentHash with
      | none => .halted (.error .parentNotFound)
      | some parent => do
          verifyParentAndCommitRecursive params env peer blk parent
          syncForwardCommittedBlocks peer count (height + 1)

/-- A block in memory or in the storage, or else the answer of a peer. -/
def getOrRequestBlock (peer : PublicKey) (hash : Bytes) : DriverThread Block := do
  match ← getBlockByHash hash with
  | some blk => pure blk
  | none => requestBlock params env peer hash

/-- `driver.syncMissingCommittedBlocks`. -/
def syncMissingCommittedBlocks (blk : Block) : DriverThread Unit := do
  let commitHeight ← aside (Program.gets fun node => node.storage.blockHeight)
  if blk.execHeight ≤ commitHeight then pure ()
  else do
    aside (Program.throwIf (blk.height = 0) .missingGenesis)
    let qcRef ← getOrRequestBlock params env blk.proposer blk.parentHash
    aside (Program.throwIf (qcRef.height < commitHeight) (.oldQCRef qcRef.height))
    let start := commitHeight + 1
    syncForwardCommittedBlocks params env blk.proposer (blk.execHeight.toNat - start.toNat) start

/-- `driver.syncMissingParentRecursive`, descending at most `fuel` times. -/
def syncMissingParentRecursive (peer : PublicKey) : ℕ → Block → DriverThread Block
  | fuel, blk => do
      let parent ← getOrRequestBlock params env peer blk.parentHash
      let commitHeight ← aside (Program.gets fun node => node.storage.blockHeight)
      if blk.height = commitHeight then pure parent
      else do
        aside (Program.throwIf (blk.height ≠ parent.height + 1) (.invalidHeight blk.height parent.height))
        aside (Program.when params.config.executeTxFlag (syncTxs params env peer parent.transactions))
        match fuel with
        | 0 => .halted (.fault .diverges)
        | fuel + 1 => do
            let _ ← syncMissingParentRecursive peer fuel parent
            pure parent

/-- `driver.syncParentBlock`. The committed height may change on the way down, so the bound is any number. -/
def syncParentBlock (fuel : ℕ) (blk : Block) : DriverThread (Option Block) := do
  if blk.height = 0 then pure none
  else
    match ← getBlockByHash blk.parentHash with
    | some parent => pure (some parent)
    | none => do
        syncMissingCommittedBlocks params env blk
        let parent ← syncMissingParentRecursive params env blk.proposer fuel blk
        pure (some parent)

/-- Any number of calls of `driver.updateQCHigh`, each under `mtxUpdate`. -/
def updateQCHigh : List (Option QuorumCert) → DriverThread Unit
  | [] => pure ()
  | qc :: qcs => do
      aside (Consensus.updateQCHigh params env qc)
      updateQCHigh qcs

end

end Threaded

/-! ## A single chain -/

/-- Blocks without forks: one block at a height, and children one higher than their parents. -/
structure SingleChain (Chain : Block → Prop) : Prop where
  unforked : ∀ {blk other : Block}, Chain blk → Chain other → blk.height = other.height → blk = other
  linked : ∀ {blk parent : Block}, Chain blk → Chain parent → parent.hash = blk.parentHash →
    blk.height.toNat = parent.height.toNat + 1

/-- The blocks of a node are on the chain. -/
structure OnChain (Chain : Block → Prop) (node : Node) : Prop where
  state : ∀ blk ∈ node.state.blocks, Chain blk
  storage : ∀ blk ∈ node.storage.blocks, Chain blk
  bExec : Chain node.status.bExec

/-- Peers answer with blocks of the chain. -/
structure ChainAnswers (Chain : Block → Prop) (env : Env) : Prop where
  requestBlock : ∀ {number : ℕ} {peer : PublicKey} {hash : Bytes} {blk : Block},
    env.requestBlock number peer hash = some blk → Chain blk
  requestBlockByHeight : ∀ {number : ℕ} {peer : PublicKey} {height : UInt64} {blk : Block},
    env.requestBlockByHeight number peer height = some blk → Chain blk

/-- The fatal log entry of `onCommit`. -/
def alarm : Halt ConsensusError := .fault (.fatal "safety breached")

/-- The process does not end with the alarm. -/
def NoAlarm (halt : Halt ConsensusError) : Prop := halt ≠ alarm

section

variable {params : Params} {env : Env} {node node' : Node} {Chain : Block → Prop} {blk : Block}

theorem OnChain.setBlock (onChain : OnChain Chain node) (chained : Chain blk) : OnChain Chain (node.setBlock blk) :=
  { onChain with
    state := fun other mem => by
      rcases mem_putBlock mem with rfl | mem
      · exact chained
      · exact onChain.state other mem }

theorem OnChain.storeBlock (onChain : OnChain Chain node) (chained : Chain blk) : OnChain Chain (node.storeBlock blk) :=
  { onChain with
    storage := fun other mem => by
      rcases mem_putBlock mem with rfl | mem
      · exact chained
      · exact onChain.storage other mem }

theorem OnChain.finishCommit (onChain : OnChain Chain node) (txCount : ℕ) :
    OnChain Chain (finishCommit params env blk txCount node) :=
  { onChain with
    state := fun other mem => onChain.state other (blocks_finishCommit_subset blk txCount mem) }

theorem wp_getBlockByHash_chain (onChain : OnChain Chain node) (hash : Bytes)
    {stop : Halt ConsensusError → Node → Prop} :
    wp (getBlockByHash hash) (fun found node' => (OnChain Chain node' ∧ node'.status = node.status) ∧
      ∀ blk, found = some blk → Chain blk ∧ blk.hash = hash) stop node := by
  rw [getBlockByHash, wp_bind, wp_get]
  cases in_memory : findBlock node.state.blocks hash with
  | some blk =>
      refine ⟨⟨onChain, rfl⟩, fun other same => ?_⟩
      obtain rfl := Option.some.inj same
      obtain ⟨mem, hash_eq⟩ := mem_of_findBlock in_memory
      exact ⟨onChain.state _ mem, hash_eq⟩
  | none =>
      cases in_storage : findBlock node.storage.blocks hash with
      | none => exact ⟨⟨onChain, rfl⟩, by rintro _ ⟨⟩⟩
      | some blk =>
          obtain ⟨mem, hash_eq⟩ := mem_of_findBlock in_storage
          have chained := onChain.storage _ mem
          refine ⟨⟨onChain.setBlock chained, rfl⟩, fun other same => ?_⟩
          obtain rfl := Option.some.inj same
          exact ⟨chained, hash_eq⟩

theorem splitTxs_error {hasTx : Bytes → Bool} {store : TxStore} {hashes : List Bytes} {reason : Fault}
    (failed : splitTxs hasTx store hashes = .error reason) : reason = .fatal "missing tx to execute" := by
  induction hashes with
  | nil => cases failed
  | cons hash hashes ih =>
      rw [splitTxs] at failed
      split at failed
      · cases rest : splitTxs hasTx store hashes with
        | error other =>
            rw [rest] at failed
            cases failed
            exact ih rest
        | ok result =>
            rw [rest] at failed
            cases failed
      · split at failed
        · cases rest : splitTxs hasTx store hashes with
          | error other =>
              rw [rest] at failed
              cases failed
              exact ih rest
          | ok result =>
              rw [rest] at failed
              cases failed
        · cases failed
          rfl

theorem wp_commit_chain (onChain : OnChain Chain node) (chained : Chain blk) :
    wp (commit params env blk) (fun _ node' => OnChain Chain node' ∧ node'.status = node.status)
      (fun halt node' => OnChain Chain node' ∧ NoAlarm halt) node := by
  rw [commit, wp_bind, wp_modify, wp_bind, wp_get, wp_ite]
  have recorded : OnChain Chain (node.record (.commit blk)) := ⟨onChain.state, onChain.storage, onChain.bExec⟩
  refine ⟨fun _ => ⟨recorded.finishCommit _, rfl⟩, fun _ => ?_⟩
  rw [wp_ite]
  refine ⟨fun _ => ?_, fun _ => ?_⟩
  · rw [wp_bind, onTxPool, wp_zoom, getTxsToExecute, wp_bind, wp_get]
    cases split : splitTxs (node.record (.commit blk)).storage.hasTx (node.record (.commit blk)).txPool
        blk.transactions with
    | error reason =>
        obtain rfl := splitTxs_error split
        exact ⟨recorded, fun same => by simp [alarm] at same⟩
    | ok result =>
        refine ⟨OnChain.finishCommit ?_ _, rfl⟩
        exact ⟨recorded.state, (recorded.storeBlock chained).storage, recorded.bExec⟩
  · refine ⟨OnChain.finishCommit ?_ _, rfl⟩
    exact ⟨recorded.state, (recorded.storeBlock chained).storage, recorded.bExec⟩

theorem wp_qcRefHeight_chain (onChain : OnChain Chain node) (qc : QuorumCert) :
    wp (qcRefHeight qc) (fun _ node' => OnChain Chain node') (fun halt node' => OnChain Chain node' ∧ NoAlarm halt)
      node := by
  rw [qcRefHeight]
  refine wp_then (wp_getBlockByHash_chain onChain qc.blockHash) ?_
  rintro found node' ⟨⟨onChain', -⟩, -⟩
  rw [wp_bind, wp_deref]
  exact ⟨fun _ _ => onChain', fun _ => ⟨onChain', by rintro ⟨⟩⟩⟩

theorem wp_cmpQCPriority_chain (onChain : OnChain Chain node) (qc1 qc2 : Option QuorumCert) :
    wp (cmpQCPriority qc1 qc2) (fun _ node' => OnChain Chain node')
      (fun halt node' => OnChain Chain node' ∧ NoAlarm halt) node := by
  cases qc1 with
  | none => exact ⟨onChain, nofun⟩
  | some qc1 =>
      cases qc2 with
      | none => exact ⟨onChain, nofun⟩
      | some qc2 =>
          rw [cmpQCPriority, wp_ite]
          refine ⟨fun _ => onChain, fun _ => ?_⟩
          rw [wp_ite]
          refine ⟨fun _ => onChain, fun _ => ?_⟩
          refine wp_then (wp_qcRefHeight_chain onChain qc1) ?_
          intro _ node1 onChain1
          rw [wp_bind]
          exact wp_mono (wp_qcRefHeight_chain onChain1 qc2) (fun _ _ onChain2 => onChain2) fun _ _ stopped => stopped

theorem Window.update_error {w : Window} {qc vote height : UInt64} {reason : Fault}
    (failed : w.update qc vote height = .error reason) : reason = .indexOutOfRange := by
  rw [Window.update] at failed
  split at failed
  · cases qcQuotas_eq : w.qcQuotas with
    | nil =>
        rw [qcQuotas_eq] at failed
        cases failed
        rfl
    | cons quota quotas =>
        cases voteQuotas_eq : w.voteQuotas with
        | nil =>
            rw [qcQuotas_eq, voteQuotas_eq] at failed
            cases failed
            rfl
        | cons voted votes =>
            rw [qcQuotas_eq, voteQuotas_eq] at failed
            cases failed
  · cases failed

theorem wp_updateWindow_chain (onChain : OnChain Chain node) (qc : QuorumCert) :
    wp (updateWindow qc blk) (fun _ node' => OnChain Chain node')
      (fun halt node' => OnChain Chain node' ∧ NoAlarm halt) node := by
  rw [updateWindow, wp_bind, wp_get]
  cases qc.findVote node.signer with
  | none => exact ⟨onChain, by rintro ⟨⟩⟩
  | some vote =>
      rw [wp_bind]
      cases updated : node.status.window.update qc.sumQuota vote blk.height with
      | ok window => exact ⟨onChain.state, onChain.storage, onChain.bExec⟩
      | error reason =>
          obtain rfl := Window.update_error updated
          exact ⟨onChain, by rintro ⟨⟩⟩

variable (single : SingleChain Chain)

include single

theorem wp_executed_chain (onChain : OnChain Chain node) (chained : Chain blk)
    (not_lower : ¬ blk.height < node.status.bExec.height)
    (not_higher : ¬ node.status.bExec.height < blk.height) :
    wp (if node.status.bExec.hash ≠ blk.hash then fault (.fatal "safety breached") else pure ())
      (fun _ node' => OnChain Chain node' ∧ node'.status = node.status)
      (fun halt node' => OnChain Chain node' ∧ NoAlarm halt) node := by
  have height_eq : node.status.bExec.height = blk.height :=
    UInt64.le_antisymm (UInt64.not_lt.mp not_lower) (UInt64.not_lt.mp not_higher)
  rw [single.unforked onChain.bExec chained height_eq, wp_ite]
  exact ⟨fun different => absurd rfl different, fun _ => ⟨onChain, rfl⟩⟩

/-- From a block that is not lower than the last executed one, `onCommit` comes down to that block. -/
theorem wp_onCommit_chain (fuel : ℕ) (onChain : OnChain Chain node) (chained : Chain blk)
    (not_lower : ¬ blk.height < node.status.bExec.height) :
    wp (onCommit params env fuel (some blk)) (fun _ node' => OnChain Chain node' ∧ node'.status = node.status)
      (fun halt node' => OnChain Chain node' ∧ NoAlarm halt) node := by
  induction fuel generalizing blk node with
  | zero =>
      rw [onCommit, wp_bind, wp_gets, cmpBlockHeight, wp_bind, wp_pure, wp_bind, Program.deref, wp_pure, wp_ite,
        Std.compare_eq_gt]
      exact ⟨fun _ => ⟨onChain, by rintro ⟨⟩⟩, wp_executed_chain single onChain chained not_lower⟩
  | succ fuel ih =>
      rw [onCommit, wp_bind, wp_gets, cmpBlockHeight, wp_bind, wp_pure, wp_bind, Program.deref, wp_pure, wp_ite,
        Std.compare_eq_gt]
      refine ⟨fun above => ?_, wp_executed_chain single onChain chained not_lower⟩
      refine wp_then (wp_getBlockByHash_chain onChain blk.parentHash) ?_
      rintro found node1 ⟨⟨onChain1, status1⟩, found_chain⟩
      rw [wp_bind]
      cases found with
      | none =>
          -- a missing parent is a panic, not the alarm
          have misses : wp (onCommit params env fuel none) (fun _ _ => False)
              (fun halt node' => OnChain Chain node' ∧ NoAlarm halt) node1 := by
            rw [onCommit, wp_bind, wp_gets, wp_bind]
            exact ⟨onChain1, by rintro ⟨⟩⟩
          exact wp_mono misses (fun _ _ absurd => absurd.elim) fun _ _ stopped => stopped
      | some parent =>
          obtain ⟨parent_chain, hash_eq⟩ := found_chain parent rfl
          have height_eq := single.linked chained parent_chain hash_eq
          have not_lower1 : ¬ parent.height < node1.status.bExec.height := by
            rw [UInt64.lt_iff_toNat_lt] at above ⊢
            rw [status1]
            omega
          refine wp_mono (ih onChain1 parent_chain not_lower1) ?_ fun _ _ stopped => stopped
          rintro _ node2 ⟨onChain2, status2⟩
          refine wp_mono (wp_commit_chain onChain2 chained) ?_ fun _ _ stopped => stopped
          rintro _ node3 ⟨onChain3, status3⟩
          exact ⟨onChain3, status3.trans (status2.trans status1)⟩

theorem wp_commitRecursive_chain (onChain : OnChain Chain node) (chained : Chain blk)
    (not_lower : ¬ blk.height < node.status.bExec.height) :
    wp (commitRecursive params env blk) (fun _ node' => OnChain Chain node')
      (fun halt node' => OnChain Chain node' ∧ NoAlarm halt) node := by
  rw [commitRecursive, wp_bind, wp_get]
  refine wp_then (wp_onCommit_chain single _ onChain chained not_lower) ?_
  rintro _ node' ⟨onChain', -⟩
  exact ⟨onChain'.state, onChain'.storage, chained⟩

theorem wp_updateQCHigh_chain (onChain : OnChain Chain node) (qc : Option QuorumCert) :
    wp (updateQCHigh params env qc) (fun _ node' => OnChain Chain node')
      (fun halt node' => OnChain Chain node' ∧ NoAlarm halt) node := by
  rw [updateQCHigh, wp_bind, wp_gets]
  refine wp_then (wp_cmpQCPriority_chain onChain qc (some node.status.qcHigh)) ?_
  rintro order node1 onChain1
  rw [wp_bind, wp_deref]
  refine ⟨fun qc _ => ?_, fun _ => ⟨onChain1, by rintro ⟨⟩⟩⟩
  rw [wp_ite]
  refine ⟨fun _ => ?_, fun _ => onChain1⟩
  refine wp_then (wp_getBlockByHash_chain onChain1 qc.blockHash) ?_
  rintro found node2 ⟨⟨onChain2, -⟩, found_chain⟩
  rw [wp_bind, wp_deref]
  refine ⟨fun blk1 found1 => ?_, fun _ => ⟨onChain2, by rintro ⟨⟩⟩⟩
  have chained1 := (found_chain blk1 found1).1
  refine wp_then (wp_getBlockByHash_chain onChain2 blk1.parentHash) ?_
  rintro blk0 node3 ⟨⟨onChain3, -⟩, found_chain0⟩
  rw [wp_bind, wp_modify, wp_bind]
  have high : OnChain Chain (setHigh qc blk1 node3) := ⟨onChain3.state, onChain3.storage, onChain3.bExec⟩
  have moved : wp (Program.when (params.config.twoPhaseBFTFlag = false) (updateWindow qc blk1))
      (fun _ node' => OnChain Chain node') (fun halt node' => OnChain Chain node' ∧ NoAlarm halt)
      (setHigh qc blk1 node3) := by
    rw [Program.when, wp_ite]
    exact ⟨fun _ => wp_updateWindow_chain high qc, fun _ => high⟩
  refine wp_mono moved ?_ fun _ _ stopped => stopped
  intro _ node4 onChain4
  have stored : OnChain Chain ((node4.storeQC qc).storeBlock blk1) :=
    OnChain.storeBlock ⟨onChain4.state, onChain4.storage, onChain4.bExec⟩ chained1
  rw [wp_bind, wp_modify, wp_bind, wp_modify, wp_bind, wp_gets, wp_bind]
  cases blk0 with
  | none => exact ⟨stored, by rintro ⟨⟩⟩
  | some parent =>
      rw [cmpBlockHeight, wp_pure, wp_bind, Program.deref, wp_pure, Program.when, wp_ite, Std.compare_eq_gt]
      refine ⟨fun commits => ?_, fun _ => stored⟩
      exact wp_commitRecursive_chain single stored (found_chain0 parent rfl).1 (UInt64.lt_asymm commits.1)

end

/-! ## Faults of validations and of the pool -/

/-- A part of a handler meets no fault but an index. -/
def OnlyIndex {ε : Type} (halt : Halt ε) : Prop := ∀ reason, halt = .fault reason → reason = .indexOutOfRange

theorem onlyIndex_error {ε : Type} (reason : ε) : OnlyIndex (.error reason) := nofun

theorem onlyIndex_index {ε : Type} : OnlyIndex (.fault .indexOutOfRange : Halt ε) :=
  fun _ same => (Halt.fault.inj same).symm

section

variable {crypto : Crypto} {store : RoleStore} {pool : TxStore} {data : PbQuorumCert}

theorem wp_validateSigs_index (sigs : List Signature) (quotas : List UInt64) (seen : List Bytes) :
    wp (QuorumCert.validateSigs crypto data sigs quotas seen) (fun _ _ => True) (fun halt _ => OnlyIndex halt)
      store := by
  induction sigs generalizing quotas seen with
  | nil => trivial
  | cons sig sigs ih =>
      simp only [QuorumCert.validateSigs, wp_bind, wp_throwIf, wp_get]
      refine ⟨fun _ => onlyIndex_error _, fun _ => ⟨fun _ => onlyIndex_error _, fun _ => ?_⟩⟩
      cases quotas with
      | nil => exact onlyIndex_index
      | cons quota quotas =>
          simp only [wp_bind, wp_throwIf]
          exact ⟨fun _ => onlyIndex_error _, fun _ => ih quotas _⟩

theorem wp_checkSignature (signature : Option PbSignature) (isValidator : PublicKey → RoleStore → Bool)
    (message : Bytes) :
    wp (do
        let sig ← Core.ofExcept (newSignature signature)
        let store ← (Program.get : Program CoreError RoleStore RoleStore)
        Program.throwIf (isValidator sig.pubKey store = false) .invalidValidator
        Program.throwIf (sig.verify crypto message = false) .invalidSig)
      (fun _ _ => True) (fun halt _ => OnlyIndex halt) store := by
  rw [wp_bind]
  cases newSignature signature with
  | error reason => exact onlyIndex_error reason
  | ok sig =>
      rw [Core.ofExcept.eq_def]
      simp only [wp_pure, wp_bind, wp_get, wp_throwIf]
      exact ⟨fun _ => onlyIndex_error _, fun _ => ⟨fun _ => onlyIndex_error _, fun _ => trivial⟩⟩

theorem wp_validateQC_index (qc : QuorumCert) :
    wp (qc.validate crypto) (fun _ _ => True) (fun halt _ => OnlyIndex halt) store := by
  simp only [QuorumCert.validate, RoleStore.decAndGetGrace, wp_bind, wp_modify, wp_gets, wp_get, wp_throwIf]
  refine ⟨fun _ => onlyIndex_error _, fun _ => ?_⟩
  refine wp_mono (wp_validateSigs_index _ _ _) (fun _ store' _ => ?_) fun _ _ index => index
  cases newSignature qc.data.signature with
  | error reason => exact onlyIndex_error reason
  | ok sig =>
      rw [Core.ofExcept.eq_def]
      simp only [wp_bind, wp_pure, wp_throwIf]
      exact ⟨fun _ => onlyIndex_error _, fun _ => ⟨fun _ => onlyIndex_error _, fun _ => trivial⟩⟩

theorem wp_validateBlock_index (blk : Block) :
    wp (blk.validate crypto) (fun _ _ => True) (fun halt _ => OnlyIndex halt) store := by
  rw [Block.validate, wp_bind, wp_throwIf]
  refine ⟨fun _ => onlyIndex_error _, fun _ => ?_⟩
  cases blk.quorumCert with
  | none => exact wp_checkSignature _ (fun key store => store.isValidator key) _
  | some qc =>
      simp only [wp_bind]
      refine wp_mono (wp_validateQC_index qc) (fun _ store' _ => ?_) fun _ _ index => index
      have rest := @wp_checkSignature crypto store' blk.data.signature (fun key store => store.isValidator key)
        blk.data.hash
      simpa only [wp_bind] using rest

theorem wp_checkTxList_index (hashes : List Bytes) (txs : List Transaction) :
    wp (checkTxList hashes txs) (fun _ _ => True) (fun halt _ => OnlyIndex halt) pool := by
  induction txs generalizing hashes with
  | nil => cases hashes <;> trivial
  | cons tx txs ih =>
      cases hashes with
      | nil => exact onlyIndex_index
      | cons hash hashes =>
          rw [checkTxList, wp_bind, wp_throwIf]
          exact ⟨fun _ => onlyIndex_error _, fun _ => ih hashes⟩

theorem wp_addTxList_index (services : Services) (txs : List Transaction) :
    wp (addTxList services txs) (fun _ _ => True) (fun halt _ => OnlyIndex halt) pool := by
  induction txs generalizing pool with
  | nil => trivial
  | cons tx txs ih =>
      rw [addTxList, wp_bind, TxPool.addNewTx]
      cases tx.validate services.crypto with
      | error reason => exact onlyIndex_error _
      | ok value =>
          simp only [wp_ite, wp_pure, wp_bind, wp_throwIf, wp_modify]
          exact ⟨fun _ => ih, fun _ => ⟨fun _ => onlyIndex_error _, fun _ => ih⟩⟩

theorem wp_syncTxs_index (services : Services) (request : List Bytes → Option (List Transaction))
    (order : List Transaction → List Transaction) (hashes : List Bytes) :
    wp (TxPool.syncTxs services request order hashes) (fun _ _ => True) (fun halt _ => OnlyIndex halt) pool := by
  rw [TxPool.syncTxs, wp_bind, wp_get, wp_ite]
  refine ⟨fun _ => trivial, fun _ => ?_⟩
  cases request (missingTxs services pool hashes) with
  | none => exact onlyIndex_error _
  | some txs =>
      rw [wp_bind]
      exact wp_mono (wp_checkTxList_index _ _) (fun _ _ _ => wp_addTxList_index _ _) fun _ _ index => index

end

/-! ## The threads -/

section

variable {params : Params} {env : Env} {node node' : Node} {Chain : Block → Prop} {blk : Block}

theorem noAlarm_error (reason : ConsensusError) : NoAlarm (.error reason) := nofun

theorem OnChain.zoom {ε τ α : Type} {read : Node → τ} {write : τ → Node → Node} {embed : ε → ConsensusError}
    {program : Program ε τ α} (onChain : ∀ part, OnChain Chain (write part node))
    (index : wp program (fun _ _ => True) (fun halt _ => OnlyIndex halt) (read node)) :
    wp (Program.zoom read write embed program) (fun _ node' => OnChain Chain node' ∧ True)
      (fun halt node' => OnChain Chain node' ∧ NoAlarm halt) node := by
  rw [wp_zoom]
  refine wp_mono index (fun _ _ _ => ⟨onChain _, trivial⟩) fun halt part index => ?_
  cases halt with
  | error reason => exact ⟨onChain part, noAlarm_error _⟩
  | fault reason =>
      rw [index reason rfl]
      exact ⟨onChain part, nofun⟩

theorem wp_onRoleStore_chain (onChain : OnChain Chain node) :
    wp (onRoleStore (blk.validate params.crypto)) (fun _ node' => OnChain Chain node' ∧ True)
      (fun halt node' => OnChain Chain node' ∧ NoAlarm halt) node :=
  OnChain.zoom (fun _ => ⟨onChain.state, onChain.storage, onChain.bExec⟩) (wp_validateBlock_index blk)

theorem wp_syncTxs_chain (onChain : OnChain Chain node) (peer : PublicKey) (hashes : List Bytes) :
    wp (syncTxs params env peer hashes) (fun _ node' => OnChain Chain node' ∧ True)
      (fun halt node' => OnChain Chain node' ∧ NoAlarm halt) node := by
  rw [syncTxs, wp_bind, nextRequest, wp_bind, wp_gets, wp_bind, wp_modify, wp_pure, wp_bind, wp_get, onTxPool]
  exact OnChain.zoom (fun _ => ⟨onChain.state, onChain.storage, onChain.bExec⟩) (wp_syncTxs_index _ _ _ _)

/-- A commit of a synchronisation starts with a block that is not lower than the last executed one. -/
def CommitsUpward : Option Block → Node → Prop
  | some blk, node => ¬ blk.height < node.status.bExec.height
  | none, _ => True

/-- A thread stays on the chain and does not raise the alarm, as long as no commit is of a lower block. -/
def Harmless (Chain : Block → Prop) {α : Type} (post : α → Prop) (thread : DriverThread α) : Prop :=
  thread.Keeps (OnChain Chain) CommitsUpward post NoAlarm

namespace Harmless

variable {α β : Type} {post : α → Prop} {post' : β → Prop}

theorem pure {value : α} (holds : post value) : Harmless Chain post (Pure.pure value : DriverThread α) :=
  Thread.Keeps.pure holds

theorem halted {halt : Halt ConsensusError} (holds : NoAlarm halt) :
    Harmless Chain post (.halted halt : DriverThread α) :=
  Thread.Keeps.halted holds

theorem bind {thread : DriverThread α} {rest : α → DriverThread β} (first : Harmless Chain post thread)
    (second : ∀ value, post value → Harmless Chain post' (rest value)) : Harmless Chain post' (thread >>= rest) :=
  Thread.Keeps.bind first second

theorem aside {program : Handler α} (kept : ∀ node, OnChain Chain node → wp program
    (fun value node' => OnChain Chain node' ∧ post value) (fun halt node' => OnChain Chain node' ∧ NoAlarm halt)
      node) : Harmless Chain post (Threaded.aside program) :=
  Thread.Keeps.lift fun node onChain _ => kept node onChain

theorem gets {read : Node → α} (holds : ∀ node, OnChain Chain node → post (read node)) :
    Harmless Chain post (Threaded.aside (Program.gets read)) :=
  aside fun node onChain => ⟨onChain, holds node onChain⟩

theorem modify {update : Node → Node} (kept : ∀ node, OnChain Chain node → OnChain Chain (update node)) :
    Harmless Chain (fun _ => True) (Threaded.aside (Program.modify update)) :=
  aside fun node onChain => ⟨kept node onChain, trivial⟩

theorem throwIf {condition : Prop} [Decidable condition] {reason : ConsensusError} :
    Harmless Chain (fun _ => True) (Threaded.aside (Program.throwIf condition reason)) := by
  refine aside fun node onChain => ?_
  rw [wp_throwIf]
  exact ⟨fun _ => ⟨onChain, noAlarm_error _⟩, fun _ => ⟨onChain, trivial⟩⟩

theorem nextRequest : Harmless Chain (fun _ => True) (Threaded.aside Consensus.nextRequest) :=
  aside fun _ onChain => ⟨⟨onChain.state, onChain.storage, onChain.bExec⟩, trivial⟩

theorem validate (blk : Block) :
    Harmless Chain (fun _ => True) (Threaded.aside (onRoleStore (blk.validate params.crypto))) :=
  aside fun _ onChain => wp_onRoleStore_chain onChain

theorem acceptBlock {blk : Block} (chained : Chain blk) :
    Harmless Chain (fun _ => True) (Threaded.aside (Program.modify fun node => node.acceptBlock blk)) :=
  modify fun _ onChain =>
    ⟨(onChain.setBlock chained).state, onChain.storage, onChain.bExec⟩

theorem whenSyncTxs {condition : Prop} [Decidable condition] {peer : PublicKey} {hashes : List Bytes} :
    Harmless Chain (fun _ => True) (Threaded.aside (Program.when condition (syncTxs params env peer hashes))) := by
  refine aside fun node onChain => ?_
  rw [Program.when, wp_ite]
  exact ⟨fun _ => wp_syncTxs_chain onChain peer hashes, fun _ => ⟨onChain, trivial⟩⟩

theorem getBlockByHash (hash : Bytes) :
    Harmless Chain (fun found => ∀ blk, found = some blk → Chain blk) (Threaded.getBlockByHash hash) := by
  have in_memory : Harmless Chain (fun found => ∀ blk, found = some blk → Chain blk)
      (Threaded.aside (Program.gets fun node => findBlock node.state.blocks hash)) :=
    gets fun node onChain blk found => onChain.state blk (mem_of_findBlock found).1
  have in_storage : Harmless Chain (fun found => ∀ blk, found = some blk → Chain blk)
      (Threaded.aside (Program.gets fun node => findBlock node.storage.blocks hash)) :=
    gets fun node onChain blk found => onChain.storage blk (mem_of_findBlock found).1
  refine in_memory.bind fun found chained => ?_
  cases found with
  | some blk => exact .pure chained
  | none =>
      refine in_storage.bind fun found chained => ?_
      cases found with
      | none => exact .pure chained
      | some blk =>
          exact (modify fun _ onChain => onChain.setBlock (chained blk rfl)).bind fun _ _ => .pure chained

theorem requestBlock (answers : ChainAnswers Chain env) (peer : PublicKey) (hash : Bytes) :
    Harmless Chain Chain (Threaded.requestBlock params env peer hash) := by
  refine nextRequest.bind fun number _ => ?_
  cases answered : env.requestBlock number peer hash with
  | none => exact .halted (noAlarm_error _)
  | some blk =>
      have chained := answers.requestBlock answered
      exact (validate blk).bind fun _ _ => (acceptBlock chained).bind fun _ _ => .pure chained

theorem requestBlockByHeight (answers : ChainAnswers Chain env) (peer : PublicKey) (height : UInt64) :
    Harmless Chain Chain (Threaded.requestBlockByHeight params env peer height) := by
  refine nextRequest.bind fun number _ => ?_
  cases answered : env.requestBlockByHeight number peer height with
  | none => exact .halted (noAlarm_error _)
  | some blk =>
      have chained := answers.requestBlockByHeight answered
      have recorded : Harmless Chain (fun _ => True)
          (Threaded.aside (Program.modify fun node => node.record (.receivedByHeight blk))) :=
        modify fun _ onChain => ⟨onChain.state, onChain.storage, onChain.bExec⟩
      refine (validate blk).bind fun _ _ => (acceptBlock chained).bind fun _ _ => ?_
      exact recorded.bind fun _ _ => .pure chained

theorem getOrRequestBlock (answers : ChainAnswers Chain env) (peer : PublicKey) (hash : Bytes) :
    Harmless Chain Chain (Threaded.getOrRequestBlock params env peer hash) := by
  refine (getBlockByHash hash).bind fun found chained => ?_
  cases found with
  | some blk => exact .pure (chained blk rfl)
  | none => exact requestBlock answers peer hash

theorem verifyParentAndCommitRecursive (single : SingleChain Chain) {blk : Block} (chained : Chain blk)
    (peer : PublicKey) (parent : Block) :
    Harmless Chain (fun _ => True) (Threaded.verifyParentAndCommitRecursive params env peer blk parent) := by
  refine throwIf.bind fun _ _ => whenSyncTxs.bind fun _ _ => Thread.Keeps.lift fun node onChain not_lower => ?_
  exact wp_mono (wp_commitRecursive_chain single onChain chained not_lower)
    (fun _ _ onChain' => ⟨onChain', trivial⟩) fun _ _ stopped => stopped

theorem syncForwardCommittedBlocks (single : SingleChain Chain) (answers : ChainAnswers Chain env)
    (peer : PublicKey) (count : ℕ) (height : UInt64) :
    Harmless Chain (fun _ => True) (Threaded.syncForwardCommittedBlocks params env peer count height) := by
  induction count generalizing height with
  | zero => exact .pure trivial
  | succ count ih =>
      refine (requestBlockByHeight answers peer height).bind fun blk chained => ?_
      refine (getBlockByHash blk.parentHash).bind fun found _ => ?_
      cases found with
      | none => exact .halted (noAlarm_error _)
      | some parent =>
          exact (verifyParentAndCommitRecursive single chained peer parent).bind fun _ _ => ih _

theorem syncMissingCommittedBlocks (single : SingleChain Chain) (answers : ChainAnswers Chain env) (blk : Block) :
    Harmless Chain (fun _ => True) (Threaded.syncMissingCommittedBlocks params env blk) := by
  have read : Harmless Chain (fun _ => True)
      (Threaded.aside (Program.gets fun node => node.storage.blockHeight)) := gets fun _ _ => trivial
  refine read.bind fun commitHeight _ => ?_
  split
  · exact .pure trivial
  · refine throwIf.bind fun _ _ => (getOrRequestBlock answers _ _).bind fun qcRef _ => ?_
    exact throwIf.bind fun _ _ => syncForwardCommittedBlocks single answers _ _ _

theorem syncMissingParentRecursive (answers : ChainAnswers Chain env) (peer : PublicKey) (fuel : ℕ) (blk : Block) :
    Harmless Chain (fun _ => True) (Threaded.syncMissingParentRecursive params env peer fuel blk) := by
  have read : Harmless Chain (fun _ => True)
      (Threaded.aside (Program.gets fun node => node.storage.blockHeight)) := gets fun _ _ => trivial
  induction fuel generalizing blk with
  | zero =>
      refine (getOrRequestBlock answers peer _).bind fun parent _ => read.bind fun commitHeight _ => ?_
      split
      · exact .pure trivial
      · exact throwIf.bind fun _ _ => whenSyncTxs.bind fun _ _ => .halted (by rintro ⟨⟩)
  | succ fuel ih =>
      refine (getOrRequestBlock answers peer _).bind fun parent _ => read.bind fun commitHeight _ => ?_
      split
      · exact .pure trivial
      · refine throwIf.bind fun _ _ => whenSyncTxs.bind fun _ _ => ?_
        exact (ih parent).bind fun _ _ => .pure trivial

theorem syncParentBlock (single : SingleChain Chain) (answers : ChainAnswers Chain env) (fuel : ℕ) (blk : Block) :
    Harmless Chain (fun _ => True) (Threaded.syncParentBlock params env fuel blk) := by
  rw [Threaded.syncParentBlock]
  split
  · exact .pure trivial
  · refine (getBlockByHash _).bind fun found _ => ?_
    cases found with
    | some parent => exact .pure trivial
    | none =>
        refine (syncMissingCommittedBlocks single answers blk).bind fun _ _ => ?_
        exact (syncMissingParentRecursive answers _ fuel blk).bind fun _ _ => .pure trivial

theorem updateQCHigh (single : SingleChain Chain) (qcs : List (Option QuorumCert)) :
    Harmless Chain (fun _ => True) (Threaded.updateQCHigh params env qcs) := by
  induction qcs with
  | nil => exact .pure trivial
  | cons qc qcs ih =>
      have updated : Harmless Chain (fun _ => True) (Threaded.aside (Consensus.updateQCHigh params env qc)) :=
        aside fun node onChain => wp_mono (wp_updateQCHigh_chain single onChain qc)
          (fun _ _ onChain' => ⟨onChain', trivial⟩) fun _ _ stopped => stopped
      exact updated.bind fun _ _ => ih

end Harmless

end

/-! ## Both loops at once -/

/-- The loops of a node: proposals, certificates, and calls of `updateQCHigh` by any loop. -/
inductive Loop where
  | proposals
  | certificates
  | updates
  deriving DecidableEq

instance : Fintype Loop := ⟨{.proposals, .certificates, .updates}, fun loop => by cases loop <;> decide⟩

/-- Both loops synchronise the parent of a block, while certificates are adopted. -/
def syncThreads (params : Params) (env : Loop → Env) (fuel : Loop → ℕ) (blk : Loop → Block)
    (qcs : List (Option QuorumCert)) : Loop → DriverThread Unit
  | .updates => Threaded.updateQCHigh params (env .updates) qcs
  | loop => do
      let _ ← Threaded.syncParentBlock params (env loop) (fuel loop) (blk loop)
      pure ()

/-- `onCommit` has reported a breach of safety. -/
def Alarmed (pool : Pool Loop (Option Block) ConsensusError Node) : Prop :=
  ∃ loop, pool.threads loop = .halted alarm

/-- Two more blocks above the ones of the second validator's chain, the upper one with the height that its proposer
has executed. -/
def topBlk : Block := childBlock 1 upperBlk 0 3 0 []

def aheadBlk : Block :=
  Block.sign transparentCrypto (transparentSigner 1)
    { hash := [], view := 0, height := 4, parentHash := topBlk.hash, execHeight := 3, merkleRoot := []
      timestamp := 0, transactions := [], quorumCert := some (bothVotes topBlk).data, signature := none }
    (some (bothVotes topBlk))

/-- The chain of these blocks. -/
def wholeChain : List Block := [transparentBlock [], lowerBlk, upperBlk, topBlk, aheadBlk]

/-- Peers that have the chain. -/
def chainEnv : Env :=
  { silentEnv with
    requestBlock := fun _ _ hash => wholeChain.find? fun blk => blk.hash = hash
    requestBlockByHeight := fun _ _ height => wholeChain.find? fun blk => blk.height = height }

theorem wholeChain_single : SingleChain (· ∈ wholeChain) where
  unforked {blk other} mem mem' height_eq := by
    have checked : ∀ blk ∈ wholeChain, ∀ other ∈ wholeChain, blk.height = other.height → blk = other := by
      decide +kernel
    exact checked blk mem other mem' height_eq
  linked {blk parent} mem mem' hash_eq := by
    have checked : ∀ blk ∈ wholeChain, ∀ parent ∈ wholeChain, parent.hash = blk.parentHash →
        blk.height.toNat = parent.height.toNat + 1 := by decide +kernel
    exact checked blk mem parent mem' hash_eq

theorem chainEnv_answers : ChainAnswers (· ∈ wholeChain) chainEnv where
  requestBlock {_ _ hash _} answered := by
    change (wholeChain.find? fun blk => blk.hash = hash) = _ at answered
    exact List.mem_of_find?_eq_some answered
  requestBlockByHeight {_ _ height _} answered := by
    change (wholeChain.find? fun blk => blk.height = height) = _ at answered
    exact List.mem_of_find?_eq_some answered

theorem secondValidator_onChain : OnChain (· ∈ wholeChain) secondValidator where
  state := by decide +kernel
  storage := by decide +kernel
  bExec := by decide +kernel

/-- Both loops catch up with the upper block. -/
def catchingUp : Pool Loop (Option Block) ConsensusError Node :=
  ⟨secondValidator, syncThreads transparentParams (fun _ => chainEnv) (fun _ => 4) (fun _ => aheadBlk) []⟩

/-- One loop is about to commit the first block while the other one commits two blocks. -/
def overtaking : List Loop :=
  List.replicate 2 .proposals ++ List.replicate 17 .certificates ++ List.replicate 20 .proposals ++ [.certificates]

instance (label : Option Block) (node : Node) : Decidable (CommitsUpward label node) :=
  match label with
  | some blk => inferInstanceAs (Decidable (¬ blk.height < node.status.bExec.height))
  | none => inferInstanceAs (Decidable True)

end SvpChain.Consensus
