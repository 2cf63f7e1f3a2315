import SvpChain.Consensus.HandlerSteps
import SvpChain.Lib.Kept

/-!
# Invariants between handlers

`updateQCHigh` changes the highest certificate, the window and the storage one after the other, so what links
them holds between two handlers and not between two steps.  An invariant that is stable under the whole of an
adoption, under a commit, and under all that the handlers do beside them is kept by every handler.
-/

namespace SvpChain.Consensus

open Core TxPool Program

/-- The calls that change neither the highest certificate nor the stored blocks. -/
def Event.Quiet : Event → Prop
  | .setQCHigh .. | .commit _ => False
  | _ => True

/-- What `updateWindow` makes of the window for a certificate. -/
def WindowAfter (params : Params) (node : Node) (qc : QuorumCert) (blk1 : Block) (window : Window) : Prop :=
  if params.config.twoPhaseBFTFlag then window = node.status.window
  else ∃ vote, qc.findVote node.signer = some vote ∧
    node.status.window.update qc.sumQuota vote blk1.height = .ok window

/-- The node after the adoption of a certificate, before any commit. -/
def adopted (qc : QuorumCert) (blk1 : Block) (window : Window) (node : Node) : Node :=
  let high := setHigh qc blk1 node
  ((high.setStatus { high.status with window := window }).storeQC qc).storeBlock blk1

/-- An invariant that the driver keeps. -/
structure StableDriver (params : Params) (inv : Node → Prop) : Prop where
  memory : ∀ {node}, inv node → ∀ roleStore txPool state requests,
    inv { node with roleStore := roleStore, txPool := txPool, state := state, requests := requests }
  record : ∀ {node}, inv node → ∀ {event : Event}, event.Quiet → inv (node.record event)
  commit : ∀ {node}, inv node → ∀ blk, inv (node.record (.commit blk))
  store : ∀ {node}, inv node → ∀ {blk}, .commit blk ∈ node.trace → ∀ txs merkleRoot,
    inv { node with storage := node.storage.commit blk txs merkleRoot }
  bExec : ∀ {node}, inv node → ∀ blk, inv (node.setStatus { node.status with bExec := blk })
  adopt : ∀ {node}, inv node → ∀ {qc blk1 window}, blk1.hash = qc.blockHash →
    WindowAfter params node qc blk1 window → inv (adopted qc blk1 window node)

/-- An invariant that the driver keeps, where only the whole of a commit is known to keep it. -/
structure StableCalls (params : Params) (inv : Node → Prop) : Prop where
  memory : ∀ {node}, inv node → ∀ roleStore txPool state requests,
    inv { node with roleStore := roleStore, txPool := txPool, state := state, requests := requests }
  record : ∀ {node}, inv node → ∀ {event : Event}, event.Quiet → inv (node.record event)
  bExec : ∀ {node}, inv node → ∀ blk, inv (node.setStatus { node.status with bExec := blk })
  adopt : ∀ {node}, inv node → ∀ {qc blk1 window}, blk1.hash = qc.blockHash →
    WindowAfter params node qc blk1 window → inv (adopted qc blk1 window node)
  commitBlock : ∀ env blk, Kept inv (commit params env blk)

/-- An invariant that is kept where the view of a proposal is approved and where a view change begins. -/
structure StableApproval (params : Params) (inv : Node → Prop) : Prop extends StableCalls params inv where
  approve : ∀ {node}, inv node → ∀ {view proposer}, isNewViewApproval node.status view proposer = true →
    inv (approveViewLeader params view proposer node)
  timeout : ∀ {node}, inv node → ∀ viewChange rotator,
    inv { node with status := { node.status with viewChange := viewChange }, rotator := rotator }

/-- An invariant that also says nothing about rounds of votes and tokens.  Only the entry into the next view may
break it. -/
structure StableRounds (params : Params) (inv : Node → Prop) : Prop extends StableApproval params inv where
  round : ∀ {node}, inv node → ∀ bLeaf proposal votes quotaCount, inv (node.setStatus { node.status with
    bLeaf := bLeaf, proposal := proposal, votes := votes, quotaCount := quotaCount })
  token : ∀ {node}, inv node → ∀ proposeCh, inv { node with proposeCh := proposeCh }

/-- An invariant that also says nothing about views. -/
structure StableViews (params : Params) (inv : Node → Prop) : Prop extends StableDriver params inv where
  views : ∀ {node}, inv node → ∀ view leaderIndex viewChange recover rotator, inv { node with
    status := { node.status with
      view := view
      leaderIndex := leaderIndex
      viewChange := viewChange
      window := { node.status.window with recover := recover } }
    rotator := rotator }

/-- An invariant that all handlers keep: it says nothing about rounds of votes and tokens either. -/
structure StableNode (params : Params) (inv : Node → Prop) : Prop extends StableViews params inv where
  round : ∀ {node}, inv node → ∀ bLeaf proposal votes quotaCount, inv (node.setStatus { node.status with
    bLeaf := bLeaf, proposal := proposal, votes := votes, quotaCount := quotaCount })
  token : ∀ {node}, inv node → ∀ proposeCh, inv { node with proposeCh := proposeCh }

/-- The node after a part of a handler. A fault ends the process. -/
def Node.after {α : Type} (program : Handler α) (node : Node) : Node :=
  match program node with
  | (.error (.fault _), node') => { node' with alive := false }
  | (_, node') => node'

section

variable {params : Params} {env : Env} {inv : Node → Prop}

theorem receive_eq_after (node : Node) (input : Input) :
    node.receive params env input = node.after (handle params env input) := by
  unfold Node.receive Node.after
  rcases handle params env input node with ⟨(_ | _) | _, _⟩ <;> rfl

theorem after_of_wp {α : Type} {program : Handler α} {node : Node} {holds : Node → Prop}
    (ends : wp program (fun _ => holds) (fun halt node' => (∃ reason, halt = .fault reason) ∨ holds node') node)
    (alive : (node.after program).alive = true) : holds (node.after program) := by
  unfold wp at ends
  unfold Node.after at alive ⊢
  rcases ending : program node with ⟨result, node'⟩
  rw [ending] at ends alive
  cases result with
  | ok value => exact ends
  | error halt =>
      cases halt with
      | fault reason => cases alive
      | error reason =>
          rcases ends with ⟨_, never⟩ | holds'
          · cases never
          · exact holds'

theorem kept_after {α : Type} {program : Handler α} (kept : Kept inv program) {node : Node} (holds : inv node)
    (alive : (node.after program).alive = true) : inv (node.after program) :=
  after_of_wp (kept node holds) alive

/-! ## The driver -/

namespace StableDriver

variable (stable : StableDriver params inv)
include stable

theorem commitBlock (env : Env) (blk : Block) : Kept inv (Consensus.commit params env blk) := by
  intro node holds
  have finish : ∀ txCount node, inv node → inv (finishCommit params env blk txCount node) :=
    fun _ _ holds => stable.memory holds _ _ _ _
  have recorded := stable.commit holds blk
  refine (wp_bind _ _).mpr ((wp_modify _).mpr ((wp_bind _ _).mpr (wp_get.mpr ?_)))
  refine (wp_ite _ _ _).mpr ⟨fun _ => finish _ _ recorded, fun _ => (wp_ite _ _ _).mpr ⟨fun _ => ?_, fun _ => ?_⟩⟩
  · refine (wp_bind _ _).mpr (wp_zoom.mpr (wp_mono (wp_trivial _) ?_ ?_))
    · rintro ⟨txs, _⟩ pool -
      have fetched : inv { node.record (.commit blk) with txPool := pool } := stable.memory recorded _ _ _ _
      have stored := stable.store fetched List.mem_cons_self txs
        (env.execute node.roleStore node.storage blk txs).merkleRoot
      have executed : (Event.execute blk txs).Quiet := trivial
      exact finish _ _ (stable.memory (stable.record stored executed)
        (env.execute node.roleStore node.storage blk txs).roleStore _ _ _)
    · intro halt pool _
      cases halt with
      | error reason => exact Or.inr (stable.memory recorded _ _ _ _)
      | fault reason => exact Or.inl ⟨reason, rfl⟩
  · exact finish _ _ (stable.store recorded List.mem_cons_self _ _)

theorem calls : StableCalls params inv where
  memory := stable.memory
  record := stable.record
  bExec := stable.bExec
  adopt := stable.adopt
  commitBlock := stable.commitBlock

end StableDriver

namespace StableCalls

variable (stable : StableCalls params inv)
include stable

theorem setBlock {node : Node} (holds : inv node) (blk : Block) : inv (node.setBlock blk) :=
  stable.memory holds _ _ _ _

theorem acceptBlock {node : Node} (holds : inv node) (blk : Block) : inv (node.acceptBlock blk) :=
  stable.record (stable.setBlock holds blk) trivial

theorem onRoleStore {α : Type} (program : Program CoreError RoleStore α) : Kept inv (Consensus.onRoleStore program) :=
  .zoom fun _ _ holds => stable.memory holds _ _ _ _

theorem onTxPool {α : Type} (program : Program TxPoolError TxStore α) : Kept inv (Consensus.onTxPool program) :=
  .zoom fun _ _ holds => stable.memory holds _ _ _ _

omit stable in
theorem ofFault {α : Type} (result : Except Fault α) : Kept inv (Consensus.ofFault result) := by
  cases result with
  | ok value => exact .pure
  | error reason => exact .fault

theorem getBlockByHash (hash : Bytes) : Kept inv (Consensus.getBlockByHash hash) := by
  refine .bind .get fun node => ?_
  cases findBlock node.state.blocks hash with
  | some blk => exact .pure
  | none =>
      cases findBlock node.storage.blocks hash with
      | none => exact .pure
      | some blk => exact .bind (.modify fun _ holds => stable.setBlock holds blk) fun _ => .pure

theorem qcRefHeight (qc : QuorumCert) : Kept inv (Consensus.qcRefHeight qc) :=
  .bind (stable.getBlockByHash _) fun _ => .bind .deref fun _ => .pure

omit stable in
theorem cmpBlockHeight (left right : Option Block) : Kept inv (Consensus.cmpBlockHeight left right) := by
  unfold Consensus.cmpBlockHeight
  split
  · exact .pure
  · exact .fault

theorem cmpQCPriority (left right : Option QuorumCert) : Kept inv (Consensus.cmpQCPriority left right) := by
  unfold Consensus.cmpQCPriority
  split
  · exact .ite .pure (.ite .pure (.bind (stable.qcRefHeight _) fun _ =>
      .bind (stable.qcRefHeight _) fun _ => .pure))
  · exact .fault

theorem nextRequest : Kept inv Consensus.nextRequest :=
  .bind .gets fun _ => .bind (.modify fun _ holds => stable.memory holds _ _ _ _) fun _ => .pure

theorem syncTxs (peer : PublicKey) (hashes : List Bytes) : Kept inv (Consensus.syncTxs params env peer hashes) :=
  .bind stable.nextRequest fun _ => .bind .get fun _ => stable.onTxPool _

theorem requestBlock (peer : PublicKey) (hash : Bytes) : Kept inv (Consensus.requestBlock params env peer hash) := by
  refine .bind stable.nextRequest fun number => ?_
  cases env.requestBlock number peer hash with
  | none => exact .throw
  | some blk =>
      exact .bind (stable.onRoleStore _) fun _ =>
        .bind (.modify fun _ holds => stable.acceptBlock holds blk) fun _ => .pure

theorem requestBlockByHeight (peer : PublicKey) (height : UInt64) :
    Kept inv (Consensus.requestBlockByHeight params env peer height) := by
  refine .bind stable.nextRequest fun number => ?_
  cases env.requestBlockByHeight number peer height with
  | none => exact .throw
  | some blk =>
      exact .bind (stable.onRoleStore _) fun _ =>
        .bind (.modify fun _ holds => stable.acceptBlock holds blk) fun _ =>
          .bind (.modify fun _ holds => stable.record holds trivial) fun _ => .pure

theorem getOrRequestBlock (peer : PublicKey) (hash : Bytes) :
    Kept inv (Consensus.getOrRequestBlock params env peer hash) := by
  refine .bind (stable.getBlockByHash hash) fun found => ?_
  cases found with
  | some blk => exact .pure
  | none => exact stable.requestBlock peer hash

theorem onCommit (fuel : ℕ) (found : Option Block) : Kept inv (Consensus.onCommit params env fuel found) := by
  induction fuel generalizing found with
  | zero =>
      rw [Consensus.onCommit]
      exact .bind .gets fun _ => .bind (cmpBlockHeight _ _) fun _ => .bind .deref fun _ =>
        .ite .fault (.ite .fault .pure)
  | succ fuel ih =>
      rw [Consensus.onCommit]
      exact .bind .gets fun _ => .bind (cmpBlockHeight _ _) fun _ => .bind .deref fun blk =>
        .ite (.bind (stable.getBlockByHash _) fun parent =>
          .bind (ih parent) fun _ => stable.commitBlock env blk) (.ite .fault .pure)

theorem commitRecursive (blk : Block) : Kept inv (Consensus.commitRecursive params env blk) :=
  .bind .get fun _ => .bind (stable.onCommit _ _) fun _ => .modify fun _ holds => stable.bExec holds blk

theorem verifyParentAndCommitRecursive (peer : PublicKey) (blk parent : Block) :
    Kept inv (Consensus.verifyParentAndCommitRecursive params env peer blk parent) :=
  .bind .throwIf fun _ => .bind (.when (stable.syncTxs _ _)) fun _ => stable.commitRecursive blk

theorem syncForwardCommittedBlocks (peer : PublicKey) (count : ℕ) (height : UInt64) :
    Kept inv (Consensus.syncForwardCommittedBlocks params env peer count height) := by
  induction count generalizing height with
  | zero => exact .pure
  | succ count ih =>
      rw [Consensus.syncForwardCommittedBlocks]
      refine .bind (stable.requestBlockByHeight peer height) fun blk =>
        .bind (stable.getBlockByHash _) fun parent => ?_
      cases parent with
      | none => exact .throw
      | some parent =>
          exact .bind (stable.verifyParentAndCommitRecursive peer blk parent) fun _ => ih _

theorem syncMissingCommittedBlocks (blk : Block) : Kept inv (Consensus.syncMissingCommittedBlocks params env blk) :=
  .bind .gets fun _ => .ite .pure (.bind .throwIf fun _ => .bind (stable.getOrRequestBlock _ _) fun _ =>
    .bind .throwIf fun _ => stable.syncForwardCommittedBlocks _ _ _)

theorem syncMissingParentRecursive (peer : PublicKey) (fuel : ℕ) (blk : Block) :
    Kept inv (Consensus.syncMissingParentRecursive params env peer fuel blk) := by
  induction fuel generalizing blk with
  | zero =>
      rw [Consensus.syncMissingParentRecursive]
      exact .bind (stable.getOrRequestBlock _ _) fun _ => .bind .gets fun _ => .ite .pure
        (.bind .throwIf fun _ => .bind (.when (stable.syncTxs _ _)) fun _ => .fault)
  | succ fuel ih =>
      rw [Consensus.syncMissingParentRecursive]
      exact .bind (stable.getOrRequestBlock _ _) fun parent => .bind .gets fun _ => .ite .pure
        (.bind .throwIf fun _ => .bind (.when (stable.syncTxs _ _)) fun _ =>
          .bind (ih parent) fun _ => .pure)

theorem syncParentBlock (blk : Block) : Kept inv (Consensus.syncParentBlock params env blk) := by
  refine .ite .pure (.bind (stable.getBlockByHash _) fun found => ?_)
  cases found with
  | some parent => exact .pure
  | none =>
      exact .bind (stable.syncMissingCommittedBlocks blk) fun _ => .bind .gets fun _ =>
        .bind (stable.syncMissingParentRecursive _ _ _) fun _ => .pure

theorem getBlockByHash_found {node : Node} (holds : inv node) (hash : Bytes) : wp (Consensus.getBlockByHash hash)
      (fun found node' => inv node' ∧ ∀ blk, found = some blk → blk.hash = hash)
      (fun halt node' => (∃ reason, halt = .fault reason) ∨ inv node') node := by
  have found := @runs_getBlockByHash params openInbox node hash
  apply wp_mono (wp_and (stable.getBlockByHash hash node holds) found)
  · intro found node' ⟨holds', _, _, is_found⟩
    exact ⟨holds', fun blk same => (mem_of_findBlock (is_found blk same)).2⟩
  · intro halt node' stopped
    exact stopped.1

/-- The highest certificate, the window and the storage change one after the other; only the result counts. -/
theorem adoptThen {qc : QuorumCert} {blk1 : Block} (certifies : blk1.hash = qc.blockHash)
    {rest : Handler Unit} (kept : Kept inv rest) :
    Kept inv (do
      Program.modify (setHigh qc blk1)
      Program.when (params.config.twoPhaseBFTFlag = false) (updateWindow qc blk1)
      Program.modify fun node => node.storeQC qc
      Program.modify fun node => node.storeBlock blk1
      rest) := by
  intro node holds
  refine (wp_bind _ _).mpr ((wp_modify _).mpr ((wp_bind _ _).mpr ?_))
  by_cases flag : params.config.twoPhaseBFTFlag = false
  · rw [Program.when, if_pos flag]
    refine (wp_bind _ _).mpr (wp_get.mpr ?_)
    cases voted : qc.findVote node.signer with
    | none =>
        simp only [setHigh, Node.record, voted]
        exact Or.inl ⟨_, rfl⟩
    | some vote =>
        simp only [setHigh, Node.record, voted]
        cases updated : node.status.window.update qc.sumQuota vote blk1.height with
        | error reason => exact Or.inl ⟨reason, rfl⟩
        | ok window =>
            have after : WindowAfter params node qc blk1 window := by
              rw [WindowAfter, flag]
              exact ⟨vote, voted, updated⟩
            exact kept _ (stable.adopt holds certifies after)
  · rw [Program.when, if_neg flag]
    have after : WindowAfter params node qc blk1 node.status.window := by
      rw [WindowAfter, if_pos (Bool.not_eq_false _ ▸ flag)]
    exact kept _ (stable.adopt holds certifies after)

theorem updateQCHigh (qc : Option QuorumCert) : Kept inv (Consensus.updateQCHigh params env qc) := by
  refine .bind .gets fun qcHigh => .bind (stable.cmpQCPriority _ _) fun order => .bind .deref fun qc =>
    .ite (fun node holds => ?_) .pure
  refine wp_then (stable.getBlockByHash_found holds _) ?_
  rintro found node1 ⟨holds1, is_found⟩
  refine (wp_bind _ _).mpr ((wp_deref _).mpr ⟨fun blk1 same => ?_, fun _ => Or.inl ⟨_, rfl⟩⟩)
  refine wp_then (stable.getBlockByHash _ node1 holds1) ?_
  intro blk0 node2 holds2
  refine stable.adoptThen (is_found blk1 same) ?_ node2 holds2
  exact .bind .gets fun _ => .bind (cmpBlockHeight _ _) fun _ => .bind .deref fun _ =>
    .when (stable.commitRecursive _)

end StableCalls

theorem StableCalls.enterNextView (stable : StableCalls params inv)
    (next : ∀ node, inv node → ∀ nextIdx, inv (setNextView nextIdx node)) : Kept inv Consensus.enterNextView :=
  .bind .get fun _ => .when (.bind (StableCalls.ofFault _) fun nextIdx =>
    .bind (.modify fun node holds => next node holds nextIdx) fun _ =>
      .bind (stable.qcRefHeight _) fun _ => .pure)

/-! ## Views -/

namespace StableApproval

variable (stable : StableApproval params inv)
include stable

theorem rotatorReceiveProposal (blk : Block) : Kept inv (Consensus.rotatorReceiveProposal params blk) :=
  .get_bind fun _ holds => (wp_ite _ _ _).mpr ⟨stable.approve holds, fun _ => holds⟩

omit stable in
theorem getVoteQuota : Kept inv (Consensus.getVoteQuota params env) :=
  .ite .pure (.bind .get fun _ => .bind (StableCalls.ofFault _) fun _ => .bind .throwIf fun _ => .pure)

omit stable in
theorem verifyTxs (blk : Block) (hashes : List Bytes) : Kept inv (Consensus.verifyTxs blk hashes) := by
  induction hashes with
  | nil => exact .pure
  | cons hash hashes ih =>
      refine .bind .get fun node => .bind .throwIf fun _ => ?_
      cases node.txPool.getTx hash with
      | none => exact .throw
      | some tx => exact .bind .throwIf fun _ => ih

theorem voteProposal (blk : Block) : Kept inv (Consensus.voteProposal params env blk) := by
  have verified : Kept inv (verifyBlockToVote params blk) :=
    .bind .get fun _ => .bind (.when (.bind (.bind .get fun _ => .throwIf) fun _ =>
      .bind .get fun _ => .throwIf)) fun _ => .when (verifyTxs _ _)
  refine .bind .get fun _ => .bind .throwIf fun _ => .bind verified fun _ =>
    .bind getVoteQuota fun quota => .bind (.modify fun node holds => ?_) fun _ =>
      .bind .deref fun _ => .bind (stable.qcRefHeight _) fun _ => .pure
  have sent : (Event.sendVote blk (blk.vote node.signer quota)).Quiet := trivial
  exact stable.record (stable.memory holds _ _ _ _) sent

theorem onReceiveProposal (blk : Block) : Kept inv (Consensus.onReceiveProposal params env blk) :=
  .bind (stable.onRoleStore _) fun _ => .bind (.modify fun _ holds => stable.record holds trivial) fun _ =>
    .bind (stable.syncParentBlock blk) fun _ => .bind (.when (stable.syncTxs _ _)) fun _ =>
      .bind (.modify fun _ holds => stable.acceptBlock holds blk) fun _ =>
        .bind (stable.rotatorReceiveProposal blk) fun _ => .bind .get fun _ => .bind .throwIf fun _ =>
          .bind (stable.cmpQCPriority _ _) fun _ => .bind .throwIf fun _ =>
            .bind (stable.updateQCHigh _) fun _ => stable.voteProposal blk

theorem countQC {node : Node} (holds : inv node) (sender : PublicKey) (change : UInt32) :
    inv (Consensus.countQC sender change node) := by
  have counted : (Event.countedQC sender change).Quiet := trivial
  exact stable.timeout (stable.record holds counted) node.status.viewChange _

theorem changeView : Kept inv Consensus.changeView := by
  refine .bind .get fun before => .bind (StableCalls.ofFault _) fun nextIdx => .bind .deref fun nextLeader => .when
    (.bind (.modify fun node holds => ?_) fun _ => .ite
      (.modify fun _ holds => stable.record holds trivial) (.modify fun node holds => ?_))
  · have told : (Event.setLeader nextIdx.toNat).Quiet := trivial
    exact stable.timeout (stable.record holds told) _ _
  · exact stable.countQC holds _ _

theorem onLeaderTimeout : Kept inv Consensus.onLeaderTimeout :=
  .bind (.modify fun node holds => stable.timeout holds node.status.viewChange _) fun _ =>
    .bind stable.changeView fun _ => .bind .get fun _ =>
      .when (.modify fun node holds => stable.timeout holds _ node.rotator)

theorem onViewTimeout : Kept inv Consensus.onViewTimeout :=
  .bind (.modify fun node holds => stable.timeout holds node.status.viewChange _) fun _ => stable.changeView

end StableApproval

/-! ## The handlers -/

namespace StableRounds

variable (stable : StableRounds params inv)
include stable

theorem takeTxs : Kept inv (Consensus.takeTxs params) :=
  .bind .get fun _ => .ite .pure (.bind (.modify fun _ holds => stable.memory holds _ _ _ _) fun _ => .pure)

theorem createProposal (view : UInt32) (parent : Block) (qcHigh : QuorumCert) :
    Kept inv (Consensus.createProposal params env view parent qcHigh) := by
  refine .bind stable.takeTxs fun txs => .bind .get fun node => .bind (.modify fun node' holds => ?_) fun _ =>
    .bind (stable.rotatorReceiveProposal _) fun _ => .bind (stable.qcRefHeight _) fun _ => .pure
  have proposed : (Event.proposed (proposalBlock params env node view parent qcHigh txs)).Quiet := trivial
  exact stable.round (stable.record (stable.setBlock holds _) proposed) _ _ _ _

theorem addVote {node : Node} (holds : inv node) {vote : Vote} {status : Status}
    (added : node.status.addVote vote = .ok status) : inv (node.setStatus status) := by
  obtain ⟨-, -, rfl⟩ := Status.addVote_eq_ok added
  exact stable.round holds _ _ _ _

theorem driverReceiveVote (vote : Vote) : Kept inv (Consensus.driverReceiveVote params env vote) := by
  refine .get_bind fun node holds => ?_
  cases added : node.status.addVote vote with
  | error reason => exact Or.inr holds
  | ok status =>
      refine (wp_bind _ _).mpr ((wp_modify _).mpr ?_)
      have built : ∀ qc tally, (Event.builtQC qc tally).Quiet := fun _ _ => trivial
      exact Kept.bind (stable.getBlockByHash vote.blockHash) (fun _ => .bind .deref fun _ =>
        .bind .get fun _ => .bind (StableCalls.ofFault _) fun _ => .ite
          (.bind (.modify fun _ holds => stable.record holds (built _ _)) fun _ =>
            .bind (.modify fun _ holds => stable.round holds _ _ _ _) fun _ =>
              .bind (stable.updateQCHigh _) fun _ => .modify fun _ holds => stable.token holds _) .pure)
        _ (stable.addVote holds added)

theorem broadcastAndVote (blk : Block) : Kept inv (Consensus.broadcastAndVote params env blk) :=
  .bind (.modify fun _ holds => stable.record holds trivial) fun _ =>
    .bind (stable.updateQCHigh _) fun _ => .bind StableApproval.getVoteQuota fun _ => .bind .get fun _ =>
      .discardError (stable.driverReceiveVote _)

theorem newProposal : Kept inv (Consensus.newProposal params env) :=
  .bind .get fun _ => .ite .pure (.ite .pure
    (.bind (stable.createProposal _ _ _) fun blk => stable.broadcastAndVote blk))

theorem newViewProposal : Kept inv (Consensus.newViewProposal params env) :=
  .bind (.modify fun _ holds => stable.record holds trivial) fun _ => .bind .gets fun _ =>
    .bind (stable.getBlockByHash _) fun _ => .bind .deref fun _ => .bind .get fun _ =>
      .bind (stable.createProposal _ _ _) fun blk => stable.broadcastAndVote blk

theorem onReceiveVote (vote : Vote) : Kept inv (Consensus.onReceiveVote params env vote) :=
  .bind (stable.onRoleStore _) fun _ => .bind .get fun _ => .bind .throwIf fun _ => stable.driverReceiveVote vote

theorem countThenPropose (sender : PublicKey) (change : UInt32) :
    Kept inv (do
      Program.modify (Consensus.countQC sender change)
      let node ← Program.get
      Program.when (node.roleStore.majorityValidatorCount ≤ node.rotator.highQCCount ∧
        isLeader node node.signer.pubKey) (Consensus.newViewProposal params env)) :=
  .bind (.modify fun _ holds => stable.countQC holds sender change) fun _ => .bind .get fun _ =>
    .when stable.newViewProposal

theorem handle {input : Input} (other : ∀ sender change qc, input ≠ .qc sender change qc) :
    Kept inv (Consensus.handle params env input) := by
  cases input with
  | propose =>
      exact .bind .get fun _ => .ite .pure (.bind (.modify fun _ holds => stable.token holds _) fun _ =>
        stable.newProposal)
  | proposal blk => exact stable.onReceiveProposal blk
  | vote vote => exact stable.onReceiveVote vote
  | qc sender change qc => exact absurd rfl (other sender change qc)
  | leaderTimeout => exact stable.onLeaderTimeout
  | viewTimeout => exact stable.onViewTimeout
  | submitTx tx => exact .bind .get fun _ => stable.onTxPool _
  | receiveTx tx => exact .bind .get fun _ => stable.onTxPool _

/-! What remains is the entry into the next view. -/

theorem onReceiveQC (enter : Kept inv Consensus.enterNextView) (sender : PublicKey) (change : UInt32)
    (qc : QuorumCert) : Kept inv (Consensus.onReceiveQC params env sender change qc) :=
  .bind (stable.onRoleStore _) fun _ => .bind (.modify fun _ holds => stable.record holds trivial) fun _ =>
    .bind (stable.getOrRequestBlock _ _) fun blk => .bind (stable.syncParentBlock blk) fun _ =>
      .bind (.when (stable.syncTxs _ _)) fun _ => .bind (stable.updateQCHigh _) fun _ =>
        .bind enter fun _ => stable.countThenPropose sender change

theorem receive (enter : Kept inv Consensus.enterNextView) {node : Node} (holds : inv node) (input : Input)
    (alive : (node.receive params env input).alive = true) : inv (node.receive params env input) := by
  rw [receive_eq_after] at alive ⊢
  cases input with
  | qc sender change qc => exact kept_after (stable.onReceiveQC enter sender change qc) holds alive
  | _ => exact kept_after (stable.handle (by nofun)) holds alive

/-- The invariant holds in every state of a run whose process is alive. -/
theorem run (enter : Kept inv Consensus.enterNextView) {surroundings : Env → Prop} {start node : Node}
    (run : NodeRun params surroundings start node) (alive : node.alive = true) (holds : inv start) : inv node := by
  induction run with
  | start => exact holds
  | step _ alive_before _ input ih => exact stable.receive enter (ih alive_before) input alive

end StableRounds

/-! ## Invariants that say nothing about views -/

namespace StableViews

variable (stable : StableViews params inv)
include stable

theorem approval : StableApproval params inv where
  toStableCalls := stable.calls
  approve {node} holds view proposer _ := by
    have approved : (Event.approve view proposer).Quiet := trivial
    exact stable.record (stable.views holds _ _ _ _ _) approved
  timeout {node} holds _ _ := stable.views holds _ _ _ node.status.window.recover _

theorem enterNextView : Kept inv Consensus.enterNextView := by
  refine stable.calls.enterNextView fun node holds nextIdx => ?_
  have entered : (Event.enterView (node.rotator.oldView + 1) nextIdx).Quiet := trivial
  exact stable.record (stable.views holds _ _ _ node.status.window.recover _) entered

end StableViews

namespace StableNode

variable (stable : StableNode params inv)
include stable

theorem rounds : StableRounds params inv :=
  { stable with
    toStableApproval := stable.approval }

theorem run {surroundings : Env → Prop} {start node : Node} (run : NodeRun params surroundings start node)
    (alive : node.alive = true) (holds : inv start) : inv node :=
  stable.rounds.run stable.enterNextView run alive holds

end StableNode

end

end SvpChain.Consensus
