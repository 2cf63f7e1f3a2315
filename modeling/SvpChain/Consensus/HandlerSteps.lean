import SvpChain.Consensus.DriverSteps

/-!
# Handlers move by steps

One lemma for each handler, and from them that every input moves a node by steps.  A handler needs to
know no more of its surroundings than that what they hand over is in the inbox.
-/

namespace SvpChain.Consensus

open Core TxPool Relation Program

variable {params : Params} {env : Env} {inbox : Inbox} {node node' : Node} {step : Node → Node → Prop}

/-! ## Validator -/

theorem runs_verifyTxs (blk : Block) (hashes : List Bytes) :
    Runs step (verifyTxs blk hashes) (fun _ node' => node' = node) node := by
  induction hashes with
  | nil => exact Runs.pure rfl
  | cons hash hashes ih =>
      refine Runs.get_bind (Runs.throwIf_bind fun _ => ?_)
      cases node.txPool.getTx hash with
      | none => exact Runs.throw
      | some tx => exact Runs.throwIf_bind fun _ => ih

theorem runs_verifyExecHeight (blk : Block) : Runs step (verifyExecHeight blk) (fun _ node' => node' = node) node :=
  Runs.get_bind (Runs.throwIf fun _ => rfl)

theorem runs_verifyBlockToVote (blk : Block) :
    Runs step (verifyBlockToVote params blk) (fun _ node' => node' = node) node := by
  have unchanged : Runs step (do
      verifyExecHeight blk
      verifyMerkleRoot params blk) (fun _ node' => node' = node) node := by
    refine Runs.bind (runs_verifyExecHeight blk) ?_
    rintro _ _ _ rfl
    exact Runs.get_bind (Runs.throwIf fun _ => rfl)
  refine Runs.get_bind (Runs.bind (Runs.when (fun _ => unchanged) fun _ => rfl) ?_)
  rintro _ _ _ rfl
  exact Runs.when (fun _ => runs_verifyTxs blk _) fun _ => rfl

variable {blk : Block} {start : Node} {surroundings : Env → Prop}

theorem runs_voteProposal {qc : QuorumCert} (seen : Seen inbox node blk)
    (view_eq : node.status.view = blk.view) (cert_eq : blk.quorumCert = some qc)
    (level : qc = node.status.qcHigh ∨ QCOrder node qc node.status.qcHigh .eq) :
    Runs (NodeStep params inbox) (voteProposal params env blk) (fun _ _ => True) node := by
  refine Runs.get_bind (Runs.throwIf_bind fun leader => ?_)
  refine Runs.bind (runs_verifyBlockToVote blk) ?_
  rintro _ _ _ rfl
  refine Runs.bind runs_getVoteQuota ?_
  rintro quota _ _ rfl
  refine Runs.modify_bind (.sendVote quota ⟨seen, view_eq, by simpa using leader, cert_eq, level⟩) ?_
  refine Runs.deref_bind fun _ _ => Runs.bind (runs_qcRefHeight _) fun _ _ _ _ => ?_
  exact Runs.pure trivial

theorem runs_onReceiveProposal (answers : Answers params env inbox) (closed : Closed inbox node)
    (received : Passed (blk.validate params.crypto) → inbox.Block blk) :
    Runs (NodeStep params inbox) (onReceiveProposal params env blk) (fun _ _ => True) node := by
  refine Runs.bind (runs_onRoleStore (runs_validateBlock _ _)) fun _ node1 steps1 passed => ?_
  have validate_step : NodeStep params inbox node1 (node1.record (.validated blk)) :=
    .validate (received passed)
  have closed1 := (closed.steps steps1).step validate_step
  refine Runs.modify_bind validate_step ?_
  refine Runs.bind ((syncSteps answers).syncParentBlock blk closed1) fun _ node2 steps2 _ => ?_
  refine Runs.bind (Runs.when (fun _ => runs_syncTxs _ _) fun _ => trivial) fun _ node3 steps3 _ => ?_
  have receive_step : NodeStep params inbox node3 (node3.acceptBlock blk) := .chain (.receive (received passed))
  refine Runs.modify_bind receive_step ?_
  refine Runs.bind (runs_rotatorReceiveProposal List.mem_cons_self) ?_
  rintro _ node4 steps4 ⟨not_later, same_state⟩
  have closed4 := (((closed1.steps steps2).steps steps3).step receive_step).steps steps4
  have found4 : findBlock node4.state.blocks blk.hash = some blk := by
    rw [same_state]
    exact findBlock_putBlock_self _ _
  refine Runs.get_bind (Runs.throwIf_bind fun not_earlier => ?_)
  have view_eq : node4.status.view = blk.view :=
    UInt32.le_antisymm (UInt32.not_lt.mp not_earlier) (UInt32.not_lt.mp not_later)
  refine Runs.bind (runs_cmpQCPriority _ _) ?_
  rintro order node5 steps5 ⟨loads5, qc, _, cert_eq, same_high, compared⟩
  obtain rfl := Option.some.inj same_high
  refine Runs.throwIf_bind fun not_lower => ?_
  refine Runs.bind (runs_updateQCHigh answers (closed4.steps steps5) ?_) ?_
  · intro target node' is_target loads
    exact Or.inr ⟨blk, (mem_of_findBlock (loads.find (loads5.find found4))).1, is_target⟩
  rintro _ node6 steps6 ⟨target, is_target, same_view, level⟩
  have seen6 : Seen inbox node6 blk := Or.inr (Or.inl ((Steps.trace_suffix
    ((steps4.trans steps5).trans steps6)).subset List.mem_cons_self))
  obtain rfl := Option.some.inj (cert_eq.symm.trans is_target)
  refine runs_voteProposal seen6 ?_ cert_eq ?_
  · rw [same_view, loads5.status_eq, view_eq]
  · rcases level with is_high | ⟨loads6, order', not_higher, compared'⟩
    · exact Or.inl is_high.symm
    · rw [loads6.status_eq]
      rw [loads5.status_eq] at compared' ⊢
      obtain rfl := (loads6.order compared).unique compared'
      cases order with
      | lt => exact absurd rfl not_lower
      | eq => exact Or.inr compared'
      | gt => exact absurd rfl not_higher

theorem runs_onReceiveVote (answers : Answers params env inbox) (closed : Closed inbox node)
    {vote : Vote} (received : Passed (vote.validate params.crypto) → inbox.Vote vote) :
    Runs (NodeStep params inbox) (onReceiveVote params env vote) (fun _ _ => True) node := by
  refine Runs.bind (runs_onRoleStore (runs_validateVote _ _)) fun _ node1 steps1 passed => ?_
  refine Runs.get_bind (Runs.throwIf_bind fun _ => ?_)
  exact runs_driverReceiveVote answers (closed.steps steps1) (Or.inl (received passed))

/-! ## Proposals -/

theorem runs_broadcastAndVote (answers : Answers params env inbox) (closed : Closed inbox node)
    (proposed : .proposed blk ∈ node.trace) (found : findBlock node.state.blocks blk.hash = some blk) :
    Runs (NodeStep params inbox) (broadcastAndVote params env blk) (fun _ _ => True) node := by
  have broadcast_step : NodeStep params inbox node (node.record (.broadcastProposal blk)) :=
    .broadcast proposed
  have closed1 := closed.step broadcast_step
  refine Runs.modify_bind broadcast_step (Runs.bind (runs_updateQCHigh answers closed1 ?_) ?_)
  · intro target node' is_target loads
    exact Or.inr ⟨blk, (mem_of_findBlock (loads.find found)).1, is_target⟩
  intro _ node1 steps1 _
  refine Runs.bind runs_getVoteQuota ?_
  rintro quota _ _ rfl
  refine Runs.get_bind (Runs.discardError ?_ fun _ _ => trivial)
  have still_proposed := (Steps.trace_suffix steps1).subset (List.mem_cons_of_mem _ proposed)
  exact runs_driverReceiveVote answers (closed1.steps steps1)
    (Or.inr ⟨blk, quota, still_proposed, rfl⟩)

theorem runs_newProposal (answers : Answers params env inbox) (closed : Closed inbox node)
    (leaf : node.status.viewChange = .success → isLeader node node.signer.pubKey = true →
      inbox.Leaf node.status.bLeaf node.status.qcHigh) :
    Runs (NodeStep params inbox) (newProposal params env) (fun _ _ => True) node := by
  refine Runs.get_bind (Runs.ite (fun _ => Runs.pure trivial) fun success => ?_)
  refine Runs.ite (fun _ => Runs.pure trivial) fun leader => ?_
  have is_success : node.status.viewChange = .success := not_not.mp success
  have is_leader : isLeader node node.signer.pubKey = true := by simpa using leader
  refine Runs.bind (runs_createProposal is_leader (Or.inl ⟨is_success, leaf is_success is_leader, rfl⟩)) ?_
  rintro blk node1 steps1 ⟨proposed, found⟩
  exact runs_broadcastAndVote answers (closed.steps steps1) proposed found

theorem runs_newViewProposal (answers : Answers params env inbox) (closed : Closed inbox node)
    (enough : node.roleStore.majorityValidatorCount ≤ node.rotator.highQCCount)
    (leader : isLeader node node.signer.pubKey = true) :
    Runs (NodeStep params inbox) (newViewProposal params env) (fun _ _ => True) node := by
  have announce : NodeStep params inbox node (node.record (.newView node.status.view node.roleStore)) :=
    .newView enough leader
  have closed := closed.step announce
  refine Runs.modify_bind announce (Runs.gets_bind (Runs.bind (runs_getBlockByHash _) ?_))
  rintro found _ steps1 ⟨⟨blocks, rfl, -⟩, is_found⟩
  refine Runs.deref_bind fun parent same => Runs.get_bind ?_
  have is_high := mem_of_findBlock (is_found parent same)
  refine Runs.bind (runs_createProposal leader (Or.inr is_high)) ?_
  rintro blk node2 steps2 ⟨proposed, found⟩
  exact runs_broadcastAndVote answers ((closed.steps steps1).steps steps2) proposed found

/-! ## Rotator -/

theorem runs_changeView : Runs (NodeStep params inbox) changeView (fun _ _ => True) node := by
  refine Runs.get_bind (Runs.bind (runs_ofFault _) ?_)
  rintro nextIdx _ _ ⟨-, rfl⟩
  refine Runs.deref_bind fun nextLeader _ => Runs.when (fun _ => ?_) fun _ => trivial
  refine Runs.modify_bind (.beginViewChange nextIdx) (Runs.ite (fun _ => ?_) fun _ => ?_)
  · exact Runs.modify (.sendQC nextLeader) trivial
  · exact Runs.modify (.countQC _ _) trivial

theorem runs_onLeaderTimeout : Runs (NodeStep params inbox) onLeaderTimeout (fun _ _ => True) node := by
  refine Runs.modify_bind (.rememberView _) (Runs.bind runs_changeView fun _ node1 _ _ => ?_)
  exact Runs.get_bind (Runs.when (fun _ => Runs.modify .failViewChange trivial) fun _ => trivial)

theorem runs_onViewTimeout : Runs (NodeStep params inbox) onViewTimeout (fun _ _ => True) node :=
  Runs.modify_bind (.rememberView _) runs_changeView

theorem runs_enterNextView : Runs (NodeStep params inbox) enterNextView (fun _ _ => True) node := by
  refine Runs.get_bind (Runs.when (fun ⟨ongoing, same_view⟩ => ?_) fun _ => trivial)
  refine Runs.bind (runs_ofFault _) ?_
  rintro nextIdx _ _ ⟨next_eq, rfl⟩
  refine Runs.modify_bind (.enterNextView ongoing same_view next_eq) ?_
  exact Runs.bind (runs_qcRefHeight _) fun _ _ _ _ => Runs.pure trivial

theorem runs_onReceiveQC (answers : Answers params env inbox) (closed : Closed inbox node)
    (sender : PublicKey) (change : UInt32) {qc : QuorumCert}
    (received : Passed (qc.validate params.crypto) → inbox.QC qc) :
    Runs (NodeStep params inbox) (onReceiveQC params env sender change qc) (fun _ _ => True) node := by
  refine Runs.bind (runs_onRoleStore (runs_validateQC _ _)) fun _ node1 steps1 passed => ?_
  have receive_step : NodeStep params inbox node1 (node1.record (.receivedQC qc)) :=
    .receiveQC (received passed)
  refine Runs.modify_bind receive_step ?_
  refine Runs.bind ((syncSteps answers).getOrRequestBlock _ _) fun blk node2 steps2 _ => ?_
  have closed2 := ((closed.steps steps1).step receive_step).steps steps2
  refine Runs.bind ((syncSteps answers).syncParentBlock blk closed2) fun _ node3 steps3 _ => ?_
  refine Runs.bind (Runs.when (fun _ => runs_syncTxs _ _) fun _ => trivial) fun _ node4 steps4 _ => ?_
  have closed4 := (closed2.steps steps3).steps steps4
  refine Runs.bind (runs_updateQCHigh answers closed4 ?_) fun _ node5 steps5 _ => ?_
  · intro target node' is_target loads
    have still := (Steps.trace_suffix (((steps2.trans steps3).trans steps4).tail
      (.chain (.load loads)))).subset (List.mem_cons_self (a := Event.receivedQC qc))
    exact Or.inl (Option.some.inj is_target ▸ still)
  refine Runs.bind runs_enterNextView fun _ node6 steps6 _ => ?_
  have count_step : NodeStep params inbox node6 (countQC sender change node6) := .countQC _ _
  have closed6 := ((closed4.steps steps5).steps steps6).step count_step
  refine Runs.modify_bind count_step (Runs.get_bind (Runs.when (fun ⟨enough, leader⟩ => ?_) fun _ => trivial))
  exact runs_newViewProposal answers closed6 enough leader

/-! ## Inputs -/

/-- The node makes a block when it uses a token. -/
def Proposes (node : Node) : Prop :=
  node.proposeCh ≠ 0 ∧ node.status.viewChange = .success ∧ isLeader node node.signer.pubKey = true

/-- An input and what it relies on are in the inbox. -/
def Allowed (params : Params) (inbox : Inbox) (node : Node) : Input → Prop
  | .propose => Proposes node → inbox.Leaf node.status.bLeaf node.status.qcHigh
  | .proposal blk => Passed (blk.validate params.crypto) → inbox.Block blk
  | .vote vote => Passed (vote.validate params.crypto) → inbox.Vote vote
  | .qc _ _ qc => Passed (qc.validate params.crypto) → inbox.QC qc
  | _ => True

theorem runs_handle (answers : Answers params env inbox) (closed : Closed inbox node) {input : Input}
    (allowed : Allowed params inbox node input) :
    Runs (NodeStep params inbox) (handle params env input) (fun _ _ => True) node := by
  cases input with
  | propose =>
      have token_step : NodeStep params inbox node { node with proposeCh := node.proposeCh - 1 } :=
        .chain (.aside _ _ _)
      refine Runs.get_bind (Runs.ite (fun _ => Runs.pure trivial) fun token => ?_)
      exact Runs.modify_bind token_step (runs_newProposal answers (closed.step token_step)
        fun success leader => allowed ⟨token, success, leader⟩)
  | proposal blk => exact runs_onReceiveProposal answers closed allowed
  | vote vote => exact runs_onReceiveVote answers closed allowed
  | qc sender change qc => exact runs_onReceiveQC answers closed sender change allowed
  | leaderTimeout => exact runs_onLeaderTimeout
  | viewTimeout => exact runs_onViewTimeout
  | submitTx tx =>
      exact Runs.get_bind (Runs.mono (runs_onTxPool (wp_trivial _)) fun _ _ _ _ => trivial)
  | receiveTx tx =>
      exact Runs.get_bind (Runs.mono (runs_onTxPool (wp_trivial _)) fun _ _ _ _ => trivial)

/-- Whatever an input does to a node, it does by steps. -/
theorem steps_receive (answers : Answers params env inbox) (closed : Closed inbox node)
    {input : Input} (allowed : Allowed params inbox node input) :
    Steps params inbox node (node.receive params env input) := by
  have reached := (runs_handle answers closed allowed).reached
  unfold Program.final at reached
  unfold Node.receive
  split
  · next fault node' ending =>
      rw [ending] at reached
      exact .tail reached (.chain .stop)
  · next result node' _ ending =>
      rw [ending] at reached
      exact reached

/-! ## The start -/

theorem runs_fillWindow (places : ℕ) (qc : Option QuorumCert) {w : Window} (summed : w.Summed)
    (empty : ∀ place < places, w.qcQuotas[place]? = some 0) : Runs (NodeStep params inbox) (fillWindow places qc w)
      (fun w' node' => w'.Summed ∧ Loads node node') node := by
  induction places generalizing node qc w with
  | zero => exact Runs.pure ⟨summed, .refl node⟩
  | succ place ih =>
      cases qc with
      | none => exact Runs.pure ⟨summed, .refl node⟩
      | some qc =>
          refine Runs.get_bind ?_
          cases qc.findVote node.signer with
          | none => exact Runs.fault
          | some vote =>
              refine Runs.bind (runs_getBlockByHash _) fun _ node' _ ⟨loads, _⟩ => Runs.deref_bind fun _ _ => ?_
              refine Runs.mono (ih _ ?_ ?_) fun _ _ _ ⟨summed, later⟩ => ⟨summed, loads.trans later⟩
              · exact ⟨(List.length_set ..).trans summed.length_eq, by
                  rw [Window.sum_set_of_zero (empty place place.lt_succ_self), summed.qcAcc_eq]⟩
              · intro earlier below
                rw [List.getElem?_set_ne (Nat.ne_of_gt below)]
                exact empty earlier (Nat.lt_succ_of_lt below)

/-- Blocks were loaded and the window was set. -/
def SetsUp (node node' : Node) : Prop :=
  ∃ loaded window, Loads node loaded ∧
    node' = loaded.setStatus { node.status with window := window }

theorem runs_setupWindow (qc : QuorumCert) :
    Runs (NodeStep params inbox) (setupWindow params qc) (fun _ node' => SetsUp node node') node := by
  refine Runs.get_bind ?_
  cases node.roleStore.getValidatorQuota node.signer.pubKey with
  | none => exact Runs.fault
  | some limit =>
      refine Runs.bind (runs_qcRefHeight qc) fun _ _ _ ⟨loads, _⟩ => ?_
      refine Runs.bind (runs_fillWindow _ _ ?_ ?_) fun window node' _ ⟨summed, later⟩ => ?_
      · exact ⟨List.length_replicate, (Window.sum_replicate_zero _).symm⟩
      · intro place below
        simp [below]
      · have loads := loads.trans later
        refine Runs.modify (.chain (.window fun _ => summed)) ⟨node', window, loads, ?_⟩
        rw [loads.status_eq]

/-- A started node is reached by steps from the node that holds the genesis block alone, with the
certificate of that block as the highest one. -/
theorem Started.sets_up {signer : Signer} {roleStore : RoleStore} {b0 : Block}
    (started : Started params signer roleStore b0 start) (inbox : Inbox) :
    ∃ q0 txs merkleRoot pool, Genesis params roleStore b0 q0 ∧ Steps params inbox
      (setupNode params signer roleStore (genesisStore b0 q0 txs merkleRoot) pool b0 b0 q0) start ∧
      SetsUp (setupNode params signer roleStore (genesisStore b0 q0 txs merkleRoot) pool b0 b0 q0) start := by
  obtain ⟨q0, txs, merkleRoot, pool, genesis, setup⟩ := started
  refine ⟨q0, txs, merkleRoot, pool, genesis, ?_⟩
  have runs : Runs (NodeStep params inbox)
      (Program.when (params.config.twoPhaseBFTFlag = false) (setupWindow params q0))
      (fun _ node' => SetsUp _ node')
      (setupNode params signer roleStore (genesisStore b0 q0 txs merkleRoot) pool b0 b0 q0) :=
    Runs.when (fun _ => runs_setupWindow q0) fun _ => ⟨_, _, .refl _, rfl⟩
  unfold Runs wp at runs
  rwa [setup] at runs

theorem Started.steps {signer : Signer} {roleStore : RoleStore} {b0 : Block}
    (started : Started params signer roleStore b0 start) (inbox : Inbox) :
    ∃ q0 txs merkleRoot pool, Genesis params roleStore b0 q0 ∧ Steps params inbox
      (setupNode params signer roleStore (genesisStore b0 q0 txs merkleRoot) pool b0 b0 q0) start ∧
      start.status.qcHigh = q0 := by
  obtain ⟨q0, txs, merkleRoot, pool, genesis, steps, _, _, -, rfl⟩ := started.sets_up inbox
  exact ⟨q0, txs, merkleRoot, pool, genesis, steps, rfl⟩

/-! ## Runs -/

theorem NodeRun.steps (closed : Closed inbox start) (answers : ∀ env, surroundings env → Answers params env inbox)
    (allowed : ∀ node input, Allowed params inbox node input)
    (run : NodeRun params surroundings start node) : Steps params inbox start node := by
  induction run with
  | start => exact .refl
  | step _ _ surrounds input ih =>
      exact ih.trans (steps_receive (answers _ surrounds) (closed.steps ih) (allowed _ input))

/-- Anything may reach a node. -/
def openInbox : Inbox where
  Root _ := True
  Block _ := True
  Height _ := True
  Vote _ := True
  QC _ := True
  Roles _ _ := True
  Leaf _ _ := True

theorem closed_openInbox (node : Node) : Closed openInbox node where
  received _ _ := trivial
  blocks _ _ := Or.inl trivial
  stored _ _ := Or.inl trivial
  leaf := Or.inl trivial
  high := ⟨{ node.status.bLeaf with
    data := { node.status.bLeaf.data with hash := node.status.qcHigh.blockHash } }, Or.inl trivial, rfl⟩

theorem answers_openInbox (env : Env) : Answers params env openInbox :=
  ⟨fun _ _ _ _ _ _ => trivial, fun _ _ _ _ _ _ => ⟨trivial, trivial⟩, fun _ _ _ _ => trivial⟩

theorem allowed_openInbox (node : Node) (input : Input) : Allowed params openInbox node input := by
  cases input with
  | propose | proposal | vote | qc => exact fun _ => trivial
  | _ => trivial

theorem NodeRun.open_steps (run : NodeRun params surroundings start node) : Steps params openInbox start node :=
  run.steps (closed_openInbox start) (fun env _ => answers_openInbox env) allowed_openInbox

theorem NodeStep.alive_of (step : NodeStep params inbox node node') (alive : node'.alive = true) :
    node.alive = true := by
  cases step with
  | chain step =>
      cases step with
      | load loads =>
          obtain ⟨_, rfl, -⟩ := loads
          exact alive
      | stop => cases alive
      | _ => exact alive
  | _ => exact alive

theorem Steps.alive_of (steps : Steps params inbox node node') (alive : node'.alive = true) : node.alive = true := by
  induction steps with
  | refl => exact alive
  | tail _ step ih => exact ih (step.alive_of alive)

/-- The node after a list of inputs. -/
def Node.receiveAll (params : Params) (env : Env) (inputs : List Input) (node : Node) : Node :=
  inputs.foldl (fun node input => node.receive params env input) node

theorem steps_receiveAll (inputs : List Input) : Steps params openInbox node (node.receiveAll params env inputs) := by
  induction inputs generalizing node with
  | nil => exact .refl
  | cons input inputs ih =>
      exact (steps_receive (answers_openInbox env) (closed_openInbox node)
        (allowed_openInbox node input)).trans ih

/-- What single inputs to a live node keep, lists of inputs keep. -/
theorem receiveAll_induction {holds : Node → Prop} (inputs : List Input)
    (step : ∀ node, holds node → node.alive = true → ∀ input ∈ inputs, holds (node.receive params env input))
    (initial : holds node) (alive : (node.receiveAll params env inputs).alive = true) :
    holds (node.receiveAll params env inputs) := by
  induction inputs generalizing node with
  | nil => exact initial
  | cons input inputs ih =>
      have alive_here := (steps_receiveAll (input :: inputs)).alive_of alive
      exact ih (fun node before alive other mem => step node before alive other (List.mem_cons_of_mem _ mem))
        (step node initial alive_here input List.mem_cons_self) alive

theorem NodeRun.receiveAll (run : NodeRun params surroundings start node) (surrounds : surroundings env)
    (inputs : List Input) (alive : (node.receiveAll params env inputs).alive = true) :
    NodeRun params surroundings start (node.receiveAll params env inputs) :=
  receiveAll_induction inputs (fun _ run alive input _ => run.step alive surrounds input) run alive

end SvpChain.Consensus
