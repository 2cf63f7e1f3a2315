import SvpChain.Consensus.Links

/-!
# The parents of own proposals

A node that leads proposes in two ways.  `newViewProposal` looks up the block of its highest certificate
and builds on it.  `newProposal`, which the pacemaker calls for a token of `proposeCh`, builds on the
leaf; `updateQCHigh` sets the leaf to the certified block, but every proposal of the node moves it on
to the proposed block, whose certificate does not exist yet.  A token that is used after such a
proposal leads to a block whose parent is not the block that its certificate is for.
-/

namespace SvpChain.Consensus

open Core TxPool Program

variable {params : Params} {node node' start : Node} {env : Env} {b0 blk : Block}
  {surroundings : Env → Prop} {signer : Signer} {roleStore : RoleStore}

/-! ## Tokens -/

/-- The pacemaker that makes a block for a token finds the certified block in the leaf. -/
def FreshToken (node : Node) : Input → Prop
  | .propose => Proposes node → node.status.bLeaf.hash = node.status.qcHigh.blockHash
  | _ => True

/-- The runs in which all tokens are used in time. -/
inductive FreshRun (params : Params) (surroundings : Env → Prop) (start : Node) : Node → Prop where
  | start : FreshRun params surroundings start start
  | step {node : Node} (run : FreshRun params surroundings start node) (alive : node.alive = true)
      {env : Env} (surrounds : surroundings env) {input : Input} (fresh : FreshToken node input) :
      FreshRun params surroundings start (node.receive params env input)

/-- A block extends the block of its own certificate, which the node knows: the certificate is for the
parent, and the block is one above it. -/
def ExtendsCertified (b0 : Block) (node : Node) (blk : Block) : Prop :=
  ∃ qc certified, blk.quorumCert = some qc ∧ blk.parentHash = qc.blockHash ∧
    certified.hash = qc.blockHash ∧ (certified = b0 ∨ certified ∈ takenBlocks node.trace) ∧
    blk.height = certified.height + 1

theorem ExtendsCertified.mono (extends_ : ExtendsCertified b0 node blk)
    (grows : node.trace <:+ node'.trace) : ExtendsCertified b0 node' blk := by
  obtain ⟨qc, certified, cert_eq, parent_eq, hash_eq, known, height_eq⟩ := extends_
  refine ⟨qc, certified, cert_eq, parent_eq, hash_eq, known.imp_right fun taken => ?_, height_eq⟩
  exact mem_takenBlocks.mpr ((mem_takenBlocks.mp taken).imp (fun received => grows.subset received)
    fun proposed => grows.subset proposed)

/-! ## Steps -/

/-- What reaches a node whose tokens are all used in time. -/
def freshInbox (b0 : Block) : Inbox :=
  { openInbox with
    Root := fun blk => blk = b0
    Leaf := fun leaf qc => leaf.hash = qc.blockHash }

theorem answers_freshInbox : Answers params env (freshInbox b0) :=
  ⟨fun _ _ _ _ _ _ => trivial, fun _ _ _ _ _ _ => ⟨trivial, trivial⟩, fun _ _ _ _ => trivial⟩

theorem allowed_of_freshToken {input : Input} (fresh : FreshToken node input) :
    Allowed params (freshInbox b0) node input := by
  cases input with
  | propose => exact fresh
  | proposal | vote | qc => exact fun _ => trivial
  | _ => trivial

/-- Both ways to find a parent lead to a known block that the highest certificate is for. -/
theorem ProposalParent.certified {parent : Block} (closed : Closed (freshInbox b0) node)
    (is_parent : ProposalParent (freshInbox b0) node parent) :
    parent.hash = node.status.qcHigh.blockHash ∧ Seen (freshInbox b0) node parent := by
  rcases is_parent with ⟨-, on_leaf, rfl⟩ | ⟨mem, hash_eq⟩
  · exact ⟨on_leaf, closed.leaf⟩
  · exact ⟨hash_eq, closed.blocks parent mem⟩

theorem Proposal.extends_certified {parent : Block} (closed : Closed (freshInbox b0) node)
    (is_parent : ProposalParent (freshInbox b0) node parent) (proposal : Proposal params node parent blk) :
    ExtendsCertified b0 node blk := by
  obtain ⟨hash_eq, seen⟩ := is_parent.certified closed
  refine ⟨_, parent, proposal.quorumCert_eq, proposal.parentHash_eq.trans hash_eq, hash_eq, ?_,
    proposal.height_eq⟩
  exact seen.imp_right mem_takenBlocks.mpr

theorem extendsCertified_steps (closed : Closed (freshInbox b0) node)
    (before : ∀ blk, .proposed blk ∈ node.trace → ExtendsCertified b0 node blk)
    (steps : Steps params (freshInbox b0) node node') :
    ∀ blk, .proposed blk ∈ node'.trace → ExtendsCertified b0 node' blk := by
  induction steps with
  | refl => exact before
  | @tail node₁ node₂ earlier step ih =>
      intro blk proposed
      have grows := step.trace_suffix
      rcases step.records with same | ⟨event, recorded, cause⟩
      · exact (ih blk (same ▸ proposed)).mono grows
      · rw [recorded] at proposed
        rcases List.mem_cons.mp proposed with rfl | old
        · obtain ⟨-, parent, is_parent, proposal⟩ := cause
          exact (proposal.extends_certified (closed.steps earlier) is_parent).mono grows
        · exact (ih blk old).mono grows

theorem FreshRun.steps (closed : Closed (freshInbox b0) start)
    (run : FreshRun params surroundings start node) : Steps params (freshInbox b0) start node := by
  induction run with
  | start => exact .refl
  | step _ _ _ fresh ih =>
      exact ih.trans (steps_receive answers_freshInbox (closed.steps ih) (allowed_of_freshToken fresh))

theorem FreshRun.extendsCertified (started : Started params signer roleStore b0 start)
    (run : FreshRun params surroundings start node) :
    ∀ blk, .proposed blk ∈ node.trace → ExtendsCertified b0 node blk := by
  obtain ⟨q0, txs, merkleRoot, pool, genesis, setup_steps, -⟩ := started.steps (freshInbox b0)
  have closed : Closed (freshInbox b0)
      (setupNode params signer roleStore (genesisStore b0 q0 txs merkleRoot) pool b0 b0 q0) :=
    closed_setupNode rfl genesis
  refine extendsCertified_steps closed ?_ (setup_steps.trans (run.steps (closed.steps setup_steps)))
  intro blk proposed
  cases proposed

theorem FreshRun.receiveAll (run : FreshRun params surroundings start node)
    (surrounds : surroundings env) (inputs : List Input) (no_token : ∀ input ∈ inputs, input ≠ .propose)
    (alive : (node.receiveAll params env inputs).alive = true) :
    FreshRun params surroundings start (node.receiveAll params env inputs) := by
  refine receiveAll_induction inputs (fun node run alive input mem => run.step alive surrounds ?_) run alive
  cases input with
  | propose => exact absurd rfl (no_token .propose mem)
  | _ => trivial

/-! ## A token that is used too late -/

/-- A block on a given parent with a given certificate has been proposed. -/
def ProposedOn (parent : Block) (qc : QuorumCert) (node : Node) : Prop :=
  ∃ blk, .proposed blk ∈ node.trace ∧ blk.parentHash = parent.hash ∧ blk.quorumCert = some qc

theorem wp_proposedOn {α : Type} {program : Handler α} {post : α → Node → Prop} {parent : Block}
    {qc : QuorumCert} (runs : Runs (NodeStep params openInbox) program post node)
    (proposed : ProposedOn parent qc node) :
    wp program (fun value node' => ProposedOn parent qc node' ∧ post value node')
      (fun _ => ProposedOn parent qc) node := by
  obtain ⟨blk, recorded, links⟩ := proposed
  refine wp_mono runs (fun value node' ⟨steps, holds⟩ => ⟨⟨blk, ?_, links⟩, holds⟩)
    fun _ node' steps => ⟨blk, ?_, links⟩
  all_goals exact (Steps.trace_suffix steps).subset recorded

theorem wp_takeTxs :
    wp (takeTxs params) (fun _ node' => ∃ txPool, node' = { node with txPool := txPool })
      (fun _ _ => False) node := by
  refine (wp_bind _ _).mpr (wp_get.mpr ((wp_ite _ _ _).mpr ⟨fun _ => ⟨_, rfl⟩, fun _ => ?_⟩))
  exact ⟨_, rfl⟩

/-- `createProposal` records a block on the parent that it is given, even where it ends early. -/
theorem wp_createProposal {parent : Block} : wp (createProposal params env node.status.view parent node.status.qcHigh)
      (fun blk node' => ProposedOn parent node.status.qcHigh node' ∧ .proposed blk ∈ node'.trace ∧
        findBlock node'.state.blocks blk.hash = some blk) (fun _ => ProposedOn parent node.status.qcHigh) node := by
  refine (wp_bind _ _).mpr (wp_mono wp_takeTxs ?_ fun _ _ never => never.elim)
  rintro txs _ ⟨txPool, rfl⟩
  refine (wp_bind _ _).mpr (wp_get.mpr ((wp_bind _ _).mpr ((wp_modify _).mpr ?_)))
  refine wp_proposedOn (Runs.bind (runs_rotatorReceiveProposal List.mem_cons_self) ?_)
    ⟨_, List.mem_cons_self, rfl, rfl⟩
  rintro _ node1 steps1 ⟨-, same_state⟩
  refine Runs.bind (runs_qcRefHeight _) fun _ node2 steps2 ⟨loads, _⟩ => Runs.pure ⟨?_, ?_⟩
  · exact (Steps.trace_suffix (steps1.trans steps2)).subset List.mem_cons_self
  · refine loads.find ?_
    rw [same_state]
    exact findBlock_putBlock_self _ _

theorem wp_propose (proposes : Proposes node) : wp (handle params env .propose)
      (fun _ => ProposedOn node.status.bLeaf node.status.qcHigh)
      (fun _ => ProposedOn node.status.bLeaf node.status.qcHigh) node := by
  obtain ⟨token, success, leader⟩ := proposes
  refine (wp_bind _ _).mpr (wp_get.mpr ((wp_ite _ _ _).mpr ⟨fun none => absurd none token, fun _ => ?_⟩))
  refine (wp_bind _ _).mpr ((wp_modify _).mpr ((wp_bind _ _).mpr (wp_get.mpr ?_)))
  refine (wp_ite _ _ _).mpr ⟨fun failed => absurd success failed, fun _ => ?_⟩
  refine (wp_ite _ _ _).mpr ⟨fun follower => absurd (leader.symm.trans follower) (by decide), fun _ => ?_⟩
  refine wp_then wp_createProposal ?_
  rintro blk node1 ⟨proposed, own, found⟩
  have answers : Answers params env openInbox := answers_openInbox env
  have runs := runs_broadcastAndVote answers (closed_openInbox node1) own found
  exact wp_mono (wp_proposedOn runs proposed) (fun _ _ => And.left) fun _ _ proposed => proposed

theorem receive_trace (input : Input) :
    (node.receive params env input).trace = ((handle params env input).final node).trace := by
  unfold Node.receive final
  split
  · next ending => rw [ending]
  · next ending => rw [ending]

theorem proposedOn_leaf (proposes : Proposes node) :
    ProposedOn node.status.bLeaf node.status.qcHigh (node.receive params env .propose) := by
  obtain ⟨blk, proposed, links⟩ := final_of_wp (@wp_propose params node env proposes)
  exact ⟨blk, receive_trace .propose ▸ proposed, links⟩

/-- After a run in which all tokens were used in time, an input leaves a node whose proposals all extend
the block of their own certificate exactly if it does not use a token too late. -/
theorem proposals_extend_iff (started : Started params signer roleStore b0 start)
    (run : FreshRun params surroundings start node) (alive : node.alive = true)
    (surrounds : surroundings env) (input : Input) :
    (∀ blk, .proposed blk ∈ (node.receive params env input).trace →
      ExtendsCertified b0 (node.receive params env input) blk) ↔ FreshToken node input := by
  constructor
  · intro all_extend
    cases input with
    | propose =>
        intro proposes
        obtain ⟨blk, proposed, parent_eq, cert_eq⟩ := proposedOn_leaf proposes
        obtain ⟨qc, certified, is_cert, certifies, -⟩ := all_extend blk proposed
        obtain rfl := Option.some.inj (is_cert.symm.trans cert_eq)
        exact parent_eq.symm.trans certifies
    | _ => trivial
  · intro fresh
    exact (run.step alive surrounds fresh).extendsCertified started

/-! ## Two new-view proposals and a token -/

/-- The second validator proposes in view 1 after its own timeout and a message of the first. -/
def newLeader : Node :=
  secondValidator.receiveAll transparentParams silentEnv
    [.viewTimeout, .qc (transparentSigner 1).pubKey 1 (bothVotes (transparentBlock []))]

/-- The proposal in view 1. -/
def newLeaderBlk : Block := newLeader.status.bLeaf

/-- The vote of the first validator completes a certificate, for which the pacemaker has a token. -/
def certifiedLeader : Node :=
  newLeader.receiveAll transparentParams silentEnv [.vote (newLeaderBlk.vote (transparentSigner 1) 1)]

/-- Two more messages of the first validator lead to one more proposal, before the token is used. -/
def overtakenLeader : Node :=
  certifiedLeader.receiveAll transparentParams silentEnv
    [.qc (transparentSigner 1).pubKey 1 (bothVotes (transparentBlock [])),
      .qc (transparentSigner 1).pubKey 1 (bothVotes (transparentBlock []))]

theorem certifiedLeader_run : FreshRun transparentParams anyEnv secondValidator certifiedLeader := by
  have leads : FreshRun transparentParams anyEnv secondValidator newLeader :=
    .receiveAll .start trivial _ (by simp) (by decide +kernel)
  exact leads.receiveAll trivial _ (by simp) (by decide +kernel)

/-- The node after the late use of the token. -/
def staleLeader : Node := overtakenLeader.receive transparentParams silentEnv .propose

theorem staleLeader_run : NodeRun transparentParams anyEnv secondValidator staleLeader := by
  have leads : NodeRun transparentParams anyEnv secondValidator newLeader :=
    .receiveAll .start trivial _ (by decide +kernel)
  have certified : NodeRun transparentParams anyEnv secondValidator certifiedLeader :=
    leads.receiveAll trivial _ (by decide +kernel)
  have overtaken : NodeRun transparentParams anyEnv secondValidator overtakenLeader :=
    certified.receiveAll trivial _ (by decide +kernel)
  exact overtaken.step (by decide +kernel) trivial .propose

/-- The token is used after the second proposal of view 1: the block of height 3 stands on the block of
height 2, which no certificate is for, and carries the certificate of the block of height 1. -/
theorem overtaken_token_breaks_parent :
    Started transparentParams (transparentSigner 2) twoValidators (transparentBlock [])
      secondValidator ∧
    NodeRun transparentParams anyEnv secondValidator staleLeader ∧
    ∃ blk, .proposed blk ∈ staleLeader.trace ∧ blk.height = 3 ∧
      blk.parentHash = overtakenLeader.status.bLeaf.hash ∧
      blk.quorumCert.map QuorumCert.blockHash = some newLeaderBlk.hash ∧
      ¬ ExtendsCertified (transparentBlock []) staleLeader blk := by
  refine ⟨secondValidator_started, staleLeader_run, staleLeader.status.bLeaf, by decide +kernel,
    by decide +kernel, by decide +kernel, by decide +kernel, ?_⟩
  rintro ⟨qc, certified, cert_eq, certifies, -⟩
  have same : staleLeader.status.bLeaf.quorumCert.map QuorumCert.blockHash =
      some staleLeader.status.bLeaf.parentHash := by
    rw [cert_eq, certifies]
    rfl
  exact absurd same (by decide +kernel)

/-- The token that is used at once. -/
theorem proposals_extend_iff_certifiedLeader :
    Proposes certifiedLeader ∧
    ∀ blk, .proposed blk ∈ (certifiedLeader.receive transparentParams silentEnv .propose).trace →
      ExtendsCertified (transparentBlock [])
        (certifiedLeader.receive transparentParams silentEnv .propose) blk := by
  refine ⟨⟨by decide +kernel, by decide +kernel, by decide +kernel⟩, ?_⟩
  refine (proposals_extend_iff secondValidator_started certifiedLeader_run (by decide +kernel) trivial
    .propose).mpr fun _ => by decide +kernel

end SvpChain.Consensus
