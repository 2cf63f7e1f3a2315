import Mathlib.Data.Prod.Lex
import SvpChain.Consensus.Replay

/-!
# The order of a node's votes

A node keeps no record of its last vote.  What orders its votes is the view, which only grows, and the
high certificate, whose priority only grows: a vote is for a block of the present view whose
certificate is level with the high one.  A node may still vote for two blocks of one view and height.
-/

namespace SvpChain.Consensus

open Core TxPool

variable {params : Params} {inbox : Inbox} {node node' : Node}

/-! ## Priorities -/

section Priority

variable (Known : Block → Prop)

open Classical in
/-- The height of the known block with a hash. -/
noncomputable def heightOf (hash : Bytes) : ℕ :=
  if known : ∃ blk, Known blk ∧ blk.hash = hash then known.choose.height.toNat else 0

/-- The priority of a certificate: its view, then the height of its block. -/
noncomputable def certPrio (qc : QuorumCert) : ℕ ×ₗ ℕ :=
  toLex (qc.view.toNat, heightOf Known qc.blockHash)

/-- Known blocks with one hash have one height. -/
def OneHeight : Prop :=
  ∀ blk blk', Known blk → Known blk' → blk.hash = blk'.hash → blk.height = blk'.height

variable {Known}

theorem heightOf_eq (one_height : OneHeight Known) {blk : Block} {hash : Bytes} (known : Known blk)
    (hash_eq : blk.hash = hash) : heightOf Known hash = blk.height.toNat := by
  have exists_known : ∃ blk, Known blk ∧ blk.hash = hash := ⟨blk, known, hash_eq⟩
  obtain ⟨chosen_known, chosen_hash⟩ := exists_known.choose_spec
  rw [heightOf, dif_pos exists_known,
    one_height _ _ chosen_known known (chosen_hash.trans hash_eq.symm)]

variable (one_height : OneHeight Known) (known : ∀ blk ∈ node.state.blocks, Known blk) {qc1 qc2 : QuorumCert}
include one_height known

theorem certPrio_lt_of_gt (order : QCOrder node qc1 qc2 .gt) : certPrio Known qc2 < certPrio Known qc1 := by
  rw [certPrio, certPrio, Prod.Lex.toLex_lt_toLex]
  rcases order with ⟨less, -⟩ | ⟨-, absurd_order⟩ | ⟨same, blk1, blk2, found1, found2, order_eq⟩
  · exact Or.inl (UInt32.lt_iff_toNat_lt.mp less)
  · cases absurd_order
  · obtain ⟨mem1, hash1⟩ := mem_of_findBlock found1
    obtain ⟨mem2, hash2⟩ := mem_of_findBlock found2
    refine Or.inr ⟨by rw [same], ?_⟩
    rw [heightOf_eq one_height (known blk1 mem1) hash1, heightOf_eq one_height (known blk2 mem2) hash2]
    exact UInt64.lt_iff_toNat_lt.mp (Std.compare_eq_gt.mp order_eq.symm)

theorem certPrio_eq_of_eq (order : QCOrder node qc1 qc2 .eq) : certPrio Known qc1 = certPrio Known qc2 := by
  rcases order with ⟨-, absurd_order⟩ | ⟨-, absurd_order⟩ | ⟨same, blk1, blk2, found1, found2, order_eq⟩
  · cases absurd_order
  · cases absurd_order
  · obtain ⟨mem1, hash1⟩ := mem_of_findBlock found1
    obtain ⟨mem2, hash2⟩ := mem_of_findBlock found2
    rw [certPrio, certPrio, same, heightOf_eq one_height (known blk1 mem1) hash1,
      heightOf_eq one_height (known blk2 mem2) hash2, Std.compare_eq_iff_eq.mp order_eq.symm]

end Priority

/-! ## Ballots -/

/-- The blocks a node has voted for, its own proposals included, the latest first. -/
def ballots (trace : List Event) : List Block :=
  trace.filterMap fun event =>
    match event with
    | .proposed blk => some blk
    | .sendVote blk _ => some blk
    | _ => none

/-- The views that rotations have entered. -/
def enteredViews (trace : List Event) : List UInt32 :=
  trace.filterMap fun event =>
    match event with
    | .enterView view _ => some view
    | _ => none

/-- The counter of views has not wrapped around: no rotation has entered view 0. -/
def ViewsGrow (trace : List Event) : Prop := 0 ∉ enteredViews trace

theorem ViewsGrow.of_suffix {trace trace' : List Event} (grow : ViewsGrow trace')
    (suffix : trace <:+ trace') : ViewsGrow trace :=
  fun mem => grow ((suffix.sublist.filterMap _).subset mem)

theorem isNewViewApproval_le {status : Status} {view proposer : UInt32}
    (approval : isNewViewApproval status view proposer = true) : status.view ≤ view := by
  unfold isNewViewApproval at approval
  split at approval
  · next less => exact UInt32.le_of_lt less
  · split at approval
    · next same => exact same ▸ UInt32.le_refl _
    · cases approval

theorem NodeStep.view_le (step : NodeStep params inbox node node') (grow : ViewsGrow node'.trace) :
    node.status.view ≤ node'.status.view := by
  cases step with
  | chain step =>
      cases step with
      | load loads => rw [loads.status_eq]; exact UInt32.le_refl _
      | _ => exact UInt32.le_refl _
  | approve _ approval => exact isNewViewApproval_le approval
  | addVote added _ =>
      obtain ⟨-, -, rfl⟩ := Status.addVote_eq_ok added
      exact UInt32.le_refl _
  | @enterNextView nextIdx _ same_view _ =>
      have not_zero : node.rotator.oldView + 1 ≠ 0 := fun zero => grow (zero ▸ List.mem_cons_self)
      change node.status.view ≤ node.rotator.oldView + 1
      rw [same_view] at not_zero ⊢
      grind
  | _ => exact UInt32.le_refl _

/-- A step keeps the high certificate or replaces it by a higher one. -/
theorem NodeStep.high (step : NodeStep params inbox node node') : node'.status.qcHigh = node.status.qcHigh ∨
      QCOrder node node'.status.qcHigh node.status.qcHigh .gt := by
  rcases step.high_cases with ⟨same, -⟩ | ⟨blk1, sets⟩
  · exact Or.inl same
  · exact Or.inr sets.higher.order

/-- A ballot is for a block of the present view whose certificate is level with the high one. -/
theorem NodeStep.ballots (step : NodeStep params inbox node node') :
    ballots node'.trace = ballots node.trace ∨ ∃ blk qc,
      Consensus.ballots node'.trace = blk :: Consensus.ballots node.trace ∧
        blk.view = node.status.view ∧ blk.quorumCert = some qc ∧
          (qc = node.status.qcHigh ∨ QCOrder node qc node.status.qcHigh .eq) := by
  rcases step.records with same | ⟨event, trace_eq, cause⟩
  · exact Or.inl (by rw [same])
  · rw [trace_eq]
    cases event with
    | proposed blk =>
        obtain ⟨-, parent, -, proposal⟩ := cause
        exact Or.inr ⟨blk, _, rfl, proposal.view_eq, proposal.quorumCert_eq, Or.inl rfl⟩
    | sendVote blk vote =>
        obtain ⟨qc, quota, guard, -⟩ := cause
        exact Or.inr ⟨blk, qc, rfl, guard.view_eq.symm, guard.cert_eq, guard.level⟩
    | _ => exact Or.inl rfl

/-! ## Votes in order -/

section Order

variable (Known : Block → Prop)

/-- The certificate of a block has at most a priority. -/
def CertBelow (blk : Block) (prio : ℕ ×ₗ ℕ) : Prop :=
  ∃ qc, blk.quorumCert = some qc ∧ certPrio Known qc ≤ prio

/-- Ballots follow the view and the priority of certificates. -/
structure VotesInOrder (node : Node) : Prop where
  below : ∀ blk ∈ ballots node.trace,
    blk.view ≤ node.status.view ∧ CertBelow Known blk (certPrio Known node.status.qcHigh)
  ordered : (ballots node.trace).Pairwise fun later earlier => earlier.view ≤ later.view ∧
    ∃ qc, later.quorumCert = some qc ∧ CertBelow Known earlier (certPrio Known qc)

variable {Known}

theorem VotesInOrder.step (one_height : OneHeight Known)
    (known : ∀ blk ∈ node.state.blocks, Known blk) (grow : ViewsGrow node'.trace)
    (inv : VotesInOrder Known node) (step : NodeStep params inbox node node') : VotesInOrder Known node' := by
  have view_le := step.view_le grow
  have high_le : certPrio Known node.status.qcHigh ≤ certPrio Known node'.status.qcHigh := by
    rcases step.high with same | order
    · rw [same]
    · exact (certPrio_lt_of_gt one_height known order).le
  have still_below : ∀ blk ∈ ballots node.trace, blk.view ≤ node'.status.view ∧
      CertBelow Known blk (certPrio Known node'.status.qcHigh) := by
    intro blk mem
    obtain ⟨view_below, qc, cert_eq, prio_le⟩ := inv.below blk mem
    exact ⟨UInt32.le_trans view_below view_le, qc, cert_eq, prio_le.trans high_le⟩
  rcases step.ballots with same | ⟨blk, qc, cast_eq, view_eq, cert_eq, level⟩
  · constructor
    · rw [same]
      exact still_below
    · rw [same]
      exact inv.ordered
  · have prio_eq : certPrio Known qc = certPrio Known node.status.qcHigh := by
      rcases level with rfl | order
      · rfl
      · exact certPrio_eq_of_eq one_height known order
    constructor
    · intro other mem
      rw [cast_eq] at mem
      rcases List.mem_cons.mp mem with rfl | old
      · exact ⟨view_eq ▸ view_le, qc, cert_eq, prio_eq.trans_le high_le⟩
      · exact still_below other old
    · rw [cast_eq]
      refine List.pairwise_cons.mpr ⟨fun other mem => ?_, inv.ordered⟩
      obtain ⟨view_below, cert_below⟩ := inv.below other mem
      exact ⟨view_eq ▸ view_below, qc, cert_eq, prio_eq ▸ cert_below⟩

theorem VotesInOrder.steps (one_height : OneHeight Known) (closed : Closed inbox node)
    (known : ∀ blk, Seen inbox node' blk → Known blk) (grow : ViewsGrow node'.trace)
    (inv : VotesInOrder Known node) (steps : Steps params inbox node node') : VotesInOrder Known node' := by
  induction steps with
  | refl => exact inv
  | tail before step ih =>
      have known_before := fun blk (seen : Seen inbox _ blk) => known blk (seen.mono step.trace_suffix)
      have held := fun blk mem => known_before blk ((closed.steps before).blocks blk mem)
      exact (ih known_before (grow.of_suffix step.trace_suffix)).step one_height held grow step

end Order

/-! ## Blocks whose hash is their sum -/

/-- The hash of the block is its `Sum`. -/
def Hashed (crypto : Crypto) (blk : Block) : Prop := blk.data.sum crypto = blk.hash

theorem hashed_of_passed {crypto : Crypto} {blk : Block} (passed : Passed (blk.validate crypto)) :
    Hashed crypto blk := by
  obtain ⟨store, value, store', valid⟩ := passed
  by_contra not_hashed
  have different : blk.data.sum crypto ≠ blk.hash := not_hashed
  rw [Block.validate, Program.throwIf, if_pos different] at valid
  cases valid

theorem oneHeight_hashed {crypto : Crypto} (injective : Function.Injective crypto.sha3) :
    OneHeight (Hashed crypto) := by
  intro blk blk' hashed hashed' hash_eq
  have preimages : blk.data.preimage = blk'.data.preimage :=
    injective (hashed.trans (hash_eq.trans hashed'.symm))
  exact (Block.view_height_of_preimage_eq preimages).2

/-- Blocks that reach a node are hashed. -/
def hashedInbox (crypto : Crypto) : Inbox :=
  { openInbox with Root := Hashed crypto, Block := Hashed crypto }

theorem answers_hashedInbox (env : Env) : Answers params env (hashedInbox params.crypto) :=
  ⟨fun _ _ _ _ _ passed => hashed_of_passed passed,
    fun _ _ _ _ _ passed => ⟨hashed_of_passed passed, trivial⟩, fun _ _ _ _ => trivial⟩

theorem allowed_hashedInbox (node : Node) (input : Input) : Allowed params (hashedInbox params.crypto) node input := by
  cases input with
  | proposal blk => exact fun passed => hashed_of_passed passed
  | propose | vote | qc => exact fun _ => trivial
  | _ => trivial

theorem closed_setupNode {signer : Signer} {roleStore : RoleStore} {b0 : Block} {q0 : QuorumCert}
    {txs : List Bytes} {merkleRoot : Bytes} {pool : TxStore} (root : inbox.Root b0)
    (genesis : Genesis params roleStore b0 q0) : Closed inbox
      (setupNode params signer roleStore (genesisStore b0 q0 txs merkleRoot) pool b0 b0 q0) where
  received _ mem := nomatch mem
  blocks _ mem := Or.inl (List.mem_singleton.mp mem ▸ root)
  stored _ mem := Or.inl (List.mem_singleton.mp mem ▸ root)
  leaf := Or.inl root
  high := ⟨b0, Or.inl root, genesis.certifies.symm⟩

theorem Steps.hashed_of_proposed (steps : Steps params inbox node node')
    (before : ∀ blk, .proposed blk ∈ node.trace → Hashed params.crypto blk) :
    ∀ blk, .proposed blk ∈ node'.trace → Hashed params.crypto blk := by
  induction steps with
  | refl => exact before
  | tail _ step ih =>
      intro blk mem
      rcases step.event mem with old | ⟨-, _, -, proposal⟩
      · exact ih blk old
      · exact proposal.sum_eq

theorem hashed_of_seen (closed : Closed (hashedInbox params.crypto) node)
    (proposed : ∀ blk, .proposed blk ∈ node.trace → Hashed params.crypto blk) (blk : Block)
    (seen : Seen (hashedInbox params.crypto) node blk) : Hashed params.crypto blk := by
  rcases seen with root | received | own
  · exact root
  · exact closed.received blk received
  · exact proposed blk own

theorem NodeRun.hashed_steps {surroundings : Env → Prop} {signer : Signer} {roleStore : RoleStore}
    {b0 : Block} {start : Node} (started : Started params signer roleStore b0 start)
    (run : NodeRun params surroundings start node) : ∃ q0 txs merkleRoot pool, Genesis params roleStore b0 q0 ∧
      Steps params (hashedInbox params.crypto)
        (setupNode params signer roleStore (genesisStore b0 q0 txs merkleRoot) pool b0 b0 q0) node := by
  obtain ⟨q0, txs, merkleRoot, pool, genesis, setup_steps, -⟩ :=
    started.steps (hashedInbox params.crypto)
  have closed : Closed (hashedInbox params.crypto) start :=
    (closed_setupNode genesis.sum_eq genesis).steps setup_steps
  refine ⟨q0, txs, merkleRoot, pool, genesis, setup_steps.trans ?_⟩
  exact run.steps closed (fun env _ => answers_hashedInbox env) allowed_hashedInbox

/-- Neither the view of the later block nor the priority of its certificate is lower. -/
def NotLower (crypto : Crypto) (earlier later : Block) : Prop :=
  earlier.view ≤ later.view ∧ ∃ qc qc', earlier.quorumCert = some qc ∧ later.quorumCert = some qc' ∧
    (qc.view < qc'.view ∨ qc.view = qc'.view ∧ ∀ ref ref', Hashed crypto ref → Hashed crypto ref' →
      ref.hash = qc.blockHash → ref'.hash = qc'.blockHash → ref.height ≤ ref'.height)

theorem notLower_of_certPrio {crypto : Crypto} (one_height : OneHeight (Hashed crypto))
    {earlier later : Block} (views : earlier.view ≤ later.view) {qc' : QuorumCert}
    (cert_eq' : later.quorumCert = some qc')
    (below : CertBelow (Hashed crypto) earlier (certPrio (Hashed crypto) qc')) : NotLower crypto earlier later := by
  obtain ⟨qc, cert_eq, prio_le⟩ := below
  refine ⟨views, qc, qc', cert_eq, cert_eq', ?_⟩
  rw [certPrio, certPrio, Prod.Lex.toLex_le_toLex] at prio_le
  rcases prio_le with less | ⟨same, heights⟩
  · exact Or.inl (UInt32.lt_iff_toNat_lt.mpr less)
  · refine Or.inr ⟨UInt32.toNat_inj.mp same, fun ref ref' hashed hashed' hash_eq hash_eq' => ?_⟩
    rw [heightOf_eq one_height hashed hash_eq, heightOf_eq one_height hashed' hash_eq'] at heights
    exact UInt64.le_iff_toNat_le.mpr heights

/-- In every run of a node its votes come in the order of views and of the priorities of certificates. -/
theorem ballots_in_order {signer : Signer} {roleStore : RoleStore} {b0 : Block} {start : Node}
    (injective : Function.Injective params.crypto.sha3)
    (started : Started params signer roleStore b0 start) (run : NodeRun params anyEnv start node)
    (grow : ViewsGrow node.trace) :
    (ballots node.trace).Pairwise fun later earlier => NotLower params.crypto earlier later := by
  obtain ⟨q0, txs, merkleRoot, pool, genesis, steps⟩ := run.hashed_steps started
  have one_height := oneHeight_hashed injective
  have closed : Closed (hashedInbox params.crypto)
      (setupNode params signer roleStore (genesisStore b0 q0 txs merkleRoot) pool b0 b0 q0) :=
    closed_setupNode genesis.sum_eq genesis
  have initial : VotesInOrder (Hashed params.crypto)
      (setupNode params signer roleStore (genesisStore b0 q0 txs merkleRoot) pool b0 b0 q0) :=
    ⟨fun _ mem => absurd mem List.not_mem_nil, List.Pairwise.nil⟩
  have known := hashed_of_seen (closed.steps steps)
    (steps.hashed_of_proposed fun _ mem => absurd mem List.not_mem_nil)
  refine (initial.steps one_height closed known grow steps).ordered.imp ?_
  rintro later earlier ⟨views, qc', cert_eq', below⟩
  exact notLower_of_certPrio one_height views cert_eq' below

/-! ## Two blocks of one view and height -/

/-- The second validator, after two proposals that differ in their times. -/
def equivocatedNode : Node :=
  secondValidator.receiveAll transparentParams silentEnv
    [.proposal (childBlock 1 (transparentBlock []) 0 1 0 []),
      .proposal (childBlock 1 (transparentBlock []) 0 1 1 [])]

theorem equivocatedNode_run : NodeRun transparentParams anyEnv secondValidator equivocatedNode :=
  NodeRun.receiveAll .start trivial _ (by decide +kernel)

/-- A validator votes for two blocks of one proposer, view and height. -/
theorem equivocation_voted_twice :
    let blk := childBlock 1 (transparentBlock []) 0 1 0 []
    let blk' := childBlock 1 (transparentBlock []) 0 1 1 []
    Started transparentParams (transparentSigner 2) twoValidators (transparentBlock [])
      secondValidator ∧
    NodeRun transparentParams anyEnv secondValidator equivocatedNode ∧
    .sendVote blk (blk.vote (transparentSigner 2) 1) ∈ equivocatedNode.trace ∧
    .sendVote blk' (blk'.vote (transparentSigner 2) 1) ∈ equivocatedNode.trace ∧
    blk.hash ≠ blk'.hash ∧ blk.view = blk'.view ∧ blk.height = blk'.height :=
  ⟨secondValidator_started, equivocatedNode_run, by decide +kernel⟩

/-- The order of votes in that run. -/
theorem ballots_in_order_equivocatedNode :
    (ballots equivocatedNode.trace).Pairwise fun later earlier =>
      NotLower transparentParams.crypto earlier later := by
  have grow : 0 ∉ enteredViews equivocatedNode.trace := by decide +kernel
  exact ballots_in_order Function.injective_id secondValidator_started equivocatedNode_run grow

end SvpChain.Consensus
