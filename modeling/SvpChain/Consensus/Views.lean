import SvpChain.Consensus.Between
import SvpChain.Consensus.Leader

/-!
# Views go up

A proposal is approved only in a view that is not lower, and a certificate that arrives during a view change
takes the node to the view after the remembered one.  A view is a `uint32` that any validator may choose
for its proposal, so the view after the last one is zero.
-/

namespace SvpChain.Consensus

open Core Program

variable {params : Params} {env : Env} {surroundings : Env → Prop} {start node : Node}

/-- The part of a node that the entry into the next view reads. -/
def Node.viewState (node : Node) : UInt32 × ViewChange × UInt32 :=
  (node.status.view, node.status.viewChange, node.rotator.oldView)

/-- A view change is under way in the last view there is. -/
def Node.InLastView (node : Node) : Prop :=
  node.status.viewChange = .ongoing ∧ node.rotator.oldView = node.status.view ∧ node.status.view.toNat = 2 ^ 32 - 1

instance (node : Node) : Decidable node.InLastView := inferInstanceAs (Decidable (_ ∧ _))

/-! ## What the handlers keep -/

/-- The driver changes nothing that the entry into the next view reads. -/
theorem viewState_stable (params : Params) (holds : UInt32 × ViewChange × UInt32 → Prop) :
    StableCalls params (fun node => holds node.viewState) := by
  refine StableDriver.calls ⟨?_, ?_, ?_, ?_, ?_, ?_⟩
  · exact fun kept _ _ _ _ => kept
  · exact fun kept _ _ => kept
  · exact fun kept _ => kept
  · exact fun kept _ _ _ _ => kept
  · exact fun kept _ => kept
  · exact fun kept _ _ _ _ _ => kept

/-- Only the entry into the next view may lower the view. -/
theorem view_stable (params : Params) (bound : UInt32) :
    StableRounds params (fun node => bound ≤ node.status.view) where
  toStableCalls := viewState_stable params fun key => bound ≤ key.1
  approve holds _ _ approval := UInt32.le_trans holds (isNewViewApproval_le approval)
  timeout holds _ _ := holds
  round holds _ _ _ _ := holds
  token holds _ := holds

theorem le_next_view {view : UInt32} (not_last : view.toNat ≠ 2 ^ 32 - 1) : view ≤ view + 1 := by
  have below := view.toNat_lt
  rw [UInt32.le_iff_toNat_le, UInt32.toNat_add, UInt32.toNat_one]
  omega

theorem leads_enterNextView (params : Params) (not_last : ¬ node.InLastView) :
    Leads (fun node' => node'.viewState = node.viewState) (fun node' => node.status.view ≤ node'.status.view)
      enterNextView := by
  intro node' same
  obtain ⟨view_eq, change_eq, oldView_eq⟩ : node'.status.view = node.status.view ∧
      node'.status.viewChange = node.status.viewChange ∧ node'.rotator.oldView = node.rotator.oldView := by
    simpa [Node.viewState] using same
  have kept : node.status.view ≤ node'.status.view := view_eq ▸ UInt32.le_refl _
  refine (wp_bind _ _).mpr (wp_get.mpr ((wp_ite _ _ _).mpr ⟨?_, fun _ => kept⟩))
  rintro ⟨ongoing, remembered⟩
  have raised : node.status.view ≤ node'.rotator.oldView + 1 := by
    rw [remembered, view_eq]
    exact le_next_view fun last => not_last ⟨change_eq ▸ ongoing, by rw [← oldView_eq, remembered, view_eq], last⟩
  have same_node : Kept (· = node') (ofFault (nextLeaderIndex node'.roleStore node'.rotator.oldView)) :=
    StableCalls.ofFault _
  refine (wp_bind _ _).mpr (wp_mono (same_node node' rfl) ?_ ?_)
  · rintro nextIdx _ rfl
    exact Kept.bind ((view_stable params node.status.view).qcRefHeight _) (fun _ => .pure) _ raised
  · rintro _ _ (failed | rfl)
    · exact Or.inl failed
    · exact Or.inr kept

theorem leads_onReceiveQC (not_last : ¬ node.InLastView) (sender : PublicKey) (change : UInt32) (qc : QuorumCert) :
    Leads (fun node' => node'.viewState = node.viewState) (fun node' => node.status.view ≤ node'.status.view)
      (onReceiveQC params env sender change qc) := by
  have weaker (node' : Node) (same : node'.viewState = node.viewState) : node.status.view ≤ node'.status.view :=
    UInt32.le_of_eq (congrArg Prod.fst same).symm
  have stable := viewState_stable params (· = node.viewState)
  exact .bind weaker (stable.onRoleStore _) fun _ =>
    .bind weaker (.modify fun _ same => same) fun _ =>
      .bind weaker (stable.getOrRequestBlock _ _) fun blk =>
        .bind weaker (stable.syncParentBlock blk) fun _ =>
          .bind weaker (.when (stable.syncTxs _ _)) fun _ =>
            .bind weaker (stable.updateQCHigh _) fun _ =>
              .bind_kept (leads_enterNextView params not_last) fun _ =>
                (view_stable params node.status.view).countThenPropose sender change

/-! ## Runs -/

theorem view_le_receive {input : Input}
    (not_last : ∀ sender change qc, input = .qc sender change qc → ¬ node.InLastView)
    (alive : (node.receive params env input).alive = true) :
    node.status.view ≤ (node.receive params env input).status.view := by
  rw [receive_eq_after] at alive ⊢
  cases input with
  | qc sender change qc => exact after_of_wp (leads_onReceiveQC (not_last _ _ _ rfl) sender change qc node rfl) alive
  | _ => exact kept_after ((view_stable params node.status.view).handle (by nofun)) (UInt32.le_refl _) alive

/-- Runs in which no certificate is handled while a view change is under way in the last view. -/
inductive ViewRun (params : Params) (surroundings : Env → Prop) (start : Node) : Node → Prop where
  | start : ViewRun params surroundings start start
  | step {node : Node} (run : ViewRun params surroundings start node) (alive : node.alive = true)
      {env : Env} (surrounds : surroundings env) (input : Input)
      (not_last : ∀ sender change qc, input = .qc sender change qc → ¬ node.InLastView) :
      ViewRun params surroundings start (node.receive params env input)

/-- In every run in which no certificate is handled during a view change in the last view, the view of the
running process never goes down. -/
theorem view_never_back (run : ViewRun params surroundings start node) (alive : node.alive = true) :
    start.status.view ≤ node.status.view := by
  induction run with
  | start => exact UInt32.le_refl _
  | step _ alive_before _ input not_last induction =>
      exact UInt32.le_trans (induction alive_before) (view_le_receive not_last alive)

/-- The second of two validators after a proposal of the first one for a view and its own timeout. -/
def timedOutNode (view : UInt32) : Node :=
  secondValidator.receiveAll transparentParams silentEnv
    [.proposal (childBlock 1 (transparentBlock []) view 1 0 []), .viewTimeout]

/-- A proposal for the last view there is, a timeout and any accepted certificate take the node to view 0. -/
theorem view_wraps :
    let certified := (timedOutNode 0xffffffff).receive transparentParams silentEnv
      (.qc (transparentSigner 1).pubKey 0 (bothVotes (transparentBlock [])))
    Started transparentParams (transparentSigner 2) twoValidators (transparentBlock []) secondValidator ∧
    NodeRun transparentParams anyEnv secondValidator (timedOutNode 0xffffffff) ∧
    NodeRun transparentParams anyEnv (timedOutNode 0xffffffff) certified ∧
    certified.alive = true ∧ (timedOutNode 0xffffffff).status.view = 0xffffffff ∧ certified.status.view = 0 := by
  refine ⟨secondValidator_started, NodeRun.receiveAll .start trivial _ (by decide +kernel), ?_, by decide +kernel,
    by decide +kernel, by decide +kernel⟩
  exact .step .start (by decide +kernel) trivial _

/-- From view 5 the same messages take the node to view 6. -/
theorem view_never_back_timedOutNode :
    let certified := (timedOutNode 5).receive transparentParams silentEnv
      (.qc (transparentSigner 1).pubKey 0 (bothVotes (transparentBlock [])))
    certified.status.view = 6 ∧ (timedOutNode 5).status.view ≤ certified.status.view := by
  intro certified
  have not_last : ¬ (timedOutNode 5).InLastView := by decide +kernel
  refine ⟨by decide +kernel, ?_⟩
  have run : ViewRun transparentParams anyEnv (timedOutNode 5) certified :=
    .step .start (by decide +kernel) trivial _ fun _ _ _ _ => not_last
  exact view_never_back run (by decide +kernel)

end SvpChain.Consensus
