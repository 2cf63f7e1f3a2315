import Mathlib.Data.UInt
import SvpChain.Consensus.Certified

/-!
# The stake behind certificates

A leader counts the quotas of the votes and of the last certificates in `uint64`.  The sum may wrap
around, which only makes it smaller, so a certificate that is built has the stake it needs.  Nothing
compares the quota of a vote with the stake of its voter, and a node that receives a certificate does
not count its stake again.
-/

namespace SvpChain.Consensus

open Core TxPool

variable {params : Params} {inbox : Inbox} {node node' : Node} {qc : QuorumCert} {tally : Tally}
  {surroundings : Env → Prop}

/-! ## Sums of quotas -/

/-- The sum of quotas in natural numbers. -/
def stakeSum (quotas : List UInt64) : ℕ := (quotas.map UInt64.toNat).sum

theorem toNat_add_le (left right : UInt64) : (left + right).toNat ≤ left.toNat + right.toNat := by
  rw [UInt64.toNat_add]
  exact Nat.mod_le _ _

theorem toNat_sum_le (quotas : List UInt64) : quotas.sum.toNat ≤ stakeSum quotas := by
  induction quotas with
  | nil => exact le_rfl
  | cons quota quotas ih =>
      rw [List.sum_cons, stakeSum, List.map_cons, List.sum_cons]
      exact (toNat_add_le _ _).trans (Nat.add_le_add_left ih _)

theorem Window.Summed.recent_eq {w : Window} (summed : w.Summed) {quota : UInt64}
    {quotas : List UInt64} (quotas_eq : w.qcQuotas = quota :: quotas) : w.recent = quotas := by
  have size_eq : w.size = quotas.length + 1 := by
    rw [← summed.length_eq, quotas_eq, List.length_cons]
  rw [Window.recent, quotas_eq, size_eq]
  simp

/-! ## Counts -/

/-- The counts of a node are the sums of what they count. -/
structure Counted (node : Node) : Prop where
  quotaCount_eq : node.status.quotaCount = (node.status.votes.map Vote.quota).sum
  summed : node.status.window.Summed

theorem Counted.addVote (counted : Counted node) {vote : Vote} {status : Status}
    (added : node.status.addVote vote = .ok status) : Counted (node.setStatus status) := by
  obtain ⟨-, -, rfl⟩ := Status.addVote_eq_ok added
  refine ⟨?_, counted.summed⟩
  simp only [Node.setStatus, List.map_append, List.map_cons, List.map_nil, List.sum_append,
    List.sum_cons, List.sum_nil, counted.quotaCount_eq]
  grind

theorem Counted.step (counted : Counted node) (step : NodeStep params inbox node node') : Counted node' := by
  cases step with
  | chain step =>
      cases step with
      | load loads =>
          obtain ⟨_, rfl, -⟩ := loads
          exact ⟨counted.quotaCount_eq, counted.summed⟩
      | window summed => exact ⟨counted.quotaCount_eq, summed counted.summed⟩
      | _ => exact ⟨counted.quotaCount_eq, counted.summed⟩
  | approve =>
      exact ⟨counted.quotaCount_eq, counted.summed.length_eq, counted.summed.qcAcc_eq⟩
  | addVote added _ => exact counted.addVote added
  | certify | endProposal | propose => exact ⟨rfl, counted.summed⟩
  | _ => exact ⟨counted.quotaCount_eq, counted.summed⟩

/-- Votes that are enough have the stake, whether or not their sum has wrapped around. -/
theorem Counted.stake (counted : Counted node) (stakes : params.config.twoPhaseBFTFlag = false)
    (enough : isVoteEnough params node = .ok true) : node.roleStore.majorityQuotaCount.toNat ≤
      (node.status.votes.map Vote.quota).sum.toNat + stakeSum node.status.window.recent := by
  have majority := majority_of_isVoteEnough enough
  cases quotas_eq : node.status.window.qcQuotas with
  | nil =>
      simp [isVoteEnough, stakes, majority, Status.getQuotaCount, quotas_eq, Window.first, bind,
        Except.bind] at enough
  | cons quota quotas =>
      have reached : node.roleStore.majorityQuotaCount ≤
          node.status.quotaCount + node.status.window.qcAcc - quota := by
        simpa [isVoteEnough, stakes, majority, Status.getQuotaCount, quotas_eq, Window.first, bind,
          Except.bind, pure, Except.pure] using enough
      have count_eq : node.status.quotaCount + node.status.window.qcAcc - quota =
          (node.status.votes.map Vote.quota).sum + quotas.sum := by
        rw [counted.quotaCount_eq, counted.summed.qcAcc_eq, quotas_eq, List.sum_cons]
        grind
      rw [count_eq, UInt64.le_iff_toNat_le] at reached
      rw [counted.summed.recent_eq quotas_eq]
      exact reached.trans ((toNat_add_le _ _).trans (Nat.add_le_add_left (toNat_sum_le _) _))

/-! ## Certificates -/

/-- The certificate sums up the votes of the tally, which have the stake. -/
structure Backed (qc : QuorumCert) (tally : Tally) : Prop where
  sumQuota_eq : qc.sumQuota = (tally.votes.map Vote.quota).sum
  enough : tally.roleStore.majorityQuotaCount.toNat ≤ qc.sumQuota.toNat + stakeSum tally.window.recent

theorem Built.sumQuota_eq (built : Built node qc) : qc.sumQuota = (node.status.votes.map Vote.quota).sum := by
  obtain ⟨proposal, votes, -, -, permuted, rfl⟩ := built
  exact (permuted.map Vote.quota).sum_eq

theorem backed_of_steps (stakes : params.config.twoPhaseBFTFlag = false) (counted : Counted node)
    (before : ∀ qc tally, .builtQC qc tally ∈ node.trace → Backed qc tally) (steps : Steps params inbox node node') :
    Counted node' ∧ ∀ qc tally, .builtQC qc tally ∈ node'.trace → Backed qc tally := by
  induction steps with
  | refl => exact ⟨counted, before⟩
  | tail _ step ih =>
      obtain ⟨counted, before⟩ := ih
      refine ⟨counted.step step, fun qc tally mem => ?_⟩
      rcases step.event mem with old | ⟨built, enough, rfl⟩
      · exact before qc tally old
      · refine ⟨built.sumQuota_eq, ?_⟩
        rw [built.sumQuota_eq]
        exact counted.stake stakes enough

theorem NodeRun.backed {signer : Signer} {roleStore : RoleStore} {b0 : Block} {start : Node}
    (stakes : params.config.twoPhaseBFTFlag = false) (started : Started params signer roleStore b0 start)
    (run : NodeRun params surroundings start node) (built : .builtQC qc tally ∈ node.trace) : Backed qc tally := by
  obtain ⟨q0, txs, merkleRoot, pool, -, setup_steps, -⟩ := started.steps openInbox
  have initial : Counted
      (setupNode params signer roleStore (genesisStore b0 q0 txs merkleRoot) pool b0 b0 q0) :=
    ⟨rfl, rfl, rfl⟩
  have steps := setup_steps.trans run.open_steps
  exact (backed_of_steps stakes initial (fun _ _ mem => absurd mem List.not_mem_nil) steps).2 _ _ built

/-! ## The leader -/

/-- No vote of the tally has more than the stake of its voter. -/
def WithinStake (tally : Tally) : Prop :=
  ∀ vote ∈ tally.votes, ∃ stake,
    tally.roleStore.getValidatorQuota vote.voter.pubKey = some stake ∧ vote.quota ≤ stake

/-- A tally of votes within their stake that has, with the recent certificates, a majority of it. -/
def StakeMajority (tally : Tally) : Prop :=
  WithinStake tally ∧ tally.roleStore.majorityQuotaCount.toNat ≤
    stakeSum (tally.votes.map Vote.quota) + stakeSum tally.window.recent

/-- The certificate was built by a node that saw the same majority and the same recent certificates. -/
def BuiltUnder (params : Params) (qc : QuorumCert) (roleStore : RoleStore) (window : Window) : Prop :=
  ∃ signer roles b0 start leader tally, Started params signer roles b0 start ∧
    NodeRun params anyEnv start leader ∧ .builtQC qc tally ∈ leader.trace ∧
      tally.roleStore.majorityQuotaCount = roleStore.majorityQuotaCount ∧
        tally.window.recent = window.recent

/-- In every run whose high certificates for the block after the window were built by a node with the
same majority and the same recent certificates, they are accepted and have the stake that their
leader needed. -/
theorem adopted_stake {signer : Signer} {roleStore : RoleStore} {b0 : Block} {start : Node}
    (stakes : params.config.twoPhaseBFTFlag = false)
    (started : Started params signer roleStore b0 start) (run : NodeRun params surroundings start node)
    (built : ∀ qc blk1 roleStore window, .setQCHigh qc blk1 roleStore window ∈ node.trace →
      blk1.height = window.height + 1 → BuiltUnder params qc roleStore window) :
    ∀ qc blk1 roleStore window, .setQCHigh qc blk1 roleStore window ∈ node.trace →
      blk1.height = window.height + 1 → Accepted start.status.qcHigh node.trace qc ∧
        roleStore.majorityQuotaCount.toNat ≤ qc.sumQuota.toNat + stakeSum window.recent := by
  intro qc blk1 roleStore window adopted next
  refine ⟨run.accepted started ⟨blk1, roleStore, window, adopted⟩, ?_⟩
  obtain ⟨_, _, _, _, leader, tally, leader_started, leader_run, leader_built, same_majority, same_recent⟩ :=
    built qc blk1 roleStore window adopted next
  rw [← same_majority, ← same_recent]
  exact (leader_run.backed stakes leader_started leader_built).enough

/-! ## Quotas that nobody checks -/

/-- Two validators with equal stake and a window of one certificate. -/
def stakeValidators : RoleStore :=
  RoleStore.ofGenesis [(transparentSigner 1).pubKey, (transparentSigner 2).pubKey] [1, 1] 1

/-- The protocol with stakes, where the pacemaker starts with a token. -/
def stakeParams : Params := ⟨transparentCrypto, ⟨true, true, false, 500, 0⟩⟩

/-- One of the two validators after the genesis block. -/
def stakeNode (byte : UInt8) : Node :=
  let q0 := bothVotes (transparentBlock [])
  Program.final (setupWindow stakeParams q0)
    (setupNode stakeParams (transparentSigner byte) stakeValidators
      (genesisStore (transparentBlock []) q0 [] []) newTxStore (transparentBlock [])
      (transparentBlock []) q0)

theorem stakeNode_started (byte : UInt8) (valid : byte = 1 ∨ byte = 2) :
    Started stakeParams (transparentSigner byte) stakeValidators (transparentBlock []) (stakeNode byte) := by
  refine ⟨bothVotes (transparentBlock []), [], [], newTxStore,
    ⟨rfl, rfl, rfl, by decide, rfl, rfl, rfl, by decide⟩, Prod.ext ?_ rfl⟩
  rcases valid with rfl | rfl <;> decide +kernel

/-- The window after the genesis certificate. -/
def genesisWindow : Window := ⟨[2], 2, [1], 1, 1, 1, 0, 1, 0, false⟩

/-- The first validator proposes and gets a vote of the second one with the given quota. -/
def votedNode (quota : UInt64) : Node :=
  (stakeNode 1).receiveAll stakeParams silentEnv
    [.propose, .vote (firstChild.vote (transparentSigner 2) quota)]

theorem votedNode_run (quota : UInt64) (alive : (votedNode quota).alive = true) :
    NodeRun stakeParams anyEnv (stakeNode 1) (votedNode quota) :=
  NodeRun.receiveAll .start trivial _ alive

/-- The tally of the first validator. -/
def votedTally (quota : UInt64) : Tally :=
  ⟨[firstChild.vote (transparentSigner 1) 1, firstChild.vote (transparentSigner 2) quota],
    stakeValidators, genesisWindow⟩

/-- A certificate of both validators with the given quota each. -/
def evenVotes (quota : UInt64) : QuorumCert :=
  QuorumCert.build (transparentSigner 1)
    [firstChild.vote (transparentSigner 1) quota, firstChild.vote (transparentSigner 2) quota]

/-- A child of the first block with that certificate. -/
def evenChild (quota : UInt64) : Block :=
  Block.sign transparentCrypto (transparentSigner 1)
    { hash := [], view := 0, height := 2, parentHash := firstChild.hash, execHeight := 0
      merkleRoot := [], timestamp := 0, transactions := []
      quorumCert := some (evenVotes quota).data, signature := none } (some (evenVotes quota))

/-- The second validator, after the first block and its child. -/
def followingNode (quota : UInt64) : Node :=
  (stakeNode 2).receiveAll stakeParams silentEnv [.proposal firstChild, .proposal (evenChild quota)]

theorem followingNode_run (quota : UInt64) (alive : (followingNode quota).alive = true) :
    NodeRun stakeParams anyEnv (stakeNode 2) (followingNode quota) :=
  NodeRun.receiveAll .start trivial _ alive

/-- A follower adopts a certificate without any stake, for the block right after its window. -/
theorem stakeless_certificate_adopted :
    Started stakeParams (transparentSigner 2) stakeValidators (transparentBlock []) (stakeNode 2) ∧
    NodeRun stakeParams anyEnv (stakeNode 2) (followingNode 0) ∧
    .setQCHigh (evenVotes 0) firstChild stakeValidators genesisWindow ∈ (followingNode 0).trace ∧
    firstChild.height = genesisWindow.height + 1 ∧
    (evenVotes 0).sumQuota.toNat + stakeSum genesisWindow.recent <
      stakeValidators.majorityQuotaCount.toNat :=
  ⟨stakeNode_started 2 (.inr rfl), followingNode_run 0 (by decide +kernel), by decide +kernel,
    by decide +kernel, by decide +kernel⟩

/-- The call sets the highest certificate. -/
def Event.setsHigh : Event → Bool
  | .setQCHigh _ _ _ _ => true
  | _ => false

/-- The certificate that the first validator built has the stake where the second one adopts it. -/
theorem adopted_stake_followingNode :
    .setQCHigh (evenVotes 1) firstChild stakeValidators genesisWindow ∈ (followingNode 1).trace ∧
    stakeValidators.majorityQuotaCount.toNat ≤
      (evenVotes 1).sumQuota.toNat + stakeSum genesisWindow.recent := by
  have set_events : (followingNode 1).trace.filter Event.setsHigh =
      [.setQCHigh (evenVotes 1) firstChild stakeValidators genesisWindow] := by decide +kernel
  have adopted : .setQCHigh (evenVotes 1) firstChild stakeValidators genesisWindow ∈
      (followingNode 1).trace :=
    List.mem_of_mem_filter (set_events ▸ List.mem_singleton_self _)
  have built_here : .builtQC (evenVotes 1) (votedTally 1) ∈ (votedNode 1).trace := by decide +kernel
  refine ⟨adopted, (adopted_stake rfl (stakeNode_started 2 (.inr rfl))
    (followingNode_run 1 (by decide +kernel)) ?_ _ _ _ _ adopted (by decide +kernel)).2⟩
  intro qc blk1 roleStore window mem _
  have in_filter := List.mem_filter.mpr ⟨mem, (rfl : Event.setsHigh (.setQCHigh _ _ _ _) = true)⟩
  rw [set_events, List.mem_singleton] at in_filter
  obtain ⟨rfl, rfl, rfl, rfl⟩ := Event.setQCHigh.inj in_filter
  exact ⟨_, _, _, _, votedNode 1, votedTally 1, stakeNode_started 1 (.inl rfl),
    votedNode_run 1 (by decide +kernel), built_here, rfl, rfl⟩

end SvpChain.Consensus
