import SvpChain.Consensus.Network
import SvpChain.Core.Assembly

/-!
# Certificates in a network

In a network of validators a view has one leader, a certificate that goes around is for the genesis
block or was built by the leader of its view, and what it certifies has the votes of a majority.  Those
votes come before any vote for a block that carries the certificate.
-/

namespace SvpChain.Consensus

open Core TxPool Relation Interleaving History

variable {n : ℕ} {params : Params} {b0 blk : Block} {q0 qc : QuorumCert} {net net' : Net n}
  {signer : Fin n → Signer} {roleStore : RoleStore} {inbox : Inbox} {node node' : Node}

/-! ## Leaders -/

/-- The keys of the validators are the ones the nodes sign with, at their positions. -/
structure Positions (signer : Fin n → Signer) (roleStore : RoleStore) : Prop where
  count_eq : roleStore.validatorCount = n
  index_eq : ∀ i, roleStore.getValidatorIndex (signer i).pubKey = i

/-- The leader of a view is the validator whose turn it is, and nobody else proposes. -/
structure InTurn (signer : Fin n → Signer) (net : Net n) : Prop where
  current : ∀ i, (net i).status.leaderIndex = (net i).status.view % UInt32.ofNat n
  proposed : ∀ i blk, .proposed blk ∈ (net i).trace →
    blk.proposer = (signer i).pubKey ∧ UInt32.ofNat i = blk.view % UInt32.ofNat n

theorem SameRoles.getValidatorIndex_eq {store store' : RoleStore} (roles : SameRoles store store')
    (pubKey : PublicKey) : store'.getValidatorIndex pubKey = store.getValidatorIndex pubKey := by
  obtain ⟨graceHeight, rfl⟩ := roles
  rfl

theorem SameRoles.validatorCount_eq {store store' : RoleStore} (roles : SameRoles store store') :
    store'.validatorCount = store.validatorCount := by
  obtain ⟨graceHeight, rfl⟩ := roles
  rfl

/-- The view and the leader stay, come from a block in memory, or move on by one. -/
theorem NodeStep.turn (step : NodeStep params inbox node node') :
    (node'.status.view = node.status.view ∧ node'.status.leaderIndex = node.status.leaderIndex) ∨
      (∃ blk ∈ node.state.blocks, node'.status.view = blk.view ∧ node'.status.leaderIndex = node.proposerIndex blk) ∨
      (node'.status.view = node.status.view + 1 ∧
        nextLeaderIndex node.roleStore node.status.view = .ok node'.status.leaderIndex) := by
  rcases step.leader with ⟨same_view, same_leader, -⟩ | ⟨event, sets, trace_eq, current⟩
  · exact Or.inl ⟨same_view, same_leader⟩
  · have cause : Cause params inbox node event := by
      rcases step.records with same | ⟨recorded, recorded_eq, cause⟩
      · rw [same] at trace_eq
        exact absurd trace_eq.symm (List.cons_ne_self _ _)
      · obtain rfl := (List.cons_eq_cons.mp (recorded_eq.symm.trans trace_eq)).1
        exact cause
    cases event with
    | approve view leader =>
        obtain ⟨rfl, rfl⟩ := Prod.mk.inj current
        obtain ⟨blk, mem, view_eq, leader_eq, -⟩ := cause
        exact Or.inr (Or.inl ⟨blk, mem, view_eq, leader_eq⟩)
    | enterView view leader =>
        obtain ⟨rfl, rfl⟩ := Prod.mk.inj current
        exact Or.inr (Or.inr cause)
    | _ => cases sets

section Leaders

variable (positions : Positions signer roleStore) (genesis : Genesis params roleStore b0 q0)
include positions genesis

theorem InTurn.index_of_known (turn : InTurn signer net) (known : blk ∈ knownBlocks b0 net) :
    UInt32.ofNat (roleStore.getValidatorIndex blk.proposer) = blk.view % UInt32.ofNat n := by
  rcases mem_knownBlocks.mp known with rfl | ⟨i, proposed⟩
  · rw [genesis.proposer_eq, genesis.view_eq]
    exact UInt32.zero_mod.symm
  · obtain ⟨proposer_eq, index_eq⟩ := turn.proposed i blk proposed
    rw [proposer_eq, positions.index_eq, index_eq]

theorem InTurn.step (members : Members signer roleStore b0 net) (turn : InTurn signer net)
    (step : NetStep params b0 net net') : InTurn signer net' where
  current i := by
    rcases step i with same | step
    · rw [same]
      exact turn.current i
    rcases step.turn with ⟨same_view, same_leader⟩ | ⟨blk, mem, view_eq, leader_eq⟩ |
      ⟨view_eq, next_eq⟩
    · rw [same_view, same_leader]
      exact turn.current i
    · rw [view_eq, leader_eq, Node.proposerIndex, (members.roles i).getValidatorIndex_eq]
      exact turn.index_of_known positions genesis
        (members.known_of_seen ((members.closed i).blocks blk mem))
    · rw [nextLeaderIndex, (members.roles i).validatorCount_eq, positions.count_eq] at next_eq
      split at next_eq
      · cases next_eq
      · rw [view_eq]
        exact (Except.ok.inj next_eq).symm
  proposed i blk mem := by
    rcases step.event mem with old | ⟨leader, parent, -, proposal⟩
    · exact turn.proposed i blk old
    · have signer_eq := members.signer_eq i
      refine ⟨by rw [proposal.proposer_eq, signer_eq], ?_⟩
      rw [isLeader, signer_eq, (members.roles i).getValidatorIndex_eq, positions.index_eq,
        Bool.and_eq_true, beq_iff_eq] at leader
      rw [proposal.view_eq, ← turn.current i, leader.2]

end Leaders

variable {i : Fin n} {trace : List Event} {votes : List Vote}

theorem InTurn.proposer_unique (turn : InTurn signer net) (few : n < 2 ^ 32) {j : Fin n}
    {blk' : Block} (proposed : .proposed blk ∈ (net i).trace)
    (proposed' : .proposed blk' ∈ (net j).trace) (same_view : blk.view = blk'.view) : i = j := by
  have same_index := (turn.proposed i blk proposed).2
  rw [same_view, ← (turn.proposed j blk' proposed').2, ← UInt32.toNat_inj, UInt32.toNat_ofNat',
    UInt32.toNat_ofNat', Nat.mod_eq_of_lt (i.isLt.trans few), Nat.mod_eq_of_lt (j.isLt.trans few)]
    at same_index
  exact Fin.ext same_index

/-! ## Where certificates come from -/

/-- A certificate that a node has built and set as its highest one. -/
def Minted (trace : List Event) (qc : QuorumCert) : Prop :=
  ∃ blk1 roleStore window tally earlier,
    .setQCHigh qc blk1 roleStore window :: .builtQC qc tally :: earlier <:+ trace

/-- A certificate for the genesis block, or one that a node has built. -/
def Issued (b0 : Block) (net : Net n) (qc : QuorumCert) : Prop :=
  (qc.blockHash = b0.hash ∧ qc.view = 0) ∨ ∃ i, Minted (net i).trace qc

theorem Minted.mono {trace' : List Event} (minted : Minted trace qc) (grows : trace <:+ trace') : Minted trace' qc := by
  obtain ⟨blk1, roleStore, window, tally, earlier, part⟩ := minted
  exact ⟨blk1, roleStore, window, tally, earlier, part.trans grows⟩

theorem Issued.mono (issued : Issued b0 net qc) (grows : Grows net net') : Issued b0 net' qc :=
  issued.imp_right fun ⟨i, minted⟩ => ⟨i, minted.mono (grows i)⟩

/-- The high certificate stays, is one that circulates, or has just been built. -/
theorem NodeStep.high_origin (step : NodeStep params inbox node node') :
    node'.status.qcHigh = node.status.qcHigh ∨ Circulates node node'.status.qcHigh ∨
      Minted node'.trace node'.status.qcHigh := by
  rcases step.high_cases with ⟨same, -⟩ | ⟨blk1, recorded, -, circulates | ⟨-, tally, earlier, built⟩⟩
  · exact Or.inl same
  · exact Or.inr (Or.inl circulates)
  · rw [built] at recorded
    exact Or.inr (Or.inr ⟨blk1, _, _, tally, earlier, [], recorded.symm⟩)

/-- The certificates that go around were issued, and proposals hang under the block they certify. -/
structure CertsIssued (b0 : Block) (net : Net n) : Prop where
  high : ∀ i, Issued b0 net (net i).status.qcHigh
  received : ∀ i qc, .receivedQC qc ∈ (net i).trace → Issued b0 net qc
  sent : ∀ i peer qc, .sendQC peer qc ∈ (net i).trace → Issued b0 net qc
  proposed : ∀ i blk, .proposed blk ∈ (net i).trace →
    (∃ qc, blk.quorumCert = some qc ∧ Issued b0 net qc ∧ qc.blockHash = blk.parentHash) ∧
      ∃ parent ∈ knownBlocks b0 net, parent.hash = blk.parentHash ∧ blk.height = parent.height + 1

theorem CertsIssued.of_circulates (certs : CertsIssued b0 net)
    (members : Members signer roleStore b0 net) (genesis_cert : b0.quorumCert = none)
    (circulates : Circulates (net i) qc) : Issued b0 net qc := by
  rcases circulates with alone | ⟨blk, mem, cert_eq⟩
  · exact certs.received i qc alone
  · rcases mem_knownBlocks.mp (members.known_of_seen ((members.closed i).blocks blk mem)) with
      rfl | ⟨j, proposed⟩
    · rw [genesis_cert] at cert_eq
      cases cert_eq
    · obtain ⟨⟨target, target_eq, issued, -⟩, -⟩ := certs.proposed j blk proposed
      obtain rfl := Option.some.inj (target_eq.symm.trans cert_eq)
      exact issued

theorem ProposalParent.known {parent : Block} (members : Members signer roleStore b0 net)
    (is_parent : ProposalParent (netInbox b0 net) (net i) parent) :
    parent ∈ knownBlocks b0 net ∧ parent.hash = (net i).status.qcHigh.blockHash := by
  rcases is_parent with ⟨-, on_leaf, rfl⟩ | ⟨mem, hash_eq⟩
  · exact ⟨members.known_of_seen (members.closed i).leaf, on_leaf⟩
  · exact ⟨members.known_of_seen ((members.closed i).blocks parent mem), hash_eq⟩

theorem CertsIssued.step (certs : CertsIssued b0 net) (members : Members signer roleStore b0 net)
    (genesis_cert : b0.quorumCert = none) (step : NetStep params b0 net net') : CertsIssued b0 net' where
  high i := by
    rcases step i with same | node_step
    · rw [same]
      exact (certs.high i).mono step.grows
    · rcases node_step.high_origin with same | circulates | minted
      · rw [same]
        exact (certs.high i).mono step.grows
      · exact (certs.of_circulates members genesis_cert circulates).mono step.grows
      · exact Or.inr ⟨i, minted⟩
  received i qc mem := by
    rcases step.event mem with old | ⟨j, peer, sent⟩
    · exact (certs.received i qc old).mono step.grows
    · exact (certs.sent j peer qc sent).mono step.grows
  sent i peer qc mem := by
    rcases step.event mem with old | is_high
    · exact (certs.sent i peer qc old).mono step.grows
    · exact is_high ▸ (certs.high i).mono step.grows
  proposed i blk mem := by
    rcases step.event mem with old | ⟨-, parent, is_parent, proposal⟩
    · obtain ⟨⟨qc, cert_eq, issued, for_parent⟩, parent, known, facts⟩ := certs.proposed i blk old
      exact ⟨⟨qc, cert_eq, issued.mono step.grows, for_parent⟩, parent, step.grows.known known, facts⟩
    · obtain ⟨known, hash_eq⟩ := is_parent.known members
      have for_parent := hash_eq.symm.trans proposal.parentHash_eq.symm
      exact ⟨⟨_, proposal.quorumCert_eq, (certs.high i).mono step.grows, for_parent⟩, parent,
        step.grows.known known, proposal.parentHash_eq.symm, proposal.height_eq⟩

/-! ## Votes behind certificates -/

open Classical in
/-- The validators that have voted for a block of a hash. -/
noncomputable def voters (net : Net n) (hash : Bytes) : Finset (Fin n) :=
  Finset.univ.filter fun i => ∃ blk ∈ ballots (net i).trace, blk.hash = hash

theorem mem_voters {hash : Bytes} : i ∈ voters net hash ↔ ∃ blk ∈ ballots (net i).trace, blk.hash = hash := by
  simp [voters]

theorem ballots_mono {trace' : List Event} (grows : trace <:+ trace') : ballots trace <:+ ballots trace' := by
  obtain ⟨later, rfl⟩ := grows
  rw [ballots, ballots, List.filterMap_append]
  exact List.suffix_append _ _

theorem mem_ballots : blk ∈ ballots trace ↔ .proposed blk ∈ trace ∨ ∃ vote, .sendVote blk vote ∈ trace := by
  constructor
  · intro mem
    obtain ⟨event, event_mem, is_ballot⟩ := List.mem_filterMap.mp mem
    cases event with
    | proposed other => exact Or.inl (Option.some.inj is_ballot ▸ event_mem)
    | sendVote other vote => exact Or.inr ⟨vote, Option.some.inj is_ballot ▸ event_mem⟩
    | _ => cases is_ballot
  · rintro (proposed | ⟨vote, sent⟩)
    · exact List.mem_filterMap.mpr ⟨_, proposed, rfl⟩
    · exact List.mem_filterMap.mpr ⟨_, sent, rfl⟩

theorem Grows.voters_subset (grows : Grows net net') (hash : Bytes) : voters net hash ⊆ voters net' hash := by
  intro i mem
  obtain ⟨blk, cast, hash_eq⟩ := mem_voters.mp mem
  exact mem_voters.mpr ⟨blk, (ballots_mono (grows i)).subset cast, hash_eq⟩

/-- Votes of different validators that have voted for the block. -/
structure CountedFor (signer : Fin n → Signer) (net : Net n) (blk : Block) (votes : List Vote) :
    Prop where
  distinct : (votes.map fun vote => vote.voter.pubKey).Nodup
  cast : ∀ vote ∈ votes, vote.blockHash = blk.hash ∧ vote.view = blk.view ∧
    ∃ j ∈ voters net blk.hash, vote.voter.pubKey = (signer j).pubKey

/-- The certificate is for the block, which a majority has voted for. -/
structure Certifies (net : Net n) (qc : QuorumCert) (blk : Block) : Prop where
  hash_eq : qc.blockHash = blk.hash
  view_eq : qc.view = blk.view
  quorum : RoleStore.majorityCount n ≤ (voters net blk.hash).card

theorem CountedFor.mono (counted : CountedFor signer net blk votes)
    (grows : Grows net net') : CountedFor signer net' blk votes where
  distinct := counted.distinct
  cast vote mem := by
    obtain ⟨hash_eq, view_eq, j, voted, key_eq⟩ := counted.cast vote mem
    exact ⟨hash_eq, view_eq, j, grows.voters_subset _ voted, key_eq⟩

theorem Certifies.mono (certifies : Certifies net qc blk) (grows : Grows net net') : Certifies net' qc blk :=
  { certifies with
    quorum := certifies.quorum.trans (Finset.card_le_card (grows.voters_subset _)) }

theorem CountedFor.length_le (counted : CountedFor signer net blk votes) :
    votes.length ≤ (voters net blk.hash).card := by
  have within : (votes.map fun vote => vote.voter.pubKey).toFinset ⊆
      (voters net blk.hash).image fun j => (signer j).pubKey := by
    intro key mem
    obtain ⟨vote, vote_mem, rfl⟩ := List.mem_map.mp (List.mem_toFinset.mp mem)
    obtain ⟨-, -, j, voted, key_eq⟩ := counted.cast vote vote_mem
    exact Finset.mem_image.mpr ⟨j, voted, key_eq.symm⟩
  calc votes.length
      = (votes.map fun vote => vote.voter.pubKey).toFinset.card := by
        rw [List.toFinset_card_of_nodup counted.distinct, List.length_map]
    _ ≤ ((voters net blk.hash).image fun j => (signer j).pubKey).card := Finset.card_le_card within
    _ ≤ (voters net blk.hash).card := Finset.card_image_le

theorem NodeStep.progress (step : NodeStep params inbox node node') : node'.status.proposal = none ∨
      (node'.status.proposal = node.status.proposal ∧ node'.status.votes = node.status.votes) ∨
      (∃ parent blk, node'.trace = .proposed blk :: node.trace ∧ Proposal params node parent blk ∧
        node'.status.proposal = some blk ∧ node'.status.votes = []) ∨
      ∃ vote, node'.status.proposal = node.status.proposal ∧ node'.status.votes = node.status.votes ++ [vote] ∧
        (∃ blk, node.status.proposal = some blk ∧ blk.hash = vote.blockHash ∧ blk.view = vote.view) ∧
        vote.voter.pubKey ∉ node.status.votes.map (fun other => other.voter.pubKey) ∧
        (inbox.Vote vote ∨ ∃ blk quota, .proposed blk ∈ node.trace ∧ vote = blk.vote node.signer quota) := by
  cases step with
  | chain step =>
      cases step with
      | load loads =>
          rw [loads.status_eq]
          exact Or.inr (Or.inl ⟨rfl, rfl⟩)
      | _ => exact Or.inr (Or.inl ⟨rfl, rfl⟩)
  | certify | endProposal => exact Or.inl rfl
  | propose _ _ proposal => exact Or.inr (Or.inr (Or.inl ⟨_, _, rfl, proposal, rfl, rfl⟩))
  | addVote added source =>
      obtain ⟨for_proposal, fresh, rfl⟩ := Status.addVote_eq_ok added
      exact Or.inr (Or.inr (Or.inr ⟨_, rfl, rfl, for_proposal, fresh, source⟩))
  | _ => exact Or.inr (Or.inl ⟨rfl, rfl⟩)

/-- Votes are cast for proposals and counted by their proposers. -/
structure VotesCounted (signer : Fin n → Signer) (net : Net n) : Prop where
  voted : ∀ i, ∀ blk ∈ ballots (net i).trace, ∃ j, .proposed blk ∈ (net j).trace
  sent : ∀ i blk vote, .sendVote blk vote ∈ (net i).trace → ∃ quota, vote = blk.vote (signer i) quota
  counted : ∀ i blk, (net i).status.proposal = some blk →
    .proposed blk ∈ (net i).trace ∧ CountedFor signer net blk (net i).status.votes
  built : ∀ i qc tally, .builtQC qc tally ∈ (net i).trace →
    ∃ blk, .proposed blk ∈ (net i).trace ∧ Certifies net qc blk

theorem VotesCounted.voter (votes : VotesCounted signer net) (members : Members signer roleStore b0 net) {vote : Vote}
    (source : (netInbox b0 net).Vote vote ∨ ∃ blk quota, .proposed blk ∈ (net i).trace ∧
      vote = blk.vote (net i).signer quota) :
    ∃ j ∈ voters net vote.blockHash, vote.voter.pubKey = (signer j).pubKey := by
  rcases source with ⟨j, blk, sent⟩ | ⟨blk, quota, proposed, rfl⟩
  · obtain ⟨quota, rfl⟩ := votes.sent j blk vote sent
    exact ⟨j, mem_voters.mpr ⟨blk, mem_ballots.mpr (Or.inr ⟨_, sent⟩), rfl⟩, rfl⟩
  · refine ⟨i, mem_voters.mpr ⟨blk, mem_ballots.mpr (Or.inl proposed), rfl⟩, ?_⟩
    rw [← members.signer_eq i]
    rfl

theorem CountedFor.append {vote : Vote}
    (counted : CountedFor signer net blk votes) (hash_eq : blk.hash = vote.blockHash) (view_eq : blk.view = vote.view)
    (fresh : vote.voter.pubKey ∉ votes.map (fun other => other.voter.pubKey))
    (cast : ∃ j ∈ voters net vote.blockHash, vote.voter.pubKey = (signer j).pubKey) :
    CountedFor signer net blk (votes ++ [vote]) where
  distinct := by
    rw [List.map_append, List.map_singleton, List.nodup_append]
    refine ⟨counted.distinct, List.nodup_singleton _, fun key old other new => ?_⟩
    rw [List.mem_singleton.mp new]
    exact fun same => fresh (same ▸ old)
  cast other mem := by
    rcases List.mem_append.mp mem with old | new
    · exact counted.cast other old
    · rw [List.mem_singleton.mp new]
      exact ⟨hash_eq.symm, view_eq.symm, hash_eq ▸ cast⟩

theorem Built.certifies (built : Built node qc)
    (majority : node.roleStore.majorityValidatorCount = RoleStore.majorityCount n)
    (counted : ∀ blk, node.status.proposal = some blk → .proposed blk ∈ node.trace ∧
      CountedFor signer net blk node.status.votes) :
    ∃ blk, node.status.proposal = some blk ∧ .proposed blk ∈ node.trace ∧ Certifies net qc blk := by
  obtain ⟨blk, votes, in_progress, enough, permuted, rfl⟩ := built
  obtain ⟨proposed, counted⟩ := counted blk in_progress
  refine ⟨blk, in_progress, proposed, ?_⟩
  rw [majority] at enough
  have nonempty : votes ≠ [] := by
    -- a majority is at least one
    rintro rfl
    rw [← permuted.length_eq, RoleStore.majorityCount, List.length_nil] at enough
    omega
  have target_eq : QuorumCert.buildTarget votes = (blk.view, blk.hash) := by
    refine QuorumCert.buildTarget_eq (fun vote mem => ?_) nonempty
    obtain ⟨hash_eq, view_eq, -⟩ := counted.cast vote (permuted.subset mem)
    rw [hash_eq, view_eq]
  exact ⟨congrArg Prod.snd target_eq, congrArg Prod.fst target_eq, enough.trans counted.length_le⟩

theorem Members.majority (members : Members signer roleStore b0 net)
    (positions : Positions signer roleStore) (i : Fin n) :
    (net i).roleStore.majorityValidatorCount = RoleStore.majorityCount n := by
  rw [RoleStore.majorityValidatorCount, (members.roles i).validatorCount_eq, positions.count_eq]

theorem VotesCounted.step (votes : VotesCounted signer net)
    (members : Members signer roleStore b0 net) (positions : Positions signer roleStore)
    (genesis_cert : b0.quorumCert = none) (step : NetStep params b0 net net') : VotesCounted signer net' where
  voted i blk mem := by
    rcases mem_ballots.mp mem with proposed | ⟨vote, sent⟩
    · exact ⟨i, proposed⟩
    · rcases step.event sent with old | ⟨qc, quota, guard, -⟩
      · obtain ⟨j, proposed⟩ := votes.voted i blk (mem_ballots.mpr (Or.inr ⟨vote, old⟩))
        exact ⟨j, (step.grows j).subset proposed⟩
      · rcases mem_knownBlocks.mp (members.known_of_seen guard.seen) with rfl | ⟨j, proposed⟩
        · have cert_eq := guard.cert_eq
          rw [genesis_cert] at cert_eq
          cases cert_eq
        · exact ⟨j, (step.grows j).subset proposed⟩
  sent i blk vote mem := by
    rcases step.event mem with old | ⟨qc, quota, -, vote_eq⟩
    · exact votes.sent i blk vote old
    · exact ⟨quota, members.signer_eq i ▸ vote_eq⟩
  counted i blk in_progress := by
    have kept : ∀ blk, (net i).status.proposal = some blk → .proposed blk ∈ (net' i).trace ∧
        CountedFor signer net' blk (net i).status.votes := fun blk in_progress =>
      ⟨(step.grows i).subset (votes.counted i blk in_progress).1,
        (votes.counted i blk in_progress).2.mono step.grows⟩
    rcases step i with same | node_step
    · rw [same] at in_progress ⊢
      exact same ▸ kept blk in_progress
    rcases node_step.progress with ended | ⟨same, same_votes⟩ |
      ⟨parent, other, trace_eq, -, started, none_yet⟩ |
      ⟨vote, same, added, for_proposal, fresh, source⟩
    · rw [ended] at in_progress
      cases in_progress
    · rw [same_votes]
      exact kept blk (same ▸ in_progress)
    · obtain rfl := Option.some.inj (started.symm.trans in_progress)
      rw [trace_eq, none_yet]
      exact ⟨List.mem_cons_self, List.nodup_nil, fun _ mem => absurd mem List.not_mem_nil⟩
    · rw [same] at in_progress
      obtain ⟨other, is_other, hash_eq, view_eq⟩ := for_proposal
      obtain rfl := Option.some.inj (is_other.symm.trans in_progress)
      obtain ⟨j, voted, key_eq⟩ := votes.voter members source
      obtain ⟨proposed, counted⟩ := kept _ in_progress
      rw [added]
      exact ⟨proposed, counted.append hash_eq view_eq fresh
        ⟨j, step.grows.voters_subset _ voted, key_eq⟩⟩
  built i qc tally mem := by
    rcases step.event mem with old | ⟨built, -⟩
    · obtain ⟨blk, proposed, certifies⟩ := votes.built i qc tally old
      exact ⟨blk, (step.grows i).subset proposed, certifies.mono step.grows⟩
    · obtain ⟨blk, -, proposed, certifies⟩ :=
        built.certifies (members.majority positions i) (votes.counted i)
      exact ⟨blk, (step.grows i).subset proposed, certifies.mono step.grows⟩

/-! ## The order of votes -/

/-- A ballot for a hash comes before every ballot for the block. -/
structure VotedFirst (hash : Bytes) (blk : Block) (ballots : List Block) : Prop where
  voted : ∃ ballot ∈ ballots, ballot.hash = hash
  first : Throughout (fun earlier ballot => ballot = blk → ∃ other ∈ earlier, other.hash = hash) ballots

/-- A majority has voted for what a proposal certifies, and before it votes for the proposal. -/
def CertsFirst (b0 : Block) (net : Net n) : Prop :=
  ∀ i blk qc, .proposed blk ∈ (net i).trace → blk.quorumCert = some qc →
    (qc.blockHash = b0.hash ∧ qc.view = 0) ∨ ∃ quorum : Finset (Fin n),
      RoleStore.majorityCount n ≤ quorum.card ∧
        ∀ k ∈ quorum, VotedFirst qc.blockHash blk (ballots (net k).trace)

theorem VotedFirst.step {hash : Bytes} {k : Fin n}
    (first : VotedFirst hash blk (ballots (net k).trace)) (step : NetStep params b0 net net') :
    VotedFirst hash blk (ballots (net' k).trace) := by
  rcases step k with same | node_step
  · rw [same]
    exact first
  · rcases node_step.ballots with same | ⟨ballot, _, cast_eq, -⟩
    · rw [same]
      exact first
    · rw [cast_eq]
      obtain ⟨other, cast, hash_eq⟩ := first.voted
      exact ⟨⟨other, List.mem_cons_of_mem _ cast, hash_eq⟩,
        throughout_cons.mpr ⟨fun _ => first.voted, first.first⟩⟩

theorem Minted.built (minted : Minted trace qc) : ∃ tally, .builtQC qc tally ∈ trace := by
  obtain ⟨blk1, roleStore, window, tally, earlier, part⟩ := minted
  exact ⟨tally, part.subset (List.mem_cons_of_mem _ List.mem_cons_self)⟩

theorem CertsFirst.step (first : CertsFirst b0 net) (votes : VotesCounted signer net)
    (certs : CertsIssued b0 net) (step : NetStep params b0 net net') : CertsFirst b0 net' := by
  intro i blk qc mem cert_eq
  by_cases known : ∃ j, .proposed blk ∈ (net j).trace
  · obtain ⟨j, proposed⟩ := known
    rcases first j blk qc proposed cert_eq with is_first | ⟨quorum, enough, voted⟩
    · exact Or.inl is_first
    · exact Or.inr ⟨quorum, enough, fun k mem => (voted k mem).step step⟩
  · rcases step.event mem with old | ⟨-, parent, -, proposal⟩
    · exact absurd ⟨i, old⟩ known
    obtain rfl := Option.some.inj (proposal.quorumCert_eq.symm.trans cert_eq)
    rcases certs.high i with is_first | ⟨j, minted⟩
    · exact Or.inl is_first
    obtain ⟨tally, built⟩ := minted.built
    obtain ⟨certified, -, certifies⟩ := votes.built j _ tally built
    refine Or.inr ⟨_, certifies.quorum, fun k voted => VotedFirst.step ⟨?_, ?_⟩ step⟩
    · rw [certifies.hash_eq]
      exact mem_voters.mp voted
    · -- nobody has voted for the new block yet
      intro ballot earlier part same
      have cast : blk ∈ ballots (net k).trace := part.subset (same ▸ List.mem_cons_self)
      exact absurd (votes.voted k blk cast) known

/-! ## Runs -/

/-- What holds of certificates and votes in every state of a network. -/
structure Sound (signer : Fin n → Signer) (roleStore : RoleStore) (b0 : Block) (net : Net n) :
    Prop where
  members : Members signer roleStore b0 net
  turn : InTurn signer net
  certs : CertsIssued b0 net
  votes : VotesCounted signer net
  first : CertsFirst b0 net

theorem Sound.step (positions : Positions signer roleStore) (genesis : Genesis params roleStore b0 q0)
    (sound : Sound signer roleStore b0 net) (step : NetStep params b0 net net') : Sound signer roleStore b0 net' where
  members := sound.members.step step
  turn := sound.turn.step positions genesis sound.members step
  certs := sound.certs.step sound.members genesis.quorumCert_eq step
  votes := sound.votes.step sound.members positions genesis.quorumCert_eq step
  first := sound.first.step sound.votes sound.certs step

theorem NetSetup.trace_eq (setup : NetSetup params signer roleStore b0 net) (i : Fin n) : (net i).trace = [] := by
  obtain ⟨q0, txs, merkleRoot, pool, -, node_eq⟩ := setup i
  rw [node_eq]
  rfl

theorem NetSetup.proposal_eq (setup : NetSetup params signer roleStore b0 net) (i : Fin n) :
    (net i).status.proposal = none := by
  obtain ⟨q0, txs, merkleRoot, pool, -, node_eq⟩ := setup i
  rw [node_eq]
  rfl

theorem NetSetup.sound (setup : NetSetup params signer roleStore b0 net) : Sound signer roleStore b0 net where
  members := setup.members
  turn :=
    { current := by
        intro i
        obtain ⟨q0, txs, merkleRoot, pool, genesis, node_eq⟩ := setup i
        rw [node_eq]
        change UInt32.ofNat (roleStore.getValidatorIndex q0.proposer) = q0.view % UInt32.ofNat n
        rw [genesis.leader_eq, genesis.certView_eq]
        exact UInt32.zero_mod.symm
      proposed := fun i _ mem => absurd (setup.trace_eq i ▸ mem) List.not_mem_nil }
  certs :=
    { high := by
        intro i
        obtain ⟨q0, txs, merkleRoot, pool, genesis, node_eq⟩ := setup i
        rw [node_eq]
        exact Or.inl ⟨genesis.certifies, genesis.certView_eq⟩
      received := fun i _ mem => absurd (setup.trace_eq i ▸ mem) List.not_mem_nil
      sent := fun i _ _ mem => absurd (setup.trace_eq i ▸ mem) List.not_mem_nil
      proposed := fun i _ mem => absurd (setup.trace_eq i ▸ mem) List.not_mem_nil }
  votes :=
    { voted := fun i _ mem => absurd (setup.trace_eq i ▸ mem) List.not_mem_nil
      sent := fun i _ _ mem => absurd (setup.trace_eq i ▸ mem) List.not_mem_nil
      counted := fun i _ in_progress => nomatch (setup.proposal_eq i).symm.trans in_progress
      built := fun i _ _ mem => absurd (setup.trace_eq i ▸ mem) List.not_mem_nil }
  first := fun i _ _ mem => absurd (setup.trace_eq i ▸ mem) List.not_mem_nil

theorem Sound.steps (positions : Positions signer roleStore) (genesis : Genesis params roleStore b0 q0)
    (sound : Sound signer roleStore b0 net) (steps : ReflTransGen (NetStep params b0) net net') :
    Sound signer roleStore b0 net' := by
  induction steps with
  | refl => exact sound
  | tail _ step ih => exact ih.step positions genesis step

end SvpChain.Consensus
