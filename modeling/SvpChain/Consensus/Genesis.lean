import SvpChain.Consensus.Replay
import SvpChain.Core.Assembly

/-!
# The genesis certificate

The genesis leader signs the genesis block, stores the last vote of each voter and builds the genesis certificate
once it has one vote of every validator.  A vote is stored if its own signature is valid; it is not compared with
the genesis block.  The other nodes accept a certificate that passes `Validate` and is for their genesis block.
-/

namespace SvpChain.Consensus

open Core Program

/-! ## The code -/

/-- The state of `genesis`, with the key and the role store of its resources. -/
structure GenesisNode where
  signer : Signer
  roleStore : RoleStore
  /-- The last vote of each voter; nil at a node that has not proposed. -/
  votes : Option (List Vote)
  b0 : Option Block
  q0 : Option QuorumCert
  /-- The channel `done` is closed. -/
  done : Bool

/-- Errors of `genesis`. -/
inductive GenesisError where
  | core (reason : CoreError)
  /-- `not accepting votes`. -/
  | notAcceptingVotes
  /-- `no received genesis block yet`. -/
  | noBlock
  /-- `invalid qc ref`. -/
  | invalidQCRef
  deriving DecidableEq

/-- A handler of `genesis`. -/
abbrev GenesisHandler := Program GenesisError GenesisNode

/-- What comes from outside: the primitives, the chain id, the genesis transactions, the time, and the order in
which the map of votes is read. -/
structure GenesisEnv where
  crypto : Crypto
  chainID : Int64
  genesisTxs : List Bytes
  now : Int64
  voteOrder : List Vote → List Vote
  voteOrder_perm : ∀ votes, (voteOrder votes).Perm votes

namespace GenesisNode

/-- A node before it has received anything. -/
def new (signer : Signer) (roleStore : RoleStore) : GenesisNode := ⟨signer, roleStore, none, none, none, false⟩

/-- `genesis.isLeader`. -/
def isLeader (gns : GenesisNode) (pubKey : PublicKey) : Bool :=
  gns.roleStore.isValidator pubKey && gns.roleStore.getValidatorIndex pubKey == 0

end GenesisNode

/-- `hashChainID`. -/
def hashChainID (crypto : Crypto) (chainID : Int64) : Bytes :=
  crypto.sha3 (Bytes.bigEndian 8 chainID.toUInt64.toNat)

/-- The assignment `votes[voter] = vote`. -/
def putVote (votes : List Vote) (vote : Vote) : List Vote :=
  vote :: votes.filter fun other => other.voter.pubKey ≠ vote.voter.pubKey

section

variable (env : GenesisEnv)

/-- Run a check against the role store. -/
def checkRoles (program : Program CoreError RoleStore Unit) : GenesisHandler Unit :=
  Program.zoom GenesisNode.roleStore (fun store gns => { gns with roleStore := store }) GenesisError.core program

/-- `genesis.acceptVote`.  The loop of `broadcastQC` changes no state. -/
def acceptVote (vote : Vote) : GenesisHandler Unit := do
  let gns ← Program.get
  match gns.votes with
  | none => Program.fault (.panic "assignment to entry in nil map")
  | some votes => do
      let votes := putVote votes vote
      Program.modify fun gns => { gns with votes := some votes }
      Program.when (gns.roleStore.validatorCount ≤ votes.length)
        (Program.modify fun gns => { gns with q0 := some (QuorumCert.build gns.signer (env.voteOrder votes)) })

/-- `genesis.onReceiveVote`. -/
def genesisReceiveVote (vote : Vote) : GenesisHandler Unit := do
  let gns ← Program.get
  Program.throwIf (gns.votes = none) .notAcceptingVotes
  checkRoles (vote.validate env.crypto)
  acceptVote env vote

/-- The block that `genesis.propose` signs. -/
def genesisBlock (signer : Signer) : Block :=
  Block.sign env.crypto signer
    { hash := []
      view := 0
      height := 0
      parentHash := hashChainID env.crypto env.chainID
      execHeight := 0
      merkleRoot := []
      timestamp := env.now
      transactions := env.genesisTxs
      quorumCert := none
      signature := none } none

/-- `genesis.propose`. -/
def genesisPropose : GenesisHandler Unit := do
  let gns ← Program.get
  if gns.isLeader gns.signer.pubKey = false then pure ()
  else do
    let blk := genesisBlock env gns.signer
    Program.modify fun gns => { gns with votes := some [], b0 := some blk }
    match gns.roleStore.getValidatorQuota gns.signer.pubKey with
    | none => Program.fault .indexOutOfRange
    -- the error of the own vote is not looked at
    | some quota => Program.discardError (genesisReceiveVote env (blk.vote gns.signer ((quota + 1) / 2)))

/-- `genesis.acceptQC`, without the answer to the leader. -/
def acceptQC (qc : QuorumCert) : GenesisHandler Unit :=
  Program.modify fun gns => if gns.done then gns else { gns with q0 := some qc, done := true }

/-- `genesis.onReceiveQC`. -/
def genesisReceiveQC (crypto : Crypto) (qc : QuorumCert) : GenesisHandler Unit := do
  checkRoles (qc.validate crypto)
  let gns ← Program.get
  match gns.b0 with
  | none => Program.throw .noBlock
  | some b0 => do
      Program.throwIf (b0.hash ≠ qc.blockHash) .invalidQCRef
      acceptQC qc

/-- Any number of received votes. -/
def receiveVotes (received : List Vote) (gns : GenesisNode) : GenesisNode :=
  received.foldl (fun gns vote => (genesisReceiveVote env vote).final gns) gns

/-- A node that proposes the genesis block and then receives votes. -/
def genesisRun (signer : Signer) (roleStore : RoleStore) (received : List Vote) : GenesisNode :=
  receiveVotes env received ((genesisPropose env).final (GenesisNode.new signer roleStore))

end

variable {env : GenesisEnv} {crypto : Crypto} {gns : GenesisNode} {signer : Signer} {roleStore : RoleStore}
  {b0 : Block} {vote : Vote} {votes received : List Vote} {stake : UInt64}

/-! ## Stored votes -/

/-- The last vote of each voter. -/
def lastVotes (received : List Vote) : List Vote := received.foldl putVote []

/-- Votes of different voters. -/
def Distinct (votes : List Vote) : Prop := (votes.map fun vote => vote.voter.pubKey).Nodup

theorem mem_putVote {other : Vote} (mem : other ∈ putVote votes vote) : other = vote ∨ other ∈ votes := by
  rcases List.mem_cons.mp mem with same | old
  · exact .inl same
  · exact .inr (List.mem_filter.mp old).1

theorem distinct_putVote (distinct : Distinct votes) (vote : Vote) : Distinct (putVote votes vote) := by
  refine List.nodup_cons.mpr ⟨?_, distinct.sublist (List.filter_sublist.map _)⟩
  intro mem
  obtain ⟨other, other_mem, same⟩ := List.mem_map.mp mem
  simpa [same] using (List.mem_filter.mp other_mem).2

theorem length_putVote (distinct : Distinct votes) (vote : Vote) : votes.length ≤ (putVote votes vote).length := by
  have one : (votes.filter fun other => other.voter.pubKey = vote.voter.pubKey).length ≤ 1 := by
    have count := List.nodup_iff_count_le_one.mp distinct vote.voter.pubKey
    rwa [List.count_eq_countP, List.countP_map, List.countP_eq_length_filter] at count
  have split := List.length_eq_length_filter_add (l := votes) fun other => other.voter.pubKey = vote.voter.pubKey
  simp only [putVote, List.length_cons, ne_eq, decide_not]
  omega

/-! ## The run of the leader -/

/-- The leader has stored votes for its genesis block, and a certificate once all validators have voted. -/
structure Tallied (env : GenesisEnv) (signer : Signer) (roleStore : RoleStore) (votes : List Vote)
    (gns : GenesisNode) : Prop where
  signer_eq : gns.signer = signer
  roleStore_eq : gns.roleStore = roleStore
  votes_eq : gns.votes = some votes
  q0_eq : gns.q0 = if roleStore.validatorCount ≤ votes.length then
    some (QuorumCert.build signer (env.voteOrder votes)) else none

theorem wp_genesisReceiveVote (distinct : Distinct votes) (valid : vote.Valid env.crypto gns.roleStore)
    (accepting : gns.votes = some votes) (unset : ¬ gns.roleStore.validatorCount ≤ votes.length → gns.q0 = none) :
    wp (genesisReceiveVote env vote) (fun _ => Tallied env gns.signer gns.roleStore (putVote votes vote))
      (fun _ _ => False) gns := by
  rw [genesisReceiveVote, wp_bind, wp_get, wp_bind, wp_throwIf_false]
  refine ⟨by simp [accepting], (wp_bind _ _).mpr (wp_zoom.mpr (wp_mono valid.wp_validate ?_ nofun))⟩
  rintro _ _ rfl
  rw [acceptVote, wp_bind, wp_get]
  simp only [accepting]
  rw [wp_bind, wp_modify, Program.when, wp_ite]
  refine ⟨fun reached => ⟨rfl, rfl, rfl, (if_pos reached).symm⟩, fun short => ⟨rfl, rfl, rfl, ?_⟩⟩
  rw [if_neg short]
  exact unset fun reached => short (reached.trans (length_putVote distinct vote))

theorem Tallied.receiveVotes (tallied : Tallied env signer roleStore votes gns) (distinct : Distinct votes)
    (valid : ∀ vote ∈ received, vote.Valid env.crypto roleStore) :
    Tallied env signer roleStore (received.foldl putVote votes) (receiveVotes env received gns) := by
  induction received generalizing votes gns with
  | nil => exact tallied
  | cons vote received ih =>
      obtain ⟨rfl, rfl, votes_eq, q0_eq⟩ := tallied
      have received_one := wp_genesisReceiveVote distinct (valid vote List.mem_cons_self) votes_eq fun short =>
        q0_eq.trans (if_neg short)
      have stored : Tallied env gns.signer gns.roleStore (putVote votes vote)
          ((genesisReceiveVote env vote).final gns) :=
        final_of_wp (wp_mono received_one (fun _ _ tallied => tallied) fun _ _ never => never.elim)
      exact ih stored (distinct_putVote distinct vote) fun other mem => valid other (List.mem_cons_of_mem _ mem)

/-- The vote of the leader itself. -/
def leaderVote (env : GenesisEnv) (signer : Signer) (stake : UInt64) : Vote :=
  (genesisBlock env signer).vote signer ((stake + 1) / 2)

theorem tallied_propose (correct : signer.Correct env.crypto)
    (leader : (GenesisNode.new signer roleStore).isLeader signer.pubKey = true)
    (stake_eq : roleStore.getValidatorQuota signer.pubKey = some stake) :
    Tallied env signer roleStore [leaderVote env signer stake]
      ((genesisPropose env).final (GenesisNode.new signer roleStore)) := by
  have validator : roleStore.isValidator signer.pubKey = true := (Bool.and_eq_true_iff.mp leader).1
  have own : (leaderVote env signer stake).Valid env.crypto roleStore := valid_vote correct validator _
  let proposed : GenesisNode := ⟨signer, roleStore, some [], some (genesisBlock env signer), none, false⟩
  have stored : wp (genesisReceiveVote env (leaderVote env signer stake))
      (fun _ => Tallied env signer roleStore [leaderVote env signer stake]) (fun _ _ => False) proposed :=
    wp_genesisReceiveVote (show Distinct [] from List.nodup_nil) own rfl fun _ => rfl
  refine final_of_wp ?_
  rw [genesisPropose, wp_bind, wp_get, wp_ite]
  refine ⟨fun other => absurd (leader.symm.trans other) Bool.noConfusion, fun _ => ?_⟩
  rw [wp_bind, wp_modify]
  simp only [GenesisNode.new, stake_eq]
  refine wp_discardError.mpr (wp_mono stored (fun _ _ tallied => tallied) ?_)
  intro _ _ never
  exact never.elim

theorem tallied_genesisRun (correct : signer.Correct env.crypto)
    (leader : (GenesisNode.new signer roleStore).isLeader signer.pubKey = true)
    (stake_eq : roleStore.getValidatorQuota signer.pubKey = some stake)
    (valid : ∀ vote ∈ received, vote.Valid env.crypto roleStore) :
    Tallied env signer roleStore (lastVotes (leaderVote env signer stake :: received))
      (genesisRun env signer roleStore received) :=
  (tallied_propose correct leader stake_eq).receiveVotes (List.nodup_singleton _) valid

theorem distinct_lastVotes (received : List Vote) : Distinct (lastVotes received) := by
  have kept (votes : List Vote) (distinct : Distinct votes) : Distinct (received.foldl putVote votes) := by
    induction received generalizing votes with
    | nil => exact distinct
    | cons vote received ih => exact ih _ (distinct_putVote distinct vote)
  exact kept [] List.nodup_nil

theorem mem_foldl_putVote (mem : vote ∈ received.foldl putVote votes) : vote ∈ votes ∨ vote ∈ received := by
  induction received generalizing votes with
  | nil => exact .inl mem
  | cons first received ih =>
      rcases ih mem with stored | later
      · rcases mem_putVote stored with rfl | old
        · exact .inr List.mem_cons_self
        · exact .inl old
      · exact .inr (List.mem_cons_of_mem _ later)

theorem mem_lastVotes (mem : vote ∈ lastVotes received) : vote ∈ received :=
  (mem_foldl_putVote mem).resolve_left List.not_mem_nil

/-! ## Certificates of the stored votes -/

/-- The certificate is for the genesis block and passes `Validate`, and every node that has the block and is not
done accepts it. -/
structure CertifiesGenesis (crypto : Crypto) (roleStore : RoleStore) (b0 : Block) (q0 : QuorumCert) : Prop where
  blockHash_eq : q0.blockHash = b0.hash
  passes : (q0.validate crypto roleStore).1 = .ok ()
  accepted : ∀ node : GenesisNode, node.b0 = some b0 → node.roleStore = roleStore → node.done = false →
    wp (genesisReceiveQC crypto q0) (fun _ node' => node'.q0 = some q0 ∧ node'.b0 = some b0 ∧ node'.done = true)
      (fun _ _ => False) node

theorem certifiesGenesis_iff {q0 : QuorumCert} : CertifiesGenesis crypto roleStore b0 q0 ↔
      q0.blockHash = b0.hash ∧ (q0.validate crypto roleStore).1 = .ok () := by
  refine ⟨fun certified => ⟨certified.blockHash_eq, certified.passes⟩, fun ⟨hash_eq, passes⟩ => ⟨hash_eq, passes, ?_⟩⟩
  rintro node has_b0 rfl unfinished
  rw [genesisReceiveQC, wp_bind]
  refine wp_zoom.mpr (wp_mono (eq_ok_iff_wp.mp passes) (fun _ store _ => ?_) fun _ _ never => never.elim)
  rw [wp_bind, wp_get]
  simp only [has_b0]
  rw [wp_bind, wp_throwIf_false]
  refine ⟨not_not.mpr hash_eq.symm, ?_⟩
  simp [acceptQC, unfinished]

/-- The stored votes are for the genesis block: those that name a block name this one, and every signature is
valid for it under the view of each of them. -/
structure Agreeing (crypto : Crypto) (b0 : Block) (votes : List Vote) : Prop where
  named : ∃ vote ∈ votes, vote.blockHash ≠ []
  hash_eq : ∀ vote ∈ votes, vote.blockHash ≠ [] → vote.blockHash = b0.hash
  signed : ∀ first ∈ votes, first.blockHash ≠ [] → ∀ vote ∈ votes, vote.voter.verify crypto
    (appendUint64 (appendUint32 b0.hash first.view) vote.quota) = true

theorem certifiesGenesis_build_iff {order : List Vote} (permuted : order.Perm votes) (distinct : Distinct votes)
    (valid : ∀ vote ∈ votes, vote.Valid crypto roleStore) (correct : signer.Correct crypto)
    (validator : roleStore.isValidator signer.pubKey = true)
    (enough : roleStore.majorityValidatorCount ≤ votes.length) :
    CertifiesGenesis crypto roleStore b0 (QuorumCert.build signer order) ↔
      (QuorumCert.buildTarget order).2 = b0.hash ∧ ∀ vote ∈ votes, vote.voter.verify crypto
        (appendUint64 (appendUint32 b0.hash (QuorumCert.buildTarget order).1) vote.quota) = true := by
  have ordered_distinct : Distinct order := (permuted.map _).nodup_iff.mpr distinct
  have validators (vote : Vote) (mem : vote ∈ order) : roleStore.isValidator vote.voter.pubKey = true :=
    (valid vote (permuted.subset mem)).validator
  have majority : (if 0 < roleStore.graceHeight - 1 then roleStore.majorityValidatorCount - 1
      else roleStore.majorityValidatorCount) ≤ (QuorumCert.build signer order).sigs.length := by
    have length_eq : (QuorumCert.build signer order).sigs.length = votes.length :=
      (List.length_map ..).trans permuted.length_eq
    rw [length_eq]
    split
    · exact (Nat.sub_le _ _).trans enough
    · exact enough
  have proposer : ∃ sig, newSignature (QuorumCert.build signer order).data.signature = .ok sig ∧
      roleStore.isValidator sig.pubKey = true ∧ sig.verify crypto (appendUint32
        (QuorumCert.build signer order).data.blockHash (QuorumCert.build signer order).data.view) = true :=
    ⟨_, newSignature_sign signer _, validator, correct _⟩
  have well_signed_iff : (QuorumCert.build signer order).WellSigned crypto roleStore ↔
      ∀ vote ∈ order, SignedQuota crypto (QuorumCert.build signer order).data vote.voter vote.quota := by
    rw [← QuorumCert.checked_votes_iff ordered_distinct validators]
    exact ⟨fun well_signed => well_signed.sigs, fun checked => ⟨checked, proposer⟩⟩
  rw [certifiesGenesis_iff, QuorumCert.validate_eq_ok_iff, and_iff_right majority, well_signed_iff]
  refine and_congr_right fun hash_eq => ?_
  have message_eq (vote : Vote) : SignedQuota crypto (QuorumCert.build signer order).data vote.voter vote.quota ↔
      vote.voter.verify crypto
        (appendUint64 (appendUint32 b0.hash (QuorumCert.buildTarget order).1) vote.quota) = true := by
    rw [← hash_eq]
    rfl
  exact ⟨fun signed vote mem => (message_eq vote).mp (signed vote (permuted.mem_iff.mpr mem)),
    fun signed vote mem => (message_eq vote).mpr (signed vote (permuted.mem_iff.mp mem))⟩

/-- In every order in which the votes may be read the certificate is good exactly if the votes agree. -/
theorem certifiesGenesis_orders_iff (hashed : b0.hash ≠ []) (distinct : Distinct votes)
    (valid : ∀ vote ∈ votes, vote.Valid crypto roleStore) (correct : signer.Correct crypto)
    (validator : roleStore.isValidator signer.pubKey = true)
    (enough : roleStore.majorityValidatorCount ≤ votes.length) :
    (∀ order, order.Perm votes → CertifiesGenesis crypto roleStore b0 (QuorumCert.build signer order)) ↔
      Agreeing crypto b0 votes := by
  constructor
  · intro certified
    have in_order (order : List Vote) (permuted : order.Perm votes) :=
      (certifiesGenesis_build_iff permuted distinct valid correct validator enough).mp (certified order permuted)
    -- a vote that names a block may be read first
    have as_first (first : Vote) (mem : first ∈ votes) (set : first.blockHash ≠ []) :
        first.blockHash = b0.hash ∧ ∀ vote ∈ votes, vote.voter.verify crypto
          (appendUint64 (appendUint32 b0.hash first.view) vote.quota) = true := by
      have target_eq := QuorumCert.buildTarget_cons_of_ne set (votes.erase first)
      have good := in_order (first :: votes.erase first) (List.perm_cons_erase mem).symm
      rwa [target_eq] at good
    refine ⟨?_, fun vote mem set => (as_first vote mem set).1, fun first mem set => (as_first first mem set).2⟩
    have hash_eq := (in_order votes (.refl votes)).1
    obtain ⟨first, mem, set, -⟩ := QuorumCert.exists_of_buildTarget (hash_eq ▸ hashed)
    exact ⟨first, mem, set⟩
  · intro agreeing order permuted
    refine (certifiesGenesis_build_iff permuted distinct valid correct validator enough).mpr ?_
    obtain ⟨named, named_mem, named_set⟩ := agreeing.named
    have target_set := QuorumCert.buildTarget_ne (permuted.mem_iff.mpr named_mem) named_set
    obtain ⟨first, first_mem, first_set, target_eq⟩ := QuorumCert.exists_of_buildTarget target_set
    have mem := permuted.mem_iff.mp first_mem
    rw [target_eq]
    exact ⟨agreeing.hash_eq first mem first_set, agreeing.signed first mem first_set⟩

theorem majority_le_of_all (reached : roleStore.validatorCount ≤ votes.length) (nonempty : votes ≠ []) :
    roleStore.majorityValidatorCount ≤ votes.length := by
  have positive := List.length_pos_of_ne_nil nonempty
  rw [RoleStore.majorityValidatorCount, RoleStore.majorityCount]
  omega

theorem lastVotes_cons_ne_nil (vote : Vote) (received : List Vote) : lastVotes (vote :: received) ≠ [] := by
  have kept (votes : List Vote) (nonempty : votes ≠ []) : received.foldl putVote votes ≠ [] := by
    induction received generalizing votes with
    | nil => exact nonempty
    | cons first received ih => exact ih _ (List.cons_ne_nil _ _)
  exact kept _ (List.cons_ne_nil _ _)

/-! ## The genesis certificate -/

/-- The map of votes may be read in any order. -/
def GenesisEnv.withOrder (env : GenesisEnv) (order : List Vote → List Vote)
    (permuted : ∀ votes, (order votes).Perm votes) : GenesisEnv :=
  { env with voteOrder := order, voteOrder_perm := permuted }

theorem exists_order {order : List Vote} (permuted : order.Perm votes) :
    ∃ read : List Vote → List Vote, (∀ votes, (read votes).Perm votes) ∧ read votes = order := by
  classical
  refine ⟨fun list => if list = votes then order else list, fun list => ?_, if_pos rfl⟩
  by_cases same : list = votes
  · subst same
    simpa using permuted
  · simp [same]

/-- For every leader and every sequence of valid votes, each certificate that `acceptVote` may set, in whichever
order it reads the votes, is one for the genesis block that all nodes with this block accept, exactly if the last
votes of the validators agree, once all have voted. -/
theorem genesis_certificate_iff (correct : signer.Correct env.crypto)
    (leader : (GenesisNode.new signer roleStore).isLeader signer.pubKey = true)
    (stake_eq : roleStore.getValidatorQuota signer.pubKey = some stake)
    (hashed : (genesisBlock env signer).hash ≠ [])
    (valid : ∀ vote ∈ received, vote.Valid env.crypto roleStore) :
    let votes := lastVotes (leaderVote env signer stake :: received)
    (∀ order permuted q0, (genesisRun (env.withOrder order permuted) signer roleStore received).q0 = some q0 →
      CertifiesGenesis env.crypto roleStore (genesisBlock env signer) q0) ↔
    (roleStore.validatorCount ≤ votes.length → Agreeing env.crypto (genesisBlock env signer) votes) := by
  intro votes
  have validator : roleStore.isValidator signer.pubKey = true := (Bool.and_eq_true_iff.mp leader).1
  have q0_eq (order : List Vote → List Vote) (permuted) :
      (genesisRun (env.withOrder order permuted) signer roleStore received).q0 =
        if roleStore.validatorCount ≤ votes.length then some (QuorumCert.build signer (order votes)) else none := by
    have tallied : Tallied (env.withOrder order permuted) signer roleStore votes
        (genesisRun (env.withOrder order permuted) signer roleStore received) :=
      tallied_genesisRun correct leader stake_eq valid
    exact tallied.q0_eq
  have all_valid (vote : Vote) (mem : vote ∈ votes) : vote.Valid env.crypto roleStore := by
    rcases List.mem_cons.mp (mem_lastVotes mem) with rfl | later
    · exact valid_vote correct validator _
    · exact valid vote later
  by_cases reached : roleStore.validatorCount ≤ votes.length
  · have enough := majority_le_of_all reached (lastVotes_cons_ne_nil _ _)
    have orders_iff := certifiesGenesis_orders_iff hashed (distinct_lastVotes _) all_valid correct validator enough
    simp only [q0_eq, if_pos reached, Option.some.injEq, forall_eq']
    rw [imp_iff_right reached, ← orders_iff]
    constructor
    · intro certified order permuted
      obtain ⟨read, read_perm, rfl⟩ := exists_order permuted
      exact certified read read_perm
    · intro certified order permuted
      exact certified _ (permuted votes)
  · simp only [q0_eq, reached, false_implies, iff_true]
    nofun

/-- The genesis of two validators. -/
def twoEnv : GenesisEnv where
  crypto := transparentCrypto
  chainID := 0
  genesisTxs := []
  now := 0
  voteOrder := id
  voteOrder_perm := List.Perm.refl

/-- A vote of the second validator for any block hash. -/
def secondVote (blockHash : Bytes) : Vote :=
  let signature := (transparentSigner 2).sign (appendUint64 (appendUint32 blockHash 0) 1)
  ⟨⟨0, 1, blockHash, some signature.data⟩, signature⟩

theorem secondVote_valid (blockHash : Bytes) : (secondVote blockHash).Valid transparentCrypto twoValidators where
  decoded := rfl
  validator := by
    change twoValidators.isValidator (transparentSigner 2).pubKey = true
    decide +kernel
  signed := beq_self_eq_true _

/-- One validator's vote for another block makes a certificate for that block, which no node accepts. -/
theorem other_block_certified :
    (secondVote [7]).Valid transparentCrypto twoValidators ∧
    ∃ q0, (genesisRun twoEnv (transparentSigner 1) twoValidators [secondVote [7]]).q0 = some q0 ∧
      q0.blockHash = [7] ∧ (genesisBlock twoEnv (transparentSigner 1)).hash ≠ [7] ∧
      (q0.validate transparentCrypto twoValidators).1 = .error (.error .invalidSig) := by
  refine ⟨secondVote_valid [7], _, rfl, ?_, ?_, ?_⟩ <;> decide +kernel

/-- Two votes for the genesis block. -/
theorem genesis_certificate_iff_twoEnv :
    let b0 := genesisBlock twoEnv (transparentSigner 1)
    Agreeing transparentCrypto b0 (lastVotes [leaderVote twoEnv (transparentSigner 1) 1, secondVote b0.hash]) ∧
    ∀ order permuted q0, (genesisRun (twoEnv.withOrder order permuted) (transparentSigner 1) twoValidators
      [secondVote b0.hash]).q0 = some q0 → CertifiesGenesis transparentCrypto twoValidators b0 q0 := by
  intro b0
  have votes_valid : ∀ vote ∈ [secondVote b0.hash], vote.Valid transparentCrypto twoValidators :=
    List.forall_mem_singleton.mpr (secondVote_valid b0.hash)
  have agreeing : Agreeing transparentCrypto b0
      (lastVotes [leaderVote twoEnv (transparentSigner 1) 1, secondVote b0.hash]) := by
    refine ⟨?_, ?_, ?_⟩ <;> decide +kernel
  have correct : (transparentSigner 1).Correct twoEnv.crypto := fun _ => beq_self_eq_true _
  have leader : (GenesisNode.new (transparentSigner 1) twoValidators).isLeader (transparentSigner 1).pubKey = true := by
    decide +kernel
  have hashed : (genesisBlock twoEnv (transparentSigner 1)).hash ≠ [] := by decide +kernel
  exact ⟨agreeing, (genesis_certificate_iff correct leader rfl hashed votes_valid).mpr fun _ => agreeing⟩

end SvpChain.Consensus
