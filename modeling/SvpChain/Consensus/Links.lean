import SvpChain.Consensus.Leader

/-!
# How voted and committed blocks are linked

`onReceiveProposal` compares neither the height of a proposal with that of a cached parent nor its
certificate with its parent.  When the blocks that come in keep to both, every voted block hangs
under a known parent that it certifies, and every committed block is certified by a known child.
-/

namespace SvpChain.Consensus

open Core TxPool

variable {params : Params} {inbox : Inbox} {node node' : Node} {b0 : Block}
  {surroundings : Env → Prop}

/-! ## Links -/

/-- The blocks a node has received or proposed. -/
def takenBlocks (trace : List Event) : List Block :=
  trace.filterMap fun event =>
    match event with
    | .received blk | .proposed blk => some blk
    | _ => none

/-- A block that is one above its parent and certifies it; the parent of the genesis block is no
block. -/
def Linked (crypto : Crypto) (b0 blk : Block) : Prop :=
  (∃ qc, blk.quorumCert = some qc ∧ qc.blockHash = blk.parentHash) ∧
    (∀ parent, Hashed crypto parent → parent.hash = blk.parentHash →
      blk.height = parent.height + 1) ∧ blk.hash ≠ b0.parentHash

/-- A peer may have answered with the block to a request by height. -/
def AnsweredByHeight (surroundings : Env → Prop) (blk : Block) : Prop :=
  ∃ env number peer height, surroundings env ∧ env.requestBlockByHeight number peer height = some blk

/-- What holds of a vote or a commit, given the calls before it. -/
def FollowsLinks (surroundings : Env → Prop) (b0 : Block) (earlier : List Event) : Event → Prop
  | .sendVote blk _ => ∃ parent, (parent = b0 ∨ parent ∈ takenBlocks earlier) ∧
      parent.hash = blk.parentHash ∧ blk.height = parent.height + 1 ∧
        ∃ qc, blk.quorumCert = some qc ∧ qc.blockHash = blk.parentHash
  | .commit blk => AnsweredByHeight surroundings blk ∨ ∃ child ∈ takenBlocks earlier, ∃ qc,
      child.quorumCert = some qc ∧ qc.blockHash = blk.hash
  | _ => True

/-- Every vote and every commit of a record keeps to the links. -/
def LinkRules (surroundings : Env → Prop) (b0 : Block) : List Event → Prop
  | [] => True
  | event :: earlier =>
      FollowsLinks surroundings b0 earlier event ∧ LinkRules surroundings b0 earlier

/-- What reaches a node after a genesis block. -/
def linkInbox (crypto : Crypto) (surroundings : Env → Prop) (b0 : Block) : Inbox :=
  { openInbox with
    Root := fun blk => blk = b0
    Block := Hashed crypto
    Height := AnsweredByHeight surroundings }

theorem mem_takenBlocks {trace : List Event} {blk : Block} :
    blk ∈ takenBlocks trace ↔ .received blk ∈ trace ∨ .proposed blk ∈ trace := by
  constructor
  · intro mem
    obtain ⟨event, event_mem, taken⟩ := List.mem_filterMap.mp mem
    cases event with
    | received other => exact Or.inl (Option.some.inj taken ▸ event_mem)
    | proposed other => exact Or.inr (Option.some.inj taken ▸ event_mem)
    | _ => cases taken
  · rintro (received | proposed)
    · exact List.mem_filterMap.mpr ⟨_, received, rfl⟩
    · exact List.mem_filterMap.mpr ⟨_, proposed, rfl⟩

theorem genesis_or_taken {crypto : Crypto} {blk : Block} (seen : Seen (linkInbox crypto surroundings b0) node blk) :
    blk = b0 ∨ blk ∈ takenBlocks node.trace :=
  seen.imp_right mem_takenBlocks.mpr

/-! ## Steps -/

/-- The blocks that a node holds are hashed and linked. -/
structure TakenLinked (crypto : Crypto) (surroundings : Env → Prop) (b0 : Block) (node : Node) :
    Prop where
  closed : Closed (linkInbox crypto surroundings b0) node
  hashed : ∀ blk, .proposed blk ∈ node.trace → Hashed crypto blk
  linked : ∀ blk ∈ takenBlocks node.trace, Linked crypto b0 blk

variable {crypto : Crypto}

theorem TakenLinked.hashed_of_seen (taken : TakenLinked crypto surroundings b0 node)
    (genesis_hashed : Hashed crypto b0) {blk : Block}
    (seen : Seen (linkInbox crypto surroundings b0) node blk) : Hashed crypto blk := by
  rcases seen with rfl | received | proposed
  · exact genesis_hashed
  · exact taken.closed.received blk received
  · exact taken.hashed blk proposed

theorem VoteGuard.exists_ref {blk : Block} {qc : QuorumCert} (closed : Closed inbox node)
    (guard : VoteGuard inbox node blk qc) : ∃ ref, Seen inbox node ref ∧ ref.hash = qc.blockHash := by
  rcases guard.level with rfl | ⟨-, absurd_order⟩ | ⟨-, absurd_order⟩ | ⟨-, ref, _, found, -⟩
  · exact closed.high
  · cases absurd_order
  · cases absurd_order
  · obtain ⟨mem, hash_eq⟩ := mem_of_findBlock found
    exact ⟨ref, closed.blocks ref mem, hash_eq⟩

theorem TakenLinked.follows_vote (taken : TakenLinked crypto surroundings b0 node)
    (genesis_hashed : Hashed crypto b0) (genesis_cert : b0.quorumCert = none) {blk : Block}
    {qc : QuorumCert} (guard : VoteGuard (linkInbox crypto surroundings b0) node blk qc) (vote : Vote) :
    FollowsLinks surroundings b0 node.trace (.sendVote blk vote) := by
  have cert_eq := guard.cert_eq
  rcases genesis_or_taken guard.seen with rfl | blk_taken
  · rw [genesis_cert] at cert_eq
    cases cert_eq
  obtain ⟨⟨target, is_target, certifies⟩, one_above, -⟩ := taken.linked blk blk_taken
  obtain rfl : target = qc := Option.some.inj (is_target.symm.trans cert_eq)
  obtain ⟨ref, ref_seen, ref_hash⟩ := guard.exists_ref taken.closed
  have hash_eq := ref_hash.trans certifies
  exact ⟨ref, genesis_or_taken ref_seen, hash_eq,
    one_above ref (taken.hashed_of_seen genesis_hashed ref_seen) hash_eq, target, cert_eq, certifies⟩

theorem TakenLinked.certifies (taken : TakenLinked crypto surroundings b0 node) {child blk : Block}
    (child_taken : child ∈ takenBlocks node.trace) (hash_eq : blk.hash = child.parentHash) :
    ∃ child ∈ takenBlocks node.trace, ∃ qc, child.quorumCert = some qc ∧ qc.blockHash = blk.hash := by
  obtain ⟨⟨qc, is_qc, certifies⟩, -⟩ := taken.linked child child_taken
  exact ⟨child, child_taken, qc, is_qc, certifies.trans hash_eq.symm⟩

theorem TakenLinked.follows_commit (taken : TakenLinked crypto surroundings b0 node)
    (genesis_height : b0.height = 0) {target blk : Block}
    (reason : CommitReason (linkInbox crypto surroundings b0) node target)
    (ancestor : Ancestor (Seen (linkInbox crypto surroundings b0) node) target blk)
    (higher : node.status.bExec.height < blk.height) : FollowsLinks surroundings b0 node.trace (.commit blk) := by
  have not_genesis : blk ≠ b0 := by
    rintro rfl
    rw [genesis_height] at higher
    exact UInt64.not_lt_zero higher
  cases ancestor with
  | self target_seen =>
      rcases reason with ⟨-, -, hash_eq, -⟩ | answered
      · rcases genesis_or_taken taken.closed.leaf with is_genesis | leaf_taken
        · -- nothing taken has the hash that the genesis block names as its parent
          rcases genesis_or_taken target_seen with same | blk_taken
          · exact absurd same not_genesis
          · exact absurd (is_genesis ▸ hash_eq) (taken.linked _ blk_taken).2.2
        · exact Or.inr (taken.certifies leaf_taken hash_eq)
      · exact Or.inl answered.1
  | parent below above parent_seen hash_eq =>
      rcases genesis_or_taken below.seen with rfl | child_taken
      · exact absurd genesis_height above
      · exact Or.inr (taken.certifies child_taken hash_eq)

theorem LinkRules.step (taken : TakenLinked params.crypto surroundings b0 node)
    (genesis_hashed : Hashed params.crypto b0) (genesis_cert : b0.quorumCert = none)
    (genesis_height : b0.height = 0) (rules : LinkRules surroundings b0 node.trace)
    (step : NodeStep params (linkInbox params.crypto surroundings b0) node node') :
    LinkRules surroundings b0 node'.trace := by
  rcases step.records with same | ⟨event, trace_eq, cause⟩
  · rw [same]
    exact rules
  · rw [trace_eq]
    refine ⟨?_, rules⟩
    cases event with
    | sendVote blk vote =>
        obtain ⟨qc, quota, guard, -⟩ := cause
        exact taken.follows_vote genesis_hashed genesis_cert guard vote
    | commit blk =>
        obtain ⟨target, reason, ancestor, higher⟩ := cause
        exact taken.follows_commit genesis_height reason ancestor higher
    | _ => trivial

theorem LinkRules.steps {q0 : QuorumCert} {roleStore : RoleStore} (genesis : Genesis params roleStore b0 q0)
    (closed : Closed (linkInbox params.crypto surroundings b0) node) (fresh : node.trace = [])
    (steps : Steps params (linkInbox params.crypto surroundings b0) node node')
    (linked : ∀ blk ∈ takenBlocks node'.trace, Linked params.crypto b0 blk) :
    LinkRules surroundings b0 node'.trace := by
  induction steps with
  | refl =>
      rw [fresh]
      trivial
  | tail before step ih =>
      have linked_before := fun blk (mem : blk ∈ takenBlocks _) =>
        linked blk ((step.trace_suffix.sublist.filterMap _).subset mem)
      have hashed := Steps.hashed_of_proposed before fun _ mem => absurd (fresh ▸ mem) List.not_mem_nil
      exact (ih linked_before).step ⟨closed.steps before, hashed, linked_before⟩ genesis.sum_eq
        genesis.quorumCert_eq genesis.height_eq step

/-! ## Runs -/

/-- A run after the genesis block, as steps from the node that holds the genesis block alone. -/
theorem NodeRun.link_steps {signer : Signer} {roleStore : RoleStore} {start : Node}
    (started : Started params signer roleStore b0 start) (run : NodeRun params surroundings start node) :
    ∃ q0 txs merkleRoot pool, Genesis params roleStore b0 q0 ∧ Steps params (linkInbox params.crypto surroundings b0)
        (setupNode params signer roleStore (genesisStore b0 q0 txs merkleRoot) pool b0 b0 q0) node ∧
      start.status.qcHigh = q0 := by
  obtain ⟨q0, txs, merkleRoot, pool, genesis, setup_steps, high_eq⟩ :=
    started.steps (linkInbox params.crypto surroundings b0)
  have closed : Closed (linkInbox params.crypto surroundings b0) start :=
    (closed_setupNode rfl genesis).steps setup_steps
  refine ⟨q0, txs, merkleRoot, pool, genesis, setup_steps.trans ?_, high_eq⟩
  refine run.steps closed (fun env surrounds => ?_) allowed_hashedInbox
  exact ⟨fun _ _ _ _ _ passed => hashed_of_passed passed,
    fun number peer height blk answer passed =>
      ⟨hashed_of_passed passed, env, number, peer, height, surrounds, answer⟩,
    fun _ _ _ _ => trivial⟩

/-- The second validator, after a proposal of height 5 under the genesis block. -/
def unlinkedNode : Node :=
  secondValidator.receiveAll transparentParams silentEnv
    [.proposal (childBlock 1 (transparentBlock []) 0 5 0 [])]

theorem equivocatedNode_linked : ∀ blk ∈ takenBlocks equivocatedNode.trace,
    Linked transparentParams.crypto (transparentBlock []) blk := by
  have one_height : OneHeight (Hashed transparentParams.crypto) :=
    oneHeight_hashed Function.injective_id
  have linked : ∀ timestamp, (childBlock 1 (transparentBlock []) 0 1 timestamp []).hash ≠
      (transparentBlock []).parentHash →
      Linked transparentParams.crypto (transparentBlock [])
        (childBlock 1 (transparentBlock []) 0 1 timestamp []) := by
    refine fun timestamp different => ⟨⟨_, rfl, rfl⟩, fun parent hashed hash_eq => ?_, different⟩
    rw [one_height parent (transparentBlock []) hashed rfl hash_eq]
    rfl
  have taken_eq : takenBlocks equivocatedNode.trace =
      [childBlock 1 (transparentBlock []) 0 1 1 [], childBlock 1 (transparentBlock []) 0 1 0 []] := by
    decide +kernel
  rw [taken_eq]
  intro blk mem
  rcases List.mem_cons.mp mem with rfl | mem
  · exact linked 1 (by decide)
  · exact List.mem_singleton.mp mem ▸ linked 0 (by decide)

end SvpChain.Consensus
