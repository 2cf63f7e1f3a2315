import SvpChain.Consensus.Links

/-!
# Which committed blocks are certified

`updateQCHigh` commits the parent of a certified block with its ancestors.  The catch-up loop of
`syncForwardCommittedBlocks` commits the blocks that a peer gives for the missing heights, and asks
for no certificate of them.  Commits are certified as long as these blocks are.
-/

namespace SvpChain.Consensus

open Core TxPool Relation History

variable {params : Params} {node node' : Node} {b0 blk : Block} {surroundings : Env → Prop}
  {crypto : Crypto} {q0 qc : QuorumCert} {trace trace' : List Event}

/-! ## Certificates of a node -/

/-- A certificate that a node goes by: the one it started with, one that passed `Validate` there, by
itself or with its block, or one that the node built from votes. -/
def Accepted (q0 : QuorumCert) (trace : List Event) (qc : QuorumCert) : Prop :=
  qc = q0 ∨ .receivedQC qc ∈ trace ∨
    (∃ blk, (.validated blk ∈ trace ∨ .received blk ∈ trace) ∧ blk.quorumCert = some qc) ∨
      ∃ tally, .builtQC qc tally ∈ trace

/-- The parent of a block. -/
def IsParent (crypto : Crypto) (child parent : Block) : Prop :=
  Hashed crypto parent ∧ parent.hash = child.parentHash

/-- A block that is certified or is an ancestor of a certified one. -/
def CertifiedHere (crypto : Crypto) (q0 : QuorumCert) (trace : List Event) (blk : Block) : Prop :=
  ∃ qc target, Accepted q0 trace qc ∧ Hashed crypto target ∧ target.hash = qc.blockHash ∧
    ReflTransGen (IsParent crypto) target blk

/-- A committed block is certified. -/
def CommitCertified (crypto : Crypto) (q0 : QuorumCert) (earlier : List Event) : Event → Prop
  | .commit blk => CertifiedHere crypto q0 earlier blk
  | _ => True

/-- A block that a peer gave for a height is certified. -/
def AnswerCertified (crypto : Crypto) (q0 : QuorumCert) (earlier : List Event) : Event → Prop
  | .receivedByHeight blk => CertifiedHere crypto q0 earlier blk
  | _ => True

theorem Accepted.mono (accepted : Accepted q0 trace qc) (grows : trace ⊆ trace') : Accepted q0 trace' qc := by
  rcases accepted with is_first | alone | ⟨blk, taken, cert_eq⟩ | ⟨tally, built⟩
  · exact .inl is_first
  · exact .inr (.inl (grows alone))
  · exact .inr (.inr (.inl ⟨blk, taken.imp (fun mem => grows mem) fun mem => grows mem, cert_eq⟩))
  · exact .inr (.inr (.inr ⟨tally, grows built⟩))

theorem CertifiedHere.mono (certified : CertifiedHere crypto q0 trace blk) (grows : trace ⊆ trace') :
    CertifiedHere crypto q0 trace' blk := by
  obtain ⟨qc, target, accepted, target_of⟩ := certified
  exact ⟨qc, target, accepted.mono grows, target_of⟩

theorem CertifiedHere.below {target : Block} (certified : CertifiedHere crypto q0 trace target)
    (below : ReflTransGen (IsParent crypto) target blk) : CertifiedHere crypto q0 trace blk := by
  obtain ⟨qc, top, accepted, hashed, hash_eq, above⟩ := certified
  exact ⟨qc, top, accepted, hashed, hash_eq, above.trans below⟩

theorem reaches_of_ancestor {seen : Block → Prop} (hashed : ∀ blk, seen blk → Hashed crypto blk)
    {target : Block} (ancestor : Ancestor seen target blk) : ReflTransGen (IsParent crypto) target blk := by
  induction ancestor with
  | self => exact .refl
  | parent _ _ parent_seen hash_eq ih =>
      exact ih.tail ⟨hashed _ parent_seen, hash_eq⟩

/-! ## Steps -/

/-- The certificates that a node has set or proposed with are accepted. -/
structure SetAccepted (q0 : QuorumCert) (node : Node) : Prop where
  high : Accepted q0 node.trace node.status.qcHigh
  set : ∀ qc, HighSet qc node.trace → Accepted q0 node.trace qc
  proposed : ∀ blk qc, .proposed blk ∈ node.trace → blk.quorumCert = some qc →
    Accepted q0 node.trace qc

variable {inbox : Inbox}

theorem SetAccepted.of_circulates (inv : SetAccepted q0 node) (closed : Closed inbox node)
    (root : ∀ blk, inbox.Root blk → blk.quorumCert = none) (circulates : Circulates node qc) :
    Accepted q0 node.trace qc := by
  rcases circulates with alone | ⟨blk, blk_mem, cert_eq⟩
  · exact .inr (.inl alone)
  · rcases closed.blocks blk blk_mem with is_root | received | proposed
    · rw [root blk is_root] at cert_eq
      cases cert_eq
    · exact .inr (.inr (.inl ⟨blk, .inr received, cert_eq⟩))
    · exact inv.proposed blk qc proposed cert_eq

theorem SetAccepted.step (inv : SetAccepted q0 node) (closed : Closed inbox node)
    (root : ∀ blk, inbox.Root blk → blk.quorumCert = none)
    (step : NodeStep params inbox node node') : SetAccepted q0 node' := by
  have grows := step.trace_suffix.subset
  have set : ∀ qc, HighSet qc node'.trace → Accepted q0 node'.trace qc := by
    rintro qc ⟨blk1, roleStore, window, set_mem⟩
    rcases step.event set_mem with old | ⟨circulates | ⟨-, tally, built⟩, -⟩
    · exact (inv.set qc ⟨_, _, _, old⟩).mono grows
    · exact (inv.of_circulates closed root circulates).mono grows
    · exact .inr (.inr (.inr ⟨tally, grows built⟩))
  refine ⟨?_, set, ?_⟩
  · rcases step.high_cases with ⟨same, -⟩ | ⟨blk1, sets⟩
    · rw [same]
      exact inv.high.mono grows
    · exact set _ ⟨_, _, _, sets.recorded ▸ List.mem_cons_self⟩
  · intro blk qc proposed cert_eq
    rcases step.event proposed with old | ⟨-, _, -, proposal⟩
    · exact (inv.proposed blk qc old cert_eq).mono grows
    · obtain rfl := Option.some.inj (proposal.quorumCert_eq.symm.trans cert_eq)
      exact inv.high.mono grows

theorem SetAccepted.certified (inv : SetAccepted q0 node) (closed : Closed inbox node)
    (hashed : ∀ blk, Seen inbox node blk → Hashed crypto blk)
    (answers : Throughout (AnswerCertified crypto q0) node.trace) {target : Block}
    (reason : CommitReason inbox node target) (ancestor : Ancestor (Seen inbox node) target blk) :
    CertifiedHere crypto q0 node.trace blk := by
  have below := reaches_of_ancestor hashed ancestor
  rcases reason with ⟨set, leaf_eq, hash_eq, -⟩ | ⟨-, given⟩
  · exact ⟨_, node.status.bLeaf, inv.set _ set, hashed _ closed.leaf, leaf_eq,
      below.head ⟨hashed _ ancestor.target_seen, hash_eq⟩⟩
  · obtain ⟨earlier, part, certified⟩ := answers.of_mem given
    have grows : earlier ⊆ node.trace := fun _ mem => part.subset (List.mem_cons_of_mem _ mem)
    exact (CertifiedHere.mono certified grows).below below

theorem SetAccepted.steps (inv : SetAccepted q0 node) (closed : Closed inbox node)
    (root : ∀ blk, inbox.Root blk → blk.quorumCert = none)
    (steps : Steps params inbox node node') : SetAccepted q0 node' := by
  induction steps with
  | refl => exact inv
  | tail before step ih => exact ih.step (closed.steps before) root step

theorem commitsCertified_of_steps (inv : SetAccepted q0 node)
    (closed : Closed (linkInbox params.crypto surroundings b0) node) (fresh : node.trace = [])
    (genesis_hashed : Hashed params.crypto b0) (genesis_cert : b0.quorumCert = none)
    (steps : Steps params (linkInbox params.crypto surroundings b0) node node')
    (answers : Throughout (AnswerCertified params.crypto q0) node'.trace) :
    Throughout (CommitCertified params.crypto q0) node'.trace := by
  have root : ∀ blk, (linkInbox params.crypto surroundings b0).Root blk → blk.quorumCert = none := by
    rintro _ rfl
    exact genesis_cert
  induction steps with
  | refl =>
      rw [fresh]
      exact throughout_nil
  | @tail node' _ before step ih =>
      have answers_before := answers.of_suffix step.trace_suffix
      have proposed := Steps.hashed_of_proposed before fun _ mem =>
        absurd (fresh ▸ mem) List.not_mem_nil
      have closed' := closed.steps before
      have hashed : ∀ blk, Seen (linkInbox params.crypto surroundings b0) node' blk →
          Hashed params.crypto blk := by
        rintro blk (rfl | received | own)
        · exact genesis_hashed
        · exact closed'.received blk received
        · exact proposed blk own
      refine step.throughout (ih answers_before) fun event cause => ?_
      cases event with
      | commit blk =>
          obtain ⟨target, reason, ancestor, -⟩ := cause
          exact (inv.steps closed root before).certified closed' hashed answers_before reason ancestor
      | _ => trivial

theorem setAccepted_setupNode {signer : Signer} {roleStore : RoleStore} {txs : List Bytes}
    {merkleRoot : Bytes} {pool : TxStore} : SetAccepted q0
      (setupNode params signer roleStore (genesisStore b0 q0 txs merkleRoot) pool b0 b0 q0) where
  high := .inl rfl
  set := by
    rintro qc ⟨_, _, _, mem⟩
    exact absurd mem List.not_mem_nil
  proposed _ _ mem := absurd mem List.not_mem_nil

/-! ## Runs -/

theorem NodeRun.accepted {signer : Signer} {roleStore : RoleStore} {start : Node}
    (started : Started params signer roleStore b0 start)
    (run : NodeRun params surroundings start node) (set : HighSet qc node.trace) :
    Accepted start.status.qcHigh node.trace qc := by
  obtain ⟨q0, txs, merkleRoot, pool, genesis, steps, rfl⟩ := run.link_steps started
  refine (setAccepted_setupNode.steps (closed_setupNode rfl genesis) ?_ steps).set qc set
  rintro _ rfl
  exact genesis.quorumCert_eq

/-- Surroundings in which peers answer all requests for blocks with one block. -/
def answeringEnv (blk : Block) : Env :=
  { silentEnv with
    requestBlock := fun _ _ _ => some blk
    requestBlockByHeight := fun _ _ _ => some blk }

/-- A child of the genesis block with the certificate of that block. -/
def firstChild : Block := childBlock 1 (transparentBlock []) 0 1 0 []

/-- A proposal with the certificate of the genesis block, under an unknown parent, of a proposer who
has executed two blocks. -/
def strandedBlock : Block :=
  let qc := bothVotes (transparentBlock [])
  Block.sign transparentCrypto (transparentSigner 1)
    { hash := [], view := 0, height := 3, parentHash := [9], execHeight := 2, merkleRoot := []
      timestamp := 0, transactions := [], quorumCert := some qc.data, signature := none } (some qc)

/-- The second validator, after the proposal and the answers to its requests. -/
def caughtUpNode : Node :=
  secondValidator.receive transparentParams (answeringEnv firstChild) (.proposal strandedBlock)

theorem caughtUpNode_run : NodeRun transparentParams anyEnv secondValidator caughtUpNode :=
  .step .start rfl trivial _

theorem length_lt_of_isParent {child parent : Block} (hashed : Hashed transparentCrypto child)
    (is_parent : IsParent transparentCrypto child parent) : parent.hash.length < child.hash.length := by
  have preimage_eq : child.data.preimage = child.hash := hashed
  have parentHash_eq : child.data.parentHash = parent.hash := is_parent.2.symm
  rw [← preimage_eq, PbBlock.preimage, parentHash_eq]
  simp only [List.length_append, Bytes.bigEndian_length]
  omega

theorem length_le_of_reaches {target blk : Block} (hashed : Hashed transparentCrypto target)
    (reaches : ReflTransGen (IsParent transparentCrypto) target blk) :
    Hashed transparentCrypto blk ∧ blk.hash.length ≤ target.hash.length := by
  induction reaches with
  | refl => exact ⟨hashed, le_rfl⟩
  | tail _ is_parent ih =>
      exact ⟨is_parent.1, (length_lt_of_isParent ih.1 is_parent).le.trans ih.2⟩

/-- The certificate that a call accepts. -/
def Event.cert? : Event → Option QuorumCert
  | .receivedQC qc | .builtQC qc _ => some qc
  | .validated blk | .received blk => blk.quorumCert
  | _ => none

theorem eq_of_accepted (only : ∀ event ∈ trace, event.cert? = none ∨ event.cert? = some q0)
    (accepted : Accepted q0 trace qc) : qc = q0 := by
  have of_mem {event : Event} (mem : event ∈ trace) (cert_eq : event.cert? = some qc) : qc = q0 := by
    rcases only event mem with none_eq | some_eq
    · exact absurd (none_eq.symm.trans cert_eq) (by simp)
    · exact Option.some.inj (cert_eq.symm.trans some_eq)
  rcases accepted with is_first | alone | ⟨blk, validated | received, cert_eq⟩ | ⟨tally, built⟩
  · exact is_first
  · exact of_mem alone rfl
  · exact of_mem validated cert_eq
  · exact of_mem received cert_eq
  · exact of_mem built rfl

/-- The call returned a block for a height. -/
def Event.isAnswer : Event → Bool
  | .receivedByHeight _ => true
  | _ => false

end SvpChain.Consensus
