import SvpChain.Consensus.Handlers
import SvpChain.Lib.History

/-!
# The steps of a node

Every handler moves a node by the steps of `NodeStep`, each with the checks that the code has made
before it.  Invariants are proved over these steps and never look into a handler again.
-/

namespace SvpChain.Consensus

open Core TxPool Relation History

/-! ## What a step may rely on -/

/-- What may reach a node from outside. -/
structure Inbox where
  /-- Blocks held at the start. -/
  Root : Core.Block → Prop
  /-- Blocks received or answered to a request. -/
  Block : Core.Block → Prop
  /-- Blocks answered to a request by height. -/
  Height : Core.Block → Prop
  Vote : Vote → Prop
  QC : QuorumCert → Prop
  /-- Changes of the role store by an execution. -/
  Roles : RoleStore → RoleStore → Prop
  /-- The leaf and the high certificate with which a token is used. -/
  Leaf : Core.Block → QuorumCert → Prop

/-- A block held at the start, from outside, or of the node itself. -/
def Seen (inbox : Inbox) (node : Node) (blk : Block) : Prop :=
  inbox.Root blk ∨ .received blk ∈ node.trace ∨ .proposed blk ∈ node.trace

/-- Blocks of the storage were put into memory, and nothing else happened. -/
def Loads (node node' : Node) : Prop :=
  ∃ blocks, node' = { node with state := { node.state with blocks := blocks } } ∧
    (∀ hash blk, findBlock node.state.blocks hash = some blk → findBlock blocks hash = some blk) ∧
      ∀ blk ∈ blocks, blk ∈ node.state.blocks ∨ blk ∈ node.storage.blocks

/-- The result of `cmpQCPriority` on blocks in memory. -/
def QCOrder (node : Node) (qc1 qc2 : QuorumCert) (order : Ordering) : Prop :=
  (qc2.view < qc1.view ∧ order = .gt) ∨ (qc1.view < qc2.view ∧ order = .lt) ∨
    (qc1.view = qc2.view ∧ ∃ blk1 blk2, findBlock node.state.blocks qc1.blockHash = some blk1 ∧
      findBlock node.state.blocks qc2.blockHash = some blk2 ∧
        order = compare blk1.height blk2.height)

/-- A certificate that came by itself or with a block in memory. -/
def Circulates (node : Node) (qc : QuorumCert) : Prop :=
  .receivedQC qc ∈ node.trace ∨ ∃ blk ∈ node.state.blocks, blk.quorumCert = some qc

/-- The certificate was set as the highest one. -/
def HighSet (qc : QuorumCert) (trace : List Event) : Prop :=
  ∃ blk1 roleStore window, .setQCHigh qc blk1 roleStore window ∈ trace

/-- Why a block is committed with its ancestors: the high certificate, which the node has set, is for
a child of the same view, or a peer gave the block as the one of a height. -/
def CommitReason (inbox : Inbox) (node : Node) (target : Block) : Prop :=
  (HighSet node.status.qcHigh node.trace ∧
    node.status.bLeaf.hash = node.status.qcHigh.blockHash ∧
    target.hash = node.status.bLeaf.parentHash ∧ target.view = node.status.bLeaf.view) ∨
      (inbox.Height target ∧ .receivedByHeight target ∈ node.trace)

/-- Blocks reached from a block along the parent hashes of blocks above the genesis block. -/
inductive Ancestor (seen : Block → Prop) (target : Block) : Block → Prop where
  | self (target_seen : seen target) : Ancestor seen target target
  | parent {blk parent : Block} (below : Ancestor seen target blk) (above : blk.height ≠ 0)
      (parent_seen : seen parent) (hash_eq : parent.hash = blk.parentHash) :
      Ancestor seen target parent

/-- The block that a node makes under a parent. -/
structure Proposal (params : Params) (node : Node) (parent blk : Block) : Prop where
  view_eq : blk.view = node.status.view
  parentHash_eq : blk.parentHash = parent.hash
  height_eq : blk.height = parent.height + 1
  quorumCert_eq : blk.quorumCert = some node.status.qcHigh
  proposer_eq : blk.proposer = node.signer.pubKey
  sum_eq : blk.data.sum params.crypto = blk.hash

/-! ## The steps -/

/-- Steps that fetch, store and commit blocks, and leave votes and views alone. -/
inductive ChainStep (params : Params) (inbox : Inbox) (node : Node) : Node → Prop where
  /-- Changes that no other step looks at. -/
  | aside (txPool : TxStore) (requests proposeCh : ℕ) :
      ChainStep params inbox node { node with
        txPool := txPool, requests := requests, proposeCh := proposeCh }
  | grace (graceHeight : ℕ) :
      ChainStep params inbox node { node with
        roleStore := { node.roleStore with graceHeight := graceHeight } }
  | load {node' : Node} (loads : Loads node node') : ChainStep params inbox node node'
  | receive {blk : Block} (received : inbox.Block blk) :
      ChainStep params inbox node (node.acceptBlock blk)
  | answer {blk : Block} (by_height : inbox.Height blk) :
      ChainStep params inbox node (node.record (.receivedByHeight blk))
  /-- The window changes, and its accumulator with it. -/
  | window {window : Window} (summed : node.status.window.Summed → window.Summed) :
      ChainStep params inbox node (node.setStatus { node.status with window := window })
  | storeQC : ChainStep params inbox node (node.storeQC node.status.qcHigh)
  | storeBlock : ChainStep params inbox node (node.storeBlock node.status.bLeaf)
  | commit {target blk : Block} (reason : CommitReason inbox node target)
      (ancestor : Ancestor (Seen inbox node) target blk)
      (higher : node.status.bExec.height < blk.height) :
      ChainStep params inbox node (node.record (.commit blk))
  /-- `Execute` and `Storage.Commit`. -/
  | execute {blk : Block} {txs : List Transaction} (roleStore : RoleStore) (merkleRoot : Bytes)
      (committed : .commit blk ∈ node.trace) (seen : Seen inbox node blk)
      (txs_eq : txs.map Transaction.hash =
        blk.transactions.filter fun hash => !node.storage.hasTx hash)
      (roles : inbox.Roles node.roleStore roleStore) :
      ChainStep params inbox node { node.record (.execute blk txs) with
        roleStore := roleStore
        storage := node.storage.commit blk txs merkleRoot }
  /-- `MockExecute` and `Storage.Commit`. -/
  | mockExecute {blk : Block} (mock : params.config.executeTxFlag = false)
      (committed : .commit blk ∈ node.trace) (seen : Seen inbox node blk) :
      ChainStep params inbox node (mockExecuteAndStore blk node)
  | clean {state : State} (txPool : TxStore) (blocks_subset : state.blocks ⊆ node.state.blocks)
      (qcs_subset : state.qcs ⊆ node.state.qcs) :
      ChainStep params inbox node { node with state := state, txPool := txPool }
  | setBExec {blk : Block}
      (committed : .commit blk ∈ node.trace ∨ node.status.bExec.hash = blk.hash) :
      ChainStep params inbox node (node.setStatus { node.status with bExec := blk })
  /-- A fault ends the process. -/
  | stop : ChainStep params inbox node { node with alive := false }

/-- The parents under which a node proposes: its leaf, or the block of its high certificate. -/
def ProposalParent (inbox : Inbox) (node : Node) (parent : Block) : Prop :=
  (node.status.viewChange = .success ∧ inbox.Leaf node.status.bLeaf node.status.qcHigh ∧
    parent = node.status.bLeaf) ∨
      (parent ∈ node.state.blocks ∧ parent.hash = node.status.qcHigh.blockHash)

/-- The checks before a vote. -/
structure VoteGuard (inbox : Inbox) (node : Node) (blk : Block) (qc : QuorumCert) : Prop where
  seen : Seen inbox node blk
  view_eq : node.status.view = blk.view
  leader : isLeader node blk.proposer = true
  cert_eq : blk.quorumCert = some qc
  level : qc = node.status.qcHigh ∨ QCOrder node qc node.status.qcHigh .eq

/-- A certificate built from enough votes for the proposal in progress. -/
def Built (node : Node) (qc : QuorumCert) : Prop :=
  ∃ proposal votes, node.status.proposal = some proposal ∧
    node.roleStore.majorityValidatorCount ≤ node.status.votes.length ∧
      votes.Perm node.status.votes ∧ qc = QuorumCert.build node.signer votes

/-- The certificate of a known block is higher than the high certificate. -/
structure Higher (node : Node) (qc : QuorumCert) (blk1 : Block) : Prop where
  found : findBlock node.state.blocks qc.blockHash = some blk1
  order : QCOrder node qc node.status.qcHigh .gt

/-- One step of a node. -/
inductive NodeStep (params : Params) (inbox : Inbox) (node : Node) : Node → Prop where
  | chain {node' : Node} (step : ChainStep params inbox node node') : NodeStep params inbox node node'
  | approve {blk : Block} (present : blk ∈ node.state.blocks)
      (approval : isNewViewApproval node.status blk.view (node.proposerIndex blk) = true) :
      NodeStep params inbox node (approveViewLeader params blk.view (node.proposerIndex blk) node)
  /-- A certificate made elsewhere becomes the highest one. -/
  | adopt {qc : QuorumCert} {blk1 : Block} (circulates : Circulates node qc)
      (higher : Higher node qc blk1) : NodeStep params inbox node (setHigh qc blk1 node)
  /-- The votes for the proposal in progress become the highest certificate. -/
  | certify {qc : QuorumCert} {tally : Tally} {blk1 : Block} {earlier : List Event}
      (built : Built node qc) (recorded : node.trace = .builtQC qc tally :: earlier)
      (higher : Higher node qc blk1) :
      NodeStep params inbox node (setHigh qc blk1 (node.setStatus node.status.endProposal))
  | build {qc : QuorumCert} (built : Built node qc) (enough : isVoteEnough params node = .ok true) :
      NodeStep params inbox node (node.record
        (.builtQC qc ⟨node.status.votes, node.roleStore, node.status.window⟩))
  | endProposal : NodeStep params inbox node (node.setStatus node.status.endProposal)
  | propose {parent blk : Block} (leader : isLeader node node.signer.pubKey = true)
      (is_parent : ProposalParent inbox node parent) (proposal : Proposal params node parent blk) :
      NodeStep params inbox node (startProposal blk node)
  | broadcast {blk : Block} (proposed : .proposed blk ∈ node.trace) :
      NodeStep params inbox node (node.record (.broadcastProposal blk))
  | addVote {vote : Vote} {status : Status} (added : node.status.addVote vote = .ok status)
      (source : inbox.Vote vote ∨ ∃ blk quota, .proposed blk ∈ node.trace ∧
        vote = blk.vote node.signer quota) :
      NodeStep params inbox node (node.setStatus status)
  | sendVote {blk : Block} {qc : QuorumCert} (quota : UInt64) (guard : VoteGuard inbox node blk qc) :
      NodeStep params inbox node (sendVote params blk quota node)
  | rememberView (timeoutCount : ℕ) :
      NodeStep params inbox node { node with
        rotator := { node.rotator with timeoutCount := timeoutCount, oldView := node.status.view } }
  | beginViewChange (nextIdx : UInt32) :
      NodeStep params inbox node (beginViewChange nextIdx node)
  | countQC (sender : PublicKey) (change : UInt32) :
      NodeStep params inbox node (countQC sender change node)
  | newView (enough : node.roleStore.majorityValidatorCount ≤ node.rotator.highQCCount)
      (leader : isLeader node node.signer.pubKey = true) :
      NodeStep params inbox node (node.record (.newView node.status.view node.roleStore))
  | validate {blk : Block} (received : inbox.Block blk) :
      NodeStep params inbox node (node.record (.validated blk))
  | receiveQC {qc : QuorumCert} (received : inbox.QC qc) :
      NodeStep params inbox node (node.record (.receivedQC qc))
  | sendQC (peer : PublicKey) :
      NodeStep params inbox node (node.record (.sendQC peer node.status.qcHigh))
  | failViewChange :
      NodeStep params inbox node (node.setStatus { node.status with viewChange := .failed })
  | enterNextView {nextIdx : UInt32} (ongoing : node.status.viewChange = .ongoing)
      (same_view : node.rotator.oldView = node.status.view)
      (next_eq : nextLeaderIndex node.roleStore node.rotator.oldView = .ok nextIdx) :
      NodeStep params inbox node (setNextView nextIdx node)

/-- Any number of steps. -/
abbrev Steps (params : Params) (inbox : Inbox) : Node → Node → Prop :=
  ReflTransGen (NodeStep params inbox)

/-- Every block a node holds was seen by it. -/
structure Closed (inbox : Inbox) (node : Node) : Prop where
  received : ∀ blk, .received blk ∈ node.trace → inbox.Block blk
  blocks : ∀ blk ∈ node.state.blocks, Seen inbox node blk
  stored : ∀ blk ∈ node.storage.blocks, Seen inbox node blk
  leaf : Seen inbox node node.status.bLeaf
  high : ∃ blk, Seen inbox node blk ∧ blk.hash = node.status.qcHigh.blockHash

variable {params : Params} {inbox : Inbox} {node node' : Node}

/-! ## Lists of blocks -/

variable {blocks : List Block} {blk target : Block}

theorem mem_of_findBlock {hash : Bytes} (found : findBlock blocks hash = some blk) : blk ∈ blocks ∧ blk.hash = hash :=
  ⟨List.mem_of_find?_eq_some found, by simpa using List.find?_some found⟩

theorem mem_putBlock {other : Block} (mem : other ∈ putBlock blocks blk) : other = blk ∨ other ∈ blocks := by
  rcases List.mem_cons.mp mem with same | old
  · exact Or.inl same
  · exact Or.inr (List.mem_filter.mp old).1

theorem findBlock_putBlock_of_ne {hash : Bytes}
    (different : blk.hash ≠ hash) : findBlock (putBlock blocks blk) hash = findBlock blocks hash := by
  rw [findBlock, putBlock, List.find?_cons_of_neg (by simpa using different), List.find?_filter,
    findBlock]
  congr 1
  funext other
  by_cases same : other.hash = hash
  · simp [same, different.symm]
  · simp [same]

theorem findBlock_putBlock_self (blocks : List Block) (blk : Block) :
    findBlock (putBlock blocks blk) blk.hash = some blk := by
  rw [findBlock, putBlock, List.find?_cons_of_pos (by simp)]

namespace Loads

theorem refl (node : Node) : Loads node node :=
  ⟨node.state.blocks, rfl, fun _ _ found => found, fun _ mem => Or.inl mem⟩

theorem trans {node'' : Node} (first : Loads node node') (second : Loads node' node'') : Loads node node'' := by
  obtain ⟨blocks, rfl, kept, origin⟩ := first
  obtain ⟨blocks', rfl, kept', origin'⟩ := second
  refine ⟨blocks', rfl, fun hash blk found => kept' hash blk (kept hash blk found), ?_⟩
  intro blk mem
  rcases origin' blk mem with in_memory | in_storage
  · exact origin blk in_memory
  · exact Or.inr in_storage

theorem find (loads : Loads node node') {hash : Bytes} {blk : Block}
    (found : findBlock node.state.blocks hash = some blk) : findBlock node'.state.blocks hash = some blk := by
  obtain ⟨blocks, rfl, kept, -⟩ := loads
  exact kept hash blk found

theorem status_eq (loads : Loads node node') : node'.status = node.status := by
  obtain ⟨_, rfl, -⟩ := loads
  rfl

theorem order (loads : Loads node node') {qc1 qc2 : QuorumCert} {order : Ordering}
    (compared : QCOrder node qc1 qc2 order) : QCOrder node' qc1 qc2 order := by
  rcases compared with greater | less | ⟨same, blk1, blk2, found1, found2, order_eq⟩
  · exact Or.inl greater
  · exact Or.inr (Or.inl less)
  · exact Or.inr (Or.inr ⟨same, blk1, blk2, loads.find found1, loads.find found2, order_eq⟩)

end Loads

theorem QCOrder.unique {qc1 qc2 : QuorumCert} {order order' : Ordering}
    (left : QCOrder node qc1 qc2 order) (right : QCOrder node qc1 qc2 order') : order = order' := by
  rcases left with ⟨lt, rfl⟩ | ⟨lt, rfl⟩ | ⟨same, blk1, blk2, found1, found2, rfl⟩ <;>
  rcases right with ⟨lt', rfl⟩ | ⟨lt', rfl⟩ | ⟨same', blk1', blk2', found1', found2', rfl⟩
  · rfl
  · exact absurd lt' (UInt32.lt_asymm lt)
  · exact absurd same'.symm (UInt32.ne_of_lt lt)
  · exact absurd lt' (UInt32.lt_asymm lt)
  · rfl
  · exact absurd same' (UInt32.ne_of_lt lt)
  · exact absurd same.symm (UInt32.ne_of_lt lt')
  · exact absurd same (UInt32.ne_of_lt lt')
  · rw [Option.some.inj (found1.symm.trans found1'), Option.some.inj (found2.symm.trans found2')]

/-! ## What steps preserve -/

/-- What is known of the node when a step records a call. -/
def Cause (params : Params) (inbox : Inbox) (node : Node) : Event → Prop
  | .proposed blk => isLeader node node.signer.pubKey = true ∧ ∃ parent, ProposalParent inbox node parent ∧
      Proposal params node parent blk
  | .validated blk => inbox.Block blk
  | .received blk => inbox.Block blk
  | .receivedByHeight blk => inbox.Height blk
  | .broadcastProposal blk => .proposed blk ∈ node.trace
  | .sendVote blk vote => ∃ qc quota, VoteGuard inbox node blk qc ∧ vote = blk.vote node.signer quota
  | .sendQC _ qc => qc = node.status.qcHigh
  | .setLeader _ => True
  | .approve view leader => ∃ blk ∈ node.state.blocks, view = blk.view ∧
      leader = node.proposerIndex blk ∧ isNewViewApproval node.status view leader = true
  | .enterView view leader => view = node.status.view + 1 ∧
      nextLeaderIndex node.roleStore node.status.view = .ok leader
  | .receivedQC qc => inbox.QC qc
  | .builtQC qc tally => Built node qc ∧ isVoteEnough params node = .ok true ∧
      tally = ⟨node.status.votes, node.roleStore, node.status.window⟩
  | .countedQC _ _ => True
  | .newView view roleStore => view = node.status.view ∧ roleStore = node.roleStore ∧
      node.roleStore.majorityValidatorCount ≤ node.rotator.highQCCount
  | .setQCHigh qc blk1 roleStore window =>
      (Circulates node qc ∨ Built node qc ∧ ∃ tally, .builtQC qc tally ∈ node.trace) ∧
        Higher node qc blk1 ∧ roleStore = node.roleStore ∧ window = node.status.window
  | .commit blk => ∃ target, CommitReason inbox node target ∧ Ancestor (Seen inbox node) target blk ∧
      node.status.bExec.height < blk.height
  | .execute blk txs => txs.map Transaction.hash =
      blk.transactions.filter fun hash => !node.storage.hasTx hash

theorem ChainStep.records (step : ChainStep params inbox node node') : node'.trace = node.trace ∨
      ∃ event, node'.trace = event :: node.trace ∧ Cause params inbox node event := by
  cases step with
  | load loads =>
      obtain ⟨_, rfl, -⟩ := loads
      exact Or.inl rfl
  | receive received => exact Or.inr ⟨_, rfl, received⟩
  | answer by_height => exact Or.inr ⟨_, rfl, by_height⟩
  | commit reason ancestor higher => exact Or.inr ⟨_, rfl, _, reason, ancestor, higher⟩
  | execute _ _ _ _ txs_eq _ => exact Or.inr ⟨_, rfl, txs_eq⟩
  | _ => exact Or.inl rfl

theorem NodeStep.records (step : NodeStep params inbox node node') : node'.trace = node.trace ∨
      ∃ event, node'.trace = event :: node.trace ∧ Cause params inbox node event := by
  cases step with
  | chain step => exact step.records
  | approve present approval => exact Or.inr ⟨_, rfl, _, present, rfl, rfl, approval⟩
  | adopt circulates higher => exact Or.inr ⟨_, rfl, Or.inl circulates, higher, rfl, rfl⟩
  | certify built recorded higher =>
      exact Or.inr ⟨_, rfl, Or.inr ⟨built, _, recorded ▸ List.mem_cons_self⟩, higher, rfl, rfl⟩
  | propose leader is_parent proposal => exact Or.inr ⟨_, rfl, leader, _, is_parent, proposal⟩
  | broadcast proposed => exact Or.inr ⟨_, rfl, proposed⟩
  | sendVote quota guard => exact Or.inr ⟨_, rfl, _, quota, guard, rfl⟩
  | build built enough => exact Or.inr ⟨_, rfl, built, enough, rfl⟩
  | beginViewChange | countQC => exact Or.inr ⟨_, rfl, trivial⟩
  | newView enough leader => exact Or.inr ⟨_, rfl, rfl, rfl, enough⟩
  | validate received => exact Or.inr ⟨_, rfl, received⟩
  | receiveQC received => exact Or.inr ⟨_, rfl, received⟩
  | sendQC => exact Or.inr ⟨_, rfl, rfl⟩
  | enterNextView _ same_view next_eq =>
      exact Or.inr ⟨_, rfl, congrArg (· + 1) same_view, same_view ▸ next_eq⟩
  | _ => exact Or.inl rfl

theorem NodeStep.trace_suffix (step : NodeStep params inbox node node') : node.trace <:+ node'.trace := by
  rcases step.records with same | ⟨event, recorded, -⟩
  · rw [same]
  · rw [recorded]
    exact List.suffix_cons _ _

theorem NodeStep.throughout {holds : List Event → Event → Prop}
    (step : NodeStep params inbox node node') (kept : Throughout holds node.trace)
    (follows : ∀ event, Cause params inbox node event → holds node.trace event) : Throughout holds node'.trace := by
  rcases step.records with same | ⟨event, recorded, cause⟩
  · rw [same]
    exact kept
  · rw [recorded]
    exact throughout_cons.mpr ⟨follows event cause, kept⟩

theorem NodeStep.event (step : NodeStep params inbox node node') {event : Event}
    (mem : event ∈ node'.trace) : event ∈ node.trace ∨ Cause params inbox node event := by
  rcases step.records with same | ⟨recorded, trace_eq, cause⟩
  · exact Or.inl (same ▸ mem)
  · rw [trace_eq] at mem
    rcases List.mem_cons.mp mem with rfl | old
    · exact Or.inr cause
    · exact Or.inl old

theorem Steps.trace_suffix (steps : Steps params inbox node node') : node.trace <:+ node'.trace := by
  induction steps with
  | refl => exact List.suffix_rfl
  | tail _ step ih => exact ih.trans step.trace_suffix

/-- A step sets a higher certificate, one that circulates or that has just been built. -/
structure SetsHigh (node node' : Node) (blk1 : Block) : Prop where
  recorded : node'.trace =
    .setQCHigh node'.status.qcHigh blk1 node.roleStore node.status.window :: node.trace
  higher : Higher node node'.status.qcHigh blk1
  source : Circulates node node'.status.qcHigh ∨
    Built node node'.status.qcHigh ∧ ∃ tally earlier,
      node.trace = .builtQC node'.status.qcHigh tally :: earlier

theorem NodeStep.high_cases (step : NodeStep params inbox node node') :
    (node'.status.qcHigh = node.status.qcHigh ∧ ∀ qc, HighSet qc node'.trace → HighSet qc node.trace) ∨
      ∃ blk1, SetsHigh node node' blk1 := by
  have kept {event : Event} (other : ∀ qc blk1 store window, event ≠ .setQCHigh qc blk1 store window)
      (qc : QuorumCert) : HighSet qc (event :: node.trace) → HighSet qc node.trace := by
    rintro ⟨blk1, store, window, mem⟩
    rcases List.mem_cons.mp mem with same | old
    · exact absurd same.symm (other qc blk1 store window)
    · exact ⟨blk1, store, window, old⟩
  cases step with
  | chain step =>
      cases step with
      | load loads =>
          obtain ⟨_, rfl, -⟩ := loads
          exact Or.inl ⟨rfl, fun _ set => set⟩
      | receive | answer | commit | execute =>
          refine Or.inl ⟨rfl, kept fun _ _ _ _ same => ?_⟩
          cases same
      | _ => exact Or.inl ⟨rfl, fun _ set => set⟩
  | adopt circulates higher => exact Or.inr ⟨_, rfl, higher, Or.inl circulates⟩
  | certify built recorded higher =>
      exact Or.inr ⟨_, rfl, higher, Or.inr ⟨built, _, _, recorded⟩⟩
  | addVote added _ =>
      obtain ⟨-, -, rfl⟩ := Status.addVote_eq_ok added
      exact Or.inl ⟨rfl, fun _ set => set⟩
  | approve | build | propose | broadcast | sendVote | beginViewChange | countQC | newView | validate
  | receiveQC | sendQC | enterNextView =>
      refine Or.inl ⟨rfl, kept fun _ _ _ _ same => ?_⟩
      cases same
  | _ => exact Or.inl ⟨rfl, fun _ set => set⟩

theorem Seen.mono (seen : Seen inbox node blk) (grows : node.trace <:+ node'.trace) : Seen inbox node' blk :=
  seen.imp_right (Or.imp (fun received => grows.subset received) fun proposed => grows.subset proposed)

theorem HighSet.mono {qc : QuorumCert} {trace trace' : List Event} (set : HighSet qc trace)
    (grows : trace <:+ trace') : HighSet qc trace' := by
  obtain ⟨blk1, roleStore, window, mem⟩ := set
  exact ⟨blk1, roleStore, window, grows.subset mem⟩

theorem CommitReason.mono (reason : CommitReason inbox node target)
    (same : node'.status = node.status) (grows : node.trace <:+ node'.trace) : CommitReason inbox node' target := by
  rw [CommitReason, same]
  exact reason.imp (And.imp_left fun set => set.mono grows) (And.imp_right fun given => grows.subset given)

theorem Ancestor.mono {seen seen' : Block → Prop}
    (ancestor : Ancestor seen target blk) (grows : ∀ blk, seen blk → seen' blk) : Ancestor seen' target blk := by
  induction ancestor with
  | self target_seen => exact .self (grows _ target_seen)
  | parent _ above parent_seen hash_eq ih => exact .parent ih above (grows _ parent_seen) hash_eq

theorem Ancestor.seen {seen : Block → Prop} (ancestor : Ancestor seen target blk) : seen blk := by
  cases ancestor with
  | self target_seen => exact target_seen
  | parent _ _ parent_seen _ => exact parent_seen

theorem Ancestor.target_seen {seen : Block → Prop} (ancestor : Ancestor seen target blk) : seen target := by
  induction ancestor with
  | self target_seen => exact target_seen
  | parent _ _ _ _ ih => exact ih

theorem Closed.of_changes (closed : Closed inbox node) (grows : node.trace <:+ node'.trace)
    (received : ∀ blk, .received blk ∈ node'.trace → .received blk ∈ node.trace ∨ inbox.Block blk)
    (blocks : ∀ blk ∈ node'.state.blocks, blk ∈ node.state.blocks ∨ blk ∈ node.storage.blocks ∨ Seen inbox node' blk)
    (stored : ∀ blk ∈ node'.storage.blocks, blk ∈ node.storage.blocks ∨ Seen inbox node' blk)
    (leaf : node'.status.bLeaf = node.status.bLeaf ∨ Seen inbox node' node'.status.bLeaf)
    (high : node'.status.qcHigh = node.status.qcHigh ∨
      ∃ blk, Seen inbox node' blk ∧ blk.hash = node'.status.qcHigh.blockHash) : Closed inbox node' where
  received blk mem := by
    rcases received blk mem with old | new
    · exact closed.received blk old
    · exact new
  blocks blk mem := by
    rcases blocks blk mem with in_memory | in_storage | seen
    · exact (closed.blocks blk in_memory).mono grows
    · exact (closed.stored blk in_storage).mono grows
    · exact seen
  stored blk mem := by
    rcases stored blk mem with in_storage | seen
    · exact (closed.stored blk in_storage).mono grows
    · exact seen
  leaf := by
    rcases leaf with same | seen
    · rw [same]
      exact closed.leaf.mono grows
    · exact seen
  high := by
    rcases high with same | seen
    · rw [same]
      obtain ⟨blk, seen, hash_eq⟩ := closed.high
      exact ⟨blk, seen.mono grows, hash_eq⟩
    · exact seen

theorem Closed.chainStep (closed : Closed inbox node) (step : ChainStep params inbox node node') :
    Closed inbox node' := by
  have grows := (NodeStep.chain step).trace_suffix
  have received := fun blk (mem : .received blk ∈ node'.trace) => (NodeStep.chain step).event mem
  have same : ∀ blk ∈ node.state.blocks, blk ∈ node.state.blocks ∨ blk ∈ node.storage.blocks ∨
      Seen inbox node' blk := fun blk mem => Or.inl mem
  have same_stored : ∀ blk ∈ node.storage.blocks, blk ∈ node.storage.blocks ∨
      Seen inbox node' blk := fun blk mem => Or.inl mem
  cases step with
  | load loads =>
      obtain ⟨blocks, rfl, -, origin⟩ := loads
      refine closed.of_changes grows received (fun blk mem => ?_) same_stored (Or.inl rfl) (Or.inl rfl)
      rcases origin blk mem with in_memory | in_storage
      · exact Or.inl in_memory
      · exact Or.inr (Or.inl in_storage)
  | @receive blk _ =>
      refine closed.of_changes grows received (fun other mem => ?_) same_stored (Or.inl rfl) (Or.inl rfl)
      rcases mem_putBlock mem with rfl | old
      · exact Or.inr (Or.inr (Or.inr (Or.inl List.mem_cons_self)))
      · exact Or.inl old
  | storeBlock =>
      refine closed.of_changes grows received same (fun other mem => ?_) (Or.inl rfl) (Or.inl rfl)
      rcases mem_putBlock mem with rfl | old
      · exact Or.inr (closed.leaf.mono grows)
      · exact Or.inl old
  | execute _ _ _ seen _ _ =>
      refine closed.of_changes grows received same (fun other mem => ?_) (Or.inl rfl) (Or.inl rfl)
      rcases mem_putBlock mem with rfl | old
      · exact Or.inr (seen.mono grows)
      · exact Or.inl old
  | mockExecute _ _ seen =>
      refine closed.of_changes grows received same (fun other mem => ?_) (Or.inl rfl) (Or.inl rfl)
      rcases mem_putBlock mem with rfl | old
      · exact Or.inr (seen.mono grows)
      · exact Or.inl old
  | clean _ blocks_subset _ =>
      exact closed.of_changes grows received (fun blk mem => Or.inl (blocks_subset mem)) same_stored
        (Or.inl rfl) (Or.inl rfl)
  | _ => exact closed.of_changes grows received same same_stored (Or.inl rfl) (Or.inl rfl)

theorem Closed.step (closed : Closed inbox node) (step : NodeStep params inbox node node') : Closed inbox node' := by
  have grows := step.trace_suffix
  have received := fun blk (mem : .received blk ∈ node'.trace) => step.event mem
  have same : ∀ blk ∈ node.state.blocks, blk ∈ node.state.blocks ∨ blk ∈ node.storage.blocks ∨
      Seen inbox node' blk := fun blk mem => Or.inl mem
  have same_stored : ∀ blk ∈ node.storage.blocks, blk ∈ node.storage.blocks ∨
      Seen inbox node' blk := fun blk mem => Or.inl mem
  have seen_of_found : ∀ hash blk, findBlock node.state.blocks hash = some blk →
      Seen inbox node' blk ∧ blk.hash = hash := fun hash blk found =>
    ⟨(closed.blocks blk (mem_of_findBlock found).1).mono grows, (mem_of_findBlock found).2⟩
  cases step with
  | chain step => exact closed.chainStep step
  | adopt _ higher =>
      have seen := seen_of_found _ _ higher.found
      exact closed.of_changes grows received same same_stored (Or.inr seen.1) (Or.inr ⟨_, seen⟩)
  | certify _ _ higher =>
      have seen := seen_of_found _ _ higher.found
      exact closed.of_changes grows received same same_stored (Or.inr seen.1) (Or.inr ⟨_, seen⟩)
  | @propose parent blk _ _ _ =>
      have proposed : Seen inbox (startProposal blk node) blk := Or.inr (Or.inr List.mem_cons_self)
      refine closed.of_changes grows received (fun other mem => ?_) same_stored (Or.inr proposed)
        (Or.inl rfl)
      rcases mem_putBlock mem with rfl | old
      · exact Or.inr (Or.inr proposed)
      · exact Or.inl old
  | addVote added _ =>
      obtain ⟨-, -, rfl⟩ := Status.addVote_eq_ok added
      exact closed.of_changes grows received same same_stored (Or.inl rfl) (Or.inl rfl)
  | _ => exact closed.of_changes grows received same same_stored (Or.inl rfl) (Or.inl rfl)

theorem Closed.steps (closed : Closed inbox node) (steps : Steps params inbox node node') : Closed inbox node' := by
  induction steps with
  | refl => exact closed
  | tail _ step ih => exact ih.step step

end SvpChain.Consensus
