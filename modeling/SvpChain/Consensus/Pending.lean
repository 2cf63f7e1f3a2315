import SvpChain.Consensus.HandlerSteps
import SvpChain.Consensus.Replay
import SvpChain.TxPool.Refinement

/-!
# Pending transactions

The pool holds a transaction as pending while a block with it is under way.  Between two calls of
handlers such a block is in memory and not committed, as long as blocks are told apart by their hashes
and no certificate makes a validator commit above the proposal that carries it.  Inside a commit, and
between taking transactions and storing the proposal, this does not hold; so these are single steps
here.
-/

namespace SvpChain.Consensus

open Core TxPool TxPool.ItemStore Relation Program

variable {params : Params} {env : Env} {b0 : Block} {node node' : Node}

/-! ## The invariant -/

/-- The genesis block, a block from outside, or one of the node itself. -/
def SeenIn (b0 : Block) (trace : List Event) (blk : Block) : Prop :=
  blk = b0 ∨ .received blk ∈ trace ∨ .proposed blk ∈ trace

variable {trace trace' : List Event} {blk keep : Block} {stored : List Bytes} {pool : TxStore}
   {hash : Bytes}

theorem SeenIn.mono (seen : SeenIn b0 trace blk) (grows : trace <:+ trace') : SeenIn b0 trace' blk :=
  seen.imp_right (Or.imp (fun mem => grows.subset mem) fun mem => grows.subset mem)

/-- Blocks with equal hashes are equal. -/
def HashesDistinct (b0 : Block) (trace : List Event) : Prop :=
  ∀ blk blk', SeenIn b0 trace blk → SeenIn b0 trace blk' → blk.hash = blk'.hash → blk = blk'

theorem HashesDistinct.of_suffix (distinct : HashesDistinct b0 trace')
    (grows : trace <:+ trace') : HashesDistinct b0 trace := fun blk blk' seen seen' =>
  distinct blk blk' (seen.mono grows) (seen'.mono grows)

/-- The ancestors of a block are not higher than another one. -/
def AncestorsBelow (b0 target : Block) (trace : List Event) (keep : Block) : Prop :=
  ∀ ancestor, Ancestor (SeenIn b0 trace) target ancestor → ancestor.height ≤ keep.height

/-- A certificate is for a block whose proper ancestors are not higher than another one. -/
def QCBelow (b0 : Block) (qc : Option QuorumCert) (trace : List Event) (keep : Block) : Prop :=
  ∀ target child parent, qc = some target → SeenIn b0 trace child → child.hash = target.blockHash →
    SeenIn b0 trace parent → parent.hash = child.parentHash → AncestorsBelow b0 parent trace keep

/-- No proposal carries a certificate for a block that has a proper ancestor above the proposal. -/
def CertsBelow (b0 : Block) (trace : List Event) : Prop :=
  ∀ blk, .validated blk ∈ trace → QCBelow b0 blk.quorumCert trace blk

theorem CertsBelow.of_suffix (below : CertsBelow b0 trace') (grows : trace <:+ trace') : CertsBelow b0 trace := by
  intro blk validated target child parent is_target child_seen child_eq parent_seen parent_eq ancestor path
  refine below blk (grows.subset validated) target child parent is_target (child_seen.mono grows) child_eq
    (parent_seen.mono grows) parent_eq ancestor ?_
  exact path.mono fun _ seen => seen.mono grows

/-- What is asked of the blocks that reach a node. -/
structure Regular (b0 : Block) (trace : List Event) : Prop where
  distinct : HashesDistinct b0 trace
  below : CertsBelow b0 trace

theorem Regular.of_suffix (regular : Regular b0 trace') (grows : trace <:+ trace') : Regular b0 trace :=
  ⟨regular.distinct.of_suffix grows, regular.below.of_suffix grows⟩

/-- Every block in memory or in the storage was seen. -/
structure Traced (b0 : Block) (node : Node) : Prop where
  blocks : ∀ blk ∈ node.state.blocks, SeenIn b0 node.trace blk
  stored : ∀ blk ∈ node.storage.blocks, SeenIn b0 node.trace blk

/-- Pending transactions are held by blocks in memory, and the pool and the storage are disjoint. -/
structure Held (b0 : Block) (node : Node) : Prop where
  running : node.isExisted = false
  represented : node.txPool.Represented
  unstored : ∀ hash, node.txPool.getTxStatus hash ≠ .notFound → hash ∉ node.storage.txs
  held : ∀ hash, node.txPool.getTxStatus hash = .pending →
    ∃ blk ∈ node.state.blocks, hash ∈ blk.transactions
  committed : ∀ hash ∈ node.state.committed, ∃ blk, SeenIn b0 node.trace blk ∧ blk.hash = hash ∧
    blk.transactions ⊆ node.storage.txs
  executed : ∀ blk txs, .execute blk txs ∈ node.trace → blk.transactions ⊆ node.storage.txs
  genesis : b0.transactions ⊆ node.storage.txs

/-- What a part of a handler does to the pool and the blocks, as a whole. -/
structure PoolStep (b0 : Block) (node node' : Node) : Prop where
  grows : node.trace <:+ node'.trace
  traced : Traced b0 node → Traced b0 node'
  held : Traced b0 node → Regular b0 node'.trace → Held b0 node → Held b0 node'

theorem PoolStep.refl (node : Node) : PoolStep b0 node node :=
  ⟨List.suffix_rfl, id, fun _ _ held => held⟩

theorem PoolStep.trans {node'' : Node} (first : PoolStep b0 node node')
    (second : PoolStep b0 node' node'') : PoolStep b0 node node'' where
  grows := first.grows.trans second.grows
  traced traced := second.traced (first.traced traced)
  held traced regular held := second.held (first.traced traced) regular
    (first.held traced (regular.of_suffix second.grows) held)

theorem poolStep_of_steps (steps : ReflTransGen (PoolStep b0) node node') : PoolStep b0 node node' := by
  induction steps with
  | refl => exact .refl node
  | tail _ step ih => exact ih.trans step

/-! ## Single steps -/

/-- Changes of what the invariant does not speak of. -/
theorem PoolStep.aside {status : Status} {rotator : Rotator} {roleStore : RoleStore}
    {requests proposeCh : ℕ} {qcs stored : List QuorumCert} {lastQC : Bytes} {alive : Bool} :
    PoolStep b0 node { node with
      status := status, rotator := rotator, roleStore := roleStore, requests := requests,
      proposeCh := proposeCh, alive := alive, state := { node.state with qcs := qcs },
      storage := { node.storage with qcs := stored, lastQC := lastQC } } where
  grows := List.suffix_rfl
  traced traced := ⟨traced.blocks, traced.stored⟩
  held _ _ held := ⟨held.running, held.represented, held.unstored, held.held, held.committed,
    held.executed, held.genesis⟩

theorem PoolStep.record {event : Event} (not_execute : ∀ blk txs, event ≠ .execute blk txs) :
    PoolStep b0 node (node.record event) where
  grows := List.suffix_cons _ _
  traced traced :=
    ⟨fun blk mem => (traced.blocks blk mem).mono (List.suffix_cons _ _),
      fun blk mem => (traced.stored blk mem).mono (List.suffix_cons _ _)⟩
  held _ _ held :=
    { held with
      committed := fun hash mem => by
        obtain ⟨blk, seen, rest⟩ := held.committed hash mem
        exact ⟨blk, seen.mono (List.suffix_cons _ _), rest⟩
      executed := fun blk txs mem =>
        held.executed blk txs ((List.mem_cons.mp mem).resolve_left (not_execute blk txs).symm) }

theorem mem_putBlock_of_distinct (distinct : HashesDistinct b0 trace)
    {blocks : List Block} {other : Block} (blk_seen : SeenIn b0 trace blk)
    (other_seen : SeenIn b0 trace other) (mem : other ∈ blocks) : other ∈ putBlock blocks blk := by
  by_cases same : other.hash = blk.hash
  · exact List.mem_cons.mpr (Or.inl (distinct other blk other_seen blk_seen same))
  · exact List.mem_cons_of_mem _ (List.mem_filter.mpr ⟨mem, decide_eq_true same⟩)

theorem PoolStep.setBlock (seen : Traced b0 node → SeenIn b0 node.trace blk) :
    PoolStep b0 node (node.setBlock blk) where
  grows := List.suffix_rfl
  traced traced :=
    { blocks := fun other mem => by
        rcases mem_putBlock mem with rfl | old
        · exact seen traced
        · exact traced.blocks other old
      stored := traced.stored }
  held traced regular held :=
    { held with
      held := fun hash pending => by
        obtain ⟨other, mem, contains⟩ := held.held hash pending
        exact ⟨other, mem_putBlock_of_distinct regular.distinct (seen traced) (traced.blocks other mem) mem,
          contains⟩ }

theorem PoolStep.storeBlock (seen : SeenIn b0 node.trace blk) : PoolStep b0 node (node.storeBlock blk) where
  grows := List.suffix_rfl
  traced traced :=
    { blocks := traced.blocks
      stored := fun other stored => by
        rcases mem_putBlock stored with rfl | old
        · exact seen
        · exact traced.stored other old }
  held _ _ held := ⟨held.running, held.represented, held.unstored, held.held, held.committed,
    held.executed, held.genesis⟩

theorem PoolStep.acceptBlock (blk : Block) : PoolStep b0 node (node.acceptBlock blk) := by
  have recorded : PoolStep b0 node (node.record (.received blk)) :=
    .record fun _ _ same => nomatch same
  have put : PoolStep b0 (node.record (.received blk)) ((node.record (.received blk)).setBlock blk) :=
    .setBlock fun _ => Or.inr (Or.inl List.mem_cons_self)
  exact recorded.trans put

/-! ## The pool -/

/-- The pool gets transactions that are not stored, and no transaction becomes pending. -/
structure Enqueues (stored : List Bytes) (pool pool' : TxStore) : Prop where
  represented : pool.Represented → pool'.Represented
  known : ∀ hash, pool.Represented → pool'.getTxStatus hash ≠ .notFound →
    pool.getTxStatus hash ≠ .notFound ∨ hash ∉ stored
  pending : ∀ hash, pool.Represented → pool'.getTxStatus hash = .pending →
    pool.getTxStatus hash = .pending

theorem Enqueues.refl (stored : List Bytes) (pool : TxStore) : Enqueues stored pool pool :=
  ⟨id, fun _ _ known => .inl known, fun _ _ pending => pending⟩

theorem Enqueues.trans {first second third : TxStore}
    (earlier : Enqueues stored first second) (later : Enqueues stored second third) : Enqueues stored first third where
  represented represented := later.represented (earlier.represented represented)
  known hash represented known := by
    rcases later.known hash (earlier.represented represented) known with before | fresh
    · exact earlier.known hash represented before
    · exact .inr fresh
  pending hash represented pending :=
    earlier.pending hash represented (later.pending hash (earlier.represented represented) pending)

theorem enqueues_of_steps {pool' : TxStore}
    (steps : ReflTransGen (Enqueues stored) pool pool') : Enqueues stored pool pool' := by
  induction steps with
  | refl => exact .refl stored pool
  | tail _ step ih => exact ih.trans step

theorem enqueues_addNewTx {tx : Transaction} (now : ℤ)
    (fresh : tx.hash ∉ stored) : Enqueues stored pool (pool.addNewTx tx now) where
  represented represented := (represented.addNewTx tx now).represented
  known hash represented known := by
    rw [(represented.addNewTx tx now).status_eq, added] at known
    split at known
    · rename_i own
      exact .inr (own.1 ▸ fresh)
    · exact .inl known
  pending hash represented pending := by
    rw [(represented.addNewTx tx now).status_eq, added] at pending
    split at pending
    · cases pending
    · exact pending

theorem enqueues_putTxsToQueue (stored : List Bytes) (pool : TxStore) (hashes : List Bytes) :
    Enqueues stored pool (pool.putTxsToQueue hashes) where
  represented represented := (represented.putTxsToQueue hashes).represented
  known hash represented known := by
    rw [(represented.putTxsToQueue hashes).status_eq] at known
    refine .inl fun missing => known ?_
    rw [missing, moved_notFound]
  pending hash represented pending := by
    rw [(represented.putTxsToQueue hashes).status_eq, moved] at pending
    split at pending
    · cases pending
    · exact pending

section

variable (services : Services) (stored : List Bytes)
  (hasTx_eq : ∀ hash, services.hasTx hash = decide (hash ∈ stored))
include hasTx_eq

theorem runs_addNewTx (tx : Transaction) (pool : TxStore) :
    Runs (Enqueues stored) (TxPool.addNewTx services tx) (fun _ _ => True) pool := by
  unfold TxPool.addNewTx
  cases tx.validate services.crypto with
  | error reason => exact Runs.throw
  | ok =>
      refine Runs.ite (fun _ => Runs.pure trivial) fun missing => Runs.throwIf_bind fun _ => ?_
      rw [hasTx_eq, decide_eq_true_eq] at missing
      exact Runs.modify (enqueues_addNewTx _ missing) trivial

theorem runs_addTxList (txs : List Transaction) (pool : TxStore) :
    Runs (Enqueues stored) (TxPool.addTxList services txs) (fun _ _ => True) pool := by
  induction txs generalizing pool with
  | nil => exact Runs.pure trivial
  | cons tx txs ih =>
      exact Runs.bind (runs_addNewTx services stored hasTx_eq tx pool) fun _ pool _ _ => ih pool

omit hasTx_eq in
theorem runs_checkTxList (hashes : List Bytes) (txs : List Transaction) (pool : TxStore) :
    Runs (Enqueues stored) (TxPool.checkTxList hashes txs) (fun _ _ => True) pool := by
  induction txs generalizing hashes with
  | nil => cases hashes <;> exact Runs.pure trivial
  | cons tx txs ih =>
      cases hashes with
      | nil => exact Runs.fault
      | cons hash hashes => exact Runs.throwIf_bind fun _ => ih hashes

theorem runs_poolSyncTxs (request : List Bytes → Option (List Transaction))
    (order : List Transaction → List Transaction) (hashes : List Bytes) (pool : TxStore) :
    Runs (Enqueues stored) (TxPool.syncTxs services request order hashes) (fun _ _ => True) pool := by
  refine Runs.get_bind (Runs.ite (fun _ => Runs.pure trivial) fun _ => ?_)
  cases request (TxPool.missingTxs services pool hashes) with
  | none => exact Runs.throw
  | some txs =>
      exact Runs.bind (runs_checkTxList stored _ txs pool) fun _ pool _ _ =>
        runs_addTxList services stored hasTx_eq _ pool

theorem runs_submitTx (tx : Transaction) (pool : TxStore) :
    Runs (Enqueues stored) (TxPool.submitTx services tx) (fun _ _ => True) pool :=
  Runs.modify_bind (enqueues_putTxsToQueue stored pool _) (runs_addNewTx services stored hasTx_eq tx _)

end

theorem PoolStep.enqueue (enqueues : Enqueues node.storage.txs node.txPool pool) :
    PoolStep b0 node { node with txPool := pool } where
  grows := List.suffix_rfl
  traced traced := ⟨traced.blocks, traced.stored⟩
  held _ _ held :=
    { held with
      represented := enqueues.represented held.represented
      unstored := fun hash known =>
        (enqueues.known hash held.represented known).elim (held.unstored hash) id
      held := fun hash pending => held.held hash (enqueues.pending hash held.represented pending) }

theorem pool_onTxPool {program : Program TxPoolError TxStore Unit}
    (runs : Runs (Enqueues node.storage.txs) program (fun _ _ => True) node.txPool) :
    Runs (PoolStep b0) (onTxPool program) (fun _ _ => True) node :=
  Runs.zoom (wp_mono runs
    (fun _ _ ended => ⟨.enqueue (enqueues_of_steps ended.1), trivial⟩)
    fun _ _ stopped => .enqueue (enqueues_of_steps stopped))

/-! ## Commits -/

theorem outcome_putBack (represented : pool.Represented) (blks : List Block) :
    pool.Outcome (blks.foldl (fun pool blk => pool.putTxsToQueue blk.transactions) pool)
      (moved .queue (blks.flatMap Block.transactions)) := by
  induction blks generalizing pool with
  | nil => exact ⟨represented, fun hash => (moved_nil .queue hash _).symm⟩
  | cons blk blks ih =>
      have first := represented.putTxsToQueue blk.transactions
      have rest := ih first.represented
      refine ⟨rest.represented, fun hash => ?_⟩
      rw [List.foldl_cons, rest.status_eq, first.status_eq]
      simp only [moved, List.flatMap_cons, List.mem_append]
      grind

/-- The blocks that a commit leaves behind. -/
def forkedBlocks (env : Env) (blk : Block) (node : Node) : List Block :=
  env.blockOrder ((node.state.setCommittedBlock blk).getUncommittedOlderBlocks blk)

theorem mem_forkedBlocks {other : Block} : other ∈ forkedBlocks env blk node ↔
    other ∈ node.state.blocks ∧ other.height < blk.height ∧
      other.hash ∉ (node.state.setCommittedBlock blk).committed := by
  rw [forkedBlocks, (env.blockOrder_perm _).mem_iff, State.getUncommittedOlderBlocks, List.mem_filter,
    decide_eq_true_eq]
  rfl

/-- The memory once the forked blocks are deleted. -/
def unforkedState (env : Env) (blk : Block) (txCount : ℕ) (node : Node) : State :=
  (forkedBlocks env blk node).foldl (fun state blk => (state.deleteBlock blk.hash).deleteQC blk.hash)
    ({ node.state with
      committedTxCount := node.state.committedTxCount + UInt64.ofNat txCount }.deleteQC
        blk.hash |>.setCommittedBlock blk)

theorem finishCommit_state (params : Params) (env : Env) (blk : Block) (txCount : ℕ) (node : Node) :
    (finishCommit params env blk txCount node).state =
      if blk.height < 20 then unforkedState env blk txCount node
      else deleteBlocks (unforkedState env blk txCount node)
        ((unforkedState env blk txCount node).getOlderBlocks blk.height) := rfl

/-- What a commit leaves of the pool: the block's transactions go, and those of forked blocks go back
to the queue. -/
theorem outcome_finishCommit (preserve : params.config.preserveTxFlag = false) (env : Env) (blk : Block)
    (txCount : ℕ) (node : Node) (represented : node.txPool.Represented) :
    node.txPool.Outcome (finishCommit params env blk txCount node).txPool fun hash status =>
      moved .queue ((forkedBlocks env blk node).flatMap Block.transactions) hash
        (moved .notFound blk.transactions hash status) := by
  have removed := represented.removeTxs blk.transactions
  have back := outcome_putBack removed.represented (forkedBlocks env blk node)
  simp only [finishCommit, cleanStateOnCommitted, preserve, Bool.false_eq_true, if_false]
  refine ⟨back.represented, fun hash => ?_⟩
  rw [← removed.status_eq, ← back.status_eq]
  rfl

theorem mem_foldl_delete {delete : State → Block → State}
    (deletes : ∀ state blk, (delete state blk).blocks = state.blocks.filter fun other => other.hash ≠ blk.hash)
    {state : State} {blks : List Block} (mem : keep ∈ state.blocks)
    (apart : ∀ blk ∈ blks, keep.hash ≠ blk.hash) : keep ∈ (blks.foldl delete state).blocks := by
  induction blks generalizing state with
  | nil => exact mem
  | cons blk blks ih =>
      obtain ⟨own, rest⟩ := List.forall_mem_cons.mp apart
      refine ih ?_ rest
      rw [deletes]
      exact List.mem_filter.mpr ⟨mem, decide_eq_true own⟩

theorem committed_foldl_subset {delete : State → Block → State}
    (deletes : ∀ state blk, (delete state blk).committed ⊆ state.committed) (state : State)
    (blks : List Block) : (blks.foldl delete state).committed ⊆ state.committed := by
  induction blks generalizing state with
  | nil => exact List.Subset.refl _
  | cons blk blks ih => exact List.Subset.trans (ih _) (deletes state blk)

theorem blocks_unforkedState_subset (env : Env) (blk : Block) (txCount : ℕ) (node : Node) :
    (unforkedState env blk txCount node).blocks ⊆ node.state.blocks :=
  (shrinks_foldl (fun _ _ => ⟨List.filter_subset_self _, List.filter_subset_self _⟩) _ _).1

theorem blocks_finishCommit_subset (blk : Block) (txCount : ℕ) :
    (finishCommit params env blk txCount node).state.blocks ⊆ node.state.blocks := by
  rw [finishCommit_state]
  split
  · exact blocks_unforkedState_subset env blk txCount node
  · have unforked := blocks_unforkedState_subset env blk txCount node
    refine List.Subset.trans ?_ unforked
    refine (shrinks_foldl ?_ _ _).1
    exact fun _ _ => ⟨List.filter_subset_self _, List.Subset.refl _⟩

theorem committed_finishCommit_subset (params : Params) (blk : Block) (txCount : ℕ) :
    (finishCommit params env blk txCount node).state.committed ⊆ (node.state.setCommittedBlock blk).committed := by
  have unforked : (unforkedState env blk txCount node).committed ⊆
      (node.state.setCommittedBlock blk).committed := by
    apply committed_foldl_subset
    exact fun _ _ => List.Subset.refl _
  rw [finishCommit_state]
  split
  · exact unforked
  · refine List.Subset.trans ?_ unforked
    apply committed_foldl_subset
    exact fun _ _ => List.filter_subset_self _

theorem mem_finishCommit (params : Params) (distinct : HashesDistinct b0 trace)
    (seen : ∀ blk ∈ node.state.blocks, SeenIn b0 trace blk) (txCount : ℕ)
    (mem : keep ∈ node.state.blocks) (above : blk.height ≤ keep.height) :
    keep ∈ (finishCommit params env blk txCount node).state.blocks := by
  have apart (other : Block) (other_mem : other ∈ node.state.blocks) (lower : other.height < blk.height) :
      keep.hash ≠ other.hash := by
    intro same
    obtain rfl := distinct keep other (seen keep mem) (seen other other_mem) same
    exact absurd lower (UInt64.not_lt.mpr above)
  have unforked : keep ∈ (unforkedState env blk txCount node).blocks := by
    refine mem_foldl_delete (fun _ _ => rfl) mem fun other forked => ?_
    obtain ⟨other_mem, lower, -⟩ := mem_forkedBlocks.mp forked
    exact apart other other_mem lower
  rw [finishCommit_state]
  split
  · exact unforked
  · refine mem_foldl_delete (fun _ _ => rfl) unforked fun other older => ?_
    obtain ⟨other_mem, lower⟩ := List.mem_filter.mp older
    exact apart other (blocks_unforkedState_subset env blk txCount node other_mem) (of_decide_eq_true lower)

/-- The node after `driver.commit`, with the transactions that were executed. -/
def committedNode (params : Params) (env : Env) (blk : Block) (txs : List Transaction) (node : Node) :
    Node :=
  finishCommit params env blk txs.length (executeAndStore env blk txs
    { node.record (.commit blk) with txPool := node.txPool.setTxsPending blk.transactions })

theorem mem_txs_committedNode {txs : List Transaction}
    (txs_eq : txs.map Transaction.hash = blk.transactions.filter fun hash => !node.storage.hasTx hash) : hash ∈ (committedNode params env blk txs node).storage.txs ↔
      hash ∈ blk.transactions ∨ hash ∈ node.storage.txs := by
  have stored_eq : (committedNode params env blk txs node).storage.txs =
      txs.map Transaction.hash ++ node.storage.txs := rfl
  rw [stored_eq, List.mem_append, txs_eq, List.mem_filter, ChainStore.hasTx]
  by_cases stored : hash ∈ node.storage.txs <;> simp [stored]

theorem outcome_committedNode (preserve : params.config.preserveTxFlag = false) (env : Env) (blk : Block)
    (txs : List Transaction) (represented : node.txPool.Represented) :
    node.txPool.Outcome (committedNode params env blk txs node).txPool fun hash status =>
      if status = .notFound ∨ hash ∈ blk.transactions then .notFound
      else if hash ∈ (forkedBlocks env blk node).flatMap Block.transactions then .queue
      else status := by
  have pended := represented.setTxsPending blk.transactions
  have finished : (node.txPool.setTxsPending blk.transactions).Outcome
      (committedNode params env blk txs node).txPool fun hash status =>
        moved .queue ((forkedBlocks env blk node).flatMap Block.transactions) hash
          (moved .notFound blk.transactions hash status) :=
    outcome_finishCommit preserve env blk txs.length (executeAndStore env blk txs
      { node.record (.commit blk) with txPool := node.txPool.setTxsPending blk.transactions })
      pended.represented
  refine ⟨finished.represented, fun hash => ?_⟩
  rw [finished.status_eq, pended.status_eq]
  simp only [moved]
  grind

theorem mem_committedNode {txs : List Transaction} (traced : Traced b0 node)
    (distinct : HashesDistinct b0 (committedNode params env blk txs node).trace)
    (mem : keep ∈ node.state.blocks) (above : blk.height ≤ keep.height) :
    keep ∈ (committedNode params env blk txs node).state.blocks := by
  refine mem_finishCommit params distinct (fun other other_mem => ?_) txs.length mem above
  exact (traced.blocks other other_mem).mono ((List.suffix_cons _ _).trans (List.suffix_cons _ _))

theorem PoolStep.commit (preserve : params.config.preserveTxFlag = false) {blk : Block}
    (seen : SeenIn b0 node.trace blk) {txs : List Transaction}
    (txs_eq : txs.map Transaction.hash = blk.transactions.filter fun hash => !node.storage.hasTx hash) :
    PoolStep b0 node (committedNode params env blk txs node) := by
  have grows : node.trace <:+ (committedNode params env blk txs node).trace :=
    (List.suffix_cons _ _).trans (List.suffix_cons _ _)
  have blocks_subset : (committedNode params env blk txs node).state.blocks ⊆ node.state.blocks :=
    blocks_finishCommit_subset blk txs.length
  refine ⟨grows, fun traced => ⟨?_, ?_⟩, fun traced regular held => ?_⟩
  · exact fun other mem => (traced.blocks other (blocks_subset mem)).mono grows
  · intro other mem
    rcases mem_putBlock mem with rfl | old
    · exact seen.mono grows
    · exact (traced.stored other old).mono grows
  · have distinct := regular.distinct
    have stored_iff : ∀ hash, hash ∈ (committedNode params env blk txs node).storage.txs ↔
        hash ∈ blk.transactions ∨ hash ∈ node.storage.txs := fun _ => mem_txs_committedNode txs_eq
    have own : blk.transactions ⊆ (committedNode params env blk txs node).storage.txs :=
      fun hash mem => (stored_iff hash).mpr (Or.inl mem)
    have old : node.storage.txs ⊆ (committedNode params env blk txs node).storage.txs :=
      fun hash mem => (stored_iff hash).mpr (Or.inr mem)
    have outcome := outcome_committedNode preserve env blk txs held.represented
    have committed : ∀ hash ∈ (node.state.setCommittedBlock blk).committed, ∃ other,
        SeenIn b0 (committedNode params env blk txs node).trace other ∧ other.hash = hash ∧
          other.transactions ⊆ (committedNode params env blk txs node).storage.txs := by
      intro hash mem
      rcases List.mem_cons.mp mem with rfl | before
      · exact ⟨blk, seen.mono grows, rfl, own⟩
      · obtain ⟨other, other_seen, hash_eq, contained⟩ :=
          held.committed hash (List.mem_filter.mp before).1
        exact ⟨other, other_seen.mono grows, hash_eq, List.Subset.trans contained old⟩
    have unstored : ∀ hash, (committedNode params env blk txs node).txPool.getTxStatus hash ≠ .notFound →
        hash ∉ (committedNode params env blk txs node).storage.txs := by
      intro hash known stored
      rw [outcome.status_eq] at known
      rcases (stored_iff hash).mp stored with contained | before
      · exact known (if_pos (Or.inr contained))
      · refine known (if_pos (Or.inl ?_))
        by_contra known_before
        exact held.unstored hash known_before before
    refine ⟨held.running, outcome.represented, unstored, ?_, ?_, ?_, ?_⟩
    · intro hash pending
      have not_stored := unstored hash (by rw [pending]; exact TxStatus.noConfusion)
      rw [outcome.status_eq] at pending
      have was_pending : node.txPool.getTxStatus hash = .pending := by grind
      have not_forked : hash ∉ (forkedBlocks env blk node).flatMap Block.transactions := by grind
      obtain ⟨other, mem, contained⟩ := held.held hash was_pending
      refine ⟨other, mem_committedNode traced distinct mem (UInt64.not_lt.mp fun lower => ?_), contained⟩
      -- A lower block is forked, or it was committed and its transactions are stored.
      by_cases is_committed : other.hash ∈ (node.state.setCommittedBlock blk).committed
      · obtain ⟨same, same_seen, hash_eq, stored⟩ := committed _ is_committed
        obtain rfl := distinct same other same_seen ((traced.blocks other mem).mono grows) hash_eq
        exact not_stored (stored contained)
      · exact not_forked (List.mem_flatMap.mpr
          ⟨other, mem_forkedBlocks.mpr ⟨mem, lower, is_committed⟩, contained⟩)
    · exact fun hash mem => committed hash (committed_finishCommit_subset params blk txs.length mem)
    · intro other others mem
      rcases List.mem_cons.mp mem with same | before
      · obtain ⟨rfl, rfl⟩ := Event.execute.inj same
        exact own
      · exact List.Subset.trans (held.executed other others
          ((List.mem_cons.mp before).resolve_left (fun same => by cases same))) old
    · exact List.Subset.trans held.genesis old

/-! ## Other steps of the pool -/

theorem Held.pend (held : Held b0 node) {hashes : List Bytes}
    (outcome : node.txPool.Outcome pool (moved .pending hashes))
    (mem : blk ∈ node.state.blocks) (contained : hashes ⊆ blk.transactions) :
    Held b0 { node with txPool := pool } :=
  { held with
    represented := outcome.represented
    unstored := fun hash known => by
      refine held.unstored hash fun missing => known ?_
      rw [outcome.status_eq, missing, moved_notFound]
    held := fun hash pending => by
      rw [outcome.status_eq, moved] at pending
      split at pending
      · rename_i own
        exact ⟨blk, mem, contained own.1⟩
      · exact held.held hash pending }

theorem PoolStep.sendVote (quota : UInt64)
    (mem : Regular b0 (sendVote params blk quota node).trace → blk ∈ node.state.blocks) :
    PoolStep b0 node (sendVote params blk quota node) := by
  have recorded : PoolStep b0 node (node.record (.sendVote blk (blk.vote node.signer quota))) :=
    .record fun _ _ same => nomatch same
  refine ⟨recorded.grows, fun traced => ?_, fun traced regular held => ?_⟩
  · exact ⟨(recorded.traced traced).blocks, (recorded.traced traced).stored⟩
  · have held := recorded.held traced regular held
    have pool_eq := held.represented.setTxsPending blk.transactions
    unfold Consensus.sendVote at regular ⊢
    split
    · exact held
    · exact held.pend pool_eq (mem regular) (List.Subset.refl _)

theorem PoolStep.propose {blk : Block} {max : ℕ}
    (transactions_eq : blk.transactions = (node.txPool.popTxsFromQueue max).1) :
    PoolStep b0 node (startProposal blk { node with txPool := (node.txPool.popTxsFromQueue max).2 }) := by
  have recorded : PoolStep b0 node (node.record (.proposed blk)) := .record fun _ _ same => nomatch same
  have put : PoolStep b0 (node.record (.proposed blk)) ((node.record (.proposed blk)).setBlock blk) :=
    .setBlock fun _ => Or.inr (Or.inr List.mem_cons_self)
  have stored := recorded.trans put
  refine ⟨stored.grows, fun traced => ?_, fun traced regular held => ?_⟩
  · exact ⟨(stored.traced traced).blocks, (stored.traced traced).stored⟩
  · have held := stored.held traced regular held
    have pended := held.pend (held.represented.popTxsFromQueue max) List.mem_cons_self
      (transactions_eq ▸ List.Subset.refl _)
    exact ⟨pended.running, pended.represented, pended.unstored, pended.held, pended.committed,
      pended.executed, pended.genesis⟩

/-! ## The driver -/

section

variable (execute : params.config.executeTxFlag = true) (preserve : params.config.preserveTxFlag = false)

theorem pool_onRoleStore {α : Type} {program : Program CoreError RoleStore α}
    (keeps : ∀ store, Runs SameRoles program (fun _ _ => True) store) :
    Runs (PoolStep b0) (onRoleStore program) (fun _ _ => True) node :=
  Runs.zoom (wp_mono (keeps node.roleStore)
    (fun _ _ _ => ⟨.aside, trivial⟩) fun _ _ _ => .aside)

theorem pool_nextRequest : Runs (PoolStep b0) nextRequest (fun _ _ => True) node :=
  Runs.gets_bind (Runs.modify_bind .aside (Runs.pure trivial))

theorem pool_syncTxs (peer : PublicKey) (hashes : List Bytes) :
    Runs (PoolStep b0) (syncTxs params env peer hashes) (fun _ _ => True) node := by
  refine Runs.bind pool_nextRequest fun number node _ _ => Runs.get_bind ?_
  exact pool_onTxPool (runs_poolSyncTxs _ _ (fun _ => rfl) _ _ _ _)

/-- Blocks in memory stay there if a condition holds of them, given what is seen until some later
time. -/
def Keeps (b0 : Block) (safe : List Event → Block → Prop) (node node' : Node) : Prop :=
  Traced b0 node → ∀ trace, node'.trace <:+ trace → HashesDistinct b0 trace →
    ∀ keep ∈ node.state.blocks, safe trace keep → keep ∈ node'.state.blocks

/-- Blocks stay in memory and the status stays as it is. -/
def Fetches (b0 : Block) (node node' : Node) : Prop :=
  node'.status = node.status ∧ Keeps b0 (fun _ _ => True) node node'

theorem Fetches.refl (node : Node) : Fetches b0 node node := ⟨rfl, fun _ _ _ _ _ mem _ => mem⟩

theorem Keeps.trans {safe : List Event → Block → Prop} {node'' : Node} (first : Keeps b0 safe node node')
    (step : PoolStep b0 node node') (second : Keeps b0 safe node' node'')
    (later : PoolStep b0 node' node'') : Keeps b0 safe node node'' := by
  intro traced trace grows distinct keep mem is_safe
  have kept := first traced trace (later.grows.trans grows) distinct keep mem is_safe
  exact second (step.traced traced) trace grows distinct keep kept is_safe

theorem pool_getBlockByHash (hash : Bytes) : Runs (PoolStep b0) (getBlockByHash hash)
      (fun found node' => Fetches b0 node node' ∧
        ∀ blk, found = some blk → blk ∈ node'.state.blocks ∧ blk.hash = hash) node := by
  refine Runs.get_bind ?_
  cases in_memory : findBlock node.state.blocks hash with
  | some blk => exact Runs.pure ⟨.refl node, fun _ same => mem_of_findBlock (in_memory.trans same)⟩
  | none =>
      cases in_storage : findBlock node.storage.blocks hash with
      | none => exact Runs.pure ⟨.refl node, fun _ same => nomatch same⟩
      | some blk =>
          obtain ⟨stored, hash_eq⟩ := mem_of_findBlock in_storage
          have keeps : Fetches b0 node (node.setBlock blk) := by
            refine ⟨rfl, fun traced trace grows distinct keep mem _ => ?_⟩
            exact mem_putBlock_of_distinct distinct ((traced.stored blk stored).mono grows)
              ((traced.blocks keep mem).mono grows) mem
          refine Runs.modify_bind (.setBlock fun traced => traced.stored blk stored)
            (Runs.pure ⟨keeps, fun _ same => ?_⟩)
          obtain rfl := Option.some.inj same
          exact ⟨List.mem_cons_self, hash_eq⟩

theorem pool_qcRefHeight (qc : QuorumCert) :
    Runs (PoolStep b0) (qcRefHeight qc) (fun _ node' => Fetches b0 node node') node := by
  refine Runs.bind (pool_getBlockByHash _) fun _ node' _ ⟨fetches, _⟩ => ?_
  exact Runs.deref_bind fun _ _ => Runs.pure fetches

theorem Fetches.trans {node'' : Node} (first : Fetches b0 node node') (second : Fetches b0 node' node'')
    (steps : ReflTransGen (PoolStep b0) node node') (later : ReflTransGen (PoolStep b0) node' node'') :
    Fetches b0 node node'' :=
  ⟨second.1.trans first.1, first.2.trans (poolStep_of_steps steps) second.2 (poolStep_of_steps later)⟩

theorem pool_cmpQCPriority (left right : Option QuorumCert) :
    Runs (PoolStep b0) (cmpQCPriority left right) (fun _ node' => Fetches b0 node node') node := by
  rcases left with _ | qc1
  · exact Runs.fault
  rcases right with _ | qc2
  · exact Runs.fault
  refine Runs.ite (fun _ => Runs.pure (.refl node)) fun _ => ?_
  refine Runs.ite (fun _ => Runs.pure (.refl node)) fun _ => ?_
  refine Runs.bind (pool_qcRefHeight qc1) fun _ node1 steps1 first => ?_
  refine Runs.bind (pool_qcRefHeight qc2) fun _ node2 steps2 second => ?_
  exact Runs.pure (first.trans second steps1 steps2)

variable {blk : Block}

theorem Ancestor.trans {seen : Block → Prop} {target ancestor : Block}
    (below : Ancestor seen target blk) (above : Ancestor seen blk ancestor) : Ancestor seen target ancestor := by
  induction above with
  | self _ => exact below
  | parent _ not_genesis parent_seen hash_eq ih =>
      exact .parent ih not_genesis parent_seen hash_eq

theorem PoolStep.of_stopped (stopped : node.isExisted = true) (grows : node.trace <:+ node'.trace)
    (traced : Traced b0 node → Traced b0 node') : PoolStep b0 node node' := by
  refine ⟨grows, traced, fun _ _ held => ?_⟩
  rw [held.running] at stopped
  cases stopped

theorem Keeps.finishCommit (txCount : ℕ) (blk : Block) : Keeps b0 (fun _ keep => blk.height ≤ keep.height) node
      (finishCommit params env blk txCount (node.record (.commit blk))) :=
  fun traced _ grows distinct _ mem above => mem_finishCommit params distinct
    (fun other other_mem => (traced.blocks other other_mem).mono ((List.suffix_cons _ _).trans grows))
    txCount mem above

theorem Keeps.committedNode (txs : List Transaction) (blk : Block) :
    Keeps b0 (fun _ keep => blk.height ≤ keep.height) node (committedNode params env blk txs node) :=
  fun traced _ grows distinct _ mem above => mem_finishCommit params distinct
    (fun other other_mem => (traced.blocks other other_mem).mono
      (((List.suffix_cons _ _).trans (List.suffix_cons _ _)).trans grows)) txs.length mem above

include execute preserve

omit preserve in
/-- A commit ends with the transactions of the block executed, or stops before it changes anything. -/
theorem wp_commit (running : node.isExisted = false) (blk : Block) : wp (commit params env blk)
      (fun _ node' => ∃ txs : List Transaction,
        (txs.map Transaction.hash = blk.transactions.filter fun hash => !node.storage.hasTx hash) ∧
          node' = committedNode params env blk txs node) (fun _ node' => node' = node.record (.commit blk)) node := by
  rw [Consensus.commit, wp_bind, wp_modify, wp_bind, wp_get, wp_ite]
  refine ⟨fun stopped => absurd (running.symm.trans stopped) Bool.false_ne_true, fun _ => ?_⟩
  rw [if_pos execute, wp_bind, onTxPool, wp_zoom, getTxsToExecute, wp_bind, wp_get]
  cases split : splitTxs (node.record (.commit blk)).storage.hasTx (node.record (.commit blk)).txPool
      blk.transactions with
  | error reason => rfl
  | ok result => exact ⟨result.1, (hashes_of_splitTxs split).1, rfl⟩

theorem pool_commit (seen : SeenIn b0 node.trace blk) : Runs (PoolStep b0) (commit params env blk)
      (fun _ node' => node'.status = node.status ∧
        Keeps b0 (fun _ keep => blk.height ≤ keep.height) node node') node := by
  have recorded : PoolStep b0 node (node.record (.commit blk)) := .record fun _ _ same => nomatch same
  cases stopped : node.isExisted with
  | true =>
      rw [Runs, Consensus.commit, wp_bind, wp_modify, wp_bind, wp_get, wp_ite]
      refine ⟨fun _ => ?_, fun running => absurd stopped running⟩
      rw [wp_modify]
      refine ⟨.single (.of_stopped stopped recorded.grows fun traced => ?_), rfl, .finishCommit _ blk⟩
      have traced := recorded.traced traced
      exact ⟨fun other mem => traced.blocks other (blocks_finishCommit_subset _ _ mem), traced.stored⟩
  | false =>
      refine wp_mono (wp_commit execute stopped blk) ?_ ?_
      · rintro _ _ ⟨txs, txs_eq, rfl⟩
        have step : PoolStep b0 node (committedNode params env blk txs node) :=
          .commit preserve seen txs_eq
        exact ⟨.single step, rfl, .committedNode txs blk⟩
      · rintro _ _ rfl
        exact .single recorded

theorem pool_onCommit (fuel : ℕ) (found : Option Block) (traced : Traced b0 node)
    (seen : ∀ blk, found = some blk → SeenIn b0 node.trace blk) : Runs (PoolStep b0) (onCommit params env fuel found)
      (fun _ node' => node'.status = node.status ∧
        Keeps b0 (fun trace keep => ∀ blk, found = some blk → AncestorsBelow b0 blk trace keep) node node') node := by
  induction fuel using Nat.strong_induction_on generalizing node found with
  | _ fuel ih =>
      rw [onCommit]
      refine Runs.gets_bind (Runs.bind (runs_cmpBlockHeight _ _) ?_)
      rintro order _ _ ⟨rfl, blk, bExec, rfl, same_exec, order_eq⟩
      obtain rfl := Option.some.inj same_exec
      refine Runs.deref_bind fun _ same => ?_
      obtain rfl := Option.some.inj same
      refine Runs.ite (fun greater => ?_) fun _ => ?_
      · have higher := Std.compare_eq_gt.mp (order_eq.symm.trans greater)
        have not_genesis : blk.height ≠ 0 := fun zero => UInt64.not_lt_zero (zero ▸ higher)
        cases fuel with
        | zero => exact Runs.fault
        | succ fuel =>
            refine Runs.bind (pool_getBlockByHash _) fun found node1 steps1 fetched => ?_
            obtain ⟨fetches, is_found⟩ := fetched
            have step1 := poolStep_of_steps steps1
            have parent_seen (parent : Block) (is_parent : found = some parent) :
                SeenIn b0 node1.trace parent :=
              (step1.traced traced).blocks parent (is_found parent is_parent).1
            refine Runs.bind (ih fuel fuel.lt_succ_self found (step1.traced traced) parent_seen) ?_
            rintro _ node2 steps2 ⟨same2, keeps2⟩
            have step2 := poolStep_of_steps steps2
            have blk_seen := (seen blk rfl).mono (step1.grows.trans step2.grows)
            refine Runs.mono (pool_commit execute preserve blk_seen) ?_
            rintro _ node3 steps3 ⟨same3, keeps3⟩
            refine ⟨same3.trans (same2.trans fetches.1), fun traced trace grows distinct keep mem low => ?_⟩
            have step3 := poolStep_of_steps steps3
            have grows2 := step3.grows.trans grows
            have grows1 := step2.grows.trans grows2
            have kept1 := fetches.2 traced trace grows1 distinct keep mem trivial
            have kept2 := keeps2 (step1.traced traced) trace grows2 distinct keep kept1 fun parent is_parent => by
              intro ancestor path
              refine low blk rfl ancestor (.trans (.parent (.self (blk_seen.mono grows2)) not_genesis
                ((parent_seen parent is_parent).mono grows1) (is_found parent is_parent).2) path)
            exact keeps3 (step2.traced (step1.traced traced)) trace grows distinct keep kept2
              (low blk rfl blk (.self (blk_seen.mono grows2)))
      · exact Runs.ite (fun _ => Runs.fault) fun _ => Runs.pure ⟨rfl, fun _ _ _ _ _ mem _ => mem⟩

theorem pool_commitRecursive (traced : Traced b0 node) (seen : SeenIn b0 node.trace blk) :
    Runs (PoolStep b0) (commitRecursive params env blk)
      (fun _ node' => Keeps b0 (AncestorsBelow b0 blk) node node') node := by
  refine Runs.get_bind (Runs.bind (pool_onCommit execute preserve _ _ traced ?_) ?_)
  · exact fun _ same => Option.some.inj same ▸ seen
  · rintro _ node1 steps1 ⟨-, keeps⟩
    refine Runs.modify .aside fun traced trace grows distinct keep mem low => ?_
    exact keeps traced trace grows distinct keep mem fun _ same => Option.some.inj same ▸ low

/-! ## Synchronisation -/

omit execute preserve in
theorem pool_requestBlock (peer : PublicKey) (hash : Bytes) :
    Runs (PoolStep b0) (requestBlock params env peer hash) (fun _ _ => True) node := by
  refine Runs.bind pool_nextRequest fun number node1 _ _ => ?_
  cases env.requestBlock number peer hash with
  | none => exact Runs.throw
  | some blk =>
      refine Runs.bind (pool_onRoleStore (runs_validateBlock _ _)) fun _ node2 _ _ => ?_
      exact Runs.modify_bind (.acceptBlock blk) (Runs.pure trivial)

omit execute preserve in
theorem pool_requestBlockByHeight (peer : PublicKey) (height : UInt64) :
    Runs (PoolStep b0) (requestBlockByHeight params env peer height)
      (fun blk node' => SeenIn b0 node'.trace blk) node := by
  refine Runs.bind pool_nextRequest fun number node1 _ _ => ?_
  cases env.requestBlockByHeight number peer height with
  | none => exact Runs.throw
  | some blk =>
      refine Runs.bind (pool_onRoleStore (runs_validateBlock _ _)) fun _ node2 _ _ => ?_
      refine Runs.modify_bind (.acceptBlock blk) ?_
      refine Runs.modify_bind (.record fun _ _ same => nomatch same) (Runs.pure ?_)
      exact Or.inr (Or.inl (List.mem_cons_of_mem _ List.mem_cons_self))

theorem pool_syncSteps : SyncSteps params env (PoolStep b0) (Traced b0) fun node blk => SeenIn b0 node.trace blk where
  keeps_good steps traced := (poolStep_of_steps steps).traced traced
  keeps_given steps seen := seen.mono (poolStep_of_steps steps).grows
  getBlockByHash _ hash := Runs.mono (pool_getBlockByHash hash) fun _ _ _ _ => trivial
  requestBlock _ := pool_requestBlock
  requestBlockByHeight _ := pool_requestBlockByHeight
  syncTxs _ := pool_syncTxs
  commitRecursive traced seen :=
    Runs.mono (pool_commitRecursive execute preserve traced seen) fun _ _ _ _ => trivial

/-! ## Certificates, proposals and votes -/

omit execute preserve in
theorem pool_updateWindow (qc : QuorumCert) (blk1 : Block) :
    Runs (PoolStep b0) (updateWindow qc blk1) (fun _ node' => node'.state = node.state) node := by
  refine Runs.get_bind ?_
  cases qc.findVote node.signer with
  | none => exact Runs.fault
  | some vote =>
      refine Runs.bind (runs_ofFault _) ?_
      rintro window _ _ ⟨-, rfl⟩
      exact Runs.modify .aside rfl

theorem pool_updateQCHigh (qc : Option QuorumCert) (traced : Traced b0 node) :
    Runs (PoolStep b0) (updateQCHigh params env qc) (fun _ node' => Keeps b0 (QCBelow b0 qc) node node') node := by
  refine Runs.gets_bind (Runs.bind (pool_cmpQCPriority _ _) fun order node1 steps1 fetches1 => ?_)
  refine Runs.deref_bind fun target is_target => Runs.ite (fun _ => ?_) fun _ => ?_
  · refine Runs.bind (pool_getBlockByHash _) fun found node2 steps2 ⟨fetches2, is_found⟩ => ?_
    refine Runs.deref_bind fun blk1 same1 => ?_
    refine Runs.bind (pool_getBlockByHash _) fun found0 node3 steps3 ⟨fetches3, is_parent⟩ => ?_
    have fetches := (fetches1.trans fetches2 steps1 steps2).trans fetches3 (steps1.trans steps2) steps3
    have traced2 := (poolStep_of_steps (steps1.trans steps2)).traced traced
    have traced3 := (poolStep_of_steps steps3).traced traced2
    have seen1 := (traced2.blocks blk1 (is_found blk1 same1).1).mono (poolStep_of_steps steps3).grows
    have recorded : PoolStep b0 node3 (node3.record (.setQCHigh target blk1 node3.roleStore
        node3.status.window)) := .record fun _ _ same => nomatch same
    have set_high : PoolStep b0 node3 (setHigh target blk1 node3) :=
      recorded.trans .aside
    refine Runs.modify_bind set_high ?_
    refine Runs.bind (Runs.when (fun _ => pool_updateWindow _ _) fun _ => rfl) ?_
    intro _ node4 steps4 same_state
    have step4 := set_high.trans (poolStep_of_steps steps4)
    have seen4 := seen1.mono step4.grows
    refine Runs.modify_bind .aside (Runs.modify_bind (.storeBlock seen4) (Runs.gets_bind ?_))
    refine Runs.bind (runs_cmpBlockHeight _ _) ?_
    rintro order0 _ _ ⟨rfl, -⟩
    have stored : Keeps b0 (QCBelow b0 qc) node ((node4.storeQC target).storeBlock blk1) := by
      intro traced trace grows distinct keep mem _
      have kept := fetches.2 traced trace (step4.grows.trans grows) distinct keep mem trivial
      exact same_state ▸ kept
    refine Runs.deref_bind fun blk0 same0 => Runs.when (fun _ => ?_) fun _ => stored
    have step5 : PoolStep b0 node3 ((node4.storeQC target).storeBlock blk1) :=
      (step4.trans .aside).trans (.storeBlock seen4)
    have seen0 := (traced3.blocks blk0 (is_parent blk0 same0).1).mono step4.grows
    refine Runs.mono (pool_commitRecursive execute preserve (step5.traced traced3) seen0) ?_
    intro _ node6 steps6 keeps traced trace grows distinct keep mem below
    have grows5 := (poolStep_of_steps steps6).grows.trans grows
    refine keeps (step5.traced traced3) trace grows distinct keep
      (stored traced trace grows5 distinct keep mem below) ?_
    exact below target blk1 blk0 is_target (seen4.mono grows5) (is_found blk1 same1).2
      (seen0.mono grows5) (is_parent blk0 same0).2
  · refine Runs.pure fun traced trace grows distinct keep mem _ => ?_
    exact fetches1.2 traced trace grows distinct keep mem trivial

omit execute preserve in
theorem pool_rotatorReceiveProposal (blk : Block) : Runs (PoolStep b0) (rotatorReceiveProposal params blk)
      (fun _ node' => node'.state = node.state) node := by
  refine Runs.get_bind (Runs.when (fun _ => ?_) fun _ => rfl)
  have recorded : PoolStep b0 node (node.record (.approve blk.view (node.proposerIndex blk))) :=
    .record fun _ _ same => nomatch same
  exact Runs.modify (recorded.trans .aside) rfl

omit execute in
/-- The transactions are taken from the queue and the proposal is stored in one step. -/
theorem pool_createProposal (view : UInt32) (parent : Block) (qcHigh : QuorumCert) :
    Runs (PoolStep b0) (createProposal params env view parent qcHigh) (fun _ _ => True) node := by
  have rest (blk : Block) (node : Node) : Runs (PoolStep b0) (do
      rotatorReceiveProposal params blk
      let _ ← qcRefHeight qcHigh
      pure blk) (fun _ _ => True) node := by
    refine Runs.bind (pool_rotatorReceiveProposal blk) fun _ node1 _ _ => ?_
    exact Runs.bind (pool_qcRefHeight _) fun _ _ _ _ => Runs.pure trivial
  have proposed : PoolStep b0 node (startProposal (proposalBlock params env
      { node with txPool := (node.txPool.popTxsFromQueue params.config.blockTxLimit).2 } view parent qcHigh
        (node.txPool.popTxsFromQueue params.config.blockTxLimit).1)
      { node with txPool := (node.txPool.popTxsFromQueue params.config.blockTxLimit).2 }) :=
    .propose rfl
  rw [Runs, createProposal, wp_bind, takeTxs, wp_bind, wp_get, wp_ite]
  refine ⟨fun kept => absurd kept (by simp [preserve]), fun _ => ?_⟩
  rw [wp_bind, wp_modify, wp_pure, wp_bind, wp_get, wp_bind, wp_modify]
  exact Runs.after (.single proposed) (rest _ _)

theorem pool_driverReceiveVote (vote : Vote) (traced : Traced b0 node) :
    Runs (PoolStep b0) (driverReceiveVote params env vote) (fun _ _ => True) node := by
  refine Runs.get_bind ?_
  cases node.status.addVote vote with
  | error reason => exact Runs.throw
  | ok status =>
      have added : PoolStep b0 node (node.setStatus status) := .aside
      refine Runs.modify_bind added (Runs.bind (pool_getBlockByHash _) fun _ node1 steps1 _ => ?_)
      refine Runs.deref_bind fun _ _ => Runs.get_bind (Runs.bind (runs_ofFault _) ?_)
      rintro enough node1 _ ⟨-, rfl⟩
      refine Runs.ite (fun _ => ?_) fun _ => Runs.pure trivial
      have built (qc : QuorumCert) (tally : Tally) : PoolStep b0 node1 (node1.record (.builtQC qc tally)) :=
        .record fun _ _ same => nomatch same
      have traced1 := (poolStep_of_steps steps1).traced (added.traced traced)
      refine Runs.modify_bind (built _ _) (Runs.modify_bind .aside ?_)
      refine Runs.bind (pool_updateQCHigh execute preserve _ ?_) fun _ _ _ _ => ?_
      · exact PoolStep.traced .aside ((built _ _).traced traced1)
      · exact Runs.modify .aside trivial

/-! ## Handlers -/

theorem pool_onReceiveProposal (blk : Block) (traced : Traced b0 node) :
    Runs (PoolStep b0) (onReceiveProposal params env blk) (fun _ _ => True) node := by
  refine Runs.bind (pool_onRoleStore (runs_validateBlock _ _)) fun _ node1 steps1 _ => ?_
  have validated : PoolStep b0 node1 (node1.record (.validated blk)) := .record fun _ _ same => nomatch same
  have traced1 := validated.traced ((poolStep_of_steps steps1).traced traced)
  refine Runs.modify_bind validated ?_
  refine Runs.bind ((pool_syncSteps execute preserve).syncParentBlock blk traced1) fun _ node2 steps2 _ => ?_
  refine Runs.bind (Runs.when (fun _ => pool_syncTxs _ _) fun _ => trivial) fun _ node3 steps3 _ => ?_
  have accepted : PoolStep b0 node3 (node3.acceptBlock blk) := .acceptBlock blk
  have traced3 := accepted.traced ((poolStep_of_steps (steps2.trans steps3)).traced traced1)
  refine Runs.modify_bind accepted ?_
  refine Runs.bind (pool_rotatorReceiveProposal blk) fun _ node4 steps4 same_state => ?_
  have traced4 := (poolStep_of_steps steps4).traced traced3
  have mem4 : blk ∈ node4.state.blocks := same_state ▸ List.mem_cons_self
  refine Runs.get_bind (Runs.throwIf_bind fun _ => ?_)
  refine Runs.bind (pool_cmpQCPriority _ _) fun order node5 steps5 fetches => ?_
  refine Runs.throwIf_bind fun _ => ?_
  have traced5 := (poolStep_of_steps steps5).traced traced4
  refine Runs.bind (pool_updateQCHigh execute preserve _ traced5) fun _ node6 steps6 keeps => ?_
  have grows : (node1.record (.validated blk)).trace <:+ node6.trace :=
    (poolStep_of_steps (steps2.trans steps3)).grows.trans (accepted.grows.trans
      (poolStep_of_steps ((steps4.trans steps5).trans steps6)).grows)
  -- The certificate is not above the proposal, so the proposal is still in memory.
  have kept (trace : List Event) (later : node6.trace <:+ trace) (regular : Regular b0 trace) :
      blk ∈ node6.state.blocks := by
    have mem5 := fetches.2 traced4 trace ((poolStep_of_steps steps6).grows.trans later) regular.distinct
      blk mem4 trivial
    refine keeps traced5 trace later regular.distinct blk mem5 (regular.below blk ?_)
    exact (grows.trans later).subset List.mem_cons_self
  refine Runs.get_bind (Runs.throwIf_bind fun _ => ?_)
  refine Runs.bind (runs_verifyBlockToVote blk) ?_
  rintro _ _ _ rfl
  refine Runs.bind runs_getVoteQuota ?_
  rintro quota _ _ rfl
  refine Runs.modify_bind (.sendVote quota fun regular => kept _ (List.suffix_cons _ _) regular) ?_
  exact Runs.deref_bind fun _ _ => Runs.bind (pool_qcRefHeight _) fun _ _ _ _ => Runs.pure trivial

theorem pool_onReceiveVote (vote : Vote) (traced : Traced b0 node) :
    Runs (PoolStep b0) (onReceiveVote params env vote) (fun _ _ => True) node := by
  refine Runs.bind (pool_onRoleStore (runs_validateVote _ _)) fun _ node1 steps1 _ => ?_
  refine Runs.get_bind (Runs.throwIf_bind fun _ => ?_)
  exact pool_driverReceiveVote execute preserve vote ((poolStep_of_steps steps1).traced traced)

theorem pool_broadcastAndVote (blk : Block) (traced : Traced b0 node) :
    Runs (PoolStep b0) (broadcastAndVote params env blk) (fun _ _ => True) node := by
  have broadcast : PoolStep b0 node (node.record (.broadcastProposal blk)) :=
    .record fun _ _ same => nomatch same
  have traced := broadcast.traced traced
  refine Runs.modify_bind broadcast ?_
  refine Runs.bind (pool_updateQCHigh execute preserve _ traced) fun _ node1 steps1 _ => ?_
  refine Runs.bind runs_getVoteQuota ?_
  rintro quota _ _ rfl
  refine Runs.get_bind (Runs.discardError ?_ fun _ _ => trivial)
  exact pool_driverReceiveVote execute preserve _ ((poolStep_of_steps steps1).traced traced)

theorem pool_newProposal (traced : Traced b0 node) :
    Runs (PoolStep b0) (newProposal params env) (fun _ _ => True) node := by
  refine Runs.get_bind (Runs.ite (fun _ => Runs.pure trivial) fun _ => ?_)
  refine Runs.ite (fun _ => Runs.pure trivial) fun _ => ?_
  refine Runs.bind (pool_createProposal preserve _ _ _) fun blk node1 steps1 _ => ?_
  exact pool_broadcastAndVote execute preserve blk ((poolStep_of_steps steps1).traced traced)

theorem pool_newViewProposal (traced : Traced b0 node) :
    Runs (PoolStep b0) (newViewProposal params env) (fun _ _ => True) node := by
  have announced : PoolStep b0 node (node.record (.newView node.status.view node.roleStore)) :=
    .record fun _ _ same => nomatch same
  refine Runs.modify_bind announced (Runs.gets_bind (Runs.bind (pool_getBlockByHash _) ?_))
  intro _ node1 steps1 _
  have traced1 := (poolStep_of_steps steps1).traced (announced.traced traced)
  refine Runs.deref_bind fun parent _ => Runs.get_bind ?_
  refine Runs.bind (pool_createProposal preserve _ _ _) fun blk node2 steps2 _ => ?_
  exact pool_broadcastAndVote execute preserve blk ((poolStep_of_steps steps2).traced traced1)

omit execute preserve in
theorem PoolStep.countQC (sender : PublicKey) (change : UInt32) : PoolStep b0 node (countQC sender change node) := by
  have recorded : PoolStep b0 node (node.record (.countedQC sender change)) :=
    .record fun _ _ same => nomatch same
  exact recorded.trans .aside

omit execute preserve in
theorem pool_changeView : Runs (PoolStep b0) changeView (fun _ _ => True) node := by
  refine Runs.get_bind (Runs.bind (runs_ofFault _) ?_)
  rintro nextIdx node _ ⟨-, rfl⟩
  refine Runs.deref_bind fun nextLeader _ => Runs.when (fun _ => ?_) fun _ => trivial
  have began : PoolStep b0 node (node.record (.setLeader nextIdx.toNat)) :=
    .record fun _ _ same => nomatch same
  refine Runs.modify_bind (began.trans .aside) (Runs.ite (fun _ => ?_) fun _ => ?_)
  · exact Runs.modify (.record fun _ _ same => nomatch same) trivial
  · exact Runs.modify (.countQC _ _) trivial

omit execute preserve in
theorem pool_onLeaderTimeout : Runs (PoolStep b0) onLeaderTimeout (fun _ _ => True) node := by
  refine Runs.modify_bind .aside (Runs.bind pool_changeView fun _ node1 _ _ => ?_)
  exact Runs.get_bind (Runs.when (fun _ => Runs.modify .aside trivial) fun _ => trivial)

omit execute preserve in
theorem pool_onViewTimeout : Runs (PoolStep b0) onViewTimeout (fun _ _ => True) node :=
  Runs.modify_bind .aside pool_changeView

omit execute preserve in
theorem pool_enterNextView : Runs (PoolStep b0) enterNextView (fun _ _ => True) node := by
  refine Runs.get_bind (Runs.when (fun _ => Runs.bind (runs_ofFault _) ?_) fun _ => trivial)
  rintro nextIdx node _ ⟨-, rfl⟩
  have viewed : PoolStep b0 node (node.setStatus { node.status with
      view := node.rotator.oldView + 1
      leaderIndex := nextIdx }) := .aside
  refine Runs.modify_bind (viewed.trans (.record fun _ _ same => nomatch same)) ?_
  exact Runs.bind (pool_qcRefHeight _) fun _ _ _ _ => Runs.pure trivial

theorem pool_onReceiveQC (sender : PublicKey) (change : UInt32) (qc : QuorumCert) (traced : Traced b0 node) :
    Runs (PoolStep b0) (onReceiveQC params env sender change qc) (fun _ _ => True) node := by
  refine Runs.bind (pool_onRoleStore (runs_validateQC _ _)) fun _ node1 steps1 _ => ?_
  have received : PoolStep b0 node1 (node1.record (.receivedQC qc)) := .record fun _ _ same => nomatch same
  have traced1 := received.traced ((poolStep_of_steps steps1).traced traced)
  refine Runs.modify_bind received ?_
  refine Runs.bind ((pool_syncSteps execute preserve).getOrRequestBlock _ _) fun blk node2 steps2 _ => ?_
  have traced2 := (poolStep_of_steps steps2).traced traced1
  refine Runs.bind ((pool_syncSteps execute preserve).syncParentBlock blk traced2) fun _ node3 steps3 _ => ?_
  refine Runs.bind (Runs.when (fun _ => pool_syncTxs _ _) fun _ => trivial) fun _ node4 steps4 _ => ?_
  have traced4 := (poolStep_of_steps (steps3.trans steps4)).traced traced2
  refine Runs.bind (pool_updateQCHigh execute preserve _ traced4) fun _ node5 steps5 _ => ?_
  refine Runs.bind pool_enterNextView fun _ node6 steps6 _ => ?_
  have counted : PoolStep b0 node6 (countQC sender change node6) := .countQC _ _
  have traced6 := counted.traced ((poolStep_of_steps (steps5.trans steps6)).traced traced4)
  refine Runs.modify_bind counted (Runs.get_bind (Runs.when (fun _ => ?_) fun _ => trivial))
  exact pool_newViewProposal execute preserve traced6

theorem pool_handle (input : Input) (traced : Traced b0 node) :
    Runs (PoolStep b0) (handle params env input) (fun _ _ => True) node := by
  cases input with
  | propose =>
      have used : PoolStep b0 node { node with proposeCh := node.proposeCh - 1 } := .aside
      refine Runs.get_bind (Runs.ite (fun _ => Runs.pure trivial) fun _ => ?_)
      exact Runs.modify_bind used (pool_newProposal execute preserve (used.traced traced))
  | proposal blk => exact pool_onReceiveProposal execute preserve blk traced
  | vote vote => exact pool_onReceiveVote execute preserve vote traced
  | qc sender change qc => exact pool_onReceiveQC execute preserve sender change qc traced
  | leaderTimeout => exact pool_onLeaderTimeout
  | viewTimeout => exact pool_onViewTimeout
  | submitTx tx => exact Runs.get_bind (pool_onTxPool (runs_submitTx _ _ (fun _ => rfl) tx _))
  | receiveTx tx => exact Runs.get_bind (pool_onTxPool (runs_addNewTx _ _ (fun _ => rfl) tx _))

theorem pool_receive (input : Input) (traced : Traced b0 node) : PoolStep b0 node (node.receive params env input) := by
  have handled : Runs (PoolStep b0) (handle params env input) (fun _ _ => True) node :=
    pool_handle execute preserve input traced
  have step := poolStep_of_steps handled.reached
  unfold Program.final at step
  unfold Node.receive
  split
  · next fault node' ending =>
      rw [ending] at step
      exact step.trans .aside
  · next result node' _ ending =>
      rw [ending] at step
      exact step

/-! ## Runs -/

theorem NodeRun.poolStep {start : Node} (run : NodeRun params anyEnv start node)
    (traced : Traced b0 start) : PoolStep b0 start node := by
  induction run with
  | start => exact .refl start
  | step _ _ _ input ih =>
      exact ih.trans (pool_receive execute preserve input (ih.traced traced))

end

/-- A pool at the start of a node. Nothing is pending, nothing is stored, and the genesis transactions
are. -/
structure PoolReady (b0 : Block) (start : Node) : Prop where
  represented : start.txPool.Represented
  unstored : ∀ hash, start.txPool.getTxStatus hash ≠ .notFound → hash ∉ start.storage.txs
  idle : ∀ hash, start.txPool.getTxStatus hash ≠ .pending
  genesis : b0.transactions ⊆ start.storage.txs

/-- The block is neither the genesis block nor executed, nor is its hash among the committed ones. -/
structure Uncommitted (b0 : Block) (node : Node) (blk : Block) : Prop where
  not_genesis : blk ≠ b0
  not_committed : blk.hash ∉ node.state.committed
  not_executed : ∀ txs, .execute blk txs ∉ node.trace

theorem Held.uncommitted (held : Held b0 node) (traced : Traced b0 node)
    (distinct : HashesDistinct b0 node.trace) (mem : blk ∈ node.state.blocks)
    (contained : hash ∈ blk.transactions) (not_stored : hash ∉ node.storage.txs) : Uncommitted b0 node blk where
  not_genesis := by
    rintro rfl
    exact not_stored (held.genesis contained)
  not_committed is_committed := by
    obtain ⟨same, same_seen, hash_eq, stored⟩ := held.committed _ is_committed
    obtain rfl := distinct same blk same_seen (traced.blocks blk mem) hash_eq
    exact not_stored (stored contained)
  not_executed txs executed := not_stored (held.executed blk txs executed contained)

theorem Started.held {signer : Signer} {roleStore : RoleStore} {start : Node}
    (started : Started params signer roleStore b0 start) (ready : PoolReady b0 start) :
    Traced b0 start ∧ Held b0 start := by
  obtain ⟨q0, txs, merkleRoot, pool, -, -, _, window, ⟨blocks, rfl, -, origin⟩, rfl⟩ :=
    started.sets_up openInbox
  have seen (blk : Block) (mem : blk ∈ [b0]) : SeenIn b0 [] blk := Or.inl (List.mem_singleton.mp mem)
  refine ⟨⟨fun blk mem => seen blk ((origin blk mem).elim id id), seen⟩, ?_⟩
  exact
    { ready with
      running := rfl
      held := fun hash pending => absurd pending (ready.idle hash)
      committed := fun _ mem => absurd mem List.not_mem_nil
      executed := fun _ _ mem => absurd mem List.not_mem_nil }

/-- The transactions of a block that a commit leaves behind are stored or back in the queue, unless the
pool never had them. -/
theorem forked_txs_commit (execute : params.config.executeTxFlag = true)
    (preserve : params.config.preserveTxFlag = false) {fork : Block}
    (running : node.isExisted = false) (represented : node.txPool.Represented)
    (committed : commit params env blk node = (.ok (), node')) (mem : fork ∈ node.state.blocks)
    (lower : fork.height < blk.height)
    (abandoned : fork.hash ∉ (node.state.setCommittedBlock blk).committed) (contained : hash ∈ fork.transactions)
    (known : node.txPool.getTxStatus hash ≠ .notFound) :
    hash ∈ node'.storage.txs ∨ node'.txPool.getTxStatus hash = .queue := by
  have ended : wp (commit params env blk) _ _ node := wp_commit execute running blk
  rw [wp, committed] at ended
  obtain ⟨txs, txs_eq, rfl⟩ := ended
  by_cases own : hash ∈ blk.transactions
  · exact Or.inl ((mem_txs_committedNode txs_eq).mpr (Or.inl own))
  · right
    have forked : hash ∈ (forkedBlocks env blk node).flatMap Block.transactions :=
      List.mem_flatMap.mpr ⟨fork, mem_forkedBlocks.mpr ⟨mem, lower, abandoned⟩, contained⟩
    rw [(outcome_committedNode preserve env blk txs represented).status_eq,
      if_neg (by simp [known, own]), if_pos forked]

/-- In a run where no proposal carries a certificate that is above it, every pending transaction is in
a block in memory that is not committed. A commit stores the transactions of the lower blocks that it
leaves behind or puts them back. -/
theorem pending_in_uncommitted_block {signer : Signer} {roleStore : RoleStore} {start : Node}
    (execute : params.config.executeTxFlag = true) (preserve : params.config.preserveTxFlag = false)
    (started : Started params signer roleStore b0 start) (ready : PoolReady b0 start)
    (run : NodeRun params anyEnv start node) (regular : Regular b0 node.trace) :
    (∀ hash, node.txPool.getTxStatus hash = .pending →
      ∃ blk ∈ node.state.blocks, hash ∈ blk.transactions ∧ Uncommitted b0 node blk) ∧
    ∀ env mid mid' blk, mid.isExisted = false → mid.txPool.Represented →
      commit params env blk mid = (.ok (), mid') →
        ∀ fork ∈ mid.state.blocks, fork.height < blk.height →
          fork.hash ∉ (mid.state.setCommittedBlock blk).committed → ∀ hash ∈ fork.transactions,
            mid.txPool.getTxStatus hash ≠ .notFound →
              hash ∈ mid'.storage.txs ∨ mid'.txPool.getTxStatus hash = .queue := by
  obtain ⟨traced, held⟩ := started.held ready
  have step := run.poolStep execute preserve traced
  have held := step.held traced regular held
  refine ⟨fun hash pending => ?_, fun env mid mid' blk running represented committed fork mem lower
    abandoned hash contained known => ?_⟩
  · obtain ⟨blk, mem, contained⟩ := held.held hash pending
    have not_stored := held.unstored hash (by rw [pending]; exact TxStatus.noConfusion)
    exact ⟨blk, mem, contained,
      held.uncommitted (step.traced traced) regular.distinct mem contained not_stored⟩
  · exact forked_txs_commit execute preserve running represented committed mem lower abandoned contained
      known

/-! ## A proposal below its certificate -/

/-- The blocks that were seen. -/
def seenBlocks (b0 : Block) (trace : List Event) : List Block :=
  b0 :: trace.filterMap fun event =>
    match event with
    | .received blk | .proposed blk => some blk
    | _ => none

theorem mem_seenBlocks (seen : SeenIn b0 trace blk) : blk ∈ seenBlocks b0 trace := by
  rw [seenBlocks, List.mem_cons, List.mem_filterMap]
  rcases seen with rfl | received | proposed
  · exact Or.inl rfl
  · exact Or.inr ⟨_, received, rfl⟩
  · exact Or.inr ⟨_, proposed, rfl⟩

/-- The same for the list of blocks that were seen. -/
def DistinctSeen (b0 : Block) (trace : List Event) : Prop :=
  ∀ blk ∈ seenBlocks b0 trace, ∀ blk' ∈ seenBlocks b0 trace, blk.hash = blk'.hash → blk = blk'

instance (b0 : Block) (trace : List Event) : Decidable (DistinctSeen b0 trace) :=
  inferInstanceAs (Decidable (∀ blk ∈ seenBlocks b0 trace, ∀ blk' ∈ seenBlocks b0 trace,
    blk.hash = blk'.hash → blk = blk'))

theorem DistinctSeen.hashesDistinct (distinct : DistinctSeen b0 trace) :
    HashesDistinct b0 trace := fun blk blk' seen seen' =>
  distinct blk (mem_seenBlocks seen) blk' (mem_seenBlocks seen')

/-- A block of the leader under a parent, with a certificate for any block. -/
def leaderBlock (parent certified : Block) (height execHeight : UInt64) (transactions : List Bytes) :
    Block :=
  let qc := bothVotes certified
  Block.sign transparentCrypto (transparentSigner 1)
    { hash := [], view := 0, height := height, parentHash := parent.hash, execHeight := execHeight
      merkleRoot := [], timestamp := 0, transactions := transactions
      quorumCert := some qc.data, signature := none } (some qc)

/-- The chain of the leader. -/
def firstBlk : Block := leaderBlock (transparentBlock []) (transparentBlock []) 1 0 []
def secondBlk : Block := leaderBlock firstBlk firstBlk 2 0 []
def thirdBlk : Block := leaderBlock secondBlk secondBlk 3 1 []

/-- A second block at height one, with the certificate of the third block. -/
def lowBlk : Block := leaderBlock (transparentBlock []) thirdBlk 1 2 [(transparentTx [1] [2]).hash]

/-- The second validator, after the chain, a transaction and the block below its certificate. -/
def strandedNode : Node :=
  secondValidator.receiveAll transparentParams silentEnv
    [.receiveTx (transparentTx [1] [2]), .proposal firstBlk, .proposal secondBlk, .proposal thirdBlk,
      .proposal lowBlk]

theorem secondValidator_ready : PoolReady (transparentBlock []) secondValidator where
  represented := TxStore.represented_new
  unstored _ _ := List.not_mem_nil
  idle _ := TxStatus.noConfusion
  genesis := List.nil_subset _

/-- The validator votes for every block of the chain. The last proposal makes it commit the second
block, which deletes the proposal, and then it votes and sets the transaction pending. -/
theorem stranded_transaction :
    Started transparentParams (transparentSigner 2) twoValidators (transparentBlock []) secondValidator ∧
    PoolReady (transparentBlock []) secondValidator ∧
    NodeRun transparentParams anyEnv secondValidator strandedNode ∧
    HashesDistinct (transparentBlock []) strandedNode.trace ∧
    strandedNode.alive = true ∧
    (∀ blk ∈ [firstBlk, secondBlk, thirdBlk, lowBlk],
      .sendVote blk (blk.vote (transparentSigner 2) 1) ∈ strandedNode.trace) ∧
    strandedNode.txPool.getTxStatus (transparentTx [1] [2]).hash = .pending ∧
    ∀ blk ∈ strandedNode.state.blocks, (transparentTx [1] [2]).hash ∉ blk.transactions := by
  have scene : DistinctSeen (transparentBlock []) strandedNode.trace ∧
      strandedNode.alive = true ∧
      (∀ blk ∈ [firstBlk, secondBlk, thirdBlk, lowBlk],
        .sendVote blk (blk.vote (transparentSigner 2) 1) ∈ strandedNode.trace) ∧
      strandedNode.txPool.getTxStatus (transparentTx [1] [2]).hash = .pending ∧
      ∀ blk ∈ strandedNode.state.blocks, (transparentTx [1] [2]).hash ∉ blk.transactions := by
    decide +kernel
  exact ⟨secondValidator_started, secondValidator_ready, NodeRun.receiveAll .start trivial _ scene.2.1,
    scene.1.hashesDistinct, scene.2⟩

/-- The second validator, after a transaction and a block with it at height one. -/
def pendingNode : Node :=
  secondValidator.receiveAll transparentParams silentEnv [.receiveTx (transparentTx [1] [2]),
    .proposal (leaderBlock (transparentBlock []) (transparentBlock []) 1 0 [(transparentTx [1] [2]).hash])]

theorem pendingNode_regular : Regular (transparentBlock []) pendingNode.trace where
  distinct := DistinctSeen.hashesDistinct (by decide +kernel)
  below := by
    have seen_low : ∀ blk ∈ seenBlocks (transparentBlock []) pendingNode.trace, blk.height ≤ 1 := by
      decide +kernel
    have validated_high : ∀ blk ∈ pendingNode.trace.filterMap fun event =>
        match event with
        | .validated blk => some blk
        | _ => none, blk.height = 1 := by
      decide +kernel
    intro blk validated _ _ _ _ _ _ _ _ ancestor path
    rw [validated_high blk (List.mem_filterMap.mpr ⟨_, validated, rfl⟩)]
    exact seen_low ancestor (mem_seenBlocks path.seen)

/-- The transaction is pending, and so a block in memory has it. -/
theorem pending_in_uncommitted_block_pendingNode :
    pendingNode.txPool.getTxStatus (transparentTx [1] [2]).hash = .pending ∧
    ∃ blk ∈ pendingNode.state.blocks, (transparentTx [1] [2]).hash ∈ blk.transactions ∧
      Uncommitted (transparentBlock []) pendingNode blk := by
  have pending : pendingNode.txPool.getTxStatus (transparentTx [1] [2]).hash = .pending := by decide +kernel
  have run : NodeRun transparentParams anyEnv secondValidator pendingNode :=
    NodeRun.receiveAll .start trivial _ (by decide +kernel)
  exact ⟨pending, (pending_in_uncommitted_block rfl rfl secondValidator_started secondValidator_ready run
    pendingNode_regular).1 _ pending⟩

end SvpChain.Consensus
