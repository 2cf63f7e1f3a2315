import SvpChain.Consensus.Pending
import SvpChain.Core.Certificate

/-!
# Proposals that end the process

`onReceiveProposal` looks up blocks and goes on with what it finds.  For a proposal that needs no answer of
a peer, this module says exactly when one of these lookups is missed, or a commit does not come down to the
last executed block, so that the handler ends in a panic.
-/

namespace SvpChain.Consensus

open Core TxPool Program

variable {params : Params} {env : Env} {node node' : Node}

/-! ## What a node has at hand -/

/-- The block that `getBlockByHash` finds. -/
def Node.lookup (node : Node) (hash : Bytes) : Option Block :=
  (findBlock node.state.blocks hash).or (findBlock node.storage.blocks hash)

/-- A transaction is stored or in the pool. -/
def Node.HasTx (node : Node) (hash : Bytes) : Prop :=
  node.storage.hasTx hash = true ∨ (node.txPool.getTx hash).isSome = true

/-- `commit` finds the transactions of a block. -/
def Committable (params : Params) (node : Node) (blk : Block) : Prop :=
  node.isExisted = false → params.config.executeTxFlag = true → ∀ hash ∈ blk.transactions, node.HasTx hash

/-- The way of `onCommit` down to the last executed block. -/
inductive CommitPath (params : Params) (node : Node) : ℕ → Block → Prop where
  | executed {blk : Block} (low : ¬ node.status.bExec.height < blk.height)
      (same : node.status.bExec.hash = blk.hash) : CommitPath params node 0 blk
  | parent {n : ℕ} {blk parent : Block} (above : node.status.bExec.height < blk.height)
      (found : node.lookup blk.parentHash = some parent) (below : CommitPath params node n parent)
      (committable : Committable params node blk) : CommitPath params node (n + 1) blk

/-- The result of `cmpQCPriority`, where it has one. -/
def Node.qcOrder (node : Node) (qc1 qc2 : QuorumCert) : Option Ordering :=
  if qc2.view < qc1.view then some .gt
  else if qc1.view < qc2.view then some .lt
  else
    match node.lookup qc1.blockHash, node.lookup qc2.blockHash with
    | some blk1, some blk2 => some (compare blk1.height blk2.height)
    | _, _ => none

/-- A certificate that `updateQCHigh` comes to an end with. -/
def Adoptable (params : Params) (node : Node) (qc : Option QuorumCert) : Prop :=
  ∃ target order, qc = some target ∧ node.qcOrder target node.status.qcHigh = some order ∧
    (order = .gt → ∃ blk1 blk0, node.lookup target.blockHash = some blk1 ∧
      node.lookup blk1.parentHash = some blk0 ∧
        (node.status.bExec.height < blk0.height → blk0.view = blk1.view →
          ∃ n, CommitPath params node n blk0))

/-- Two nodes that have the same at hand. -/
structure Alike (params : Params) (node node' : Node) : Prop where
  lookup : ∀ hash, node'.lookup hash = node.lookup hash
  bExec : node'.status.bExec = node.status.bExec
  committable : ∀ blk, Committable params node' blk ↔ Committable params node blk

namespace Alike

theorem refl (node : Node) : Alike params node node := ⟨fun _ => rfl, rfl, fun _ => Iff.rfl⟩

theorem trans {node'' : Node} (first : Alike params node node') (second : Alike params node' node'') :
    Alike params node node'' where
  lookup hash := (second.lookup hash).trans (first.lookup hash)
  bExec := second.bExec.trans first.bExec
  committable blk := (second.committable blk).trans (first.committable blk)

theorem symm (alike : Alike params node node') : Alike params node' node where
  lookup hash := (alike.lookup hash).symm
  bExec := alike.bExec.symm
  committable blk := (alike.committable blk).symm

theorem commitPath (alike : Alike params node node') {n : ℕ} {blk : Block}
    (path : CommitPath params node n blk) : CommitPath params node' n blk := by
  induction path with
  | executed low same => exact .executed (alike.bExec ▸ low) (alike.bExec ▸ same)
  | parent above found _ committable ih =>
      exact .parent (alike.bExec ▸ above) ((alike.lookup _).trans found) ih
        ((alike.committable _).mpr committable)

theorem qcOrder (alike : Alike params node node') (qc1 qc2 : QuorumCert) :
    node'.qcOrder qc1 qc2 = node.qcOrder qc1 qc2 := by
  simp only [Node.qcOrder, alike.lookup]

theorem adoptable (alike : Alike params node node') (high : node'.status.qcHigh = node.status.qcHigh)
    {qc : Option QuorumCert} (adoptable : Adoptable params node qc) : Adoptable params node' qc := by
  obtain ⟨target, order, is_target, compared, higher⟩ := adoptable
  refine ⟨target, order, is_target, ?_, fun greater => ?_⟩
  · rw [high, alike.qcOrder, compared]
  · obtain ⟨blk1, blk0, found1, found0, commits⟩ := higher greater
    refine ⟨blk1, blk0, (alike.lookup _).trans found1, (alike.lookup _).trans found0, ?_⟩
    rw [alike.bExec]
    exact fun above same_view => (commits above same_view).imp fun _ => alike.commitPath

theorem adoptable_iff (alike : Alike params node node') (high : node'.status.qcHigh = node.status.qcHigh)
    {qc : Option QuorumCert} : Adoptable params node' qc ↔ Adoptable params node qc :=
  ⟨alike.symm.adoptable high.symm, alike.adoptable high⟩

end Alike

/-! ## Lookups -/

/-- The outcome of a part of a handler that stops by a fault exactly where a condition fails. -/
def FaultsUnless (condition : Prop) (halt : Halt ConsensusError) : Prop :=
  (∃ reason, halt = .fault reason) ∧ ¬ condition

/-- Blocks of the storage were put into memory. -/
def Cached (node node' : Node) : Prop :=
  ∃ blocks, node' = { node with state := { node.state with blocks := blocks } } ∧
    ∀ hash, node'.lookup hash = node.lookup hash

theorem Cached.refl (node : Node) : Cached node node := ⟨node.state.blocks, rfl, fun _ => rfl⟩

theorem Cached.trans {node'' : Node} (first : Cached node node') (second : Cached node' node'') :
    Cached node node'' := by
  obtain ⟨blocks, rfl, same⟩ := first
  obtain ⟨blocks', rfl, same'⟩ := second
  exact ⟨blocks', rfl, fun hash => (same' hash).trans (same hash)⟩

theorem Cached.alike (cached : Cached node node') : Alike params node node' := by
  obtain ⟨blocks, rfl, same⟩ := cached
  exact ⟨same, rfl, fun _ => Iff.rfl⟩

theorem lookup_setBlock (node : Node) (blk : Block) (hash : Bytes) :
    (node.setBlock blk).lookup hash = if hash = blk.hash then some blk else node.lookup hash := by
  unfold Node.lookup Node.setBlock
  split
  · next same => rw [same, findBlock_putBlock_self, Option.some_or]
  · next different => rw [findBlock_putBlock_of_ne (Ne.symm different)]

theorem wp_getBlockByHash (hash : Bytes) {stop : Halt ConsensusError → Node → Prop} :
    wp (getBlockByHash hash) (fun found node' => found = node.lookup hash ∧ Cached node node' ∧
      ∀ blk, found = some blk → findBlock node'.state.blocks hash = some blk) stop node := by
  rw [getBlockByHash, wp_bind, wp_get]
  cases in_memory : findBlock node.state.blocks hash with
  | some blk =>
      refine ⟨by rw [Node.lookup, in_memory]; rfl, .refl node, fun other same => ?_⟩
      rw [in_memory, same]
  | none =>
      cases in_storage : findBlock node.storage.blocks hash with
      | none =>
          refine ⟨by rw [Node.lookup, in_memory, in_storage]; rfl, .refl node, fun other same => nomatch same⟩
      | some blk =>
          have looked : node.lookup hash = some blk := by rw [Node.lookup, in_memory, in_storage]; rfl
          have hash_eq : blk.hash = hash := (mem_of_findBlock in_storage).2
          refine ⟨looked.symm, ⟨_, rfl, fun other => ?_⟩, fun other same => ?_⟩
          · refine (lookup_setBlock node blk other).trans ?_
            split
            · next same => rw [same, hash_eq, looked]
            · rfl
          · obtain rfl := Option.some.inj same
            exact hash_eq ▸ findBlock_putBlock_self _ _

theorem wp_cmpQCPriority (qc1 qc2 : QuorumCert) : wp (cmpQCPriority (some qc1) (some qc2))
      (fun order node' => node.qcOrder qc1 qc2 = some order ∧ Cached node node')
      (fun halt _ => FaultsUnless (∃ order, node.qcOrder qc1 qc2 = some order) halt) node := by
  rw [cmpQCPriority, wp_ite]
  refine ⟨fun greater => ⟨if_pos greater, .refl node⟩, fun not_greater => ?_⟩
  rw [wp_ite]
  refine ⟨fun less => ⟨by rw [Node.qcOrder, if_neg not_greater, if_pos less], .refl node⟩, fun not_less => ?_⟩
  have order_eq : node.qcOrder qc1 qc2 = match node.lookup qc1.blockHash, node.lookup qc2.blockHash with
      | some blk1, some blk2 => some (compare blk1.height blk2.height)
      | _, _ => none := by
    rw [Node.qcOrder, if_neg not_greater, if_neg not_less]
  rw [wp_bind, qcRefHeight]
  refine wp_then (wp_getBlockByHash qc1.blockHash) ?_
  rintro _ node1 ⟨rfl, cached1, -⟩
  rw [wp_bind, wp_deref]
  refine ⟨fun blk1 found1 => ?_, fun missing => ⟨⟨_, rfl⟩, ?_⟩⟩
  · rw [wp_pure, wp_bind, qcRefHeight]
    refine wp_then (wp_getBlockByHash qc2.blockHash) ?_
    rintro _ node2 ⟨rfl, cached2, -⟩
    have ⟨_, _, same⟩ := cached1
    rw [wp_bind, wp_deref, same]
    refine ⟨fun blk2 found2 => ?_, fun missing => ⟨⟨_, rfl⟩, ?_⟩⟩
    · rw [wp_pure, wp_pure, order_eq, found1, found2]
      exact ⟨rfl, cached1.trans cached2⟩
    · rw [order_eq, found1, missing]
      simp
  · rw [order_eq, missing]
    simp

/-! ## Commits -/

theorem isSome_findBlock_putBlock {blocks : List Block} {hash : Bytes} (found : (findBlock blocks hash).isSome = true)
    (blk : Block) : (findBlock (putBlock blocks blk) hash).isSome = true := by
  by_cases same : blk.hash = hash
  · rw [← same, findBlock_putBlock_self]
    rfl
  · rwa [findBlock_putBlock_of_ne same]

/-- What commits leave. -/
structure Commits (params : Params) (node node' : Node) : Prop where
  status_eq : node'.status = node.status
  committable : ∀ blk, Committable params node' blk ↔ Committable params node blk
  stored : ∀ hash, (findBlock node.storage.blocks hash).isSome = true →
    (findBlock node'.storage.blocks hash).isSome = true

theorem Commits.trans {node'' : Node} (first : Commits params node node') (second : Commits params node' node'') :
    Commits params node node'' where
  status_eq := second.status_eq.trans first.status_eq
  committable blk := (second.committable blk).trans (first.committable blk)
  stored hash found := second.stored hash (first.stored hash found)

theorem Cached.commits (cached : Cached node node') : Commits params node node' := by
  obtain ⟨blocks, rfl, -⟩ := cached
  exact ⟨rfl, fun _ => Iff.rfl, fun _ => id⟩

theorem txs_foldl_putTxsToQueue (blks : List Block) (pool : TxStore) :
    (blks.foldl (fun pool blk => pool.putTxsToQueue blk.transactions) pool).txs = pool.txs := by
  induction blks generalizing pool with
  | nil => rfl
  | cons blk blks ih => rw [List.foldl_cons, ih, TxStore.txs_putTxsToQueue]

theorem getTx_finishCommit (blk : Block) (txCount : ℕ) (hash : Bytes) :
    (finishCommit params env blk txCount node).txPool.getTx hash =
      if params.config.preserveTxFlag = false ∧ hash ∈ blk.transactions then none
      else node.txPool.getTx hash := by
  simp only [finishCommit, cleanStateOnCommitted]
  rw [TxStore.getTx_eq, txs_foldl_putTxsToQueue, ← TxStore.getTx_eq]
  cases params.config.preserveTxFlag with
  | true => simp
  | false => simp [TxStore.getTx_removeTxs]

/-- The transactions at hand stay at hand: those that leave the pool are stored. -/
theorem hasTx_committedNode {blk : Block} {txs : List Transaction}
    (txs_eq : txs.map Transaction.hash = blk.transactions.filter fun hash => !node.storage.hasTx hash)
    (available : ∀ hash ∈ blk.transactions, node.HasTx hash) (hash : Bytes) :
    (committedNode params env blk txs node).HasTx hash ↔ node.HasTx hash := by
  have stored_iff : (committedNode params env blk txs node).storage.hasTx hash = true ↔
      hash ∈ blk.transactions ∨ node.storage.hasTx hash = true := by
    rw [ChainStore.hasTx, ChainStore.hasTx, decide_eq_true_iff, decide_eq_true_iff]
    exact mem_txs_committedNode txs_eq
  rw [Node.HasTx, stored_iff]
  by_cases own : hash ∈ blk.transactions
  · exact iff_of_true (Or.inl (Or.inl own)) (available hash own)
  · have kept : (committedNode params env blk txs node).txPool.getTx hash = node.txPool.getTx hash := by
      rw [committedNode, getTx_finishCommit, if_neg fun removed => own removed.2]
      exact TxStore.getTx_setTxsPending _ _ hash
    rw [kept, or_iff_right own]
    rfl

theorem committable_congr (same : node'.isExisted = node.isExisted)
    (available : node.isExisted = false → params.config.executeTxFlag = true →
      ∀ hash, node'.HasTx hash ↔ node.HasTx hash) (blk : Block) :
    Committable params node' blk ↔ Committable params node blk := by
  rw [Committable, Committable, same]
  exact forall₂_congr fun running execute => forall₂_congr fun hash _ => available running execute hash

/-- `commit` misses nothing but transactions. -/
theorem wp_commit_iff (blk : Block) : wp (commit params env blk)
      (fun _ node' => Committable params node blk ∧ Commits params node node')
      (fun halt _ => FaultsUnless (Committable params node blk) halt) node := by
  rw [commit, wp_bind, wp_modify, wp_bind, wp_get, wp_ite]
  refine ⟨fun stopped => ?_, fun running => ?_⟩
  · have not_running : node.isExisted ≠ false := fun running => Bool.false_ne_true (running.symm.trans stopped)
    exact ⟨fun running => absurd running not_running, rfl,
      committable_congr rfl fun running => absurd running not_running, fun _ => id⟩
  · rw [wp_ite]
    refine ⟨fun execute => ?_, fun mock => ?_⟩
    · rw [wp_bind, onTxPool, wp_zoom, getTxsToExecute, wp_bind, wp_get]
      have running : node.isExisted = false := Bool.not_eq_true _ ▸ running
      cases split : splitTxs (node.record (.commit blk)).storage.hasTx (node.record (.commit blk)).txPool
          blk.transactions with
      | error reason =>
          refine ⟨⟨reason, rfl⟩, fun committable => ?_⟩
          obtain ⟨result, ok⟩ := splitTxs_isOk_iff.mpr (committable running execute)
          cases split.symm.trans ok
      | ok result =>
          have available : ∀ hash ∈ blk.transactions, node.HasTx hash := splitTxs_isOk_iff.mp ⟨result, split⟩
          change Committable params node blk ∧ Commits params node (committedNode params env blk result.1 node)
          refine ⟨fun _ _ => available, rfl, committable_congr rfl fun _ _ => ?_, fun hash found => ?_⟩
          · exact hasTx_committedNode (hashes_of_splitTxs split).1 available
          · exact isSome_findBlock_putBlock found blk
    · exact ⟨fun _ execute => absurd execute mock, rfl,
        committable_congr rfl fun _ execute => absurd execute mock,
        fun hash found => isSome_findBlock_putBlock found blk⟩

theorem CommitPath.unique {n n' : ℕ} {blk : Block} (path : CommitPath params node n blk)
    (path' : CommitPath params node n' blk) : n = n' := by
  induction path generalizing n' with
  | executed low _ =>
      cases path' with
      | executed => rfl
      | parent above => exact absurd above low
  | parent above found _ _ ih =>
      cases path' with
      | executed low => exact absurd above low
      | parent _ found' below' =>
          obtain rfl := Option.some.inj (found.symm.trans found')
          rw [ih below']

theorem lookup_mem {hash : Bytes} {blk : Block} (found : node.lookup hash = some blk) :
    blk ∈ node.state.blocks ++ node.storage.blocks := by
  rcases Option.or_eq_some_iff.mp found with in_memory | ⟨-, in_storage⟩
  · exact List.mem_append_left _ (mem_of_findBlock in_memory).1
  · exact List.mem_append_right _ (mem_of_findBlock in_storage).1

theorem CommitPath.blocks {n : ℕ} {blk : Block} (path : CommitPath params node n blk) :
    ∃ blks : List Block, blks.length = n ∧ blks.Nodup ∧ blks ⊆ node.state.blocks ++ node.storage.blocks ∧
      ∀ other ∈ blks, ∃ m < n, CommitPath params node m other := by
  induction path with
  | executed => exact ⟨[], rfl, List.nodup_nil, List.nil_subset _, nofun⟩
  | @parent n blk parent above found below _ ih =>
      obtain ⟨blks, rfl, nodup, inside, shorter⟩ := ih
      refine ⟨parent :: blks, rfl, List.nodup_cons.mpr ⟨fun again => ?_, nodup⟩,
        List.cons_subset.mpr ⟨lookup_mem found, inside⟩, ?_⟩
      · obtain ⟨m, less, path⟩ := shorter parent again
        exact absurd (below.unique path) (Nat.ne_of_gt less)
      · intro other mem
        rcases List.mem_cons.mp mem with rfl | mem
        · exact ⟨_, Nat.lt_succ_self _, below⟩
        · obtain ⟨m, less, path⟩ := shorter other mem
          exact ⟨m, Nat.lt_succ_of_lt less, path⟩

theorem CommitPath.le_blocks {n : ℕ} {blk : Block} (path : CommitPath params node n blk) :
    n ≤ node.state.blocks.length + node.storage.blocks.length := by
  obtain ⟨blks, rfl, nodup, inside, -⟩ := path.blocks
  have bound := (nodup.subperm inside).length_le
  rwa [List.length_append] at bound

theorem wp_executed (fuel : ℕ) {blk : Block} (low : ¬ node.status.bExec.height < blk.height) :
    wp (if node.status.bExec.hash ≠ blk.hash then fault (.fatal "safety breached") else pure ())
      (fun _ node' => (∃ n ≤ fuel, CommitPath params node n blk) ∧ Commits params node node')
      (fun halt _ => FaultsUnless (∃ n ≤ fuel, CommitPath params node n blk) halt) node := by
  rw [wp_ite]
  refine ⟨fun breached => ⟨⟨_, rfl⟩, ?_⟩, fun same => ?_⟩
  · rintro ⟨n, -, path⟩
    cases path with
    | executed _ same => exact breached same
    | parent above => exact low above
  · exact ⟨⟨0, Nat.zero_le _, .executed low (not_not.mp same)⟩, (Cached.refl node).commits⟩

/-- `onCommit` comes to an end along a path down to the last executed block, and in no other way. -/
theorem wp_onCommit (fuel : ℕ) (blk : Block) : wp (onCommit params env fuel (some blk))
      (fun _ node' => (∃ n ≤ fuel, CommitPath params node n blk) ∧ Commits params node node')
      (fun halt _ => FaultsUnless (∃ n ≤ fuel, CommitPath params node n blk) halt) node := by
  induction fuel generalizing blk node with
  | zero =>
      rw [onCommit, wp_bind, wp_gets, cmpBlockHeight, wp_bind, wp_pure, wp_bind, Program.deref, wp_pure, wp_ite,
        Std.compare_eq_gt]
      refine ⟨fun above => ⟨⟨_, rfl⟩, ?_⟩, wp_executed 0⟩
      rintro ⟨n, none_left, path⟩
      cases path with
      | executed low => exact low above
      | parent => cases none_left
  | succ fuel ih =>
      rw [onCommit, wp_bind, wp_gets, cmpBlockHeight, wp_bind, wp_pure, wp_bind, Program.deref, wp_pure, wp_ite,
        Std.compare_eq_gt]
      refine ⟨fun above => ?_, wp_executed (fuel + 1)⟩
      refine wp_then (wp_getBlockByHash blk.parentHash) ?_
      rintro _ node1 ⟨rfl, cached, -⟩
      have alike : Alike params node node1 := cached.alike
      rw [wp_bind]
      cases found : node.lookup blk.parentHash with
      | none =>
          -- the comparison of a missing block panics, whatever is left of the fuel
          have misses : wp (onCommit params env fuel none) (fun _ _ => False)
              (fun halt _ => ∃ reason, halt = .fault reason) node1 := by
            rw [onCommit, wp_bind, wp_gets, wp_bind]
            exact ⟨_, rfl⟩
          refine wp_mono misses (fun _ _ absurd => absurd.elim) fun _ _ faults => ⟨faults, ?_⟩
          rintro ⟨n, -, path⟩
          cases path with
          | executed low => exact low above
          | parent _ found' => cases found.symm.trans found'
      | some parent =>
          have path_iff : (∃ n ≤ fuel + 1, CommitPath params node n blk) ↔
              (∃ n ≤ fuel, CommitPath params node1 n parent) ∧ Committable params node blk := by
            constructor
            · rintro ⟨n, le, path⟩
              cases path with
              | executed low => exact absurd above low
              | parent _ found' below committable =>
                  obtain rfl := Option.some.inj (found.symm.trans found')
                  exact ⟨⟨_, Nat.le_of_succ_le_succ le, alike.commitPath below⟩, committable⟩
            · rintro ⟨⟨n, le, below⟩, committable⟩
              exact ⟨n + 1, Nat.succ_le_succ le, .parent above found (alike.symm.commitPath below) committable⟩
          refine wp_mono (ih parent) ?_ fun _ _ stopped =>
            ⟨stopped.1, fun path => stopped.2 (path_iff.mp path).1⟩
          rintro _ node2 ⟨path, commits⟩
          have committable_iff := (commits.committable blk).trans (alike.committable blk)
          refine wp_mono (wp_commit_iff blk) ?_ fun _ _ stopped =>
            ⟨stopped.1, fun path => stopped.2 (committable_iff.mpr (path_iff.mp path).2)⟩
          rintro _ node3 ⟨committable, commits'⟩
          exact ⟨path_iff.mpr ⟨path, committable_iff.mp committable⟩,
            (cached.commits.trans commits).trans commits'⟩

theorem wp_commitRecursive (blk : Block) : wp (commitRecursive params env blk)
      (fun _ node' => (∃ n, CommitPath params node n blk) ∧ node'.status.window = node.status.window ∧
        ∀ hash, (findBlock node.storage.blocks hash).isSome = true →
          (findBlock node'.storage.blocks hash).isSome = true)
      (fun halt _ => FaultsUnless (∃ n, CommitPath params node n blk) halt) node := by
  have path_iff : (∃ n ≤ node.state.blocks.length + node.storage.blocks.length + 1,
      CommitPath params node n blk) ↔ ∃ n, CommitPath params node n blk :=
    ⟨fun ⟨n, _, path⟩ => ⟨n, path⟩, fun ⟨n, path⟩ => ⟨n, Nat.le_succ_of_le path.le_blocks, path⟩⟩
  rw [commitRecursive, wp_bind, wp_get, wp_bind, ← path_iff]
  refine wp_mono (wp_onCommit _ blk) ?_ fun _ _ stopped => stopped
  rintro _ node' ⟨path, commits⟩
  have window_eq : node'.status.window = node.status.window := congrArg Status.window commits.status_eq
  exact ⟨path, window_eq, commits.stored⟩

/-! ## Stakes -/

namespace Window

/-- A window that `update` and `vote` can work on. -/
structure Usable (w : Window) : Prop where
  qcQuotas : w.qcQuotas ≠ []
  voteQuotas : w.voteQuotas ≠ []
  size : UInt64.ofNat w.size ≠ 0
  strategy : w.strategy ≤ 3
  limit : w.limit.toNat < 2 ^ 62

theorem Usable.update {w : Window} (usable : w.Usable) (qc vote height : UInt64) :
    ∃ w', w.update qc vote height = .ok w' ∧ w'.Usable := by
  obtain ⟨qcFirst, qcRest, qcQuotas_eq⟩ := List.exists_cons_of_ne_nil usable.qcQuotas
  obtain ⟨voteFirst, voteRest, voteQuotas_eq⟩ := List.exists_cons_of_ne_nil usable.voteQuotas
  by_cases higher : w.height < height
  · refine ⟨_, (update_eq_ok_iff higher).mpr ⟨_, _, _, _, qcQuotas_eq, voteQuotas_eq, rfl⟩, ?_⟩
    exact ⟨by simp, by simp, usable.size, usable.strategy, usable.limit⟩
  · exact ⟨w, update_of_not_lt higher, usable⟩

theorem clamp_sub_ne {high low : UInt64} (le : low.toNat ≤ high.toNat) (close : high.toNat < low.toNat + 2 ^ 62)
    (pre : UInt64) : clamp (high - pre) - clamp (low - pre) + 1 ≠ 0 := by
  obtain ⟨gap, high_eq⟩ := Nat.exists_eq_add_of_le le
  have high_eq : high = low + UInt64.ofNat gap := by
    rw [← UInt64.toNat_inj, UInt64.toNat_add, UInt64.toNat_ofNat']
    have := high.toNat_lt
    omega
  have small : gap < 2 ^ 62 := by omega
  have shifted : high - pre = low - pre + UInt64.ofNat gap := by
    rw [high_eq]
    grind
  rw [shifted]
  generalize low - pre = rest
  have rest_lt := rest.toNat_lt
  intro crossed
  have crossed := congrArg UInt64.toNat crossed
  unfold clamp at crossed
  split at crossed <;> split at crossed <;>
    simp only [UInt64.toNat_add, UInt64.toNat_sub, UInt64.toNat_ofNat', UInt64.toNat_zero,
      UInt64.toNat_one] at * <;> omega

/-- The random strategy never divides by zero: its bounds do not cross. -/
theorem bounds_ne {limit : UInt64} (small : limit.toNat < 2 ^ 62) (pre : UInt64) :
    clamp ((3 * limit + 3) / 4 - pre) - clamp ((limit + 1) / 2 - pre) + 1 ≠ 0 := by
  have high : ((3 * limit + 3) / 4).toNat = (3 * limit.toNat + 3) / 4 := by
    simp [UInt64.toNat_div, UInt64.toNat_add, UInt64.toNat_mul]
    omega
  have low : ((limit + 1) / 2).toNat = (limit.toNat + 1) / 2 := by
    simp [UInt64.toNat_div, UInt64.toNat_add]
    omega
  exact clamp_sub_ne (by omega) (by omega) pre

theorem Usable.vote {w : Window} (usable : w.Usable) (preserveTxFlag : Bool) (rand : UInt64) :
    ∃ result, w.vote preserveTxFlag rand = .ok result := by
  obtain ⟨voted, rest, voteQuotas_eq⟩ := List.exists_cons_of_ne_nil usable.voteQuotas
  have average : quotient w.limit (UInt64.ofNat w.size) = .ok (w.limit / UInt64.ofNat w.size) :=
    if_neg usable.size
  have random := bounds_ne usable.limit (w.voteAcc - voted)
  unfold Window.vote
  split
  · exact ⟨_, by rw [average]; rfl⟩
  · rw [voteQuotas_eq]
    by_cases late : preserveTxFlag = false ∧ 50 < w.height
    · exact ⟨_, by simp only [first, bind, Except.bind, if_pos late]; rfl⟩
    · exact ⟨_, by simp only [first, bind, Except.bind, if_neg late, remainder, if_neg random]; rfl⟩
  · split
    · exact ⟨_, rfl⟩
    · exact ⟨_, by rw [average]; rfl⟩
  · split
    · split
      · exact ⟨_, by rw [voteQuotas_eq]; rfl⟩
      · exact ⟨_, rfl⟩
    · exact ⟨_, by rw [average]; rfl⟩
  · next other0 other1 other2 other3 =>
      have bound := UInt8.le_iff_toNat_le.mp usable.strategy
      have ne0 := mt UInt8.toNat_inj.mp other0
      have ne1 := mt UInt8.toNat_inj.mp other1
      have ne2 := mt UInt8.toNat_inj.mp other2
      have ne3 := mt UInt8.toNat_inj.mp other3
      simp only [UInt8.toNat_ofNat] at bound ne0 ne1 ne2 ne3
      omega

end Window

theorem findVoteIn_isSome (target : PublicKey) {sigs : List Signature} {quotas : List UInt64}
    (enough : sigs.length ≤ quotas.length) : (QuorumCert.findVoteIn target sigs quotas).isSome = true := by
  induction sigs generalizing quotas with
  | nil => rfl
  | cons sig sigs ih =>
      cases quotas with
      | nil => exact absurd enough (Nat.not_succ_le_zero _)
      | cons quota quotas =>
          rw [QuorumCert.findVoteIn]
          split
          · rfl
          · exact ih (Nat.le_of_succ_le_succ enough)

section

variable {qc : QuorumCert} {blk : Block}

theorem wp_updateWindow (enough : qc.sigs.length ≤ qc.data.quotas.length) (usable : node.status.window.Usable)
    {stop : Halt ConsensusError → Node → Prop} :
    wp (updateWindow qc blk) (fun _ node' => ∃ window : Window, window.Usable ∧
      node' = node.setStatus { node.status with window := window }) stop node := by
  obtain ⟨vote, found⟩ := Option.isSome_iff_exists.mp (findVoteIn_isSome node.signer.pubKey enough)
  obtain ⟨window, updated, usable'⟩ := usable.update qc.sumQuota vote blk.height
  have found : qc.findVote node.signer = some vote := found
  rw [updateWindow, wp_bind, wp_get, found, wp_bind, updated]
  exact ⟨window, usable', rfl⟩

theorem wp_getVoteQuota (usable : params.config.twoPhaseBFTFlag = false → node.status.window.Usable) :
    wp (getVoteQuota params env) (fun _ node' => node' = node) (fun halt _ => ∃ reason, halt = .error reason) node := by
  rw [getVoteQuota, wp_ite]
  refine ⟨fun _ => rfl, fun three_phase => ?_⟩
  obtain ⟨result, voted⟩ := (usable (Bool.not_eq_true _ ▸ three_phase)).vote params.config.preserveTxFlag env.rand
  rw [wp_bind, wp_get, wp_bind, voted]
  change wp (throwIf _ _ >>= _) _ _ _
  rw [wp_bind, wp_throwIf]
  exact ⟨fun _ => ⟨_, rfl⟩, fun _ => rfl⟩

/-! ## Adoption of a certificate -/

theorem lookup_storeBlock (found : node.lookup blk.hash = some blk) (hash : Bytes) :
    (node.storeBlock blk).lookup hash = node.lookup hash := by
  unfold Node.lookup at found ⊢
  change (findBlock node.state.blocks hash).or (findBlock (putBlock node.storage.blocks blk) hash) = _
  by_cases same : blk.hash = hash
  · subst same
    rw [findBlock_putBlock_self, found]
    cases in_memory : findBlock node.state.blocks blk.hash with
    | none => rfl
    | some other => rwa [in_memory] at found
  · rw [findBlock_putBlock_of_ne same]

theorem hash_of_lookup {hash : Bytes} (found : node.lookup hash = some blk) : blk.hash = hash := by
  rcases Option.or_eq_some_iff.mp found with in_memory | ⟨-, in_storage⟩
  · exact (mem_of_findBlock in_memory).2
  · exact (mem_of_findBlock in_storage).2

theorem isSome_lookup_of_stored {hash : Bytes} (stored : (findBlock node.storage.blocks hash).isSome = true) :
    (node.lookup hash).isSome = true := by
  rw [Node.lookup, Option.isSome_or, stored, Bool.or_true]

theorem isSome_lookup_of_qcOrder {qc' : QuorumCert} (compared : node.qcOrder qc qc' = some .eq) :
    (node.lookup qc.blockHash).isSome = true := by
  rw [Node.qcOrder] at compared
  split at compared
  · cases compared
  · split at compared
    · cases compared
    · cases found : node.lookup qc.blockHash with
      | none => simp [found] at compared
      | some blk => rfl

/-- What `updateQCHigh` has done when it returns. -/
structure Adopted (params : Params) (qc : QuorumCert) (node node' : Node) : Prop where
  adoptable : Adoptable params node (some qc)
  usable : params.config.twoPhaseBFTFlag = false → node'.status.window.Usable
  found : node.qcOrder qc node.status.qcHigh ≠ some .lt → (node'.lookup qc.blockHash).isSome = true

/-- A higher certificate leads to a commit that comes to an end. -/
def Commitable (params : Params) (node : Node) (blk1 : Block) (blk0 : Option Block) : Prop :=
  ∃ parent, blk0 = some parent ∧ (node.status.bExec.height < parent.height → parent.view = blk1.view →
    ∃ n, CommitPath params node n parent)

theorem wp_commitParent {blk1 : Block} {blk0 : Option Block} :
    wp (do
        let bExec ← Program.gets fun node => node.status.bExec
        let order0 ← cmpBlockHeight blk0 (some bExec)
        let blk0 ← Program.deref blk0
        Program.when (order0 = .gt ∧ blk0.view = blk1.view) (commitRecursive params env blk0))
      (fun _ node' => Commitable params node blk1 blk0 ∧ node'.status.window = node.status.window ∧
        ∀ hash, (findBlock node.storage.blocks hash).isSome = true →
          (findBlock node'.storage.blocks hash).isSome = true)
      (fun halt _ => FaultsUnless (Commitable params node blk1 blk0) halt) node := by
  rw [wp_bind, wp_gets, wp_bind]
  cases blk0 with
  | none =>
      refine ⟨⟨_, rfl⟩, ?_⟩
      rintro ⟨parent, found, -⟩
      cases found
  | some parent =>
      rw [cmpBlockHeight, wp_pure, wp_bind, Program.deref, wp_pure, Program.when, wp_ite, Std.compare_eq_gt]
      refine ⟨fun commits => ?_, fun not_commits => ⟨⟨parent, rfl, fun above same_view =>
        absurd ⟨above, same_view⟩ not_commits⟩, rfl, fun _ => id⟩⟩
      refine wp_mono (wp_commitRecursive parent) ?_ ?_
      · rintro _ node' ⟨path, window_eq, stored⟩
        exact ⟨⟨parent, rfl, fun _ _ => path⟩, window_eq, stored⟩
      · rintro halt _ ⟨faults, no_path⟩
        refine ⟨faults, ?_⟩
        rintro ⟨other, same, path⟩
        obtain rfl := Option.some.inj same
        exact no_path (path commits.1 commits.2)

theorem wp_moveWindow (enough : qc.sigs.length ≤ qc.data.quotas.length)
    (usable : params.config.twoPhaseBFTFlag = false → node.status.window.Usable) :
    wp (Program.when (params.config.twoPhaseBFTFlag = false) (updateWindow qc blk))
      (fun _ node' => ∃ window : Window, (params.config.twoPhaseBFTFlag = false → window.Usable) ∧
        node' = node.setStatus { node.status with window := window })
      (fun _ _ => False) node := by
  rw [Program.when, wp_ite]
  refine ⟨fun three_phase => ?_, fun two_phase => ?_⟩
  · refine wp_mono (wp_updateWindow enough (usable three_phase)) ?_ fun _ _ stopped => stopped
    rintro _ node' ⟨window, usable', rfl⟩
    exact ⟨window, fun _ => usable', rfl⟩
  · exact ⟨node.status.window, fun three_phase => absurd three_phase two_phase, rfl⟩

theorem alike_stored {blk1 : Block} (found : node.lookup blk1.hash = some blk1) (qc : QuorumCert)
    (window : Window) :
    Alike params node ((((setHigh qc blk1 node).setStatus
      { (setHigh qc blk1 node).status with window := window }).storeQC qc).storeBlock blk1) :=
  ⟨lookup_storeBlock (found : Node.lookup (((setHigh qc blk1 node).setStatus _).storeQC qc) _ = _), rfl,
    fun _ => Iff.rfl⟩

/-- `updateQCHigh` faults exactly for a certificate that is not adoptable. -/
theorem wp_updateQCHigh_iff (enough : qc.sigs.length ≤ qc.data.quotas.length)
    (usable : params.config.twoPhaseBFTFlag = false → node.status.window.Usable) :
    wp (updateQCHigh params env (some qc)) (fun _ node' => Adopted params qc node node')
      (fun halt _ => FaultsUnless (Adoptable params node (some qc)) halt) node := by
  rw [updateQCHigh, wp_bind, wp_gets, wp_bind]
  refine wp_mono (wp_cmpQCPriority qc node.status.qcHigh) ?_ ?_
  swap
  · rintro halt _ ⟨faults, incomparable⟩
    refine ⟨faults, ?_⟩
    rintro ⟨target, order, same, compared, -⟩
    obtain rfl := Option.some.inj same
    exact incomparable ⟨order, compared⟩
  rintro order node1 ⟨compared, cached⟩
  have status1 : node1.status = node.status := by
    obtain ⟨_, rfl, -⟩ := cached
    rfl
  rw [wp_bind, Program.deref, wp_pure, wp_ite]
  refine ⟨fun greater => ?_, fun not_greater => ⟨⟨qc, order, rfl, compared, fun greater =>
    absurd greater not_greater⟩, ?_, fun not_less => ?_⟩⟩
  · -- the certificate is higher: its block and the parent of that block are needed
    subst greater
    have adoptable_iff : Adoptable params node (some qc) ↔ ∃ blk1 blk0,
        node1.lookup qc.blockHash = some blk1 ∧ node1.lookup blk1.parentHash = some blk0 ∧
          (node1.status.bExec.height < blk0.height → blk0.view = blk1.view →
            ∃ n, CommitPath params node1 n blk0) := by
      have alike : Alike params node node1 := cached.alike
      rw [← alike.adoptable_iff (congrArg Status.qcHigh status1)]
      constructor
      · rintro ⟨target, order, same, compared', higher⟩
        obtain rfl := Option.some.inj same
        rw [alike.qcOrder, status1, compared] at compared'
        obtain rfl := Option.some.inj compared'
        exact higher rfl
      · intro higher
        refine ⟨qc, .gt, rfl, ?_, fun _ => higher⟩
        rw [alike.qcOrder, status1, compared]
    rw [adoptable_iff]
    refine wp_then (wp_getBlockByHash qc.blockHash) ?_
    rintro _ node2 ⟨rfl, cached2, -⟩
    rw [wp_bind, wp_deref]
    refine ⟨fun blk1 found1 => ?_, fun missing => ⟨⟨_, rfl⟩, ?_⟩⟩
    swap
    · rintro ⟨blk1, -, found1, -⟩
      cases missing.symm.trans found1
    refine wp_then (wp_getBlockByHash blk1.parentHash) ?_
    rintro _ node3 ⟨rfl, cached3, -⟩
    have cached := cached2.trans cached3
    rw [wp_bind, wp_modify, wp_bind]
    have usable3 : params.config.twoPhaseBFTFlag = false → (setHigh qc blk1 node3).status.window.Usable := by
      obtain ⟨_, rfl, -⟩ := cached
      change _ → node1.status.window.Usable
      rw [status1]
      exact usable
    refine wp_mono (wp_moveWindow enough usable3) ?_ fun _ _ stopped => stopped.elim
    rintro _ node4 ⟨window, usable4, rfl⟩
    rw [wp_bind, wp_modify, wp_bind, wp_modify]
    have found3 : node3.lookup blk1.hash = some blk1 := by
      obtain ⟨_, _, same⟩ := id cached
      rw [same, hash_of_lookup found1, found1]
    have alike1 : Alike params node1 node3 := cached.alike
    have alike := alike1.trans (alike_stored found3 qc window)
    obtain ⟨_, _, same⟩ := id cached2
    rw [same]
    refine wp_mono wp_commitParent ?_ ?_
    · rintro _ node5 ⟨⟨blk0, found0, path⟩, window_eq, stored⟩
      refine ⟨adoptable_iff.mpr ⟨blk1, blk0, found1, found0, fun above same_view => ?_⟩, ?_, fun _ => ?_⟩
      · exact (path (alike.bExec ▸ above) same_view).imp fun _ => alike.symm.commitPath
      · rw [window_eq]
        exact usable4
      · refine isSome_lookup_of_stored (stored _ ?_)
        rw [← hash_of_lookup found1]
        exact Option.isSome_iff_exists.mpr ⟨blk1, findBlock_putBlock_self _ _⟩
    · rintro halt _ ⟨faults, no_path⟩
      refine ⟨faults, ?_⟩
      rintro ⟨blk1', blk0, found1', found0, path⟩
      obtain rfl := Option.some.inj (found1.symm.trans found1')
      refine no_path ⟨blk0, found0, fun above same_view => ?_⟩
      exact (path (alike.bExec ▸ above) same_view).imp fun _ => alike.commitPath
  · rw [status1]
    exact usable
  · obtain ⟨_, _, same⟩ := id cached
    rw [same]
    cases order with
    | lt => exact absurd compared not_less
    | eq => exact isSome_lookup_of_qcOrder compared
    | gt => exact absurd rfl not_greater

/-! ## The vote -/

theorem wp_verifyTxs (hashes : List Bytes) :
    wp (verifyTxs blk hashes) (fun _ node' => node' = node) (fun halt _ => ∃ reason, halt = .error reason) node := by
  induction hashes with
  | nil => exact rfl
  | cons hash hashes ih =>
      rw [verifyTxs, wp_bind, wp_get, wp_bind, wp_throwIf]
      refine ⟨fun _ => ⟨_, rfl⟩, fun _ => ?_⟩
      cases node.txPool.getTx hash with
      | none => exact ⟨_, rfl⟩
      | some tx =>
          rw [wp_bind, wp_throwIf]
          exact ⟨fun _ => ⟨_, rfl⟩, fun _ => ih⟩

theorem wp_verifyBlockToVote : wp (verifyBlockToVote params blk) (fun _ node' => node' = node)
      (fun halt _ => ∃ reason, halt = .error reason) node := by
  have txs : wp (verifyBlockTxs params blk) (fun _ node' => node' = node)
      (fun halt _ => ∃ reason, halt = .error reason) node := by
    rw [verifyBlockTxs, Program.when, wp_ite]
    exact ⟨fun _ => wp_verifyTxs blk.transactions, fun _ => rfl⟩
  rw [verifyBlockToVote, wp_bind, wp_get, wp_bind, Program.when, wp_ite]
  refine ⟨fun _ => ?_, fun _ => txs⟩
  rw [wp_bind, verifyExecHeight, wp_bind, wp_get, wp_throwIf]
  refine ⟨fun _ => ⟨_, rfl⟩, fun _ => ?_⟩
  rw [verifyMerkleRoot, wp_bind, wp_get, wp_throwIf]
  exact ⟨fun _ => ⟨_, rfl⟩, fun _ => txs⟩

theorem wp_voteProposal (certified : blk.quorumCert = some qc) (found : (node.lookup qc.blockHash).isSome = true)
    (usable : params.config.twoPhaseBFTFlag = false → node.status.window.Usable) :
    wp (voteProposal params env blk) (fun _ _ => True) (fun halt _ => ∃ reason, halt = .error reason) node := by
  rw [voteProposal, wp_bind, wp_get, wp_bind, wp_throwIf]
  refine ⟨fun _ => ⟨_, rfl⟩, fun _ => ?_⟩
  refine wp_then wp_verifyBlockToVote ?_
  rintro _ _ rfl
  refine wp_then (wp_getVoteQuota usable) ?_
  rintro quota _ rfl
  rw [wp_bind, wp_modify, wp_bind, certified, Program.deref, wp_pure, wp_bind, qcRefHeight]
  refine wp_then (wp_getBlockByHash qc.blockHash) ?_
  rintro _ node' ⟨rfl, -, -⟩
  obtain ⟨target, found⟩ := Option.isSome_iff_exists.mp found
  have found : (sendVote params blk quota _).lookup qc.blockHash = some target := found
  rw [wp_bind, found]
  trivial

/-! ## Requests -/

/-- Nothing is fetched with an answer of a peer. -/
structure Quiet (params : Params) (env : Env) (node : Node) (blk : Block) : Prop where
  parent : blk.height = 0 ∨ (node.lookup blk.parentHash).isSome = true ∨
    ∀ number peer, env.requestBlock number peer blk.parentHash = none
  txs : params.config.executeTxFlag = true → (∀ hash ∈ blk.transactions, node.HasTx hash) ∨
    ∀ number peer hashes, env.requestTxList number peer hashes = none

/-- What the handler may have changed before it accepts the block. -/
structure Fetched (node node' : Node) : Prop where
  lookup : ∀ hash, node'.lookup hash = node.lookup hash
  status_eq : node'.status = node.status
  isExisted_eq : node'.isExisted = node.isExisted
  hasTx : ∀ hash, node'.HasTx hash ↔ node.HasTx hash

theorem Fetched.trans {node'' : Node} (first : Fetched node node') (second : Fetched node' node'') :
    Fetched node node'' where
  lookup hash := (second.lookup hash).trans (first.lookup hash)
  status_eq := second.status_eq.trans first.status_eq
  isExisted_eq := second.isExisted_eq.trans first.isExisted_eq
  hasTx hash := (second.hasTx hash).trans (first.hasTx hash)

theorem Cached.fetched (cached : Cached node node') : Fetched node node' := by
  obtain ⟨blocks, rfl, same⟩ := cached
  exact ⟨same, rfl, rfl, fun _ => Iff.rfl⟩

theorem wp_requestBlock_unanswered {peer : PublicKey} {hash : Bytes}
    (unanswered : ∀ number peer, env.requestBlock number peer hash = none) :
    wp (requestBlock params env peer hash) (fun _ _ => False) (fun halt _ => ∃ reason, halt = .error reason) node := by
  rw [requestBlock, wp_bind, nextRequest, wp_bind, wp_gets, wp_bind, wp_modify, wp_pure, unanswered]
  exact ⟨_, rfl⟩

theorem wp_getOrRequestBlock_unanswered {peer : PublicKey} {hash : Bytes} (missing : node.lookup hash = none)
    (unanswered : ∀ number peer, env.requestBlock number peer hash = none) :
    wp (getOrRequestBlock params env peer hash) (fun _ _ => False)
      (fun halt _ => ∃ reason, halt = .error reason) node := by
  rw [getOrRequestBlock]
  refine wp_then (wp_getBlockByHash hash) ?_
  rintro _ node' ⟨rfl, -, -⟩
  rw [missing]
  exact wp_requestBlock_unanswered unanswered

theorem wp_syncParentBlock (quiet : Quiet params env node blk) : wp (syncParentBlock params env blk)
      (fun _ node' => (blk.height = 0 ∨ (node.lookup blk.parentHash).isSome = true) ∧ Fetched node node')
      (fun halt _ => (∃ reason, halt = .error reason) ∧
        ¬ (blk.height = 0 ∨ (node.lookup blk.parentHash).isSome = true)) node := by
  rw [syncParentBlock, wp_ite]
  refine ⟨fun genesis => ⟨Or.inl genesis, (Cached.refl node).fetched⟩, fun not_genesis => ?_⟩
  refine wp_then (wp_getBlockByHash blk.parentHash) ?_
  rintro _ node1 ⟨rfl, cached, -⟩
  cases found : node.lookup blk.parentHash with
  | some parent => exact ⟨Or.inr rfl, cached.fetched⟩
  | none =>
      have missing : ¬ (blk.height = 0 ∨ (none : Option Block).isSome = true) := by simp [not_genesis]
      have unanswered : ∀ number peer, env.requestBlock number peer blk.parentHash = none := by
        rcases quiet.parent with genesis | known | unanswered
        · exact absurd genesis not_genesis
        · rw [found] at known
          cases known
        · exact unanswered
      have ⟨_, _, same⟩ := cached
      have missing1 : node1.lookup blk.parentHash = none := (same _).trans found
      have fails := @wp_getOrRequestBlock_unanswered params env node1 blk.proposer _ missing1 unanswered
      rw [wp_bind, syncMissingCommittedBlocks, wp_bind, wp_gets, wp_ite]
      refine ⟨fun _ => ?_, fun _ => ?_⟩
      · rw [wp_pure, wp_bind, wp_gets, wp_bind, syncMissingParentRecursive, wp_bind]
        exact wp_mono fails (fun _ _ absurd => absurd.elim) fun _ _ stopped => ⟨stopped, missing⟩
      · rw [wp_bind, wp_throwIf]
        refine ⟨fun _ => ⟨⟨_, rfl⟩, missing⟩, fun _ => ?_⟩
        rw [wp_bind]
        exact wp_mono fails (fun _ _ absurd => absurd.elim) fun _ _ stopped => ⟨stopped, missing⟩

theorem missingTxs_length_eq_zero {hashes : List Bytes} :
    (missingTxs (services params env node) node.txPool hashes).length = 0 ↔ ∀ hash ∈ hashes, node.HasTx hash := by
  rw [List.length_eq_zero_iff, missingTxs, List.filter_eq_nil_iff]
  refine forall₂_congr fun hash _ => ?_
  rw [Node.HasTx, services]
  cases stored : node.storage.hasTx hash <;> cases node.txPool.getTx hash <;> simp [stored]

theorem wp_syncTxs {peer : PublicKey} {hashes : List Bytes} (quiet : (∀ hash ∈ hashes, node.HasTx hash) ∨
    ∀ number peer hashes, env.requestTxList number peer hashes = none) : wp (syncTxs params env peer hashes)
      (fun _ node' => (∀ hash ∈ hashes, node.HasTx hash) ∧ Fetched node node')
      (fun halt _ => (∃ reason, halt = .error reason) ∧ ¬ ∀ hash ∈ hashes, node.HasTx hash) node := by
  rw [syncTxs, wp_bind, nextRequest, wp_bind, wp_gets, wp_bind, wp_modify, wp_pure, wp_bind, wp_get, onTxPool,
    wp_zoom, TxPool.syncTxs, wp_bind, wp_get, wp_ite]
  have missing_iff : (missingTxs (services params env { node with requests := node.requests + 1 })
      node.txPool hashes).length = 0 ↔ ∀ hash ∈ hashes, node.HasTx hash := missingTxs_length_eq_zero
  refine ⟨fun none_missing => ?_, fun some_missing => ?_⟩
  · exact ⟨missing_iff.mp none_missing, fun _ => rfl, rfl, rfl, fun _ => Iff.rfl⟩
  · have unavailable := mt missing_iff.mpr some_missing
    rcases quiet with available | unanswered
    · exact absurd available unavailable
    · rw [unanswered]
      exact ⟨⟨_, rfl⟩, unavailable⟩

/-! ## The handler -/

theorem Fetched.alike_acceptBlock (fetched : Fetched node node') (blk : Block) :
    Alike params (node.setBlock blk) (node'.acceptBlock blk) where
  lookup hash := by
    change (node'.setBlock blk).lookup hash = _
    rw [lookup_setBlock, lookup_setBlock, fetched.lookup]
  bExec := congrArg Status.bExec fetched.status_eq
  committable := committable_congr fetched.isExisted_eq fun _ _ => fetched.hasTx

theorem wp_rotatorReceiveProposal (blk : Block) : wp (rotatorReceiveProposal params blk)
      (fun _ node' => Alike params node node' ∧ node'.status.qcHigh = node.status.qcHigh ∧
        (node.status.window.Usable → node'.status.window.Usable) ∧
        (blk.view < node'.status.view ↔ blk.view < node.status.view)) (fun _ _ => False) node := by
  rw [rotatorReceiveProposal, wp_bind, wp_get, Program.when, wp_ite]
  refine ⟨fun approved => ?_, fun _ => ⟨.refl node, rfl, id, Iff.rfl⟩⟩
  rw [wp_modify]
  refine ⟨⟨fun _ => rfl, rfl, fun _ => Iff.rfl⟩, rfl, fun usable => ?_, ?_⟩
  · exact ⟨usable.qcQuotas, usable.voteQuotas, usable.size, usable.strategy, usable.limit⟩
  · refine iff_of_false (fun less => UInt32.lt_irrefl _ less) fun less => ?_
    have not_above : ¬ node.status.view < blk.view := UInt32.lt_asymm less
    have not_same : blk.view ≠ node.status.view := UInt32.ne_of_lt less
    rw [isNewViewApproval, if_neg not_above, if_neg not_same] at approved
    cases approved

theorem wp_validate_block (enough : ∀ qc, blk.quorumCert = some qc → qc.sigs.length ≤ qc.data.quotas.length) :
    wp (blk.validate params.crypto) (fun _ _ => True) (fun halt _ => ∃ reason, halt = .error reason)
      node.roleStore := by
  have rest : ∀ store, wp (do
      let sig ← ofExcept (newSignature blk.data.signature)
      let store ← (Program.get : Program CoreError RoleStore RoleStore)
      Program.throwIf (store.isValidator sig.pubKey = false) .invalidValidator
      Program.throwIf (sig.verify params.crypto blk.data.hash = false) .invalidSig)
      (fun _ _ => True) (fun halt _ => ∃ reason, halt = .error reason) store := by
    intro store
    rw [wp_bind]
    cases newSignature blk.data.signature with
    | error reason => exact ⟨reason, rfl⟩
    | ok sig =>
        rw [Core.ofExcept.eq_def]
        simp only [wp_pure, wp_bind, wp_get, wp_throwIf]
        exact ⟨fun _ => ⟨_, rfl⟩, fun _ => ⟨fun _ => ⟨_, rfl⟩, fun _ => trivial⟩⟩
  rw [Block.validate, wp_bind, wp_throwIf]
  refine ⟨fun _ => ⟨_, rfl⟩, fun _ => ?_⟩
  cases certified : blk.quorumCert with
  | none => exact rest _
  | some qc =>
      simp only [wp_bind]
      refine wp_mono (QuorumCert.wp_validate qc) (fun _ store _ => rest store) ?_
      rintro halt _ ⟨-, only_short⟩
      cases halt with
      | error reason => exact ⟨reason, rfl⟩
      | fault reason => exact absurd (enough qc certified) (Nat.not_le.mpr (only_short reason rfl))

/-- The handler goes as far as the certificate of the block. -/
structure Reaches (params : Params) (node : Node) (blk : Block) : Prop where
  validated : (blk.validate params.crypto node.roleStore).1 = .ok ()
  parent : blk.height = 0 ∨ (node.lookup blk.parentHash).isSome = true
  txs : params.config.executeTxFlag = true → ∀ hash ∈ blk.transactions, node.HasTx hash
  view : ¬ blk.view < node.status.view

/-- From the comparison of certificates on, the handler faults exactly for a certificate that is not
adoptable. -/
theorem wp_adoptAndVote (enough : ∀ qc, blk.quorumCert = some qc → qc.sigs.length ≤ qc.data.quotas.length)
    (usable : params.config.twoPhaseBFTFlag = false → node.status.window.Usable) :
    wp (do
        let order ← cmpQCPriority blk.quorumCert (some node.status.qcHigh)
        Program.throwIf (order = .lt) .lowerQC
        updateQCHigh params env blk.quorumCert
        voteProposal params env blk)
      (fun _ _ => Adoptable params node blk.quorumCert)
      (fun halt _ => (∃ reason, halt = .fault reason) ↔ ¬ Adoptable params node blk.quorumCert) node := by
  have stops : ∀ {condition : Prop} {halt : Halt ConsensusError}, FaultsUnless condition halt →
      ((∃ reason, halt = .fault reason) ↔ ¬ condition) :=
    fun ⟨faults, fails⟩ => iff_of_true faults fails
  have errors : ∀ {condition : Prop} {halt : Halt ConsensusError}, condition → (∃ reason, halt = .error reason) →
      ((∃ reason, halt = .fault reason) ↔ ¬ condition) := by
    rintro condition _ holds ⟨reason, rfl⟩
    exact iff_of_false (fun ⟨_, raised⟩ => nomatch raised) (not_not.mpr holds)
  cases certified : blk.quorumCert with
  | none =>
      refine iff_of_true ⟨_, rfl⟩ ?_
      rintro ⟨_, _, missing, -⟩
      cases missing
  | some qc =>
      have enough := enough qc certified
      rw [wp_bind]
      refine wp_mono (wp_cmpQCPriority qc node.status.qcHigh) ?_ ?_
      · rintro order node1 ⟨compared, cached⟩
        have alike : Alike params node node1 := cached.alike
        have status_eq : node1.status = node.status := cached.fetched.status_eq
        have adoptable_iff : Adoptable params node1 (some qc) ↔ Adoptable params node (some qc) :=
          alike.adoptable_iff (congrArg Status.qcHigh status_eq)
        rw [wp_bind, wp_throwIf]
        refine ⟨fun less => errors ⟨qc, order, rfl, compared, fun greater => ?_⟩ ⟨_, rfl⟩, fun not_less => ?_⟩
        · cases less.symm.trans greater
        · rw [wp_bind]
          refine wp_mono (wp_updateQCHigh_iff enough (status_eq ▸ usable)) ?_ ?_
          · rintro _ node2 ⟨adoptable, usable2, found⟩
            have found := found (by
              rw [alike.qcOrder, status_eq, compared]
              exact fun same => not_less (Option.some.inj same))
            exact wp_mono (wp_voteProposal certified found usable2)
              (fun _ _ _ => adoptable_iff.mp adoptable)
              fun _ _ raised => errors (adoptable_iff.mp adoptable) raised
          · intro halt _ faults
            rw [← adoptable_iff]
            exact stops faults
      · rintro halt _ ⟨faults, incomparable⟩
        refine iff_of_true faults ?_
        rintro ⟨target, order, same, compared, -⟩
        obtain rfl := Option.some.inj same
        exact incomparable ⟨order, compared⟩

/-- Where a proposal needs no answer of a peer, `onReceiveProposal` ends in a fault exactly if it reaches a
certificate that is not adoptable. -/
theorem wp_onReceiveProposal (enough : ∀ qc, blk.quorumCert = some qc → qc.sigs.length ≤ qc.data.quotas.length)
    (usable : params.config.twoPhaseBFTFlag = false → node.status.window.Usable) (quiet : Quiet params env node blk) :
    wp (onReceiveProposal params env blk)
      (fun _ _ => Reaches params node blk → Adoptable params (node.setBlock blk) blk.quorumCert)
      (fun halt _ => (∃ reason, halt = .fault reason) ↔
        ¬ (Reaches params node blk → Adoptable params (node.setBlock blk) blk.quorumCert)) node := by
  -- an error before the certificate is reached
  have early : ∀ {halt : Halt ConsensusError}, (∃ reason, halt = .error reason) → ¬ Reaches params node blk →
      ((∃ reason, halt = .fault reason) ↔
        ¬ (Reaches params node blk → Adoptable params (node.setBlock blk) blk.quorumCert)) := by
    rintro _ ⟨reason, rfl⟩ unreached
    exact iff_of_false (fun ⟨_, raised⟩ => nomatch raised) (not_not.mpr fun reaches => absurd reaches unreached)
  rw [onReceiveProposal, wp_bind, onRoleStore, wp_zoom]
  refine wp_mono (wp_and (wp_validate_block enough) (wp_ending _)) ?_ ?_
  swap
  · rintro halt _ ⟨⟨reason, rfl⟩, stopped⟩
    refine early ⟨_, rfl⟩ fun reaches => ?_
    have ending := reaches.validated
    rw [stopped] at ending
    cases ending
  rintro _ store ⟨-, validated⟩
  have validated : (blk.validate params.crypto node.roleStore).1 = .ok () := congrArg Prod.fst validated
  rw [wp_bind, wp_modify, wp_bind]
  have fetched1 : Fetched node (Node.record { node with roleStore := store } (.validated blk)) :=
    ⟨fun _ => rfl, rfl, rfl, fun _ => Iff.rfl⟩
  refine wp_mono (wp_syncParentBlock ⟨quiet.parent, quiet.txs⟩) ?_ fun halt _ ⟨raised, unknown⟩ =>
    early raised fun reaches => unknown reaches.parent
  rintro _ node2 ⟨parent, fetched2⟩
  have fetched2 : Fetched node node2 := fetched1.trans fetched2
  have synced : wp (Program.when params.config.executeTxFlag (syncTxs params env blk.proposer blk.transactions))
      (fun _ node3 => (params.config.executeTxFlag = true → ∀ hash ∈ blk.transactions, node.HasTx hash) ∧
        Fetched node node3)
      (fun halt _ => (∃ reason, halt = .error reason) ∧
        ¬ (params.config.executeTxFlag = true → ∀ hash ∈ blk.transactions, node.HasTx hash)) node2 := by
    rw [Program.when, wp_ite]
    refine ⟨fun execute => ?_, fun mock => ⟨fun execute => absurd execute mock, fetched2⟩⟩
    have available_iff : (∀ hash ∈ blk.transactions, node2.HasTx hash) ↔
        ∀ hash ∈ blk.transactions, node.HasTx hash := forall₂_congr fun hash _ => fetched2.hasTx hash
    refine wp_mono (wp_syncTxs ((quiet.txs execute).imp_left available_iff.mpr)) ?_ ?_
    · rintro _ node3 ⟨available, fetched3⟩
      exact ⟨fun _ => available_iff.mp available, fetched2.trans fetched3⟩
    · rintro halt _ ⟨raised, unavailable⟩
      exact ⟨raised, fun available => unavailable (available_iff.mpr (available execute))⟩
  rw [wp_bind]
  refine wp_mono synced ?_ fun halt _ ⟨raised, unavailable⟩ =>
    early raised fun reaches => unavailable reaches.txs
  rintro _ node3 ⟨txs, fetched3⟩
  rw [wp_bind, wp_modify, wp_bind]
  refine wp_mono (wp_rotatorReceiveProposal blk) ?_ fun _ _ stopped => stopped.elim
  rintro _ node4 ⟨alike, high, usable4, view_iff⟩
  have status_eq : (node3.acceptBlock blk).status = node.status := fetched3.status_eq
  have alike : Alike params (node.setBlock blk) node4 := (fetched3.alike_acceptBlock blk).trans alike
  have high : node4.status.qcHigh = (node.setBlock blk).status.qcHigh :=
    high.trans (congrArg Status.qcHigh status_eq)
  rw [status_eq] at usable4 view_iff
  rw [wp_bind, wp_get, wp_bind, wp_throwIf]
  refine ⟨fun old => early ⟨_, rfl⟩ fun reaches => reaches.view (view_iff.mp old), fun not_old => ?_⟩
  have reaches : Reaches params node blk := ⟨validated, parent, txs, fun old => not_old (view_iff.mpr old)⟩
  rw [forall_prop_of_true reaches, ← alike.adoptable_iff high]
  exact wp_adoptAndVote enough fun three_phase => usable4 (usable three_phase)

end

/-- A block of the leader without a certificate. -/
def uncertifiedBlock : Block :=
  Block.sign transparentCrypto (transparentSigner 1)
    { hash := [], view := 0, height := 1, parentHash := (transparentBlock []).hash, execHeight := 0
      merkleRoot := [], timestamp := 0, transactions := [], quorumCert := none, signature := none } none

end SvpChain.Consensus
