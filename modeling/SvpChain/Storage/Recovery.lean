import SvpChain.Storage.Failures
import SvpChain.TxPool.TxPool

/-!
# Commits that are run again

A process may stop between any two puts of `Storage.Commit`; after the restart `driver.commit` runs
for the same block.  It asks the database which transactions have been executed, and the records of
the transactions are put long before their state changes.  The block is recovered exactly when no
record of a transaction had been put, or when there was nothing to execute.
-/

namespace SvpChain.Storage

open Core Merkle TxPool

/-- `Execution.Execute`: the state changes and the transaction commits, from the values of the
state. -/
structure Executor where
  execute : (Bytes → Option Bytes) → Block → List Transaction → List StateChange × List TxCommit
  /-- Without transactions `executeConcurrent` returns at once. -/
  execute_nil : ∀ state blk, execute state blk [] = ([], [])

/-- `Storage.HasTx`. -/
def hasTx (store : PersistStore) (hash : Bytes) : Bool := (store (DataKey.txByHash hash).bytes).isSome

/-- The commit data of an executed block. -/
def executedData (executor : Executor) (state : Bytes → Option Bytes) (blk : Block)
    (txs : List Transaction) (old : List Bytes) : CommitData where
  block := blk
  transactions := txs
  blockCommit := ⟨blk.hash, old, [], [], (executor.execute state blk txs).1⟩
  txCommits := (executor.execute state blk txs).2
  merkleUpdate := none

/-- The commit data of `MockExecute`. -/
def mockData (blk : Block) : CommitData where
  block := blk
  transactions := []
  blockCommit := ⟨blk.hash, blk.transactions, [], [], []⟩
  txCommits := blk.transactions.map fun hash => ⟨hash, blk.hash, blk.height, ""⟩
  merkleUpdate := none

/-- What `driver.commit` runs with: the storage and the order of its tree workers, `ExecuteTxFlag`,
the execution and the transactions of the pool. -/
structure Committer where
  strg : Storage
  order : ℕ → List Node → List Node
  executeTxFlag : Bool
  executor : Executor
  pool : TxStore

namespace Committer

variable (committer : Committer) (blk : Block)

/-- The commit data that `driver.commit` builds. -/
def data (store : PersistStore) : Except Fault CommitData :=
  if committer.executeTxFlag then
    match splitTxs (hasTx store) committer.pool blk.transactions with
    | .error reason => .error reason
    | .ok (txs, old) => .ok (executedData committer.executor (getState store) blk txs old)
  else .ok (mockData blk)

/-- `driver.commit`, without the state it cleans afterwards. -/
def commit : Program StorageError PersistStore Unit := fun store =>
  match committer.data blk store with
  | .error reason => (.error (.fault reason), store)
  | .ok data =>
      match committer.strg.commit committer.order data store with
      | (.error (.error _), store') => (.error (.fault (.fatal "commit storage failed")), store')
      | result => result

end Committer

/-! ## The puts of a commit -/

/-- The puts of `writeChainData`, in order. -/
def chainFuncs (strg : Storage) (data : CommitData) : List UpdateFunc :=
  [setRecord (.blockByHash data.block.hash) (strg.codec.block data.block),
    .ok (.blockHashByHeight data.block.height, data.block.hash)] ++
    data.transactions.map (fun tx => setRecord (.txByHash tx.hash) (strg.codec.tx tx)) ++
    data.txCommits.map fun txc => setRecord (.txCommitByHash txc.hash) (strg.codec.txCommit txc)

/-- All puts of `writeCommitData`, in order. -/
def commitFuncs (strg : Storage) (data : CommitData) : List UpdateFunc :=
  strg.chainFuncs data ++
    ([setRecord (.blockCommitByHash data.blockCommit.hash)
        (strg.codec.blockCommit data.blockCommit)] ++
      ((statePuts data).map Except.ok ++
        [.ok (.blockHeight, Bytes.bigEndian 8 data.block.height.toNat)]))

theorem updateLevelDB_append (first second : List UpdateFunc) :
    updateLevelDB (first ++ second) = (updateLevelDB first >>= fun _ => updateLevelDB second) := by
  induction first with
  | nil => rfl
  | cons fn first ih =>
      cases fn with
      | error reason => rfl
      | ok entry =>
          rw [List.cons_append, updateLevelDB, updateLevelDB, ih]
          rfl

/-- The data that `writeCommitData` gets: a tree update exactly when there are state changes. -/
def Ready (data : CommitData) : Prop :=
  data.blockCommit.stateChanges = [] ∧ data.merkleUpdate = none ∨
    data.blockCommit.stateChanges ≠ [] ∧ ∃ update, data.merkleUpdate = some update

variable {data : CommitData} {store : PersistStore}

theorem writeStateMerkleTree_eq (ready : Ready data) :
    writeStateMerkleTree data = updateLevelDB ((statePuts data).map Except.ok) := by
  rcases ready with ⟨unchanged, no_update⟩ | ⟨changed, update, update_eq⟩
  · rw [writeStateMerkleTree, statePuts, unchanged, no_update]
    rfl
  · rw [writeStateMerkleTree, if_neg (by simpa using changed), update_eq, statePuts, update_eq,
      List.map_append, ← commitStateChanges_eq]
    exact congrArg (fun fns => updateLevelDB (_ ++ fns)) (commitMerkleUpdate_eq update)

theorem writeCommitData_eq (strg : Storage) (ready : Ready data) :
    strg.writeCommitData data = updateLevelDB (strg.commitFuncs data) := by
  rw [writeCommitData, writeStateMerkleTree_eq ready, commitFuncs, updateLevelDB_append,
    updateLevelDB_append, updateLevelDB_append]
  rfl

theorem length_setNewTreeIndexes (changes : List StateChange) (leafCount : ℕ) :
    (setNewTreeIndexes changes leafCount).1.length = changes.length := by
  have assigned : ∀ (keys : List Bytes) (count : ℕ) (changes : List StateChange),
      (assignIndexes keys count changes).1.length = changes.length := by
    intro keys
    induction keys with
    | nil => exact fun _ _ => rfl
    | cons key keys ih =>
        intro count changes
        rw [assignIndexes, ih, setLeafIndex]
        simp
  rw [setNewTreeIndexes, assigned, keepTreeIndexes, List.length_map]

/-- The result of `computeMerkleUpdate`, from what it reads. -/
def merkleResult (strg : Storage) (order : ℕ → List Node → List Node) (data : CommitData)
    (loaded : List StateChange) (leafCount : ℕ) (tree : Tree) : Except (Halt StorageError) CommitData :=
  let indexed := setNewTreeIndexes loaded leafCount
  if strg.concurrentLimit = 0 ∧ indexed.1 ≠ [] then .error (.fault .diverges)
  else
    match tree.update order (indexed.1.map fun change =>
        ⟨⟨0, Bytes.toNat change.treeIndex⟩, strg.sha3 change.value⟩) indexed.2 with
    | none => .error (.fault .indexOutOfRange)
    | some update => .ok { data with
        merkleUpdate := some update
        blockCommit := { data.blockCommit with
          stateChanges := indexed.1
          leafCount := Bytes.ofNat update.leafCount
          merkleRoot := update.root.data } }

theorem computeMerkleUpdate_eq (strg : Storage) (order : ℕ → List Node → List Node)
    (data : CommitData) (store : PersistStore) : strg.computeMerkleUpdate order data store =
      (strg.merkleResult order data (loadPrevTreeIndexes store (loadPrevValues store data.blockCommit.stateChanges))
        (getLeafCount store) (strg.merkleTree store), store) := by
  simp only [computeMerkleUpdate, merkleResult, computeUpdatedTreeNodes, bind, Program.get]
  set indexed := setNewTreeIndexes (loadPrevTreeIndexes store
    (loadPrevValues store data.blockCommit.stateChanges)) (getLeafCount store) with indexed_eq
  by_cases stuck : strg.concurrentLimit = 0 ∧ indexed.1 ≠ []
  · rw [if_pos stuck, if_pos stuck]
    rfl
  · rw [if_neg stuck, if_neg stuck]
    simp only [pure]
    cases (strg.merkleTree store).update order (indexed.1.map fun change =>
        ⟨⟨0, Bytes.toNat change.treeIndex⟩, strg.sha3 change.value⟩) indexed.2 <;> rfl

/-- The tree update before the first put. -/
def prepare (strg : Storage) (order : ℕ → List Node → List Node) (data : CommitData)
    (store : PersistStore) : Except (Halt StorageError) CommitData :=
  if 0 < data.blockCommit.stateChanges.length then
    strg.merkleResult order data
      (loadPrevTreeIndexes store (loadPrevValues store data.blockCommit.stateChanges))
      (getLeafCount store) (strg.merkleTree store)
  else .ok data

theorem commit_eq (strg : Storage) (order : ℕ → List Node → List Node) (data : CommitData)
    (store : PersistStore) :
    strg.commit order data store =
      match strg.prepare order data store with
      | .error halt => (.error halt, store)
      | .ok ready => strg.writeCommitData ready store := by
  rw [commit, prepare]
  by_cases changed : 0 < data.blockCommit.stateChanges.length
  · rw [if_pos changed, if_pos changed]
    simp only [bind, computeMerkleUpdate_eq]
    cases strg.merkleResult order data (loadPrevTreeIndexes store
      (loadPrevValues store data.blockCommit.stateChanges)) (getLeafCount store)
      (strg.merkleTree store) <;> rfl
  · rw [if_neg changed, if_neg changed]
    rfl

theorem prepare_ok {strg : Storage} {order : ℕ → List Node → List Node} {ready : CommitData}
    (no_update : data.merkleUpdate = none) (prepared : strg.prepare order data store = .ok ready) :
    Ready ready ∧ ready.block = data.block ∧ ready.transactions = data.transactions ∧
      ready.blockCommit.hash = data.blockCommit.hash ∧
      ready.blockCommit.oldBlockTxs = data.blockCommit.oldBlockTxs := by
  rw [prepare] at prepared
  split at prepared
  · rename_i changed
    simp only [merkleResult] at prepared
    split at prepared
    · cases prepared
    · split at prepared
      · cases prepared
      · rename_i update returned
        obtain rfl := Except.ok.inj prepared
        refine ⟨.inr ⟨?_, update, rfl⟩, rfl, rfl, rfl, rfl⟩
        rw [← List.length_pos_iff, length_setNewTreeIndexes, loadPrevTreeIndexes, loadPrevValues,
          List.length_map, List.length_map]
        exact changed
  · rename_i unchanged
    obtain rfl := Except.ok.inj prepared
    exact ⟨.inl ⟨List.eq_nil_of_length_eq_zero (Nat.eq_zero_of_not_pos unchanged), no_update⟩,
      rfl, rfl, rfl, rfl⟩

theorem prepare_congr (strg : Storage) (order : ℕ → List Node → List Node) (data : CommitData)
    {store' : PersistStore} (same : SameState store store') :
    strg.prepare order data store' = strg.prepare order data store := by
  have values : getState store' = getState store := funext fun key => same (.stateValueByKey key) trivial
  have indexes : getMerkleIndex store' = getMerkleIndex store :=
    funext fun key => same (.merkleIndexByStateKey key) trivial
  have leafCount : getLeafCount store' = getLeafCount store := by
    rw [getLeafCount, getLeafCount, same .merkleLeafCount trivial]
  have trees : strg.merkleTree store' = strg.merkleTree store := by
    have nodes : getNode store' = getNode store :=
      funext fun position => same (.merkleNodeByPosition position.bytes) trivial
    have heights : getHeight store' = getHeight store := by
      rw [getHeight, getHeight, same .merkleTreeHeight trivial]
    rw [merkleTree, merkleTree, merkleStore, merkleStore, leafCount, heights, nodes]
  simp only [prepare, loadPrevValues, loadPrevTreeIndexes, values, indexes, leafCount, trees]

theorem entries_of_returned {fns : List UpdateFunc} (returned : (updateLevelDB fns store).1 = .ok ()) :
    ∃ entries : List (DataKey × Bytes), fns = entries.map Except.ok := by
  induction fns generalizing store with
  | nil => exact ⟨[], rfl⟩
  | cons fn fns ih =>
      cases fn with
      | error reason => cases returned
      | ok entry =>
          obtain ⟨entries, rfl⟩ := ih returned
          exact ⟨entry :: entries, rfl⟩

namespace Committer

variable {committer : Committer} {blk : Block} {store : PersistStore}

/-- The commit data with which the puts begin. -/
def ready (committer : Committer) (blk : Block) (store : PersistStore) :
    Except (Halt StorageError) CommitData :=
  match committer.data blk store with
  | .error reason => .error (.fault reason)
  | .ok data => committer.strg.prepare committer.order data store

/-- The database when the process stops before the put with number `n`. -/
def stoppedBefore (committer : Committer) (blk : Block) (n : ℕ) (store : PersistStore) :
    PersistStore :=
  match committer.ready blk store with
  | .error _ => store
  | .ok data => (updateLevelDBFailing (committer.strg.commitFuncs data) n store).2

theorem data_ok {data : CommitData} (built : committer.data blk store = .ok data) :
    data.merkleUpdate = none ∧ data.block = blk ∧ data.blockCommit.hash = blk.hash := by
  rw [Committer.data] at built
  split at built
  · split at built
    · cases built
    · obtain rfl := Except.ok.inj built
      exact ⟨rfl, rfl, rfl⟩
  · obtain rfl := Except.ok.inj built
    exact ⟨rfl, rfl, rfl⟩

variable {final : PersistStore} {entries : List (DataKey × Bytes)} {n : ℕ} {strg : Storage}
   {hash : Bytes}

theorem commit_ok_iff : committer.commit blk store = (.ok (), final) ↔
      ∃ data entries, committer.ready blk store = .ok data ∧
        committer.strg.commitFuncs data = entries.map Except.ok ∧ final = afterPuts store entries := by
  rw [Committer.commit, Committer.ready]
  cases built : committer.data blk store with
  | error reason => simp
  | ok data =>
      simp only [commit_eq]
      cases prepared : committer.strg.prepare committer.order data store with
      | error halt => cases halt <;> simp
      | ok ready =>
          simp only [writeCommitData_eq _ (prepare_ok (data_ok built).1 prepared).1, Except.ok.injEq]
          constructor
          · intro returned
            have ended : updateLevelDB (committer.strg.commitFuncs ready) store = (.ok (), final) := by
              split at returned
              · cases returned
              · exact returned
            obtain ⟨entries, funcs_eq⟩ := entries_of_returned (congrArg Prod.fst ended)
            rw [funcs_eq, updateLevelDB_ok] at ended
            exact ⟨ready, entries, rfl, funcs_eq, (congrArg Prod.snd ended).symm⟩
          · rintro ⟨_, entries, rfl, funcs_eq, rfl⟩
            rw [funcs_eq, updateLevelDB_ok]
            rfl

theorem puts_of_commit (returned : committer.commit blk store = (.ok (), final)) :
    ∃ data entries, committer.ready blk store = .ok data ∧
      committer.strg.commitFuncs data = entries.map Except.ok ∧ final = afterPuts store entries :=
  commit_ok_iff.mp returned

theorem stoppedBefore_eq {data : CommitData} (ready_eq : committer.ready blk store = .ok data)
    (funcs_eq : committer.strg.commitFuncs data = entries.map Except.ok) (n : ℕ) :
    committer.stoppedBefore blk n store = afterPuts store (entries.take n) := by
  rw [stoppedBefore, ready_eq]
  simp only [funcs_eq, updateLevelDBFailing_eq]
  split
  · rfl
  · rename_i finished
    rw [List.take_of_length_le (not_lt.mp finished)]

/-- A second commit that starts its puts with the same data ends as the uninterrupted one. -/
theorem commit_of_ready_eq (returned : committer.commit blk store = (.ok (), final))
    (same : committer.ready blk (committer.stoppedBefore blk n store) = committer.ready blk store) :
    committer.commit blk (committer.stoppedBefore blk n store) = (.ok (), final) := by
  obtain ⟨data, entries, ready_eq, funcs_eq, rfl⟩ := puts_of_commit returned
  refine commit_ok_iff.mpr ⟨data, entries, same.trans ready_eq, funcs_eq, ?_⟩
  rw [stoppedBefore_eq ready_eq funcs_eq, afterPuts, afterPuts, afterPuts, List.map_take,
    Table.writeAll_take_writeAll]

theorem ready_of_mock (flag : committer.executeTxFlag = false) : committer.ready blk store = .ok (mockData blk) := by
  rw [ready, Committer.data, flag]
  rfl

/-- The commit data of a block whose transactions have all been executed before. -/
def executedBefore (blk : Block) : CommitData :=
  ⟨blk, [], ⟨blk.hash, blk.transactions, [], [], []⟩, [], none⟩

theorem ready_of_stored (flag : committer.executeTxFlag = true)
    (stored : ∀ hash ∈ blk.transactions, hasTx store hash = true) :
    committer.ready blk store = .ok (executedBefore blk) := by
  rw [ready, Committer.data, if_pos flag, splitTxs_of_stored stored]
  simp only [executedData, committer.executor.execute_nil]
  rfl

theorem ready_congr {store' : PersistStore} (same : SameState store store') (same_txs : hasTx store' = hasTx store) :
    committer.ready blk store' = committer.ready blk store := by
  have values : getState store' = getState store := funext fun key => same (.stateValueByKey key) trivial
  have data_eq : committer.data blk store' = committer.data blk store := by
    rw [Committer.data, Committer.data, same_txs, values]
  rw [ready, ready, data_eq]
  cases committer.data blk store with
  | error reason => rfl
  | ok data => exact prepare_congr _ _ _ same

/-! ## The records of a commit -/

theorem setRecord_eq_ok {key : DataKey} {value : Option Bytes} {entry : DataKey × Bytes}
    (equal : setRecord key value = .ok entry) : entry.1 = key ∧ value = some entry.2 := by
  cases value with
  | none => cases equal
  | some content =>
      obtain rfl := Except.ok.inj equal
      exact ⟨rfl, rfl⟩

theorem entries_eq {data : CommitData} (funcs_eq : strg.commitFuncs data = entries.map Except.ok) :
    ∃ block height rest, entries = block :: height :: rest ∧
      block.1 = .blockByHash data.block.hash ∧ height.1 = .blockHashByHeight data.block.height ∧
      ∀ tx txs, data.transactions = tx :: txs → ∃ record rest', rest = record :: rest' ∧
        record.1 = .txByHash tx.hash := by
  simp only [commitFuncs, chainFuncs, List.cons_append, List.nil_append, List.append_assoc] at funcs_eq
  obtain ⟨block, entries', rfl, block_eq, tail_eq⟩ := List.map_eq_cons_iff.mp funcs_eq.symm
  obtain ⟨height, rest, rfl, height_eq, rest_eq⟩ := List.map_eq_cons_iff.mp tail_eq
  refine ⟨block, height, rest, rfl, (setRecord_eq_ok block_eq.symm).1, ?_, ?_⟩
  · rw [Except.ok.inj height_eq]
  · intro tx txs transactions_eq
    rw [transactions_eq, List.map_cons, List.cons_append] at rest_eq
    obtain ⟨record, rest', rfl, record_eq, -⟩ := List.map_eq_cons_iff.mp rest_eq
    exact ⟨record, rest', rfl, (setRecord_eq_ok record_eq.symm).1⟩

theorem ofState_of_statePuts {data : CommitData} {entry : DataKey × Bytes}
    (mem : entry ∈ statePuts data) : entry.1.OfState := by
  rcases List.mem_append.mp mem with values | tree
  · obtain ⟨change, -, change_mem⟩ := List.mem_flatMap.mp values
    exact ofState_of_stateEntries change_mem
  · cases update_eq : data.merkleUpdate with
    | none => simp [update_eq] at tree
    | some update =>
        rw [update_eq] at tree
        exact ofState_of_merkleEntries tree

theorem blockCommit_of_mem {data : CommitData} {content : Bytes}
    (mem : .ok (.blockCommitByHash hash, content) ∈ strg.commitFuncs data) :
    strg.codec.blockCommit data.blockCommit = some content := by
  have other {key : DataKey} {value : Option Bytes} (different : .blockCommitByHash hash ≠ key)
      (equal : .ok (.blockCommitByHash hash, content) = setRecord key value) : False :=
    different (setRecord_eq_ok equal.symm).1
  simp only [commitFuncs, chainFuncs, List.mem_append, List.mem_cons, List.mem_map,
    List.not_mem_nil, or_false] at mem
  rcases mem with (((block | height) | ⟨tx, -, record⟩) | ⟨txc, -, record⟩) | mem
  · exact (other (by simp) block).elim
  · cases height
  · exact (other (by simp) record.symm).elim
  · exact (other (by simp) record.symm).elim
  · rcases mem with commit | ⟨entry, entry_mem, entry_eq⟩ | last
    · exact (setRecord_eq_ok commit.symm).2
    · rw [Except.ok.inj entry_eq] at entry_mem
      exact absurd (ofState_of_statePuts entry_mem) id
    · cases last

theorem blockCommit_of_commit {data : CommitData} (funcs_eq : strg.commitFuncs data = entries.map Except.ok)
    (store : PersistStore) : ∃ content, strg.codec.blockCommit data.blockCommit = some content ∧
      afterPuts store entries (DataKey.blockCommitByHash data.blockCommit.hash).bytes = some content := by
  have put : setRecord (.blockCommitByHash data.blockCommit.hash)
      (strg.codec.blockCommit data.blockCommit) ∈ strg.commitFuncs data := by
    simp [commitFuncs]
  rw [funcs_eq] at put
  obtain ⟨⟨key, content⟩, entry_mem, entry_eq⟩ := List.mem_map.mp put
  obtain ⟨rfl, encoded⟩ := setRecord_eq_ok entry_eq.symm
  refine ⟨content, encoded, ?_⟩
  rw [afterPuts, read_written]
  refine Table.writeAll_of_mem entry_mem fun another another_mem => ?_
  have encoded' := blockCommit_of_mem (funcs_eq ▸ List.mem_map_of_mem another_mem)
  exact Option.some.inj (encoded'.symm.trans encoded)

theorem afterPuts_of_notMem {key : DataKey} (untouched : ∀ entry ∈ entries, key ≠ entry.1) (store : PersistStore) :
    afterPuts store entries key.bytes = store key.bytes := by
  rw [afterPuts, read_written]
  refine Table.writeAll_of_notMem fun key_mem => ?_
  obtain ⟨entry, entry_mem, rfl⟩ := List.mem_map.mp key_mem
  exact untouched entry entry_mem rfl

theorem ready_of_early (early : n ≤ 2) (returned : committer.commit blk store = (.ok (), final)) :
    committer.ready blk (committer.stoppedBefore blk n store) = committer.ready blk store := by
  obtain ⟨data, entries, ready_eq, funcs_eq, -⟩ := puts_of_commit returned
  obtain ⟨block, height, rest, rfl, block_eq, height_eq, -⟩ := entries_eq funcs_eq
  rw [stoppedBefore_eq ready_eq funcs_eq]
  have first : ∀ entry ∈ (block :: height :: rest).take n, entry = block ∨ entry = height := by
    intro entry entry_mem
    have in_two := List.take_subset_take_left (block :: height :: rest) early entry_mem
    simpa using in_two
  have kept (key : DataKey) (not_block : key ≠ block.1) (not_height : key ≠ height.1) :
      afterPuts store ((block :: height :: rest).take n) key.bytes = store key.bytes := by
    refine afterPuts_of_notMem (fun entry entry_mem => ?_) store
    rcases first entry entry_mem with rfl | rfl
    · exact not_block
    · exact not_height
  apply ready_congr
  · intro key of_state
    refine kept key ?_ ?_
    · rw [block_eq]
      rintro rfl
      exact of_state
    · rw [height_eq]
      rintro rfl
      exact of_state
  · funext hash
    rw [hasTx, hasTx, kept (.txByHash hash) (by simp [block_eq]) (by simp [height_eq])]

theorem hasTx_stoppedBefore (returned : committer.commit blk store = (.ok (), final)) (n : ℕ)
    (stored : hasTx store hash = true) : hasTx (committer.stoppedBefore blk n store) hash = true := by
  obtain ⟨data, entries, ready_eq, funcs_eq, -⟩ := puts_of_commit returned
  rw [stoppedBefore_eq ready_eq funcs_eq]
  exact Table.isSome_writeAll stored _

theorem split_of_ready {data : CommitData} (flag : committer.executeTxFlag = true)
    (ready_eq : committer.ready blk store = .ok data) : splitTxs (hasTx store) committer.pool blk.transactions =
      .ok (data.transactions, data.blockCommit.oldBlockTxs) := by
  rw [ready] at ready_eq
  cases built : committer.data blk store with
  | error reason => simp [built] at ready_eq
  | ok executed =>
      simp only [built] at ready_eq
      obtain ⟨-, -, transactions_eq, -, old_eq⟩ := prepare_ok (data_ok built).1 ready_eq
      rw [Committer.data, if_pos flag] at built
      split at built
      · cases built
      · rename_i txs old split
        obtain rfl := Except.ok.inj built
        rw [split, transactions_eq, old_eq]
        rfl

theorem hash_of_ready {data : CommitData} (ready_eq : committer.ready blk store = .ok data) :
    data.blockCommit.hash = blk.hash := by
  rw [ready] at ready_eq
  cases built : committer.data blk store with
  | error reason => simp [built] at ready_eq
  | ok executed =>
      simp only [built] at ready_eq
      obtain ⟨-, -, -, hash_eq, -⟩ := prepare_ok (data_ok built).1 ready_eq
      exact hash_eq.trans (data_ok built).2.2

theorem hasTx_of_late (late : 2 < n) (flag : committer.executeTxFlag = true)
    (returned : committer.commit blk store = (.ok (), final))
    (hash_mem : hash ∈ blk.transactions) (unexecuted : hasTx store hash = false) :
    ∃ tx ∈ blk.transactions, hasTx store tx = false ∧ hasTx (committer.stoppedBefore blk n store) tx = true := by
  obtain ⟨data, entries, ready_eq, funcs_eq, -⟩ := puts_of_commit returned
  have hashes := (hashes_of_splitTxs (split_of_ready flag ready_eq)).1
  have to_execute : hash ∈ data.transactions.map Transaction.hash := by
    rw [hashes]
    exact List.mem_filter.mpr ⟨hash_mem, by simp [unexecuted]⟩
  have nonempty : data.transactions ≠ [] := by
    intro none_left
    simp [none_left] at to_execute
  obtain ⟨tx, txs, transactions_eq⟩ := List.exists_cons_of_ne_nil nonempty
  have first_mem : tx.hash ∈ blk.transactions.filter fun hash => !hasTx store hash := by
    rw [← hashes, transactions_eq]
    exact List.mem_cons_self
  obtain ⟨tx_mem, tx_unexecuted⟩ := List.mem_filter.mp first_mem
  refine ⟨tx.hash, tx_mem, by simpa using tx_unexecuted, ?_⟩
  obtain ⟨block, height, rest, rfl, -, -, records⟩ := entries_eq funcs_eq
  obtain ⟨record, rest', rfl, record_eq⟩ := records tx txs transactions_eq
  have record_mem : record ∈ (block :: height :: record :: rest').take n :=
    List.take_subset_take_left (block :: height :: record :: rest') late (by simp)
  rw [stoppedBefore_eq ready_eq funcs_eq, hasTx, afterPuts, read_written, ← record_eq]
  exact Table.isSome_writeAll_of_mem _ record_mem

end Committer

/-- A commit that was stopped before one of its puts and run again ends as the uninterrupted one
exactly when no transaction had been put or none was to be executed. -/
theorem recovered_iff (committer : Committer) (blk : Block) (store : PersistStore) (n : ℕ)
    (records : ∀ left right content, committer.strg.codec.blockCommit left = some content →
      committer.strg.codec.blockCommit right = some content → left.oldBlockTxs = right.oldBlockTxs)
    (returned : (committer.commit blk store).1 = .ok ()) :
    committer.commit blk (committer.stoppedBefore blk n store) = committer.commit blk store ↔
      committer.executeTxFlag = false ∨ n ≤ 2 ∨ ∀ hash ∈ blk.transactions, hasTx store hash = true := by
  have committed : committer.commit blk store = (.ok (), (committer.commit blk store).2) :=
    Prod.ext returned rfl
  constructor
  · intro recovered
    by_contra lost
    push Not at lost
    obtain ⟨flag, late, hash, hash_mem, unexecuted⟩ := lost
    have flag : committer.executeTxFlag = true := by simpa using flag
    obtain ⟨tx, tx_mem, before, after⟩ :=
      Committer.hasTx_of_late late flag committed hash_mem (by simpa using unexecuted)
    -- The records of the two block commits list different transactions as executed before.
    obtain ⟨data, entries, ready_eq, funcs_eq, final_eq⟩ := Committer.puts_of_commit committed
    obtain ⟨data', entries', ready_eq', funcs_eq', final_eq'⟩ :=
      Committer.puts_of_commit (recovered.trans committed)
    obtain ⟨content, encoded, stored⟩ := Committer.blockCommit_of_commit funcs_eq store
    obtain ⟨content', encoded', stored'⟩ := Committer.blockCommit_of_commit funcs_eq'
      (committer.stoppedBefore blk n store)
    rw [← final_eq, Committer.hash_of_ready ready_eq] at stored
    rw [← final_eq', Committer.hash_of_ready ready_eq', stored, Option.some.injEq] at stored'
    subst stored'
    have same_old : blk.transactions.filter (hasTx store) =
        blk.transactions.filter (hasTx (committer.stoppedBefore blk n store)) :=
      (hashes_of_splitTxs (Committer.split_of_ready flag ready_eq)).2.symm.trans <|
        (records _ _ _ encoded encoded').trans
          (hashes_of_splitTxs (Committer.split_of_ready flag ready_eq')).2
    have in_second := List.mem_filter.mpr ⟨tx_mem, after⟩
    rw [← same_old, List.mem_filter, before] at in_second
    exact absurd in_second.2 (by simp)
  · intro condition
    rw [committed]
    apply Committer.commit_of_ready_eq committed
    cases flag : committer.executeTxFlag with
    | false => rw [Committer.ready_of_mock flag, Committer.ready_of_mock flag]
    | true =>
        rcases condition with mock | early | stored
        · exact absurd (flag.symm.trans mock) (by simp)
        · exact Committer.ready_of_early early committed
        · rw [Committer.ready_of_stored flag stored, Committer.ready_of_stored flag fun hash hash_mem =>
            Committer.hasTx_stoppedBefore committed n (stored hash hash_mem)]

/-- A marshaller of block commits that keeps the list of executed transactions. -/
def listingCodec : Codec where
  block _ := some []
  tx _ := some []
  txCommit _ := some []
  blockCommit bcm := some (Bytes.ofNat (Encodable.encode (bcm.oldBlockTxs.map (List.map UInt8.toNat))))

theorem listingCodec_blockCommit (left right : BlockCommit) (content : Bytes)
    (left_eq : listingCodec.blockCommit left = some content)
    (right_eq : listingCodec.blockCommit right = some content) : left.oldBlockTxs = right.oldBlockTxs := by
  have encoded := Bytes.ofNat_injective (Option.some.inj (left_eq.trans right_eq.symm))
  have byte_injective : Function.Injective (List.map UInt8.toNat) :=
    List.map_injective_iff.mpr fun _ _ => UInt8.toNat.inj
  exact List.map_injective_iff.mpr byte_injective (Encodable.encode_injective encoded)

/-- The transaction `[7]`, which sets the key `[1]` to `[10]`, in a pool of its own. -/
def oneTx : Committer where
  strg := { plainStorage with codec := listingCodec }
  order _ nodes := nodes
  executeTxFlag := true
  executor :=
    { execute := fun _ blk txs =>
        (txs.map fun _ => newStateChange [1] [10], txs.map fun tx => ⟨tx.hash, blk.hash, blk.height, ""⟩)
      execute_nil := fun _ _ => rfl }
  pool := ⟨[], [⟨⟨⟨[7], [], 0, [], [], [], 0⟩, ⟨List.replicate 32 0, length_zeros⟩⟩, 0, -1⟩]⟩

/-- The block `[5]` with the transaction `[7]`. -/
def oneTxBlock : Block where
  data :=
    { hash := [5], view := 0, height := 1, parentHash := [], execHeight := 0, merkleRoot := []
      timestamp := 0, transactions := [[7]], quorumCert := none, signature := none }
  quorumCert := none
  signature := ⟨⟨[], []⟩, ⟨List.replicate 32 0, length_zeros⟩⟩

/-- Where the process stops right after the record of the transaction, the second commit executes
nothing: it returns, and the state change is lost. -/
theorem stopped_after_transaction :
    (oneTx.commit oneTxBlock PersistStore.empty).1 = .ok () ∧
      getState (oneTx.commit oneTxBlock PersistStore.empty).2 [1] = some [10] ∧
      (oneTx.commit oneTxBlock (oneTx.stoppedBefore oneTxBlock 3 PersistStore.empty)).1 = .ok () ∧
      getState (oneTx.commit oneTxBlock (oneTx.stoppedBefore oneTxBlock 3 PersistStore.empty)).2 [1] =
        none := by
  decide +kernel

/-- Where the process stops before that record, the second commit ends as the first. -/
theorem recovered_iff_oneTx :
    (oneTx.commit oneTxBlock PersistStore.empty).1 = .ok () ∧
      oneTx.commit oneTxBlock (oneTx.stoppedBefore oneTxBlock 2 PersistStore.empty) =
        oneTx.commit oneTxBlock PersistStore.empty := by
  have returned : (oneTx.commit oneTxBlock PersistStore.empty).1 = .ok () := by decide +kernel
  exact ⟨returned, (recovered_iff oneTx oneTxBlock PersistStore.empty 2 listingCodec_blockCommit
    returned).mpr (.inr (.inl le_rfl))⟩

end SvpChain.Storage
