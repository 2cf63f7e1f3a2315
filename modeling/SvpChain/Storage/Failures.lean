import SvpChain.Storage.Roots

/-!
# Puts that fail

`updateLevelDB` puts its entries one by one, and nothing takes the first ones back when a later one
returns an error.  After a failed put of `writeStateMerkleTree` the state, its indexes and its tree
are as before exactly when the puts before it wrote what the database held already.
-/

namespace SvpChain.Storage

open Core Merkle HashTree

/-- The error of an update function. -/
inductive WriteError where
  | storage (reason : StorageError)
  /-- The error of `Put`. -/
  | put
  deriving DecidableEq, Repr

/-- `updateLevelDB` where the put with number `failing`, counted from zero, returns an error. -/
def updateLevelDBFailing : List UpdateFunc → ℕ → Program WriteError PersistStore Unit
  | [], _ => pure ()
  | .error reason :: _, _ => Program.throw (.storage reason)
  | .ok _ :: _, 0 => Program.throw .put
  | .ok (key, value) :: fns, failing + 1 => do
      Program.modify fun store => Function.update store key.bytes (some value)
      updateLevelDBFailing fns failing

/-- `writeStateMerkleTree` where the put with number `failing` returns an error. -/
def writeStateMerkleTreeFailing (data : CommitData) (failing : ℕ) :
    Program WriteError PersistStore Unit :=
  if data.blockCommit.stateChanges.length = 0 then pure ()
  else do
    let update ← Program.deref data.merkleUpdate
    updateLevelDBFailing (data.blockCommit.stateChanges.flatMap commitStateChange ++
      commitMerkleUpdate update) failing

/-- The database after the first puts. -/
def afterPuts (store : PersistStore) (entries : List (DataKey × Bytes)) : PersistStore :=
  Table.writeAll store (entries.map fun entry => (entry.1.bytes, entry.2))

theorem updateLevelDBFailing_eq (entries : List (DataKey × Bytes)) (failing : ℕ)
    (store : PersistStore) :
    updateLevelDBFailing (entries.map Except.ok) failing store =
      if failing < entries.length then
        (.error (.error .put), afterPuts store (entries.take failing))
      else (.ok (), afterPuts store entries) := by
  induction entries generalizing failing store with
  | nil => rfl
  | cons entry entries ih =>
      cases failing with
      | zero => rfl
      | succ failing =>
          rw [List.map_cons, updateLevelDBFailing]
          refine (ih failing _).trans ?_
          simp only [List.length_cons, Nat.add_lt_add_iff_right]
          rfl

theorem ofState_of_stateEntries {change : StateChange} {entry : DataKey × Bytes}
    (mem : entry ∈ stateEntries change) : entry.1.OfState := by
  rw [stateEntries, List.mem_cons] at mem
  rcases mem with rfl | index
  · trivial
  · split at index
    · exact absurd index List.not_mem_nil
    · obtain rfl := List.mem_singleton.mp index
      trivial

theorem ofState_of_merkleEntries {update : UpdateResult} {entry : DataKey × Bytes}
    (mem : entry ∈ merkleEntries update) : entry.1.OfState := by
  rcases List.mem_append.mp mem with nodes | counters
  · obtain ⟨node, -, rfl⟩ := List.mem_map.mp nodes
    trivial
  · rcases List.mem_pair.mp counters with rfl | rfl <;> trivial

/-- The puts of `writeStateMerkleTree`, in order. -/
def statePuts (data : CommitData) : List (DataKey × Bytes) :=
  data.blockCommit.stateChanges.flatMap stateEntries ++
    (data.merkleUpdate.map merkleEntries).getD []

theorem writeStateMerkleTreeFailing_eq {data : CommitData} {update : UpdateResult}
    (changed : data.blockCommit.stateChanges ≠ []) (update_eq : data.merkleUpdate = some update)
    (failing : ℕ) (store : PersistStore) :
    writeStateMerkleTreeFailing data failing store =
      if failing < (statePuts data).length then
        (.error (.error .put), afterPuts store ((statePuts data).take failing))
      else (.ok (), afterPuts store (statePuts data)) := by
  have puts_eq : data.blockCommit.stateChanges.flatMap commitStateChange ++
      commitMerkleUpdate update = (statePuts data).map Except.ok := by
    rw [commitStateChanges_eq, commitMerkleUpdate_eq, ← List.map_append, statePuts, update_eq]
    rfl
  rw [writeStateMerkleTreeFailing, if_neg (by simpa using changed), update_eq]
  exact (congrFun (congrFun (congrArg updateLevelDBFailing puts_eq) failing) store).trans
    (updateLevelDBFailing_eq _ failing store)

section StatePuts

variable {strg : Storage} {store : PersistStore} {value : Bytes → Option Bytes}
  {index : Bytes → Option ℕ} {count : ℕ} {leaf : ℕ → Bytes} {changes : List StateChange}
  {update : UpdateResult}

theorem OfTree.data_eq {left right : Node} (fits : height strg.branch count ≤ 255)
    (of_left : OfTree strg count leaf left) (of_right : OfTree strg count leaf right)
    (same_position : left.position = right.position) : left.data = right.data := by
  obtain ⟨level, level_lt, place, -, rfl⟩ := of_left
  obtain ⟨level', level_lt', place', -, rfl⟩ := of_right
  obtain ⟨levels, places⟩ := Position.mk.inj same_position
  have level_eq : level = level' := by
    have values := congrArg UInt8.toNat levels
    rwa [UInt8.toNat_ofNat', UInt8.toNat_ofNat', Nat.mod_eq_of_lt (by omega),
      Nat.mod_eq_of_lt (by omega)] at values
  rw [level_eq, places]

/-! The entries of a commit, table by table. -/

theorem stateValue_of_mem {key content : Bytes}
    (mem : (DataKey.stateValueByKey key, content) ∈ commitEntries store index count changes update) :
    ∃ change ∈ changes, change.key = key ∧ content = change.value := by
  rcases mem_commitEntries.mp mem with ⟨change, change_mem, equal | ⟨-, equal⟩⟩ | tree
  · obtain ⟨keys, rfl⟩ := Prod.mk.inj equal
    exact ⟨change, change_mem, (DataKey.stateValueByKey.inj keys).symm, rfl⟩
  · cases equal
  · simp [merkleEntries] at tree

theorem merkleIndex_of_mem {key content : Bytes} (mem : (DataKey.merkleIndexByStateKey key, content) ∈
      commitEntries store index count changes update) :
    content = indexBytes (count + (sortedNewKeys index changes).idxOf key) := by
  rcases mem_commitEntries.mp mem with ⟨change, change_mem, equal | ⟨-, equal⟩⟩ | tree
  · cases equal
  · obtain ⟨keys, rfl⟩ := Prod.mk.inj equal
    rw [DataKey.merkleIndexByStateKey.inj keys]
  · simp [merkleEntries] at tree

theorem merkle_of_mem {key : DataKey} {content : Bytes}
    (mem : (key, content) ∈ commitEntries store index count changes update)
    (not_value : ∀ other, key ≠ .stateValueByKey other) (not_index : ∀ other, key ≠ .merkleIndexByStateKey other) :
    (key, content) ∈ merkleEntries update := by
  rcases mem_commitEntries.mp mem with ⟨change, change_mem, equal | ⟨-, equal⟩⟩ | tree
  · exact absurd (Prod.mk.inj equal).1 (not_value _)
  · exact absurd (Prod.mk.inj equal).1 (not_index _)
  · exact tree

theorem merkleNode_of_mem {position content : Bytes} (mem : (DataKey.merkleNodeByPosition position, content) ∈
      commitEntries store index count changes update) : ∃ node ∈ update.leaves ++ update.branches,
      node.position.bytes = position ∧ content = node.data := by
  have tree := merkle_of_mem mem (by simp) (by simp)
  rw [merkleEntries, List.mem_append] at tree
  rcases tree with nodes | counters
  · obtain ⟨node, node_mem, equal⟩ := List.mem_map.mp nodes
    obtain ⟨keys, rfl⟩ := Prod.mk.inj equal
    exact ⟨node, node_mem, DataKey.merkleNodeByPosition.inj keys, rfl⟩
  · simp at counters

theorem merkleLeafCount_of_mem {content : Bytes}
    (mem : (DataKey.merkleLeafCount, content) ∈ commitEntries store index count changes update) :
    content = Bytes.ofNat update.leafCount := by
  have tree := merkle_of_mem mem (by simp) (by simp)
  simpa [merkleEntries] using tree

theorem merkleTreeHeight_of_mem {content : Bytes}
    (mem : (DataKey.merkleTreeHeight, content) ∈ commitEntries store index count changes update) :
    content = [update.height] := by
  have tree := merkle_of_mem mem (by simp) (by simp)
  simpa [merkleEntries] using tree

theorem ofState_of_mem {entry : DataKey × Bytes}
    (mem : entry ∈ commitEntries store index count changes update) : entry.1.OfState := by
  rcases List.mem_append.mp mem with values | tree
  · obtain ⟨change, -, change_mem⟩ := List.mem_flatMap.mp values
    exact ofState_of_stateEntries change_mem
  · exact ofState_of_merkleEntries tree

theorem commitEntries_functional {newLeaf : ℕ → Bytes} (distinct : (changes.map StateChange.key).Nodup)
    (fits : height strg.branch (count + (sortedNewKeys index changes).length) ≤ 255)
    (of_tree : ∀ node ∈ update.leaves ++ update.branches,
      OfTree strg (count + (sortedNewKeys index changes).length) newLeaf node) {key : DataKey} {left right : Bytes}
    (left_mem : (key, left) ∈ commitEntries store index count changes update)
    (right_mem : (key, right) ∈ commitEntries store index count changes update) : left = right := by
  cases key with
  | stateValueByKey key =>
      obtain ⟨change, change_mem, rfl, rfl⟩ := stateValue_of_mem left_mem
      obtain ⟨other, other_mem, same_key, rfl⟩ := stateValue_of_mem right_mem
      rw [List.inj_on_of_nodup_map distinct change_mem other_mem same_key.symm]
  | merkleIndexByStateKey key => rw [merkleIndex_of_mem left_mem, merkleIndex_of_mem right_mem]
  | merkleNodeByPosition position =>
      obtain ⟨node, node_mem, rfl, rfl⟩ := merkleNode_of_mem left_mem
      obtain ⟨other, other_mem, same_text, rfl⟩ := merkleNode_of_mem right_mem
      exact OfTree.data_eq fits (of_tree node node_mem) (of_tree other other_mem)
        (Position.bytes_injective same_text.symm)
  | merkleTreeHeight =>
      rw [merkleTreeHeight_of_mem left_mem, merkleTreeHeight_of_mem right_mem]
  | merkleLeafCount => rw [merkleLeafCount_of_mem left_mem, merkleLeafCount_of_mem right_mem]
  | _ => exact absurd (ofState_of_mem left_mem) id

/-- Puts of a commit leave a database as it was exactly when it holds all of them already. -/
theorem sameState_afterPuts_iff {newLeaf : ℕ → Bytes} {before : PersistStore}
    (distinct : (changes.map StateChange.key).Nodup)
    (fits : height strg.branch (count + (sortedNewKeys index changes).length) ≤ 255)
    (of_tree : ∀ node ∈ update.leaves ++ update.branches,
      OfTree strg (count + (sortedNewKeys index changes).length) newLeaf node) {entries : List (DataKey × Bytes)}
    (part : entries ⊆ commitEntries store index count changes update) : SameState before (afterPuts before entries) ↔
      ∀ entry ∈ entries, before entry.1.bytes = some entry.2 := by
  constructor
  · rintro same ⟨key, content⟩ entry_mem
    have written : afterPuts before entries key.bytes = some content := by
      rw [afterPuts, read_written]
      refine Table.writeAll_of_mem entry_mem fun other other_mem => ?_
      exact commitEntries_functional distinct fits of_tree (part other_mem) (part entry_mem)
    rw [← written]
    exact (same key (ofState_of_mem (part entry_mem))).symm
  · intro stored
    have unchanged : afterPuts before entries = before := by
      refine Table.writeAll_of_stored fun entry entry_mem => ?_
      obtain ⟨source, source_mem, rfl⟩ := List.mem_map.mp entry_mem
      exact stored source source_mem
    rw [unchanged]
    exact fun _ _ => rfl

end StatePuts

/-- What `computeMerkleUpdate` prepares for a well-formed call on a reached database. -/
theorem Settled.prepared {strg : Storage} {history : List (List StateChange)} {store : PersistStore}
    (settled : Settled strg history store) (limit_pos : 0 < strg.concurrentLimit)
    {call : CommitCall} (wellFormed : call.WellFormed) (changed : call.changes ≠ [])
    (fits : height strg.branch (numbering (history ++ [call.changes])).2 ≤ 255) :
    ∃ data update newLeaf, strg.computeMerkleUpdate call.order call.data store = (.ok data, store) ∧
      data.merkleUpdate = some update ∧ data.blockCommit.stateChanges ≠ [] ∧
      statePuts data = commitEntries store (numbering history).1 (numbering history).2 call.changes update ∧
      ∀ node ∈ update.leaves ++ update.branches,
        OfTree strg (numbering (history ++ [call.changes])).2 newLeaf node := by
  obtain ⟨leaf, holds⟩ := settled.indexed
  rw [numbering_append] at fits ⊢
  obtain ⟨update, newLeaf, returned, of_tree, -⟩ :=
    holds.committed wellFormed.distinct changed fits wellFormed.order_perm
  obtain ⟨data, computed, update_eq, stored⟩ := holds.computeMerkleUpdate limit_pos call.data rfl
    wellFormed.distinct wellFormed.unplaced returned
  refine ⟨data, update, newLeaf, computed, update_eq, ?_, ?_, of_tree⟩
  · rw [stored]
    exact fun none_left => changed (List.map_eq_nil_iff.mp none_left)
  · rw [statePuts, stored, update_eq]
    rfl

/-- A put of `writeStateMerkleTree` that fails leaves the state, its indexes and its tree as they
were exactly when the puts before it wrote what was there already.  The database before the call
holds the records that `Commit` has put since it computed the update. -/
theorem unchanged_after_failed_put_iff {strg : Storage} {history : List (List StateChange)}
    {store before after : PersistStore} (reached : Reached strg history store)
    {call : CommitCall} (wellFormed : call.WellFormed)
    (changed : call.changes ≠ [])
    (few : ((history ++ [call.changes]).map List.length).sum ≤ 2 ^ 254) {data : CommitData}
    (computed : strg.computeMerkleUpdate call.order call.data store = (.ok data, store))
    {failing : ℕ}
    (failed : writeStateMerkleTreeFailing data failing before = (.error (.error .put), after)) :
    SameState before after ↔
      ∀ entry ∈ (statePuts data).take failing, before entry.1.bytes = some entry.2 := by
  have fits := fits_of_few strg few
  obtain ⟨data', update, newLeaf, computed', update_eq, nonempty, puts_eq, of_tree⟩ :=
    reached.settled.prepared reached.limit_pos wellFormed changed fits
  obtain rfl : data = data' := Except.ok.inj (congrArg Prod.fst (computed.symm.trans computed'))
  rw [writeStateMerkleTreeFailing_eq nonempty update_eq] at failed
  split at failed
  · obtain ⟨-, rfl⟩ := Prod.mk.inj failed
    rw [puts_eq]
    rw [numbering_append] at fits of_tree
    exact sameState_afterPuts_iff wellFormed.distinct fits of_tree (List.take_subset _ _)
  · exact absurd (congrArg Prod.fst failed) (by simp)

/-- A commit that changes the value of the key `[1]` to `[11]`. -/
def changeOne : CommitCall := blockOnlyCommit 1 [newStateChange [1] [11]]

theorem changeOne_wellFormed : changeOne.WellFormed :=
  ⟨by decide, by decide, fun _ _ => .rfl⟩

/-- What a caller sees of the key `[1]`. -/
structure Seen where
  value : Option Bytes
  node : Option Bytes
  verified : Except (Halt StorageError) (Option Bytes)
  deriving DecidableEq

def seen (store : PersistStore) : Seen :=
  ⟨getState store [1], getNode store ⟨0, 0⟩,
    (plainStorage.verifyState changeOne.order [1] store).1⟩

/-- The result of `changeOne` where its second put fails, with the database it leaves behind. -/
def afterSecondPut (store : PersistStore) : Except (Halt WriteError) Unit × PersistStore :=
  match (plainStorage.computeMerkleUpdate changeOne.order changeOne.data store).1 with
  | .error _ => (.ok (), store)
  | .ok data => writeStateMerkleTreeFailing data 1 store

/-- Where the second put fails, the new value stays beside the old tree, and `VerifyState` panics. -/
theorem failed_put_leaves_value :
    ∃ store data after, Reached plainStorage [[newStateChange [1] [10]]] store ∧
      plainStorage.computeMerkleUpdate changeOne.order changeOne.data store = (.ok data, store) ∧
      writeStateMerkleTreeFailing data 1 store = (.error (.error .put), after) ∧
      getState store [1] = some [10] ∧ getState after [1] = some [11] ∧
      getNode after ⟨0, 0⟩ = some [10] ∧
      (plainStorage.verifyState changeOne.order [1] after).1 =
        .error (.fault (.panic "merkle verification failed")) := by
  obtain ⟨store, returned, reached⟩ := reached_oneKey [1] [10]
  obtain ⟨data, -, -, computed, -⟩ := reached.settled.prepared Nat.one_pos
    changeOne_wellFormed (by decide) (fits_of_few plainStorage (by decide))
  have evaluated : (plainStorage.runCommits [blockOnlyCommit 0 [newStateChange [1] [10]]] []
      PersistStore.empty).map (fun run => (seen run.2).value) = some (some [10]) ∧
      (plainStorage.runCommits [blockOnlyCommit 0 [newStateChange [1] [10]]] []
        PersistStore.empty).map (fun run => (afterSecondPut run.2).1) = some (.error (.error .put)) ∧
      (plainStorage.runCommits [blockOnlyCommit 0 [newStateChange [1] [10]]] []
        PersistStore.empty).map (fun run => seen (afterSecondPut run.2).2) =
        some ⟨some [11], some [10], .error (.fault (.panic "merkle verification failed"))⟩ := by
    decide +kernel
  simp only [returned, Option.map_some, Option.some.injEq, afterSecondPut, computed, seen,
    Seen.mk.injEq] at evaluated
  obtain ⟨value, result, changed, tree, panics⟩ := evaluated
  exact ⟨store, data, (writeStateMerkleTreeFailing data 1 store).2, reached, computed,
    Prod.ext result rfl, value, changed, tree, panics⟩

/-- The same commit, where its first put fails. -/
theorem unchanged_after_failed_put_iff_changeOne :
    ∃ store data after, Reached plainStorage [[newStateChange [1] [10]]] store ∧
      writeStateMerkleTreeFailing data 0 store = (.error (.error .put), after) ∧
      (SameState store after ↔
        ∀ entry ∈ (statePuts data).take 0, store entry.1.bytes = some entry.2) := by
  obtain ⟨store, -, reached⟩ := reached_oneKey [1] [10]
  obtain ⟨data, update, -, computed, update_eq, nonempty, -⟩ := reached.settled.prepared Nat.one_pos
    changeOne_wellFormed (by decide) (fits_of_few plainStorage (by decide))
  have several : 0 < (statePuts data).length := by
    simp [statePuts, update_eq, merkleEntries]
  have failed : writeStateMerkleTreeFailing data 0 store = (.error (.error .put), store) := by
    rw [writeStateMerkleTreeFailing_eq nonempty update_eq, if_pos several]
    rfl
  exact ⟨store, data, store, reached, failed,
    unchanged_after_failed_put_iff reached changeOne_wellFormed (by decide) (by decide) computed failed⟩

end SvpChain.Storage
