import SvpChain.Merkle.Update
import SvpChain.Storage.Indexes

/-!
# Verified state over runs of commits

The state tables of the database hold, after every commit, the values last committed, a numbering
of the known keys, and all nodes of the Merkle tree over the hashes of their values.  A commit only
changes the leaves of its own keys, so one incremental update carries the tree along.
-/

namespace SvpChain.Storage

open Core Merkle HashTree

/-! ## Database writes -/

/-- The table and the rest of a database key. -/
def DataKey.parse : Bytes → Option DataKey
  | 1 :: hash => some (blockByHash hash)
  | 2 :: height => some (blockHashByHeight (UInt64.ofNat (Bytes.toNat height)))
  | [3] => some blockHeight
  | 6 :: hash => some (blockCommitByHash hash)
  | 8 :: hash => some (txByHash hash)
  | 9 :: hash => some (txCommitByHash hash)
  | 10 :: key => some (stateValueByKey key)
  | 11 :: key => some (merkleIndexByStateKey key)
  | [12] => some merkleTreeHeight
  | [13] => some merkleLeafCount
  | 14 :: position => some (merkleNodeByPosition position)
  | _ => none

theorem DataKey.parse_bytes (key : DataKey) : parse key.bytes = some key := by
  cases key with
  | blockHashByHeight height =>
      have decoded := Bytes.toNat_bigEndian 8 height.toNat
      rw [Nat.mod_eq_of_lt (show height.toNat < 256 ^ 8 from height.toNat_lt)] at decoded
      rw [bytes, parse, decoded, UInt64.ofNat_toNat]
  | _ => rfl

/-- The tables do not overlap. -/
theorem DataKey.bytes_injective : Function.Injective DataKey.bytes := by
  intro left right equal
  have parsed := congrArg parse equal
  rwa [parse_bytes, parse_bytes, Option.some.injEq] at parsed

/-- The keys of the state and Merkle tables. -/
def DataKey.OfState : DataKey → Prop
  | stateValueByKey _ | merkleIndexByStateKey _ | merkleTreeHeight | merkleLeafCount
  | merkleNodeByPosition _ => True
  | _ => False

/-- Two databases have the same state and Merkle tables. -/
def SameState (store store' : PersistStore) : Prop :=
  ∀ key : DataKey, key.OfState → store' key.bytes = store key.bytes

theorem updateLevelDB_ok (entries : List (DataKey × Bytes)) (store : PersistStore) :
    updateLevelDB (entries.map Except.ok) store =
      (.ok (), Table.writeAll store (entries.map fun entry => (entry.1.bytes, entry.2))) := by
  induction entries generalizing store with
  | nil => rfl
  | cons entry entries ih => exact ih _

/-- Puts to other tables leave the state tables alone, and stop only at an error of their own. -/
theorem updateLevelDB_sameState {fns : List UpdateFunc}
    (elsewhere : ∀ entry, .ok entry ∈ fns → ¬ entry.1.OfState) (store : PersistStore) :
    Program.wp (updateLevelDB fns) (fun _ => SameState store)
      (fun halt store' => (∃ reason, halt = .error reason ∧ .error reason ∈ fns) ∧ SameState store store') store := by
  suffices general : ∀ store', SameState store store' →
      Program.wp (updateLevelDB fns) (fun _ => SameState store)
        (fun halt store' => (∃ reason, halt = .error reason ∧ .error reason ∈ fns) ∧
          SameState store store') store' from
    general store fun _ _ => rfl
  induction fns with
  | nil => exact fun store' same => same
  | cons fn fns ih =>
      intro store' same
      cases fn with
      | error reason => exact ⟨⟨reason, rfl, List.mem_cons_self⟩, same⟩
      | ok entry =>
          rw [updateLevelDB, Program.wp_bind, Program.wp_modify]
          refine Program.wp_mono (ih (fun entry entry_mem =>
            elsewhere entry (List.mem_cons_of_mem _ entry_mem)) _ ?_) (fun _ _ => id) ?_
          · intro key of_state
            have other : key ≠ entry.1 := by
              rintro rfl
              exact elsewhere entry List.mem_cons_self of_state
            rw [Function.update_of_ne (DataKey.bytes_injective.ne other)]
            exact same key of_state
          · rintro halt store'' ⟨⟨reason, stopped, reason_mem⟩, same'⟩
            exact ⟨⟨reason, stopped, List.mem_cons_of_mem _ reason_mem⟩, same'⟩

theorem not_ofState_of_setRecord {key : DataKey} {value : Option Bytes} {entry : DataKey × Bytes}
    (equal : .ok entry = setRecord key value) (elsewhere : ¬ key.OfState) : ¬ entry.1.OfState := by
  cases value with
  | none => exact absurd equal (by simp [setRecord])
  | some value =>
      rw [setRecord, Except.ok.injEq] at equal
      rwa [equal]

/-! ## The invariant -/

/-- The branch factor in use. -/
def branch (strg : Storage) : ℕ :=
  (if strg.merkleBranchFactor < 2 then 2 else strg.merkleBranchFactor).toNat

theorem two_le_branch (strg : Storage) : 2 ≤ strg.branch := by
  unfold branch
  split
  · exact le_rfl
  · next large => exact UInt8.le_iff_toNat_le.mp (UInt8.not_lt.mp large)

/-- The state tables hold `value`, the numbering `index` of its keys by `0, .., count - 1`, and the
tree over the leaf vector `leaf`. -/
structure Indexed (strg : Storage) (store : PersistStore) (value : Bytes → Option Bytes)
    (index : Bytes → Option ℕ) (count : ℕ) (leaf : ℕ → Bytes) : Prop where
  values : ∀ key, getState store key = value key
  indexes : ∀ key, getMerkleIndex store key = (index key).map indexBytes
  known : ∀ key, (index key).isSome ↔ (value key).isSome
  distinct : ∀ key key' place, index key = some place → index key' = some place → key = key'
  range : ∀ place, place < count ↔ ∃ key, index key = some place
  leaves : ∀ key place content, index key = some place → value key = some content →
    leaf place = strg.sha3 content
  leafCount : getLeafCount store = count
  treeHeight : 0 < count → getHeight store = UInt8.ofNat (height strg.branch count)
  nodes : HoldsTree strg.sha3 strg.branch count leaf (getNode store)
  empty : count = 0 → ∀ position, getNode store position = none
  fits : height strg.branch count ≤ 255

variable {strg : Storage} {store store' : PersistStore} {value : Bytes → Option Bytes}
  {index : Bytes → Option ℕ} {count : ℕ} {leaf : ℕ → Bytes}

theorem Indexed.congr (holds : Indexed strg store value index count leaf)
    (same : SameState store store') : Indexed strg store' value index count leaf :=
  { holds with
    values := fun key => (same (.stateValueByKey key) trivial).trans (holds.values key)
    indexes := fun key => (same (.merkleIndexByStateKey key) trivial).trans (holds.indexes key)
    leafCount := by
      rw [getLeafCount, same .merkleLeafCount trivial]
      exact holds.leafCount
    treeHeight := fun count_pos => by
      rw [getHeight, same .merkleTreeHeight trivial]
      exact holds.treeHeight count_pos
    nodes := fun level level_lt place place_lt =>
      (same (.merkleNodeByPosition _) trivial).trans (holds.nodes level level_lt place place_lt)
    empty := fun none_left position =>
      (same (.merkleNodeByPosition _) trivial).trans (holds.empty none_left position) }

theorem Indexed.initial (strg : Storage) :
    Indexed strg PersistStore.empty (fun _ => none) (fun _ => none) 0 fun _ => [] where
  values _ := rfl
  indexes _ := rfl
  known _ := Iff.rfl
  distinct _ _ _ absurd := by cases absurd
  range place := by simp
  leaves _ _ _ absurd := by cases absurd
  leafCount := rfl
  treeHeight absurd := by omega
  nodes level level_lt place place_lt := by
    have bounded := height_le strg.two_le_branch 0
    obtain rfl : level = 0 := by omega
    exact absurd place_lt (Nat.not_lt_zero place)
  empty _ _ := rfl
  fits := (height_le strg.two_le_branch 0).trans (by decide)

/-! ## Reading -/

theorem Indexed.root_eq (holds : Indexed strg store value index count leaf) (count_pos : 0 < count) :
    (strg.merkleTree store).root = some (refNode strg.sha3 strg.branch count leaf
      (height strg.branch count - 1) 0) := by
  have positive := height_pos strg.branch count
  have last_level : getHeight store - 1 = UInt8.ofNat (height strg.branch count - 1) := by
    rw [holds.treeHeight count_pos]
    conv_lhs => rw [← Nat.succ_pred_eq_of_pos positive]
    exact ofNat_succ_sub_one _
  have root_pos : 0 < rowSize strg.branch count (height strg.branch count - 1) :=
    rowSize_pos (by have := strg.two_le_branch; omega) count_pos _
  have stored := holds.nodes (height strg.branch count - 1) (by omega) 0 root_pos
  have read : (strg.merkleTree store).store.getNode
      ⟨(strg.merkleTree store).store.height - 1, 0⟩ =
        some (node (combine strg.sha3) strg.branch count leaf (height strg.branch count - 1) 0) := by
    rw [← stored, ← last_level]
    rfl
  rw [Tree.root, read, refNode, ← last_level]
  rfl

theorem Indexed.getMerkleRoot_eq (holds : Indexed strg store value index count leaf) :
    strg.getMerkleRoot store = if count = 0 then none else
      some (node (combine strg.sha3) strg.branch count leaf (height strg.branch count - 1) 0) := by
  rcases Nat.eq_zero_or_pos count with none_left | count_pos
  · rw [if_pos none_left, getMerkleRoot, Tree.root]
    have missing := holds.empty none_left ⟨getHeight store - 1, 0⟩
    have read : (strg.merkleTree store).store.getNode
      ⟨(strg.merkleTree store).store.height - 1, 0⟩ = none := missing
    rw [read]
    rfl
  · rw [if_neg (by omega), getMerkleRoot, holds.root_eq count_pos]
    rfl

theorem Indexed.verify_eq (holds : Indexed strg store value index count leaf)
    {order : ℕ → List Node → List Node} (order_perm : ∀ level nodes, (order level nodes).Perm nodes)
    {key content : Bytes} {place : ℕ} (found : index key = some place) (current : value key = some content) :
    (strg.merkleTree store).verify order [⟨⟨0, place⟩, strg.sha3 content⟩] = some true := by
  have place_lt : place < count := (holds.range place).mpr ⟨key, found⟩
  have growth : Growth (strg.merkleTree store) count count leaf leaf {place} :=
    ⟨strg.two_le_branch, holds.nodes, le_rfl, fun _ _ _ => by omega, fun _ _ _ => rfl,
      fun _ place_eq => by rwa [place_eq], ⟨place, rfl⟩, holds.fits⟩
  have touches : TouchedNodes (strg.merkleTree store) count leaf {place} 0
      [⟨⟨0, place⟩, strg.sha3 content⟩] := by
    intro node
    rw [List.mem_singleton]
    have leaf_eq := holds.leaves key place content found current
    constructor
    · rintro rfl
      refine ⟨place, rfl, ?_⟩
      rw [refNode, HashTree.node, leaf_eq]
      rfl
    · rintro ⟨other, rfl, rfl⟩
      rw [refNode, HashTree.node, leaf_eq]
      rfl
  obtain ⟨result, returned, -, -, root_eq, -⟩ := growth.update order_perm touches
  have count_eq : (strg.merkleTree store).store.leafCount = count := holds.leafCount
  have count_ne : count ≠ 0 := by omega
  rw [Tree.verify, holds.root_eq (by omega)]
  simp only [count_eq, returned, List.any_cons, List.any_nil, place_lt]
  rw [if_neg (by simp), if_neg count_ne, if_neg (by simp), Option.map_some, root_eq]
  exact congrArg some (beq_self_eq_true _)

theorem Indexed.verifyState_eq (holds : Indexed strg store value index count leaf)
    {order : ℕ → List Node → List Node} (order_perm : ∀ level nodes, (order level nodes).Perm nodes)
    (key : Bytes) : strg.verifyState order key store = (.ok (value key), store) := by
  have known := holds.known key
  have state_eq := holds.values key
  have index_eq := holds.indexes key
  cases current : value key with
  | none =>
      rw [current] at state_eq
      simp only [verifyState, bind, Program.get, state_eq]
      rfl
  | some content =>
      rw [current] at state_eq known
      obtain ⟨place, found⟩ := Option.isSome_iff_exists.mp (known.mpr rfl)
      rw [found, Option.map_some] at index_eq
      have verified := holds.verify_eq order_perm found current
      simp only [verifyState, bind, Program.get, state_eq, index_eq, toNat_indexBytes, verified]
      rfl

/-! ## One commit -/

/-- The values after a list of changes. -/
def valueAfter (value : Bytes → Option Bytes) (changes : List StateChange) (key : Bytes) :
    Option Bytes :=
  ((changes.find? fun change => change.key = key).map StateChange.value).or (value key)

theorem valueAfter_of_mem {changes : List StateChange}
    (distinct : (changes.map StateChange.key).Nodup) {change : StateChange}
    (change_mem : change ∈ changes) : valueAfter value changes change.key = some change.value := by
  have found : changes.find? (fun other => other.key = change.key) = some change := by
    cases search : changes.find? (fun other => other.key = change.key) with
    | none => simpa using List.find?_eq_none.mp search change change_mem
    | some other =>
        have same_key : other.key = change.key := by simpa using List.find?_some search
        rw [List.inj_on_of_nodup_map distinct (List.mem_of_find?_eq_some search) change_mem same_key]
  rw [valueAfter, found]
  rfl

theorem valueAfter_of_notMem {changes : List StateChange} {key : Bytes}
    (key_notMem : key ∉ changes.map StateChange.key) : valueAfter value changes key = value key := by
  have missing : changes.find? (fun other => other.key = key) = none := by
    rw [List.find?_eq_none]
    intro change change_mem
    simpa using fun same_key => key_notMem (List.mem_map.mpr ⟨change, change_mem, same_key⟩)
  rw [valueAfter, missing]
  rfl

/-- The leaf that a change writes. -/
def leafNode (strg : Storage) (next : Bytes → Option ℕ) (change : StateChange) : Node :=
  ⟨⟨0, (next change.key).getD 0⟩, strg.sha3 change.value⟩

/-- The entries of a change. -/
def stateEntries (change : StateChange) : List (DataKey × Bytes) :=
  (.stateValueByKey change.key, change.value) ::
    if change.prevTreeIndex = some change.treeIndex then []
    else [(.merkleIndexByStateKey change.key, change.treeIndex)]

/-- The entries of a tree update. -/
def merkleEntries (update : UpdateResult) : List (DataKey × Bytes) :=
  (update.leaves ++ update.branches).map
      (fun node => (.merkleNodeByPosition node.entry.1, node.entry.2)) ++
    [(.merkleLeafCount, Bytes.ofNat update.leafCount), (.merkleTreeHeight, [update.height])]

theorem commitStateChanges_eq (changes : List StateChange) :
    changes.flatMap commitStateChange = (changes.flatMap stateEntries).map Except.ok := by
  rw [List.map_flatMap]
  congr 1
  funext change
  by_cases same : change.prevTreeIndex = some change.treeIndex <;>
    simp [commitStateChange, stateEntries, same]

theorem commitMerkleUpdate_eq (update : UpdateResult) :
    commitMerkleUpdate update = (merkleEntries update).map Except.ok := by
  simp only [commitMerkleUpdate, merkleEntries, List.map_append, List.map_map]
  rfl

section Commit

variable {changes : List StateChange}

theorem Indexed.next_eq (holds : Indexed strg store value index count leaf) {key : Bytes}
    (key_mem : key ∈ changes.map StateChange.key) :
    ∃ place, nextIndex index count (sortedNewKeys index changes) key = some place ∧
      place < count + (sortedNewKeys index changes).length := by
  cases found : index key with
  | some place =>
      have place_lt := (holds.range place).mpr ⟨key, found⟩
      exact ⟨place, nextIndex_of_known found, by omega⟩
  | none =>
      have new_mem := mem_sortedNewKeys.mpr ⟨found, key_mem⟩
      have below := List.idxOf_lt_length_of_mem new_mem
      exact ⟨_, nextIndex_of_new count found new_mem, by omega⟩

theorem Indexed.leafNodes_nodup (holds : Indexed strg store value index count leaf)
    (distinct : (changes.map StateChange.key).Nodup) :
    ((changes.map (leafNode strg (nextIndex index count (sortedNewKeys index changes)))).map
      (·.position.index)).Nodup := by
  rw [List.map_map]
  refine (List.Nodup.of_map _ distinct).map_on ?_
  intro left left_mem right right_mem same_place
  obtain ⟨place, left_eq, -⟩ := holds.next_eq (List.mem_map_of_mem left_mem)
  obtain ⟨place', right_eq, -⟩ := holds.next_eq (List.mem_map_of_mem right_mem)
  have places : place = place' := by simpa [leafNode, left_eq, right_eq] using same_place
  subst places
  exact List.inj_on_of_nodup_map distinct left_mem right_mem
    (nextIndex_distinct holds.distinct holds.range left_eq right_eq)

theorem Indexed.growth (holds : Indexed strg store value index count leaf)
    (distinct : (changes.map StateChange.key).Nodup) (nonempty : changes ≠ [])
    (fits : height strg.branch (count + (sortedNewKeys index changes).length) ≤ 255) :
    Growth (strg.merkleTree store) count (count + (sortedNewKeys index changes).length) leaf (leafAfter leaf
        (changes.map (leafNode strg (nextIndex index count (sortedNewKeys index changes)))))
      {place | place ∈ (changes.map (leafNode strg
        (nextIndex index count (sortedNewKeys index changes)))).map (·.position.index)} := by
  refine ⟨strg.two_le_branch, holds.nodes, by omega, ?_, fun _ _ => leafAfter_of_notMem, ?_, ?_,
    fits⟩
  · intro place place_ge place_lt
    have keys_new : ∀ key ∈ sortedNewKeys index changes, index key = none :=
      fun key key_mem => (mem_sortedNewKeys.mp key_mem).1
    obtain ⟨key, place_eq⟩ := (nextIndex_range holds.range
      (sortedNewKeys_nodup index distinct) keys_new place).mp place_lt
    rcases nextIndex_eq_some_iff.mp place_eq with old | ⟨-, key_mem, -⟩
    · have := (holds.range place).mpr ⟨key, old⟩
      omega
    · obtain ⟨change, change_mem, rfl⟩ := List.mem_map.mp (mem_sortedNewKeys.mp key_mem).2
      refine List.mem_map.mpr ⟨_, List.mem_map_of_mem change_mem, ?_⟩
      simp [leafNode, place_eq]
  · intro place place_mem
    obtain ⟨node, node_mem, rfl⟩ := List.mem_map.mp place_mem
    obtain ⟨change, change_mem, rfl⟩ := List.mem_map.mp node_mem
    obtain ⟨place, place_eq, place_lt⟩ := holds.next_eq (List.mem_map_of_mem change_mem)
    simpa [leafNode, place_eq] using place_lt
  · obtain ⟨change, change_mem⟩ := List.exists_mem_of_ne_nil changes nonempty
    exact ⟨_, List.mem_map_of_mem (List.mem_map_of_mem change_mem)⟩

theorem read_written (entries : List (DataKey × Bytes)) (key : DataKey) :
    Table.writeAll store (entries.map fun entry => (entry.1.bytes, entry.2)) key.bytes =
      Table.writeAll (fun key => store key.bytes) entries key :=
  Table.writeAll_embed DataKey.bytes_injective store entries key

/-- The entries that a commit puts into the state tables. -/
def commitEntries (store : PersistStore) (index : Bytes → Option ℕ) (count : ℕ)
    (changes : List StateChange) (update : UpdateResult) : List (DataKey × Bytes) :=
  (changes.map (completed store index
      (nextIndex index count (sortedNewKeys index changes)))).flatMap stateEntries ++
    merkleEntries update

theorem stateEntries_completed {change : StateChange} (change_mem : change ∈ changes) :
    stateEntries (completed store index
        (nextIndex index count (sortedNewKeys index changes)) change) =
      (DataKey.stateValueByKey change.key, change.value) ::
        if index change.key = none then
          [(.merkleIndexByStateKey change.key,
            indexBytes (count + (sortedNewKeys index changes).idxOf change.key))]
        else [] := by
  cases found : index change.key with
  | some place =>
      have kept : nextIndex index count (sortedNewKeys index changes) change.key = some place :=
        nextIndex_of_known found
      simp [stateEntries, completed, found, kept]
  | none =>
      have placed := nextIndex_of_new count found
        (mem_sortedNewKeys.mpr ⟨found, List.mem_map_of_mem change_mem⟩)
      simp [stateEntries, completed, found, placed]

variable {update : UpdateResult} {order : ℕ → List Node → List Node}

theorem mem_commitEntries {entry : DataKey × Bytes} : entry ∈ commitEntries store index count changes update ↔
      (∃ change ∈ changes, entry = (.stateValueByKey change.key, change.value) ∨
        index change.key = none ∧ entry = (.merkleIndexByStateKey change.key,
          indexBytes (count + (sortedNewKeys index changes).idxOf change.key))) ∨ entry ∈ merkleEntries update := by
  rw [commitEntries, List.mem_append, List.flatMap_map, List.mem_flatMap]
  refine or_congr (exists_congr fun change => and_congr_right fun change_mem => ?_) Iff.rfl
  rw [stateEntries_completed change_mem]
  by_cases found : index change.key = none <;> simp [found]

theorem merkleNode_written (position : Bytes) : Table.writeAll (fun key : DataKey => store key.bytes)
        (commitEntries store index count changes update) (.merkleNodeByPosition position) =
      Table.writeAll (fun position => store (DataKey.merkleNodeByPosition position).bytes)
        ((update.leaves ++ update.branches).map Node.entry) position := by
  have embed_injective : Function.Injective DataKey.merkleNodeByPosition :=
    fun _ _ equal => DataKey.merkleNodeByPosition.inj equal
  have nodes_eq : (update.leaves ++ update.branches).map
      (fun node => (DataKey.merkleNodeByPosition node.entry.1, node.entry.2)) =
        ((update.leaves ++ update.branches).map Node.entry).map
          fun entry => (DataKey.merkleNodeByPosition entry.1, entry.2) := by
    rw [List.map_map]
    rfl
  have elsewhere : ∀ position, DataKey.merkleNodeByPosition position ∉
      ((changes.map (completed store index (nextIndex index count
        (sortedNewKeys index changes)))).flatMap stateEntries).map Prod.fst := by
    intro position key_mem
    obtain ⟨entry, entry_mem, equal⟩ := List.mem_map.mp key_mem
    rw [List.flatMap_map] at entry_mem
    obtain ⟨change, change_mem, in_change⟩ := List.mem_flatMap.mp entry_mem
    rw [stateEntries_completed change_mem] at in_change
    split at in_change <;> simp at in_change <;> rcases in_change with rfl | rfl <;> cases equal
  rw [commitEntries, merkleEntries, Table.writeAll_append, Table.writeAll_append,
    Table.writeAll_of_notMem (by simp), nodes_eq, Table.writeAll_embed embed_injective]
  congr 1
  funext position
  rw [Table.writeAll_of_notMem (elsewhere position)]

theorem getState_written (holds : Indexed strg store value index count leaf)
    (distinct : (changes.map StateChange.key).Nodup) (key : Bytes) :
    getState (Table.writeAll store ((commitEntries store index count changes update).map
      fun entry => (entry.1.bytes, entry.2))) key = valueAfter value changes key := by
  rw [getState, read_written]
  by_cases changed : key ∈ changes.map StateChange.key
  · obtain ⟨change, change_mem, rfl⟩ := List.mem_map.mp changed
    rw [valueAfter_of_mem distinct change_mem]
    apply Table.writeAll_of_mem (mem_commitEntries.mpr (Or.inl ⟨change, change_mem, Or.inl rfl⟩))
    intro other other_mem
    rcases mem_commitEntries.mp other_mem with ⟨another, another_mem, equal | ⟨-, equal⟩⟩ | tree
    · obtain ⟨keys, rfl⟩ := Prod.mk.inj equal
      rw [List.inj_on_of_nodup_map distinct change_mem another_mem (DataKey.stateValueByKey.inj keys)]
    · cases equal
    · simp [merkleEntries] at tree
  · rw [valueAfter_of_notMem changed, ← holds.values key]
    apply Table.writeAll_of_notMem
    intro key_mem
    obtain ⟨⟨entryKey, content⟩, entry_mem, rfl⟩ := List.mem_map.mp key_mem
    rcases mem_commitEntries.mp entry_mem with ⟨change, change_mem, equal | ⟨-, equal⟩⟩ | tree
    · obtain ⟨keys, -⟩ := Prod.mk.inj equal
      rw [DataKey.stateValueByKey.inj keys] at changed
      exact changed (List.mem_map_of_mem change_mem)
    · cases equal
    · simp [merkleEntries] at tree

theorem getMerkleIndex_written (holds : Indexed strg store value index count leaf) (key : Bytes) :
    getMerkleIndex (Table.writeAll store ((commitEntries store index count changes update).map
      fun entry => (entry.1.bytes, entry.2))) key =
        (nextIndex index count (sortedNewKeys index changes) key).map indexBytes := by
  rw [getMerkleIndex, read_written]
  by_cases new : index key = none ∧ key ∈ changes.map StateChange.key
  · obtain ⟨missing, changed⟩ := new
    obtain ⟨change, change_mem, rfl⟩ := List.mem_map.mp changed
    rw [nextIndex_of_new count missing (mem_sortedNewKeys.mpr ⟨missing, changed⟩), Option.map_some]
    apply Table.writeAll_of_mem
      (mem_commitEntries.mpr (Or.inl ⟨change, change_mem, Or.inr ⟨missing, rfl⟩⟩))
    intro other other_mem
    rcases mem_commitEntries.mp other_mem with ⟨another, another_mem, equal | ⟨-, equal⟩⟩ | tree
    · cases equal
    · obtain ⟨keys, rfl⟩ := Prod.mk.inj equal
      rw [DataKey.merkleIndexByStateKey.inj keys]
    · simp [merkleEntries] at tree
  · have key_notMem : key ∉ sortedNewKeys index changes :=
      fun key_mem => new (mem_sortedNewKeys.mp key_mem)
    rw [nextIndex_of_notMem key_notMem, ← holds.indexes key]
    apply Table.writeAll_of_notMem
    intro key_mem
    obtain ⟨⟨entryKey, content⟩, entry_mem, rfl⟩ := List.mem_map.mp key_mem
    rcases mem_commitEntries.mp entry_mem with ⟨change, change_mem, equal | ⟨missing, equal⟩⟩ | tree
    · cases equal
    · obtain ⟨keys, -⟩ := Prod.mk.inj equal
      rw [DataKey.merkleIndexByStateKey.inj keys] at new
      exact new ⟨missing, List.mem_map_of_mem change_mem⟩
    · simp [merkleEntries] at tree

theorem merkleEntry_written {key : DataKey} {content : Bytes} (entry_mem : (key, content) ∈ merkleEntries update)
    (single : key = .merkleLeafCount ∨ key = .merkleTreeHeight) :
    Table.writeAll store ((commitEntries store index count changes update).map
      fun entry => (entry.1.bytes, entry.2)) key.bytes = some content := by
  rw [read_written]
  apply Table.writeAll_of_mem (mem_commitEntries.mpr (Or.inr entry_mem))
  intro other other_mem
  rcases mem_commitEntries.mp other_mem with ⟨another, another_mem, equal | ⟨-, equal⟩⟩ | tree
  · rcases single with rfl | rfl <;> cases equal
  · rcases single with rfl | rfl <;> cases equal
  · rcases single with rfl | rfl <;> simp_all [merkleEntries]

/-- A position of the tree over `count` leaves. -/
def InTree (strg : Storage) (count : ℕ) (position : Position) : Prop :=
  ∃ level < height strg.branch count, ∃ place < rowSize strg.branch count level,
    position = ⟨UInt8.ofNat level, place⟩

/-- A node of the tree over `count` leaves. -/
def OfTree (strg : Storage) (count : ℕ) (leaf : ℕ → Bytes) (node : Node) : Prop :=
  ∃ level < height strg.branch count, ∃ place < rowSize strg.branch count level,
    node = refNode strg.sha3 strg.branch count leaf level place

theorem OfTree.inTree {node : Node} (of_tree : OfTree strg count leaf node) : InTree strg count node.position := by
  obtain ⟨level, level_lt, place, place_lt, rfl⟩ := of_tree
  exact ⟨level, level_lt, place, place_lt, rfl⟩

theorem Indexed.committed (holds : Indexed strg store value index count leaf)
    (distinct : (changes.map StateChange.key).Nodup) (nonempty : changes ≠ [])
    (fits : height strg.branch (count + (sortedNewKeys index changes).length) ≤ 255)
    (order_perm : ∀ level nodes, (order level nodes).Perm nodes) :
    ∃ update newLeaf, (strg.merkleTree store).update order
        (changes.map (leafNode strg (nextIndex index count (sortedNewKeys index changes))))
        (count + (sortedNewKeys index changes).length) = some update ∧ (∀ node ∈ update.leaves ++ update.branches,
        OfTree strg (count + (sortedNewKeys index changes).length) newLeaf node) ∧
      Indexed strg (Table.writeAll store ((commitEntries store index count changes update).map
          fun entry => (entry.1.bytes, entry.2))) (valueAfter value changes)
        (nextIndex index count (sortedNewKeys index changes))
        (count + (sortedNewKeys index changes).length) newLeaf := by
  have growth := holds.growth distinct nonempty fits
  have leaves_nodup := holds.leafNodes_nodup distinct
  have touches := touchedNodes_leafAfter (strg.merkleTree store)
    (count + (sortedNewKeys index changes).length) leaf
    (fun node node_mem => by
      obtain ⟨change, -, rfl⟩ := List.mem_map.mp node_mem
      rfl) leaves_nodup
  obtain ⟨update, returned, count_eq, height_eq, -, written⟩ := growth.update order_perm touches
  have of_tree : ∀ node ∈ update.leaves ++ update.branches,
      OfTree strg (count + (sortedNewKeys index changes).length) (leafAfter leaf
        (changes.map (leafNode strg (nextIndex index count (sortedNewKeys index changes))))) node := by
    intro node node_mem
    obtain ⟨level, level_lt, place, touched, rfl⟩ := (written node).mp node_mem
    have branch_pos : 0 < strg.branch := by have := strg.two_le_branch; omega
    exact ⟨level, level_lt, place, touchedAt_lt branch_pos growth.below touched, rfl⟩
  refine ⟨update, _, returned, of_tree, ?_⟩
  exact {
    values := getState_written holds distinct
    indexes := getMerkleIndex_written holds
    known := by
      intro key
      by_cases changed : key ∈ changes.map StateChange.key
      · obtain ⟨place, place_eq, -⟩ := holds.next_eq changed
        obtain ⟨change, change_mem, rfl⟩ := List.mem_map.mp changed
        rw [place_eq, valueAfter_of_mem distinct change_mem]
        simp
      · rw [nextIndex_of_notMem fun key_mem => changed (mem_sortedNewKeys.mp key_mem).2, valueAfter_of_notMem changed]
        exact holds.known key
    distinct := fun key key' place => nextIndex_distinct holds.distinct holds.range
    range := nextIndex_range holds.range (sortedNewKeys_nodup index distinct)
      fun key key_mem => (mem_sortedNewKeys.mp key_mem).1
    leaves := by
      intro key place content place_eq current
      by_cases changed : key ∈ changes.map StateChange.key
      · obtain ⟨change, change_mem, rfl⟩ := List.mem_map.mp changed
        rw [valueAfter_of_mem distinct change_mem, Option.some.injEq] at current
        have written_leaf := leafAfter_of_mem leaf leaves_nodup (List.mem_map_of_mem change_mem)
        simpa [leafNode, place_eq, current] using written_leaf
      · rw [valueAfter_of_notMem changed] at current
        have old := place_eq
        rw [nextIndex_of_notMem fun key_mem => changed (mem_sortedNewKeys.mp key_mem).2] at old
        rw [leafAfter_of_notMem, holds.leaves key place content old current]
        intro place_mem
        obtain ⟨node, node_mem, node_place⟩ := List.mem_map.mp place_mem
        obtain ⟨change, change_mem, rfl⟩ := List.mem_map.mp node_mem
        obtain ⟨place', place'_eq, -⟩ := holds.next_eq (List.mem_map_of_mem change_mem)
        have same_place : place' = place := by simpa [leafNode, place'_eq] using node_place
        rw [same_place] at place'_eq
        rw [nextIndex_distinct holds.distinct holds.range place_eq place'_eq] at changed
        exact changed (List.mem_map_of_mem change_mem)
    leafCount := by
      have entry_mem : (DataKey.merkleLeafCount, Bytes.ofNat update.leafCount) ∈
          merkleEntries update := by simp [merkleEntries]
      rw [getLeafCount, merkleEntry_written entry_mem (Or.inl rfl), Option.map_some,
        Option.getD_some, Bytes.toNat_ofNat, count_eq]
    treeHeight := by
      intro _
      have entry_mem : (DataKey.merkleTreeHeight, [update.height]) ∈ merkleEntries update := by
        simp [merkleEntries]
      rw [getHeight, merkleEntry_written entry_mem (Or.inr rfl), Option.getD_some, height_eq]
      rfl
    nodes := by
      have held := growth.holds_writeAll written
        (fun position => store (DataKey.merkleNodeByPosition position).bytes) fun _ => rfl
      intro level level_lt place place_lt
      rw [getNode, read_written, merkleNode_written]
      exact held level level_lt place place_lt
    empty := by
      intro none_left
      obtain ⟨change, change_mem⟩ := List.exists_mem_of_ne_nil changes nonempty
      obtain ⟨place, -, place_lt⟩ := holds.next_eq (List.mem_map_of_mem change_mem)
      omega
    fits := fits }

theorem SameState.trans {store₁ store₂ store₃ : PersistStore} (first : SameState store₁ store₂)
    (second : SameState store₂ store₃) : SameState store₁ store₃ :=
  fun key of_state => (second key of_state).trans (first key of_state)

/-- Every record can be marshalled. -/
def Codec.Total (codec : Codec) : Prop :=
  (∀ block, codec.block block ≠ none) ∧ (∀ tx, codec.tx tx ≠ none) ∧
    (∀ txc, codec.txCommit txc ≠ none) ∧ ∀ bcm, codec.blockCommit bcm ≠ none

theorem setRecord_ne_error {key : DataKey} {value : Option Bytes} {reason : StorageError}
    (marshals : value ≠ none) : setRecord key value ≠ .error reason := by
  cases value with
  | none => exact absurd rfl marshals
  | some value => simp [setRecord]

/-- A part of a commit that writes no state table, and stops only if marshalling fails. -/
def Elsewhere (strg : Storage) (program : Program StorageError PersistStore Unit) : Prop :=
  ∀ store, program.wp (fun _ => SameState store)
    (fun halt store' => (∃ reason, halt = .error reason) ∧ ¬ strg.codec.Total ∧
      SameState store store') store

theorem writeChainData_elsewhere (strg : Storage) (data : CommitData) : Elsewhere strg (strg.writeChainData data) := by
  intro store
  refine Program.wp_mono (updateLevelDB_sameState ?_ store) (fun _ _ => id) ?_
  · intro entry entry_mem
    simp only [List.mem_append, List.mem_cons, List.mem_map, List.not_mem_nil, or_false] at entry_mem
    rcases entry_mem with ((equal | equal) | ⟨tx, -, equal⟩) | ⟨txc, -, equal⟩
    · exact not_ofState_of_setRecord equal id
    · rw [Except.ok.inj equal]
      exact id
    · exact not_ofState_of_setRecord equal.symm id
    · exact not_ofState_of_setRecord equal.symm id
  · rintro halt store' ⟨⟨reason, stopped, reason_mem⟩, same⟩
    refine ⟨⟨reason, stopped⟩, fun total => ?_, same⟩
    simp only [List.mem_append, List.mem_cons, List.mem_map, List.not_mem_nil, or_false] at reason_mem
    rcases reason_mem with ((equal | equal) | ⟨tx, -, equal⟩) | ⟨txc, -, equal⟩
    · exact setRecord_ne_error (total.1 _) equal.symm
    · cases equal
    · exact setRecord_ne_error (total.2.1 tx) equal
    · exact setRecord_ne_error (total.2.2.1 txc) equal

theorem writeBlockCommit_elsewhere (strg : Storage) (data : CommitData) :
    Elsewhere strg (strg.writeBlockCommit data) := by
  intro store
  refine Program.wp_mono (updateLevelDB_sameState ?_ store) (fun _ _ => id) ?_
  · intro entry entry_mem
    exact not_ofState_of_setRecord (List.mem_singleton.mp entry_mem) id
  · rintro halt store' ⟨⟨reason, stopped, reason_mem⟩, same⟩
    exact ⟨⟨reason, stopped⟩, fun total => setRecord_ne_error (total.2.2.2 _)
      (List.mem_singleton.mp reason_mem).symm, same⟩

theorem sameState_putBlockHeight (store : PersistStore) (height : Bytes) :
    SameState store (Function.update store DataKey.blockHeight.bytes (some height)) := by
  intro key of_state
  apply Function.update_of_ne
  apply DataKey.bytes_injective.ne
  rintro rfl
  exact of_state

/-- A commit writes its state changes and tree update to the state tables, or nothing. -/
theorem writeCommitData_spec (strg : Storage) (data : CommitData) (entries : List (DataKey × Bytes))
    (state_eq : ∀ store, writeStateMerkleTree data store =
      (.ok (), Table.writeAll store (entries.map fun entry => (entry.1.bytes, entry.2)))) (store : PersistStore) :
    Program.wp (strg.writeCommitData data) (fun _ => SameState
        (Table.writeAll store (entries.map fun entry => (entry.1.bytes, entry.2))))
      (fun halt store' => (∃ reason, halt = .error reason) ∧ ¬ strg.codec.Total ∧ SameState store store') store := by
  rw [writeCommitData, Program.wp_bind]
  refine Program.wp_mono (writeChainData_elsewhere strg data store) ?_ fun _ _ => id
  intro _ store₁ same₁
  rw [Program.wp_bind]
  refine Program.wp_mono (writeBlockCommit_elsewhere strg data store₁) ?_
    fun halt store' stopped => ⟨stopped.1, stopped.2.1, same₁.trans stopped.2.2⟩
  intro _ store₂ same₂
  rw [Program.wp_bind, Program.wp, state_eq]
  have both : SameState (Table.writeAll store (entries.map fun entry => (entry.1.bytes, entry.2)))
      (Table.writeAll store₂ (entries.map fun entry => (entry.1.bytes, entry.2))) :=
    fun key of_state => Table.writeAll_congr (same₁.trans same₂ key of_state) _
  exact both.trans (sameState_putBlockHeight _ _)

theorem computeUpdatedTreeNodes_completed (limit_pos : 0 < strg.concurrentLimit) {next : Bytes → Option ℕ} :
    strg.computeUpdatedTreeNodes (changes.map (completed store index next)) =
      pure (changes.map (leafNode strg next)) := by
  rw [computeUpdatedTreeNodes, if_neg (by omega), List.map_map]
  congr 2
  funext change
  simp [completed, leafNode]

theorem Indexed.computeMerkleUpdate (holds : Indexed strg store value index count leaf)
    (limit_pos : 0 < strg.concurrentLimit) (data : CommitData) (changes_eq : data.blockCommit.stateChanges = changes)
    (distinct : (changes.map StateChange.key).Nodup) (unplaced : ∀ change ∈ changes, change.prevTreeIndex = none)
    (returned : (strg.merkleTree store).update order
        (changes.map (leafNode strg (nextIndex index count (sortedNewKeys index changes))))
        (count + (sortedNewKeys index changes).length) = some update) :
    ∃ data', strg.computeMerkleUpdate order data store = (.ok data', store) ∧ data'.merkleUpdate = some update ∧
      data'.blockCommit.stateChanges = changes.map (completed store index
        (nextIndex index count (sortedNewKeys index changes))) := by
  have assigned := setNewTreeIndexes_eq count holds.indexes distinct unplaced
  simp only [Storage.computeMerkleUpdate, bind, Program.get, changes_eq, holds.leafCount, assigned,
    computeUpdatedTreeNodes_completed limit_pos, pure, returned]
  exact ⟨_, rfl, rfl, rfl⟩

/-- What stops a commit leaves the state tables as they were. -/
def Stopped (strg : Storage) (store : PersistStore) (halt : Halt StorageError)
    (store' : PersistStore) : Prop :=
  (∃ reason, halt = .error reason) ∧ ¬ strg.codec.Total ∧ SameState store store'

theorem commit_of_nil (strg : Storage) (data : CommitData)
    (changes_eq : data.blockCommit.stateChanges = []) (order : ℕ → List Node → List Node) (store : PersistStore) :
    Program.wp (strg.commit order data) (fun _ => SameState store) (Stopped strg store) store := by
  have skipped : writeStateMerkleTree data = pure () := by
    rw [writeStateMerkleTree, changes_eq]
    rfl
  rw [Storage.commit, changes_eq, if_neg (by simp), Program.wp_bind, Program.wp_pure]
  exact writeCommitData_spec strg data [] (fun store => by rw [skipped]; rfl) store

theorem Indexed.commit_written (holds : Indexed strg store value index count leaf)
    (limit_pos : 0 < strg.concurrentLimit) (data : CommitData)
    (changes_eq : data.blockCommit.stateChanges = changes) (nonempty : changes ≠ [])
    (distinct : (changes.map StateChange.key).Nodup) (unplaced : ∀ change ∈ changes, change.prevTreeIndex = none)
    (returned : (strg.merkleTree store).update order
        (changes.map (leafNode strg (nextIndex index count (sortedNewKeys index changes))))
        (count + (sortedNewKeys index changes).length) = some update) : Program.wp (strg.commit order data)
      (fun _ => SameState (Table.writeAll store
        ((commitEntries store index count changes update).map fun entry => (entry.1.bytes, entry.2))))
      (Stopped strg store) store := by
  obtain ⟨data', computed, update_eq, stored⟩ :=
    holds.computeMerkleUpdate limit_pos data changes_eq distinct unplaced returned
  have written : ∀ store', writeStateMerkleTree data' store' =
      (.ok (), Table.writeAll store' ((commitEntries store index count changes update).map
        fun entry => (entry.1.bytes, entry.2))) := by
    intro store'
    have entries_eq : (data'.blockCommit.stateChanges.flatMap commitStateChange ++
        commitMerkleUpdate update) =
          (commitEntries store index count changes update).map Except.ok := by
      rw [stored, commitStateChanges_eq, commitMerkleUpdate_eq, ← List.map_append]
      rfl
    rw [writeStateMerkleTree, stored, update_eq, if_neg (by simpa using nonempty), ← stored]
    exact (congrFun (congrArg updateLevelDB entries_eq) store').trans (updateLevelDB_ok _ store')
  rw [Storage.commit, changes_eq, if_pos (List.length_pos_of_ne_nil nonempty), Program.wp_bind,
    Program.wp, computed]
  exact writeCommitData_spec strg data' _ written store

end Commit

/-! ## Runs -/

/-- A call of `Commit`, with the order in which the tree workers of each level finish. -/
structure CommitCall where
  order : ℕ → List Node → List Node
  data : CommitData

/-- The state changes of a call. -/
def CommitCall.changes (call : CommitCall) : List StateChange := call.data.blockCommit.stateChanges

/-- The changes have distinct keys and are built by `NewStateChange`, which sets no leaf, and the
workers return every node once. -/
structure CommitCall.WellFormed (call : CommitCall) : Prop where
  distinct : (call.changes.map StateChange.key).Nodup
  unplaced : ∀ change ∈ call.changes, change.prevTreeIndex = none
  order_perm : ∀ level nodes, (call.order level nodes).Perm nodes

/-- Calls one after another, with the changes of those that returned no error; `none` if one of
them faults. -/
def runCommits (strg : Storage) : List CommitCall → List (List StateChange) → PersistStore →
    Option (List (List StateChange) × PersistStore)
  | [], history, store => some (history, store)
  | call :: calls, history, store =>
      match strg.commit call.order call.data store with
      | (.ok (), store') => runCommits strg calls (history ++ [call.changes]) store'
      | (.error (.error _), store') => runCommits strg calls history store'
      | (.error (.fault _), _) => none

/-- The value of a key in the last commit that contains it. -/
def lastValue (history : List (List StateChange)) (key : Bytes) : Option Bytes :=
  history.reverse.findSome? fun changes =>
    (changes.find? fun change => change.key = key).map StateChange.value

theorem lastValue_append (history : List (List StateChange)) (changes : List StateChange) :
    lastValue (history ++ [changes]) = valueAfter (lastValue history) changes := by
  funext key
  rw [lastValue, List.reverse_append, List.reverse_singleton, List.singleton_append,
    List.findSome?_cons, valueAfter]
  cases (changes.find? fun change => change.key = key).map StateChange.value <;> rfl

/-- What a caller can rely on: the values, a numbering of their keys, the tree over the hashes of
the values in that numbering, its root, and the check of a value against the root. -/
def VerifiedState (strg : Storage) (store : PersistStore) (value : Bytes → Option Bytes) : Prop :=
  (∀ key, getState store key = value key) ∧
  ∃ (index : Bytes → Option ℕ) (leaf : ℕ → Bytes),
    (∀ key, getMerkleIndex store key = (index key).map indexBytes) ∧
    (∀ key, (index key).isSome ↔ (value key).isSome) ∧
    (∀ key key' place, index key = some place → index key' = some place → key = key') ∧
    (∀ place, place < getLeafCount store ↔ ∃ key, index key = some place) ∧
    (∀ key place content, index key = some place → value key = some content →
      leaf place = strg.sha3 content ∧ getNode store ⟨0, place⟩ = some (strg.sha3 content)) ∧
    strg.getMerkleRoot store = (if getLeafCount store = 0 then none else
      some (node (combine strg.sha3) strg.branch (getLeafCount store) leaf
        (height strg.branch (getLeafCount store) - 1) 0)) ∧
    ∀ order : ℕ → List Node → List Node, (∀ level nodes, (order level nodes).Perm nodes) →
      ∀ key, strg.verifyState order key store = (.ok (getState store key), store)

theorem Indexed.verifiedState (holds : Indexed strg store value index count leaf) : VerifiedState strg store value := by
  refine ⟨holds.values, index, leaf, holds.indexes, holds.known, holds.distinct, ?_, ?_, ?_, ?_⟩
  · rw [holds.leafCount]
    exact holds.range
  · intro key place content place_eq current
    have leaf_eq := holds.leaves key place content place_eq current
    have place_lt := (holds.range place).mpr ⟨key, place_eq⟩
    have stored := holds.nodes 0 (height_pos _ _) place place_lt
    rw [HashTree.node, leaf_eq] at stored
    exact ⟨leaf_eq, stored⟩
  · rw [holds.leafCount]
    exact holds.getMerkleRoot_eq
  · intro order order_perm key
    rw [holds.values key]
    exact holds.verifyState_eq order_perm key

/-- The tables after the commits of a history. -/
structure Settled (strg : Storage) (history : List (List StateChange)) (store : PersistStore) :
    Prop where
  indexed : ∃ leaf, Indexed strg store (lastValue history) (numbering history).1
    (numbering history).2 leaf
  inside : ∀ position, getNode store position ≠ none → InTree strg (numbering history).2 position
  distinct : ∀ changes ∈ history, (changes.map StateChange.key).Nodup

theorem Settled.initial (strg : Storage) : Settled strg [] PersistStore.empty :=
  ⟨⟨_, Indexed.initial strg⟩, fun _ stored => absurd rfl stored, fun _ mem => (nomatch mem)⟩

variable {history : List (List StateChange)}

theorem Settled.congr (settled : Settled strg history store)
    (same : SameState store store') : Settled strg history store' := by
  obtain ⟨leaf, holds⟩ := settled.indexed
  refine ⟨⟨leaf, holds.congr same⟩, fun position stored => settled.inside position ?_,
    settled.distinct⟩
  rwa [getNode, ← same (.merkleNodeByPosition _) trivial]

theorem InTree.mono {small large : ℕ} {position : Position} (inside : InTree strg small position)
    (grows : small ≤ large) : InTree strg large position := by
  obtain ⟨level, level_lt, place, place_lt, rfl⟩ := inside
  have branch_pos : 0 < strg.branch := by have := strg.two_le_branch; omega
  exact ⟨level, level_lt.trans_le (height_mono strg.two_le_branch grows), place,
    place_lt.trans_le (rowSize_mono branch_pos grows level), rfl⟩

/-- A call of distinct keys takes the tables to those of the longer history. -/
theorem Settled.commit {history : List (List StateChange)} (settled : Settled strg history store)
    (limit_pos : 0 < strg.concurrentLimit) {call : CommitCall} (wellFormed : call.WellFormed)
    (fits : height strg.branch (numbering (history ++ [call.changes])).2 ≤ 255) :
    Program.wp (strg.commit call.order call.data)
      (fun _ => Settled strg (history ++ [call.changes])) (Stopped strg store) store := by
  have distinct : ∀ changes ∈ history ++ [call.changes], (changes.map StateChange.key).Nodup := by
    intro changes changes_mem
    rcases List.mem_append.mp changes_mem with old | new
    · exact settled.distinct changes old
    · exact List.mem_singleton.mp new ▸ wellFormed.distinct
  rcases eq_or_ne call.changes [] with unchanged | nonempty
  · have same_history : Settled strg (history ++ [call.changes]) store := by
      obtain ⟨⟨leaf, holds⟩, inside, -⟩ := settled
      have same_values : lastValue (history ++ [[]]) = lastValue history := by
        rw [lastValue_append]
        rfl
      have same_numbers : numbering (history ++ [[]]) = numbering history := by
        rw [numbering_append, numberNext_nil]
      rw [unchanged] at distinct ⊢
      exact ⟨⟨leaf, by rwa [same_values, same_numbers]⟩, by rwa [same_numbers], distinct⟩
    refine Program.wp_mono (commit_of_nil strg call.data unchanged call.order store) ?_
      fun _ _ stopped => stopped
    exact fun _ store' same => same_history.congr same
  · obtain ⟨leaf, holds⟩ := settled.indexed
    rw [numbering_append] at fits
    obtain ⟨update, newLeaf, returned, of_tree, indexed⟩ :=
      holds.committed wellFormed.distinct nonempty fits wellFormed.order_perm
    refine Program.wp_mono (holds.commit_written limit_pos call.data rfl nonempty
      wellFormed.distinct wellFormed.unplaced returned) ?_ fun _ _ stopped => stopped
    intro _ store' same
    refine Settled.congr ⟨?_, ?_, distinct⟩ same
    · rw [lastValue_append, numbering_append]
      exact ⟨_, indexed⟩
    · intro position stored
      rw [numbering_append]
      by_cases fresh : position ∈ (update.leaves ++ update.branches).map Node.position
      · obtain ⟨node, node_mem, rfl⟩ := List.mem_map.mp fresh
        exact (of_tree node node_mem).inTree
      · have kept : getNode store position ≠ none := by
          rw [getNode, read_written, merkleNode_written, Table.writeAll_of_notMem] at stored
          · exact stored
          · rw [List.map_map, List.mem_map]
            rintro ⟨node, node_mem, texts⟩
            exact fresh (List.mem_map.mpr ⟨node, node_mem, Position.bytes_injective texts⟩)
        exact (settled.inside position kept).mono (Nat.le_add_right _ _)

theorem numbering_le (history : List (List StateChange)) : (numbering history).2 ≤ (history.map List.length).sum := by
  induction history using List.reverseRecOn with
  | nil => exact le_rfl
  | append_singleton history changes ih =>
      have new_le := sortedNewKeys_length_le (numbering history).1 changes
      rw [numbering_append, List.map_append, List.sum_append]
      simp only [numberNext, List.map_cons, List.map_nil, List.sum_cons, List.sum_nil]
      omega

theorem fits_of_few (strg : Storage) (few : (history.map List.length).sum ≤ 2 ^ 254) :
    height strg.branch (numbering history).2 ≤ 255 := by
  apply height_le_of_le_pow (by have := strg.two_le_branch; omega)
  calc
    (numbering history).2 ≤ (history.map List.length).sum := numbering_le history
    _ ≤ 2 ^ 254 := few
    _ ≤ strg.branch ^ 254 := Nat.pow_le_pow_left strg.two_le_branch 254

/-- Runs that start in the tables of a history end in the tables of a longer one. -/
theorem Settled.runCommits (limit_pos : 0 < strg.concurrentLimit) (calls : List CommitCall)
    (wellFormed : ∀ call ∈ calls, call.WellFormed) (settled : Settled strg history store)
    (few : (history.map List.length).sum + (calls.map fun call => call.changes.length).sum ≤ 2 ^ 254) :
    ∃ history' store', strg.runCommits calls history store = some (history', store') ∧
      (strg.codec.Total → history' = history ++ calls.map CommitCall.changes) ∧ Settled strg history' store' := by
  induction calls generalizing history store with
  | nil => exact ⟨history, store, rfl, fun _ => by simp, settled⟩
  | cons call calls ih =>
      obtain ⟨call_ok, calls_ok⟩ := List.forall_mem_cons.mp wellFormed
      rw [List.map_cons, List.sum_cons] at few
      have longer : ((history ++ [call.changes]).map List.length).sum =
          (history.map List.length).sum + call.changes.length := by simp
      have stepped := settled.commit limit_pos call_ok (fits_of_few strg (by omega))
      rw [Program.wp] at stepped
      rw [Storage.runCommits]
      rcases ending : strg.commit call.order call.data store with ⟨result, store'⟩
      rw [ending] at stepped
      rcases result with (_ | _) | _
      · obtain ⟨-, not_total, same⟩ := stepped
        obtain ⟨history', final, returned, -, rest⟩ := ih calls_ok (settled.congr same) (by omega)
        exact ⟨history', final, returned, fun total => absurd total not_total, rest⟩
      · obtain ⟨⟨_, faulted⟩, -⟩ := stepped
        cases faulted
      · obtain ⟨history', final, returned, complete, rest⟩ := ih calls_ok stepped (by omega)
        refine ⟨history', final, returned, fun total => ?_, rest⟩
        rw [complete total, List.append_assoc]
        rfl

/-- After every run of commits the storage holds the state of those that returned no error, which
are all of them if every record can be marshalled. -/
theorem verifiedState_of_runCommits (strg : Storage) (limit_pos : 0 < strg.concurrentLimit)
    (calls : List CommitCall) (wellFormed : ∀ call ∈ calls, call.WellFormed)
    (few : (calls.map fun call => call.changes.length).sum ≤ 2 ^ 254) :
    ∃ history store, strg.runCommits calls [] PersistStore.empty = some (history, store) ∧
      (strg.codec.Total → history = calls.map CommitCall.changes) ∧
      VerifiedState strg store (lastValue history) := by
  obtain ⟨history, store, returned, complete, ⟨leaf, holds⟩, -⟩ :=
    (Settled.initial strg).runCommits limit_pos calls wellFormed (by simpa using few)
  exact ⟨history, store, returned, complete, holds.verifiedState⟩

/-- A commit of a block without transactions. -/
def blockOnlyCommit (height : UInt64) (changes : List StateChange) : CommitCall where
  order _ nodes := nodes
  data :=
    { block :=
        { data :=
            { hash := [], view := 0, height := height, parentHash := [], execHeight := 0
              merkleRoot := [], timestamp := 0, transactions := [], quorumCert := none
              signature := none }
          quorumCert := none
          signature := ⟨⟨[], []⟩, ⟨List.replicate 32 0, length_zeros⟩⟩ }
      transactions := []
      blockCommit := ⟨[], [], [], [], changes⟩
      txCommits := []
      merkleUpdate := none }

/-- Two keys, then a new key together with a change of a known one. -/
theorem verifiedState_of_runCommits_two :
    ∃ store, Storage.runCommits ⟨id, ⟨fun _ => some [], fun _ => some [], fun _ => some [],
        fun _ => some []⟩, 2, 1⟩
      [blockOnlyCommit 0 [newStateChange [2] [20], newStateChange [1] [10]],
        blockOnlyCommit 1 [newStateChange [3] [30], newStateChange [1] [11]]] [] PersistStore.empty =
      some ([[newStateChange [2] [20], newStateChange [1] [10]],
        [newStateChange [3] [30], newStateChange [1] [11]]], store) ∧
      getState store [1] = some [11] ∧ getState store [2] = some [20] := by
  obtain ⟨history, store, returned, complete, values, -⟩ :=
    verifiedState_of_runCommits ⟨id, ⟨fun _ => some [], fun _ => some [], fun _ => some [],
        fun _ => some []⟩, 2, 1⟩ Nat.one_pos
      [blockOnlyCommit 0 [newStateChange [2] [20], newStateChange [1] [10]],
        blockOnlyCommit 1 [newStateChange [3] [30], newStateChange [1] [11]]]
      (List.forall_mem_cons.mpr ⟨⟨by decide, by decide, fun _ _ => .rfl⟩,
        List.forall_mem_singleton.mpr ⟨by decide, by decide, fun _ _ => .rfl⟩⟩)
      (by decide)
  obtain rfl := complete ⟨fun _ => Option.some_ne_none _, fun _ => Option.some_ne_none _,
    fun _ => Option.some_ne_none _, fun _ => Option.some_ne_none _⟩
  exact ⟨store, returned, values [1], values [2]⟩

end SvpChain.Storage
