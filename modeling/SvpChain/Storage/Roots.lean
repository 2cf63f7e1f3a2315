import SvpChain.Storage.Verified

/-!
# What a state root stands for

The tables after a history of commits depend on the changes of each block as a set only, so nodes
that commit the same changes have the same root.  In the other direction a root stands for the
values in the order of their leaf indexes: neither the keys nor the number of leaves enter it.
-/

namespace SvpChain.Storage

open Core Merkle HashTree

/-! ## The order of the changes -/

theorem keyLE_antisymm {left right : Bytes} (le : keyLE left right = true)
    (ge : keyLE right left = true) : left = right := by
  simp only [keyLE, decide_eq_true_eq] at le ge
  exact List.map_injective_iff.mpr (fun _ _ => UInt8.toNat_inj.mp) (le_antisymm le ge)

theorem keyLE_trans (first second third : Bytes) (le : keyLE first second = true)
    (le' : keyLE second third = true) : keyLE first third = true := by
  simp only [keyLE, decide_eq_true_eq] at le le' ⊢
  exact le.trans le'

theorem keyLE_total (left right : Bytes) : (keyLE left right || keyLE right left) = true := by
  simp only [keyLE, Bool.or_eq_true, decide_eq_true_eq]
  exact le_total _ _

variable {left right : List StateChange}

theorem sortedNewKeys_perm (index : Bytes → Option ℕ)
    (permuted : left.Perm right) : sortedNewKeys index left = sortedNewKeys index right := by
  have same_keys : (sortedNewKeys index left).Perm (sortedNewKeys index right) := by
    have keys : ((left.filter fun change => (index change.key).isNone).map StateChange.key).Perm
        ((right.filter fun change => (index change.key).isNone).map StateChange.key) :=
      (permuted.filter _).map _
    exact ((List.mergeSort_perm _ _).trans keys).trans (List.mergeSort_perm _ _).symm
  have sorted : ∀ changes, (sortedNewKeys index changes).Pairwise fun key key' => keyLE key key' = true :=
    fun changes => List.pairwise_mergeSort keyLE_trans keyLE_total _
  exact same_keys.eq_of_pairwise (fun _ _ _ _ => keyLE_antisymm) (sorted left) (sorted right)

theorem numberNext_perm (numbered : (Bytes → Option ℕ) × ℕ)
    (permuted : left.Perm right) : numberNext numbered left = numberNext numbered right := by
  rw [numberNext, numberNext, sortedNewKeys_perm numbered.1 permuted]

theorem numbering_perm {left right : List (List StateChange)}
    (permuted : List.Forall₂ List.Perm left right) : numbering left = numbering right := by
  have folded : ∀ numbered, left.foldl numberNext numbered = right.foldl numberNext numbered := by
    induction permuted with
    | nil => exact fun _ => rfl
    | cons changes _ ih =>
        intro numbered
        rw [List.foldl_cons, List.foldl_cons, numberNext_perm numbered changes, ih]
  exact folded _

theorem valueAfter_perm (value : Bytes → Option Bytes)
    (permuted : left.Perm right) (distinct : (left.map StateChange.key).Nodup) :
    valueAfter value left = valueAfter value right := by
  have distinct_right : (right.map StateChange.key).Nodup := (permuted.map _).nodup_iff.mp distinct
  funext key
  by_cases changed : key ∈ left.map StateChange.key
  · obtain ⟨change, change_mem, rfl⟩ := List.mem_map.mp changed
    rw [valueAfter_of_mem distinct change_mem,
      valueAfter_of_mem distinct_right (permuted.mem_iff.mp change_mem)]
  · rw [valueAfter_of_notMem changed,
      valueAfter_of_notMem fun mem => changed ((permuted.map _).mem_iff.mpr mem)]

theorem lastValue_eq_foldl (history : List (List StateChange)) :
    lastValue history = history.foldl valueAfter fun _ => none := by
  induction history using List.reverseRecOn with
  | nil => rfl
  | append_singleton history changes ih =>
      rw [lastValue_append, List.foldl_append, ← ih]
      rfl

theorem lastValue_perm {left right : List (List StateChange)} (permuted : List.Forall₂ List.Perm left right)
    (distinct : ∀ changes ∈ left, (changes.map StateChange.key).Nodup) : lastValue left = lastValue right := by
  have folded : ∀ value, left.foldl valueAfter value = right.foldl valueAfter value := by
    induction permuted with
    | nil => exact fun _ => rfl
    | cons changes _ ih =>
        intro value
        obtain ⟨own, rest⟩ := List.forall_mem_cons.mp distinct
        rw [List.foldl_cons, List.foldl_cons, valueAfter_perm value changes own, ih rest]
  rw [lastValue_eq_foldl, lastValue_eq_foldl, folded]

/-! ## Equal histories, equal tables -/

section TwoStorages

variable {strg₁ strg₂ : Storage} {history₁ history₂ : List (List StateChange)}
  {store₁ store₂ : PersistStore}

/-- Two databases that a caller cannot tell apart by their state and its tree. -/
structure SameTables (store₁ store₂ : PersistStore) : Prop where
  values : ∀ key, getState store₁ key = getState store₂ key
  indexes : ∀ key, getMerkleIndex store₁ key = getMerkleIndex store₂ key
  leafCount : getLeafCount store₁ = getLeafCount store₂
  nodes : ∀ position, getNode store₁ position = getNode store₂ position

theorem branch_eq (same_branch : strg₁.merkleBranchFactor = strg₂.merkleBranchFactor) :
    strg₁.branch = strg₂.branch := by
  rw [branch, branch, same_branch]

variable {strg : Storage} {store : PersistStore}

theorem Indexed.value_of_index {value : Bytes → Option Bytes} {index : Bytes → Option ℕ} {count : ℕ} {leaf : ℕ → Bytes}
    (holds : Indexed strg store value index count leaf) {key : Bytes} {place : ℕ}
    (found : index key = some place) : ∃ content, value key = some content := by
  have placed : (index key).isSome := by
    rw [found]
    rfl
  exact Option.isSome_iff_exists.mp ((holds.known key).mp placed)

theorem Indexed.leaf_eq {value : Bytes → Option Bytes} {index : Bytes → Option ℕ} {count : ℕ} {leaf : ℕ → Bytes}
    (holds : Indexed strg store value index count leaf) {place : ℕ} (place_lt : place < count) :
    ∃ key content, index key = some place ∧ value key = some content ∧ leaf place = strg.sha3 content := by
  obtain ⟨key, found⟩ := (holds.range place).mp place_lt
  obtain ⟨content, current⟩ := holds.value_of_index found
  exact ⟨key, content, found, current, holds.leaves key place content found current⟩

theorem Settled.sameTables (settled₁ : Settled strg₁ history₁ store₁)
    (settled₂ : Settled strg₂ history₂ store₂) (same_hash : strg₁.sha3 = strg₂.sha3)
    (same_branch : strg₁.merkleBranchFactor = strg₂.merkleBranchFactor)
    (values : lastValue history₁ = lastValue history₂) (numbers : numbering history₁ = numbering history₂) :
    SameTables store₁ store₂ ∧ strg₁.getMerkleRoot store₁ = strg₂.getMerkleRoot store₂ := by
  obtain ⟨⟨leaf₁, holds₁⟩, inside₁, -⟩ := settled₁
  obtain ⟨⟨leaf₂, holds₂⟩, inside₂, -⟩ := settled₂
  have branch_pos : 0 < strg₂.branch := by have := strg₂.two_le_branch; omega
  have trees := branch_eq same_branch
  rw [values, numbers] at holds₁
  rw [numbers] at inside₁
  have leaves : ∀ place < (numbering history₂).2, leaf₁ place = leaf₂ place := by
    intro place place_lt
    obtain ⟨key, content, found, current, leaf_eq⟩ := holds₁.leaf_eq place_lt
    rw [leaf_eq, holds₂.leaves key place content found current, same_hash]
  have nodes : ∀ level place, place < rowSize strg₂.branch (numbering history₂).2 level →
      node (combine strg₁.sha3) strg₂.branch (numbering history₂).2 leaf₁ level place =
        node (combine strg₂.sha3) strg₂.branch (numbering history₂).2 leaf₂ level place := by
    intro level place place_lt
    rw [same_hash]
    exact node_congr _ branch_pos leaves level place place_lt
  have nodes₁ := holds₁.nodes
  rw [trees] at nodes₁
  refine ⟨⟨?_, ?_, ?_, ?_⟩, ?_⟩
  · intro key
    rw [holds₁.values, holds₂.values]
  · intro key
    rw [holds₁.indexes, holds₂.indexes]
  · rw [holds₁.leafCount, holds₂.leafCount]
  · intro position
    by_cases in_tree : InTree strg₂ (numbering history₂).2 position
    · obtain ⟨level, level_lt, place, place_lt, rfl⟩ := in_tree
      rw [nodes₁ level level_lt place place_lt, holds₂.nodes level level_lt place place_lt,
        nodes level place place_lt]
    · have absent₁ : getNode store₁ position = none := by
        by_contra stored
        have in_tree₁ := inside₁ position stored
        rw [InTree, trees] at in_tree₁
        exact in_tree in_tree₁
      have absent₂ : getNode store₂ position = none := by
        by_contra stored
        exact in_tree (inside₂ position stored)
      rw [absent₁, absent₂]
  · rw [holds₁.getMerkleRoot_eq, holds₂.getMerkleRoot_eq, trees]
    rcases Nat.eq_zero_or_pos (numbering history₂).2 with none_left | count_pos
    · rw [if_pos none_left, if_pos none_left]
    · rw [if_neg (by omega), if_neg (by omega)]
      exact congrArg some (nodes _ 0 (rowSize_pos branch_pos count_pos _))

/-- A history of commits from the empty database and the tables it leads to. -/
structure Reached (strg : Storage) (history : List (List StateChange)) (store : PersistStore) :
    Prop where
  limit_pos : 0 < strg.concurrentLimit
  run : ∃ calls : List CommitCall, (∀ call ∈ calls, call.WellFormed) ∧
    (calls.map fun call => call.changes.length).sum ≤ 2 ^ 254 ∧
    strg.runCommits calls [] PersistStore.empty = some (history, store)

theorem Reached.settled {history : List (List StateChange)}
    (reached : Reached strg history store) : Settled strg history store := by
  obtain ⟨limit_pos, calls, wellFormed, few, returned⟩ := reached
  obtain ⟨history', store', returned', -, settled⟩ :=
    (Settled.initial strg).runCommits limit_pos calls wellFormed (by simpa using few)
  obtain ⟨rfl, rfl⟩ := Prod.mk.inj (Option.some.inj (returned.symm.trans returned'))
  exact settled

theorem exists_reached (limit_pos : 0 < strg.concurrentLimit)
    (total : strg.codec.Total) {calls : List CommitCall} (wellFormed : ∀ call ∈ calls, call.WellFormed)
    (few : (calls.map fun call => call.changes.length).sum ≤ 2 ^ 254) :
    ∃ store, strg.runCommits calls [] PersistStore.empty = some (calls.map CommitCall.changes, store) ∧
      Reached strg (calls.map CommitCall.changes) store := by
  obtain ⟨history, store, returned, complete, -⟩ :=
    (Settled.initial strg).runCommits limit_pos calls wellFormed (by simpa using few)
  obtain rfl := complete total
  exact ⟨store, returned, limit_pos, calls, wellFormed, few, returned⟩

/-- Two nodes that commit the same changes block by block, each in its own order and with its own
order of workers, have the same leaf indexes, leaf count, tree nodes and root. -/
theorem sameTables_of_permuted (reached₁ : Reached strg₁ history₁ store₁)
    (reached₂ : Reached strg₂ history₂ store₂) (same_hash : strg₁.sha3 = strg₂.sha3)
    (same_branch : strg₁.merkleBranchFactor = strg₂.merkleBranchFactor)
    (permuted : List.Forall₂ List.Perm history₁ history₂) :
    SameTables store₁ store₂ ∧ strg₁.getMerkleRoot store₁ = strg₂.getMerkleRoot store₂ :=
  reached₁.settled.sameTables reached₂.settled same_hash same_branch
    (lastValue_perm permuted reached₁.settled.distinct) (numbering_perm permuted)

/-! ## Equal roots -/

theorem indexBytes_injective : Function.Injective indexBytes :=
  Function.LeftInverse.injective toNat_indexBytes

end TwoStorages

/-- A storage whose hash is the identity, with total marshallers. -/
def plainStorage : Storage :=
  ⟨id, ⟨fun _ => some [], fun _ => some [], fun _ => some [], fun _ => some []⟩, 2, 1⟩

theorem plainStorage_total : plainStorage.codec.Total :=
  ⟨fun _ => Option.some_ne_none _, fun _ => Option.some_ne_none _, fun _ => Option.some_ne_none _,
    fun _ => Option.some_ne_none _⟩

/-- Two new keys, listed in two orders. -/
theorem sameTables_of_permuted_two :
    ∃ store₁ store₂,
      Reached plainStorage [[newStateChange [2] [20], newStateChange [1] [10]]] store₁ ∧
      Reached plainStorage [[newStateChange [1] [10], newStateChange [2] [20]]] store₂ ∧
      SameTables store₁ store₂ ∧
      plainStorage.getMerkleRoot store₁ = plainStorage.getMerkleRoot store₂ := by
  obtain ⟨store₁, -, reached₁⟩ := exists_reached Nat.one_pos plainStorage_total
    (List.forall_mem_singleton.mpr (⟨by decide, by decide, fun _ _ => .rfl⟩ :
      (blockOnlyCommit 0 [newStateChange [2] [20], newStateChange [1] [10]]).WellFormed)) (by decide)
  obtain ⟨store₂, -, reached₂⟩ := exists_reached Nat.one_pos plainStorage_total
    (List.forall_mem_singleton.mpr (⟨by decide, by decide, fun _ _ => .rfl⟩ :
      (blockOnlyCommit 0 [newStateChange [1] [10], newStateChange [2] [20]]).WellFormed)) (by decide)
  have permuted : List.Forall₂ List.Perm
      [[newStateChange [2] [20], newStateChange [1] [10]]]
      [[newStateChange [1] [10], newStateChange [2] [20]]] := .cons (.swap _ _ _) .nil
  exact ⟨store₁, store₂, reached₁, reached₂,
    sameTables_of_permuted reached₁ reached₂ rfl rfl permuted⟩

theorem reached_oneKey (key value : Bytes) :
    ∃ store, plainStorage.runCommits [blockOnlyCommit 0 [newStateChange key value]] []
        PersistStore.empty = some ([[newStateChange key value]], store) ∧
      Reached plainStorage [[newStateChange key value]] store := by
  refine exists_reached Nat.one_pos plainStorage_total (List.forall_mem_singleton.mpr
    (⟨List.nodup_singleton _, ?_, fun _ _ => .rfl⟩ :
      (blockOnlyCommit 0 [newStateChange key value]).WellFormed)) ?_
  · intro change change_mem
    rw [List.mem_singleton.mp change_mem]
    rfl
  · exact Nat.one_le_two_pow

theorem numbering_oneKey (key value : Bytes) :
    numbering [[newStateChange key value]] = numberNext (fun _ => none, 0) [newStateChange key []] ∧
      (numbering [[newStateChange key value]]).2 = 1 := by
  have keys : ∀ value, sortedNewKeys (fun _ => none) [newStateChange key value] = [key] := by
    intro value
    simp [sortedNewKeys, newStateChange]
  constructor
  · rw [numbering, List.foldl_cons, List.foldl_nil, numberNext, numberNext, keys, keys]
  · rw [numbering, List.foldl_cons, List.foldl_nil, numberNext, keys]
    rfl

theorem size_of_oneKey {key value : Bytes} {store : PersistStore}
    (reached : Reached plainStorage [[newStateChange key value]] store) (position : Position) :
    (getNode store position).map List.length =
      if position = ⟨0, 0⟩ then some value.length else none := by
  obtain ⟨⟨leaf, holds⟩, inside, -⟩ := reached.settled
  rw [(numbering_oneKey key value).2] at holds inside
  have one_level : height plainStorage.branch 1 = 1 :=
    @height_eq_of_first plainStorage.branch 1 0 le_rfl fun _ below => absurd below (Nat.not_lt_zero _)
  by_cases first : position = ⟨0, 0⟩
  · obtain ⟨key', content, found, current, leaf_eq⟩ := holds.leaf_eq Nat.one_pos
    have stored := holds.nodes 0 (by omega) 0 Nat.one_pos
    have content_eq : content = value := by
      by_cases own : key = key'
      · simpa [lastValue, newStateChange, own] using current.symm
      · simp [lastValue, newStateChange, own] at current
    rw [if_pos first, first]
    rw [node, leaf_eq, content_eq] at stored
    exact congrArg (Option.map List.length) stored
  · have absent : getNode store position = none := by
      by_contra stored
      obtain ⟨level, level_lt, place, place_lt, rfl⟩ := inside position stored
      obtain rfl : level = 0 := by omega
      obtain rfl : place = 0 := Nat.lt_one_iff.mp place_lt
      exact first rfl
    rw [if_neg first, absent]
    rfl

end SvpChain.Storage
