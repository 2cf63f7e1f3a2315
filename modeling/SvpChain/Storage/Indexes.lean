import SvpChain.Storage.Storage

/-!
# Leaf indexes of a commit

`setNewTreeIndexes` keeps the leaf of every known key and numbers the new keys consecutively in
sorted order.  For changes with distinct keys this is a pointwise description of the list.
-/

namespace SvpChain.Storage

open Core Merkle

theorem modify_findIdx_eq_map {α : Type*} (matched : α → Bool) (update : α → α) (items : List α)
    (unique : items.Pairwise fun left right => ¬ (matched left ∧ matched right)) :
    items.modify (items.findIdx matched) update =
      items.map fun item => if matched item then update item else item := by
  induction items with
  | nil => rfl
  | cons item items ih =>
      obtain ⟨others, rest⟩ := List.pairwise_cons.mp unique
      by_cases found : matched item
      · have unmatched : items.map (fun item => if matched item then update item else item) =
            items := by
          refine (List.map_congr_left fun other other_mem => ?_).trans (List.map_id items)
          exact if_neg fun other_found => others other other_mem ⟨found, other_found⟩
        rw [List.map_cons, unmatched, List.findIdx_cons, found, if_pos rfl]
        rfl
      · rw [List.map_cons, ← ih rest, List.findIdx_cons, if_neg found]
        simp [found]

/-- A change takes a leaf index. -/
def withIndex (change : StateChange) (index : ℕ) : StateChange :=
  { change with treeIndex := indexBytes index }

variable {changes : List StateChange}

theorem setLeafIndex_eq_map
    (distinct : (changes.map StateChange.key).Nodup) (key : Bytes) (index : ℕ) :
    setLeafIndex key index changes = changes.map fun change =>
      if change.prevTreeIndex = none ∧ change.key = key then withIndex change index else change := by
  have unique : changes.reverse.Pairwise fun left right =>
      ¬ ((left.prevTreeIndex.isNone && left.key == key) = true ∧
        (right.prevTreeIndex.isNone && right.key == key) = true) := by
    have keys : changes.reverse.Pairwise fun left right => left.key ≠ right.key := by
      rw [← List.pairwise_map (R := (· ≠ ·)), List.map_reverse]
      exact List.nodup_reverse.mpr distinct
    refine keys.imp ?_
    intro left right different both
    simp only [Bool.and_eq_true, beq_iff_eq] at both
    exact different (both.1.2.trans both.2.2.symm)
  rw [setLeafIndex, modify_findIdx_eq_map _ _ _ unique, ← List.map_reverse, List.reverse_reverse]
  apply List.map_congr_left
  intro change _
  simp [withIndex]

/-- The loop over the new keys gives every change of a listed key its place in the list. -/
theorem assignIndexes_eq (keys : List Bytes) (keys_nodup : keys.Nodup) (leafCount : ℕ)
    (changes : List StateChange) (distinct : (changes.map StateChange.key).Nodup) :
    assignIndexes keys leafCount changes =
      (changes.map fun change =>
        if change.prevTreeIndex = none ∧ change.key ∈ keys then
          withIndex change (leafCount + keys.idxOf change.key) else change,
        leafCount + keys.length) := by
  induction keys generalizing leafCount changes with
  | nil => simp [assignIndexes]
  | cons key keys ih =>
      obtain ⟨key_notMem, rest_nodup⟩ := List.nodup_cons.mp keys_nodup
      have same_keys : (setLeafIndex key leafCount changes).map StateChange.key =
          changes.map StateChange.key := by
        rw [setLeafIndex_eq_map distinct, List.map_map]
        apply List.map_congr_left
        intro change _
        by_cases found : change.prevTreeIndex = none ∧ change.key = key <;>
          simp [found, withIndex]
      rw [assignIndexes, ih rest_nodup (leafCount + 1) _ (same_keys ▸ distinct),
        setLeafIndex_eq_map distinct, List.map_map]
      refine Prod.ext ?_ (by simp [Nat.add_assoc, Nat.add_comm 1])
      apply List.map_congr_left
      intro change _
      by_cases fresh : change.prevTreeIndex = none
      · by_cases own : change.key = key
        · simp [fresh, own, withIndex, key_notMem]
        · have other : key ≠ change.key := Ne.symm own
          by_cases later : change.key ∈ keys
          · simp [fresh, own, later, List.idxOf_cons_ne keys other, Nat.add_assoc, Nat.add_comm 1]
          · simp [fresh, own, later]
      · simp [fresh]

/-! ## The numbering after a commit -/

/-- The numbering that continues `index` with the keys of a list. -/
def nextIndex (index : Bytes → Option ℕ) (count : ℕ) (keys : List Bytes) (key : Bytes) :
    Option ℕ :=
  match index key with
  | some place => some place
  | none => if key ∈ keys then some (count + keys.idxOf key) else none

section NextIndex

variable {index : Bytes → Option ℕ} {count : ℕ} {keys : List Bytes}

variable {key : Bytes} {place : ℕ}

theorem nextIndex_of_known (found : index key = some place) : nextIndex index count keys key = some place := by
  rw [nextIndex, found]

theorem nextIndex_of_new (count : ℕ) (missing : index key = none) (key_mem : key ∈ keys) :
    nextIndex index count keys key = some (count + keys.idxOf key) := by
  rw [nextIndex, missing]
  exact if_pos key_mem

theorem nextIndex_of_notMem (key_notMem : key ∉ keys) : nextIndex index count keys key = index key := by
  cases found : index key with
  | some place => exact nextIndex_of_known found
  | none =>
      rw [nextIndex, found]
      exact if_neg key_notMem

theorem nextIndex_eq_some_iff : nextIndex index count keys key = some place ↔
      index key = some place ∨ index key = none ∧ key ∈ keys ∧ place = count + keys.idxOf key := by
  cases found : index key with
  | some other => simp [nextIndex_of_known found]
  | none =>
      by_cases key_mem : key ∈ keys
      · simp [nextIndex_of_new count found key_mem, key_mem, eq_comm]
      · simp [nextIndex, found, key_mem]

theorem nextIndex_distinct (distinct : ∀ key key' place, index key = some place → index key' = some place → key = key')
    (range : ∀ place, place < count ↔ ∃ key, index key = some place) {key' : Bytes}
    (left : nextIndex index count keys key = some place)
    (right : nextIndex index count keys key' = some place) : key = key' := by
  rw [nextIndex_eq_some_iff] at left right
  rcases left with left | ⟨-, left_mem, left⟩ <;> rcases right with right | ⟨-, right_mem, right⟩
  · exact distinct key key' place left right
  · have := (range place).mpr ⟨key, left⟩
    omega
  · have := (range place).mpr ⟨key', right⟩
    omega
  · exact (List.idxOf_inj left_mem).mp (by omega)

theorem nextIndex_range (range : ∀ place, place < count ↔ ∃ key, index key = some place)
    (keys_nodup : keys.Nodup) (keys_new : ∀ key ∈ keys, index key = none) (place : ℕ) :
    place < count + keys.length ↔ ∃ key, nextIndex index count keys key = some place := by
  simp only [nextIndex_eq_some_iff]
  constructor
  · intro place_lt
    by_cases old : place < count
    · obtain ⟨key, found⟩ := (range place).mp old
      exact ⟨key, Or.inl found⟩
    · have inside : place - count < keys.length := by omega
      refine ⟨keys[place - count], Or.inr ⟨keys_new _ (List.getElem_mem inside),
        List.getElem_mem inside, ?_⟩⟩
      rw [List.Nodup.idxOf_getElem keys_nodup]
      omega
  · rintro ⟨key, found | ⟨-, key_mem, rfl⟩⟩
    · have := (range place).mpr ⟨key, found⟩
      omega
    · have := List.idxOf_lt_length_of_mem key_mem
      omega

end NextIndex

/-- A change with everything that `computeMerkleUpdate` writes into it. -/
def completed (store : PersistStore) (index next : Bytes → Option ℕ) (change : StateChange) :
    StateChange where
  key := change.key
  value := change.value
  prevValue := getState store change.key
  treeIndex := indexBytes ((next change.key).getD 0)
  prevTreeIndex := (index change.key).map indexBytes

/-- The new keys of a commit, in the order in which they are numbered. -/
def sortedNewKeys (index : Bytes → Option ℕ) (changes : List StateChange) : List Bytes :=
  ((changes.filter fun change => (index change.key).isNone).map StateChange.key).mergeSort keyLE

theorem mem_sortedNewKeys {index : Bytes → Option ℕ} {key : Bytes} :
    key ∈ sortedNewKeys index changes ↔ index key = none ∧ key ∈ changes.map StateChange.key := by
  rw [sortedNewKeys, (List.mergeSort_perm _ _).mem_iff, List.mem_map, List.mem_map]
  simp only [List.mem_filter, Option.isNone_iff_eq_none]
  constructor
  · rintro ⟨change, ⟨change_mem, missing⟩, rfl⟩
    exact ⟨missing, change, change_mem, rfl⟩
  · rintro ⟨missing, change, change_mem, rfl⟩
    exact ⟨change, ⟨change_mem, missing⟩, rfl⟩

theorem sortedNewKeys_nodup (index : Bytes → Option ℕ)
    (distinct : (changes.map StateChange.key).Nodup) : (sortedNewKeys index changes).Nodup := by
  rw [sortedNewKeys, (List.mergeSort_perm _ _).nodup_iff]
  exact distinct.sublist (List.filter_sublist.map _)

theorem sortedNewKeys_length_le (index : Bytes → Option ℕ) (changes : List StateChange) :
    (sortedNewKeys index changes).length ≤ changes.length := by
  rw [sortedNewKeys, List.length_mergeSort, List.length_map]
  exact List.length_filter_le _ _

@[simp]
theorem sortedNewKeys_nil (index : Bytes → Option ℕ) : sortedNewKeys index [] = [] := by
  simp [sortedNewKeys]

/-- The numbering of the keys, and their number, after one more list of changes. -/
def numberNext (numbered : (Bytes → Option ℕ) × ℕ) (changes : List StateChange) :
    (Bytes → Option ℕ) × ℕ :=
  (nextIndex numbered.1 numbered.2 (sortedNewKeys numbered.1 changes),
    numbered.2 + (sortedNewKeys numbered.1 changes).length)

theorem numberNext_nil (numbered : (Bytes → Option ℕ) × ℕ) : numberNext numbered [] = numbered := by
  have same : nextIndex numbered.1 numbered.2 [] = numbered.1 :=
    funext fun _ => nextIndex_of_notMem List.not_mem_nil
  rw [numberNext, sortedNewKeys_nil, same]
  rfl

/-- The numbering of the keys after a history of commits. -/
def numbering (history : List (List StateChange)) : (Bytes → Option ℕ) × ℕ :=
  history.foldl numberNext (fun _ => none, 0)

theorem numbering_append (history : List (List StateChange)) (changes : List StateChange) :
    numbering (history ++ [changes]) = numberNext (numbering history) changes := by
  rw [numbering, List.foldl_append]
  rfl

/-- A change after `loadPrevValues`, `loadPrevTreeIndexes` and the first loop of
`setNewTreeIndexes`. -/
def loaded (store : PersistStore) (index : Bytes → Option ℕ) (change : StateChange) :
    StateChange where
  key := change.key
  value := change.value
  prevValue := getState store change.key
  treeIndex := ((index change.key).map indexBytes).getD change.treeIndex
  prevTreeIndex := (index change.key).map indexBytes

section SetNewTreeIndexes

variable {store : PersistStore} {index : Bytes → Option ℕ} {changes : List StateChange}

theorem loadPrevTreeIndexes_eq
    (indexes : ∀ key, getMerkleIndex store key = (index key).map indexBytes)
    (unplaced : ∀ change ∈ changes, change.prevTreeIndex = none) :
    loadPrevTreeIndexes store (loadPrevValues store changes) =
      changes.map fun change => { loaded store index change with treeIndex := change.treeIndex } := by
  rw [loadPrevTreeIndexes, loadPrevValues, List.map_map]
  apply List.map_congr_left
  intro change change_mem
  simp only [Function.comp_apply, indexes]
  cases found : index change.key with
  | none => simp [loaded, found, unplaced change change_mem]
  | some place => simp [loaded, found]

/-- The leaf indexes of a commit, for changes as they are built. -/
theorem setNewTreeIndexes_eq (count : ℕ) (indexes : ∀ key, getMerkleIndex store key = (index key).map indexBytes)
    (distinct : (changes.map StateChange.key).Nodup) (unplaced : ∀ change ∈ changes, change.prevTreeIndex = none) :
    setNewTreeIndexes (loadPrevTreeIndexes store (loadPrevValues store changes)) count =
      (changes.map (completed store index (nextIndex index count (sortedNewKeys index changes))),
        count + (sortedNewKeys index changes).length) := by
  have kept : keepTreeIndexes (loadPrevTreeIndexes store (loadPrevValues store changes)) =
      changes.map (loaded store index) := by
    rw [loadPrevTreeIndexes_eq indexes unplaced, keepTreeIndexes, List.map_map]
    apply List.map_congr_left
    intro change _
    cases found : index change.key <;> simp [loaded, found]
  have keys : (newKeys (loadPrevTreeIndexes store (loadPrevValues store changes))).mergeSort keyLE =
      sortedNewKeys index changes := by
    rw [loadPrevTreeIndexes_eq indexes unplaced, newKeys, List.filter_map, List.map_map]
    simp only [sortedNewKeys, Function.comp_def, loaded, Option.isNone_map]
  have same_keys : (changes.map (loaded store index)).map StateChange.key =
      changes.map StateChange.key := by
    rw [List.map_map]
    rfl
  rw [setNewTreeIndexes, kept, keys, assignIndexes_eq _ (sortedNewKeys_nodup index distinct) _ _
    (same_keys ▸ distinct), List.map_map]
  congr 1
  apply List.map_congr_left
  intro change change_mem
  cases found : index change.key with
  | some place => simp [loaded, completed, found, nextIndex_of_known found]
  | none =>
      have key_mem : change.key ∈ sortedNewKeys index changes :=
        mem_sortedNewKeys.mpr ⟨found, List.mem_map_of_mem change_mem⟩
      simp [loaded, completed, found, nextIndex_of_new count found key_mem, key_mem, withIndex]

end SetNewTreeIndexes

end SvpChain.Storage
