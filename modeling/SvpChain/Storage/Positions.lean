import SvpChain.Storage.Roots

/-!
# Position keys

A position is kept as a key of the node table, as a map key of the tree engine and, by its index alone, as
the pointer from a state key to its leaf.  All of them are read back as the position they were made of.
-/

namespace SvpChain.Storage

open Core Merkle

theorem unmarshalPosition_bytes (position : Position) : unmarshalPosition position.bytes = some position := by
  rw [Position.bytes, unmarshalPosition, toNat_indexBytes]

theorem bytes_eq_iff (left right : Position) :
    left.bytes = right.bytes ↔ left.level = right.level ∧ left.index = right.index := by
  constructor
  · intro same
    simp [Position.bytes_injective same]
  · rintro ⟨level_eq, index_eq⟩
    rw [Position.bytes, Position.bytes, level_eq, index_eq]

/-- The leaves that a commit of `changes` on `store` writes, and those to which the indexes in the database
after it point, are at the same places, each key at its own. -/
structure LeavesAt (strg : Storage) (store store' : PersistStore) (changes : List StateChange)
    (place : Bytes → ℕ) : Prop where
  written : strg.computeUpdatedTreeNodes (setNewTreeIndexes (loadPrevTreeIndexes store
      (loadPrevValues store changes)) (getLeafCount store)).1 store =
    (.ok (changes.map fun change => ⟨⟨0, place change.key⟩, strg.sha3 change.value⟩), store)
  stored : ∀ key value, getState store' key = some value →
    getMerkleIndex store' key = some (indexBytes (place key)) ∧
      Bytes.toNat (indexBytes (place key)) = place key ∧
      getNode store' ⟨0, place key⟩ = some (strg.sha3 value)
  distinct : ∀ key key', getState store' key ≠ none → getState store' key' ≠ none →
    place key = place key' → key = key'

theorem exists_leavesAt {strg : Storage} {history : List (List StateChange)} {store store' : PersistStore}
    {call : CommitCall} (wellFormed : call.WellFormed) (reached : Reached strg history store)
    (reached' : Reached strg (history ++ [call.changes]) store') :
    ∃ place, LeavesAt strg store store' call.changes place := by
  obtain ⟨⟨leaf, holds⟩, -, -⟩ := reached.settled
  obtain ⟨⟨leaf', holds'⟩, -, -⟩ := reached'.settled
  have numbered : ∀ key, getState store' key ≠ none →
      ∃ place, (numbering (history ++ [call.changes])).1 key = some place := by
    intro key stored
    rw [holds'.values] at stored
    exact Option.isSome_iff_exists.mp ((holds'.known key).mpr (Option.isSome_iff_ne_none.mpr stored))
  refine ⟨fun key => ((numbering (history ++ [call.changes])).1 key).getD 0, ?_, ?_, ?_⟩
  · rw [holds.leafCount, setNewTreeIndexes_eq _ holds.indexes wellFormed.distinct wellFormed.unplaced,
      computeUpdatedTreeNodes_completed reached.limit_pos, numbering_append]
    rfl
  · intro key value stored
    obtain ⟨place, place_eq⟩ := numbered key (by simp [stored])
    have leaf_eq := holds'.leaves key place value place_eq ((holds'.values key).symm.trans stored)
    have node_eq := holds'.nodes 0 (HashTree.height_pos _ _) place ((holds'.range place).mpr ⟨key, place_eq⟩)
    rw [HashTree.node, leaf_eq] at node_eq
    simpa [holds'.indexes, place_eq] using node_eq
  · intro key key' stored stored' same
    obtain ⟨place, place_eq⟩ := numbered key stored
    obtain ⟨place', place_eq'⟩ := numbered key' stored'
    obtain rfl : place = place' := by simpa [place_eq, place_eq'] using same
    exact holds'.distinct key key' place place_eq place_eq'

/-- Positions are read back from their bytes, different positions have different keys, and the index
stored for a state key is that of the leaf that commits write and `VerifyState` checks. -/
theorem position_keys_faithful :
    (∀ position : Position, unmarshalPosition position.bytes = some position) ∧
    (∀ left right : Position,
      left.bytes = right.bytes ↔ left.level = right.level ∧ left.index = right.index) ∧
    (∀ left right : Position, (DataKey.merkleNodeByPosition left.bytes).bytes =
      (DataKey.merkleNodeByPosition right.bytes).bytes ↔ left = right) ∧
    ∀ (strg : Storage) (history : List (List StateChange)) (store store' : PersistStore)
      (call : CommitCall), call.WellFormed → Reached strg history store →
      Reached strg (history ++ [call.changes]) store' →
        ∃ place, LeavesAt strg store store' call.changes place := by
  refine ⟨unmarshalPosition_bytes, bytes_eq_iff, fun left right => ?_, ?_⟩
  · constructor
    · intro same
      exact Position.bytes_injective (DataKey.merkleNodeByPosition.inj (DataKey.bytes_injective same))
    · rintro rfl
      rfl
  · intro strg history store store' call wellFormed reached reached'
    exact exists_leavesAt wellFormed reached reached'

/-- A first commit to the empty database. -/
theorem position_keys_faithful_oneKey :
    ∃ store place, getState store [1] = some [10] ∧
      LeavesAt plainStorage PersistStore.empty store [newStateChange [1] [10]] place := by
  obtain ⟨store, -, reached⟩ := reached_oneKey [1] [10]
  obtain ⟨place, leaves⟩ := position_keys_faithful.2.2.2 plainStorage [] PersistStore.empty store
    (blockOnlyCommit 0 [newStateChange [1] [10]]) ⟨by decide, by decide, fun _ _ => .rfl⟩
    ⟨Nat.one_pos, [], List.forall_mem_nil _, by decide, rfl⟩ reached
  obtain ⟨⟨_, holds⟩, -, -⟩ := reached.settled
  exact ⟨store, place, holds.values [1], leaves⟩

end SvpChain.Storage
