import SvpChain.Merkle.Update

/-!
# Verification of claimed leaves

`Tree.Verify` puts the claimed leaves into the tree, loads the siblings it needs from the store and
compares the root it gets with the stored one.  The computed root is the root of the leaf vector
with the claimed leaves written into it; for an injective hash two trees of one shape have equal
roots only if their leaves agree.
-/

namespace SvpChain.Merkle

open HashTree

/-- The hashes of strings of one length have one length, as those of a digest of fixed size do. -/
def LengthRegular (hash : Bytes → Bytes) : Prop :=
  ∀ left right : Bytes, left.length = right.length → (hash left).length = (hash right).length

/-- The store reports the leaf count and the height of the reference tree of a leaf vector and holds
all of its nodes. -/
structure StoresTree (hash : Bytes → Bytes) (branch count : ℕ) (leaf : ℕ → Bytes)
    (store : Store) : Prop where
  leafCount : store.leafCount = count
  levels : store.height.toNat = height branch count
  nodes : HoldsTree hash branch count leaf store.getNode

/-- The node stands at a leaf position of the tree and carries the data committed there. -/
def Node.IsLeaf (count : ℕ) (leaf : ℕ → Bytes) (node : Node) : Prop :=
  node.position.level = 0 ∧ node.position.index < count ∧ node.data = leaf node.position.index

instance (count : ℕ) (leaf : ℕ → Bytes) : DecidablePred (Node.IsLeaf count leaf) :=
  fun _ => inferInstanceAs (Decidable (_ ∧ _))

/-! ## Roots and leaves -/

section Roots

variable {hash : Bytes → Bytes} {branch count : ℕ} {left right : ℕ → Bytes}

theorem length_node_eq (regular : LengthRegular hash) (branch_pos : 0 < branch)
    (sizes : ∀ index < count, (left index).length = (right index).length) (level index : ℕ)
    (index_lt : index < rowSize branch count level) : (node (combine hash) branch count left level index).length =
      (node (combine hash) branch count right level index).length := by
  induction level generalizing index with
  | zero => exact sizes index index_lt
  | succ level ih =>
      rw [node, node]
      apply regular
      rw [List.length_flatten, List.length_flatten, List.map_map, List.map_map]
      congr 1
      refine List.map_congr_left fun child member => ?_
      exact ih child ((mem_children_iff branch_pos).mp member).1

theorem root_eq_iff (injective : Function.Injective hash) (regular : LengthRegular hash)
    (two_le : 2 ≤ branch) (count_pos : 0 < count)
    (sizes : ∀ index < count, (left index).length = (right index).length) :
    node (combine hash) branch count left (height branch count - 1) 0 =
        node (combine hash) branch count right (height branch count - 1) 0 ↔
      ∀ index < count, left index = right index := by
  have branch_pos : 0 < branch := by omega
  constructor
  · intro roots
    refine node_eq_of_root_eq (combine hash) two_le ?_ roots _ 0 (Nat.zero_add _)
    intro level index _ equal
    refine children_eq_of_combine_eq injective (fun child member => ?_) equal
    exact length_node_eq regular branch_pos sizes level child
      ((mem_children_iff branch_pos).mp member).1
  · intro leaves
    exact node_congr _ branch_pos leaves _ 0 (rowSize_pos branch_pos count_pos _)

end Roots

/-! ## Verify -/

theorem two_le_bfactor_newTree (store : Store) (hash : Bytes → Bytes) (branchFactor : UInt8) :
    2 ≤ (newTree store hash branchFactor).treeCalc.bfactor := by
  unfold newTree
  split
  · exact le_rfl
  · next large => exact UInt8.le_iff_toNat_le.mp (UInt8.not_lt.mp large)

section Verify

variable {tree : Tree} {count length : ℕ} {leaf : ℕ → Bytes} {leaves : List Node}

theorem StoresTree.root_eq (stored : StoresTree tree.hash tree.treeCalc.bfactor count leaf tree.store)
    (two_le : 2 ≤ tree.treeCalc.bfactor) (count_pos : 0 < count) :
    tree.root = some (refNode tree.hash tree.treeCalc.bfactor count leaf
      (height tree.treeCalc.bfactor count - 1) 0) := by
  have positive := height_pos tree.treeCalc.bfactor count
  have level_eq : tree.store.height - 1 =
      UInt8.ofNat (height tree.treeCalc.bfactor count - 1) := by
    rw [← ofNat_succ_sub_one, Nat.sub_add_cancel positive, ← stored.levels, UInt8.ofNat_toNat]
  rw [Tree.root, level_eq, stored.nodes _ (by omega) 0 (rowSize_pos (by omega) count_pos _)]
  rfl

theorem StoresTree.growth (stored : StoresTree tree.hash tree.treeCalc.bfactor count leaf tree.store)
    (two_le : 2 ≤ tree.treeCalc.bfactor) (nonempty : leaves ≠ [])
    (below : ∀ node ∈ leaves, node.position.index < count) : Growth tree count count leaf (leafAfter leaf leaves)
      {index | index ∈ leaves.map (·.position.index)} where
  two_le := two_le
  holds := stored.nodes
  grows := le_rfl
  fresh := fun index large small => absurd small (Nat.not_lt.mpr large)
  kept := fun _ _ index_notMem => leafAfter_of_notMem index_notMem
  below := by
    intro index index_mem
    obtain ⟨node, node_mem, rfl⟩ := List.mem_map.mp index_mem
    exact below node node_mem
  nonempty := by
    obtain ⟨node, node_mem⟩ := List.exists_mem_of_ne_nil leaves nonempty
    exact ⟨_, List.mem_map_of_mem node_mem⟩
  fits := by
    rw [← stored.levels]
    exact Nat.le_of_lt_succ (UInt8.toNat_lt _)

/-- Writing claimed leaves changes nothing exactly when all of them are the committed ones. -/
theorem leafAfter_eq_iff (distinct : (leaves.map (·.position.index)).Nodup)
    (below : ∀ node ∈ leaves, node.position.index < count) :
    (∀ index < count, leaf index = leafAfter leaf leaves index) ↔
      ∀ node ∈ leaves, node.data = leaf node.position.index := by
  constructor
  · intro same node node_mem
    rw [same _ (below node node_mem), leafAfter_of_mem leaf distinct node_mem]
  · intro committed index _
    by_cases index_mem : index ∈ leaves.map (·.position.index)
    · obtain ⟨node, node_mem, rfl⟩ := List.mem_map.mp index_mem
      rw [leafAfter_of_mem leaf distinct node_mem, committed node node_mem]
    · rw [leafAfter_of_notMem index_mem]

theorem length_leafAfter (leaf_length : ∀ index < count, (leaf index).length = length)
    (lengths : ∀ node ∈ leaves, node.data.length = length)
    (distinct : (leaves.map (·.position.index)).Nodup) {index : ℕ} (index_lt : index < count) :
    (leafAfter leaf leaves index).length = length := by
  by_cases index_mem : index ∈ leaves.map (·.position.index)
  · obtain ⟨node, node_mem, rfl⟩ := List.mem_map.mp index_mem
    rw [leafAfter_of_mem leaf distinct node_mem, lengths node node_mem]
  · rw [leafAfter_of_notMem index_mem, leaf_length index index_lt]

theorem nodup_indexes (distinct : (leaves.map Node.position).Nodup)
    (level_zero : ∀ node ∈ leaves, node.position.level = 0) : (leaves.map (·.position.index)).Nodup := by
  refine List.Nodup.map_on ?_ distinct.of_map
  intro first first_mem second second_mem same_index
  refine List.inj_on_of_nodup_map distinct first_mem second_mem ?_
  have same_level := (level_zero first first_mem).trans (level_zero second second_mem).symm
  rcases first with ⟨⟨_, _⟩, _⟩
  rcases second with ⟨⟨_, _⟩, _⟩
  exact congrArg₂ Position.mk same_level same_index

end Verify

/-- Over a store that holds the tree of a leaf vector, `Verify` always returns, and it returns true
exactly when every claimed node is a committed leaf. -/
theorem verify_eq_committed (store : Store) (hash : Bytes → Bytes) (branchFactor : UInt8)
    (injective : Function.Injective hash) (regular : LengthRegular hash)
    (count : ℕ) (count_pos : 0 < count) (leaf : ℕ → Bytes) (length : ℕ)
    (leaf_length : ∀ index < count, (leaf index).length = length)
    (stored : StoresTree hash (newTree store hash branchFactor).treeCalc.bfactor count leaf store)
    (leaves : List Node) (nonempty : leaves ≠ [])
    (distinct : (leaves.map Node.position).Nodup)
    (lengths : ∀ node ∈ leaves, node.data.length = length)
    (order : ℕ → List Node → List Node)
    (order_perm : ∀ level nodes, (order level nodes).Perm nodes) :
    (newTree store hash branchFactor).verify order leaves =
      some (decide (∀ node ∈ leaves, node.IsLeaf count leaf)) := by
  have two_le := two_le_bfactor_newTree store hash branchFactor
  set tree := newTree store hash branchFactor
  have stored : StoresTree tree.hash tree.treeCalc.bfactor count leaf tree.store := stored
  rw [Tree.verify, stored.root_eq two_le count_pos, stored.leafCount]
  simp only
  rw [if_neg (by simpa using nonempty), if_neg (by omega)]
  split
  · next misplaced =>
      obtain ⟨node, node_mem, outside⟩ := List.any_eq_true.mp misplaced
      have not_leaf : ¬ ∀ node ∈ leaves, node.IsLeaf count leaf := by
        intro committed
        obtain ⟨level_zero, index_lt, -⟩ := committed node node_mem
        simp [level_zero, index_lt] at outside
      rw [decide_eq_false not_leaf]
  · next placed =>
      have positions : ∀ node ∈ leaves, node.position.level = 0 ∧ node.position.index < count := by
        simpa using placed
      have below : ∀ node ∈ leaves, node.position.index < count :=
        fun node node_mem => (positions node node_mem).2
      have level_zero : ∀ node ∈ leaves, node.position.level = 0 :=
        fun node node_mem => (positions node node_mem).1
      have indexes := nodup_indexes distinct level_zero
      obtain ⟨result, returned, -, -, root_eq, -⟩ :=
        (stored.growth two_le nonempty below).update order_perm
          (touchedNodes_leafAfter tree count leaf level_zero indexes)
      have sizes : ∀ index < count,
          (leaf index).length = (leafAfter leaf leaves index).length := by
        intro index index_lt
        rw [leaf_length index index_lt, length_leafAfter leaf_length lengths indexes index_lt]
      have committed : (∀ node ∈ leaves, node.IsLeaf count leaf) ↔
          ∀ node ∈ leaves, node.data = leaf node.position.index := by
        refine forall₂_congr fun node node_mem => ?_
        exact ⟨fun isLeaf => isLeaf.2.2,
          fun same => ⟨level_zero node node_mem, below node node_mem, same⟩⟩
      rw [returned, Option.map_some, root_eq, Option.some.injEq, Bool.eq_iff_iff, beq_iff_eq,
        decide_eq_true_iff, committed, ← leafAfter_eq_iff indexes below]
      exact root_eq_iff injective regular two_le count_pos sizes

/-- A store of the binary tree of two leaves. -/
def twoLeafStore : Store where
  leafCount := 2
  height := 2
  getNode position :=
    if position = ⟨0, 0⟩ then some [7]
    else if position = ⟨0, 1⟩ then some [8]
    else if position = ⟨1, 0⟩ then some [7, 8]
    else none

/-- The second leaf of two is accepted with its committed data and refused with the first one's. -/
theorem verify_eq_committed_two :
    (newTree twoLeafStore id 2).verify (fun _ nodes => nodes) [⟨⟨0, 1⟩, [8]⟩] = some true ∧
      (newTree twoLeafStore id 2).verify (fun _ nodes => nodes) [⟨⟨0, 1⟩, [7]⟩] = some false := by
  have two_levels : height 2 2 = 2 :=
    height_eq_of_first (by decide) fun lower lower_lt => by
      obtain rfl : lower = 0 := by omega
      decide
  have stored : StoresTree id (newTree twoLeafStore id 2).treeCalc.bfactor 2
      (fun index => if index = 0 then [7] else [8]) twoLeafStore := by
    refine ⟨rfl, two_levels.symm, ?_⟩
    intro level level_lt index index_lt
    have level_lt : level < 2 := two_levels ▸ level_lt
    interval_cases level
    · have index_lt : index < 2 := index_lt
      interval_cases index <;> decide
    · have index_lt : index < 1 := index_lt
      interval_cases index
      decide
  have settled := fun data : UInt8 =>
    verify_eq_committed twoLeafStore id 2 Function.injective_id (fun _ _ same => same) 2
      (by decide) (fun index => if index = 0 then [7] else [8]) 1
      (fun index _ => by split <;> rfl) stored [⟨⟨0, 1⟩, [data]⟩] (List.cons_ne_nil _ _)
      (List.nodup_singleton _) (by simp) (fun _ nodes => nodes) (fun _ nodes => List.Perm.refl _)
  exact ⟨settled 8, settled 7⟩

end SvpChain.Merkle
