import SvpChain.Merkle.Shape

/-!
# Incremental updates rebuild the tree

`Tree.update` recomputes only the groups above the given leaves.  One level of it turns the touched
nodes of the reference tree into the touched nodes of the next level; by induction over the levels
the whole update writes exactly the touched nodes, and the untouched ones already stand in the
store with the values of the new tree.
-/

namespace SvpChain.Merkle

open HashTree

/-- The parent of a list of children: the hash of their concatenation. -/
def combine (hash : Bytes → Bytes) (children : List Bytes) : Bytes := hash children.flatten

/-- An injective hash of a concatenation determines the children once their sizes are known. -/
theorem children_eq_of_combine_eq {hash : Bytes → Bytes} (injective : Function.Injective hash)
    {children : List ℕ} {left right : ℕ → Bytes}
    (sizes : ∀ child ∈ children, (left child).length = (right child).length)
    (equal : combine hash (children.map left) = combine hash (children.map right)) :
    ∀ child ∈ children, left child = right child := by
  have lengths : (children.map left).map List.length = (children.map right).map List.length := by
    rw [List.map_map, List.map_map]
    exact List.map_congr_left sizes
  have concatenations : (children.map left).flatten ++ [] = (children.map right).flatten ++ [] :=
    congrArg (· ++ []) (injective equal)
  exact List.map_inj_left.mp (Bytes.flatten_inj_of_lengths lengths concatenations).1

/-- A node of the reference tree of a leaf vector, with its position. -/
def refNode (hash : Bytes → Bytes) (branch count : ℕ) (leaf : ℕ → Bytes) (level index : ℕ) : Node :=
  ⟨⟨UInt8.ofNat level, index⟩, node (combine hash) branch count leaf level index⟩

/-- The store holds all nodes of the reference tree of a leaf vector. -/
def HoldsTree (hash : Bytes → Bytes) (branch count : ℕ) (leaf : ℕ → Bytes)
    (getNode : Position → Option Bytes) : Prop :=
  ∀ level < height branch count, ∀ index < rowSize branch count level,
    getNode ⟨UInt8.ofNat level, index⟩ = some (node (combine hash) branch count leaf level index)

/-- The leaf vector after writing a list of leaves. -/
def leafAfter (leaf : ℕ → Bytes) (leaves : List Node) (index : ℕ) : Bytes :=
  ((leaves.find? fun node => node.position.index = index).map Node.data).getD (leaf index)

/-! ## One group -/

section Group

variable {tc : TreeCalc} {ref : ℕ → Node}

theorem set_map_range {α : Type*} (f : ℕ → α) (size slot : ℕ) (value : α) :
    ((List.range size).map f).set slot value = (List.range size).map (Function.update f slot value) := by
  apply List.ext_getElem
  · simp
  · intro position _ _
    by_cases same : slot = position
    · subst same
      simp
    · rw [List.getElem_set_ne same]
      simp [Function.update_of_ne (Ne.symm same)]

theorem foldl_setNode (parent : Position) (members : List Node)
    (placed : ∀ node ∈ members,
      node = ref node.position.index ∧ tc.groupOfNode node.position.index = parent.index)
    (f : ℕ → Option Node) :
    members.foldl (Group.setNode tc) ⟨parent, (List.range tc.bfactor).map f⟩ =
      ⟨parent, (List.range tc.bfactor).map fun slot =>
        if tc.firstNodeOfGroup parent.index + slot ∈ members.map (·.position.index) then
          some (ref (tc.firstNodeOfGroup parent.index + slot)) else f slot⟩ := by
  induction members generalizing f with
  | nil => simp
  | cons member members ih =>
      obtain ⟨member_eq, in_group⟩ := placed member List.mem_cons_self
      have position_eq : tc.firstNodeOfGroup parent.index +
          tc.nodeIndexInGroup member.position.index = member.position.index := by
        rw [← in_group]
        exact Nat.div_add_mod' _ _
      rw [List.foldl_cons, Group.setNode, set_map_range,
        ih (fun node node_mem => placed node (List.mem_cons_of_mem _ node_mem))]
      congr 1
      apply List.map_congr_left
      intro slot _
      by_cases own : slot = tc.nodeIndexInGroup member.position.index
      · subst own
        rw [position_eq]
        simp [← member_eq]
      · have other : tc.firstNodeOfGroup parent.index + slot ≠ member.position.index := by omega
        simp [Function.update_of_ne own, other]

/-- The slots of a group after loading: every child of the row, and nothing beyond it. -/
theorem loadFrom_eq {store : Store} {level : UInt8} {offset width : ℕ} (touched : ℕ → Prop)
    [DecidablePred touched] (touched_lt : ∀ index, touched index → index < width)
    (size slot : ℕ)
    (stored : ∀ later, slot ≤ later → later < slot + size → offset + later < width →
      ¬ touched (offset + later) →
        (store.getNode ⟨level, offset + later⟩).map (Node.mk ⟨level, offset + later⟩) =
          some (ref (offset + later))) :
    Group.loadFrom store level offset width slot
        ((List.range' slot size).map fun slot =>
          if touched (offset + slot) then some (ref (offset + slot)) else none) =
      (List.range' slot size).map fun slot =>
        if offset + slot < width then some (ref (offset + slot)) else none := by
  induction size generalizing slot with
  | zero => rfl
  | succ size ih =>
      have rest := ih (slot + 1) fun later later_ge later_lt =>
        stored later (by omega) (by omega)
      simp only [List.range'_succ, List.map_cons]
      by_cases written : touched (offset + slot)
      · rw [if_pos written, if_pos (touched_lt _ written), Group.loadFrom, rest]
      · rw [if_neg written, Group.loadFrom]
        by_cases beyond : width ≤ offset + slot
        · -- the loop breaks here, and no later slot is in the row
          rw [if_pos beyond, if_neg (by omega)]
          congr 1
          apply List.map_congr_left
          intro later later_mem
          have later_ge := (List.mem_range'_1.mp later_mem).1
          have untouched : ¬ touched (offset + later) := by
            intro later_touched
            have := touched_lt _ later_touched
            omega
          rw [if_neg untouched, if_neg (by omega)]
        · have loaded := stored slot le_rfl (by omega) (by omega) written
          rw [if_neg beyond, if_pos (by omega), rest, ← loaded]

theorem filterMap_row (branch width index : ℕ) :
    ((List.range branch).map fun slot =>
        if index * branch + slot < width then some (ref (index * branch + slot)) else none).filterMap id =
      (children branch width index).map ref := by
  rw [children, List.filterMap_map, List.filter_map, List.map_map, ← List.filterMap_eq_map,
    List.filterMap_filter]
  congr 1
  funext slot
  by_cases inside : index * branch + slot < width <;> simp [inside]

end Group

/-! ## One level -/

/-- A store that holds a tree, and a leaf vector that extends and changes its leaves at the touched
indexes only. -/
structure Growth (tree : Tree) (oldCount newCount : ℕ) (oldLeaf newLeaf : ℕ → Bytes)
    (touched : Set ℕ) : Prop where
  two_le : 2 ≤ tree.treeCalc.bfactor
  holds : HoldsTree tree.hash tree.treeCalc.bfactor oldCount oldLeaf tree.store.getNode
  grows : oldCount ≤ newCount
  fresh : ∀ index, oldCount ≤ index → index < newCount → index ∈ touched
  kept : ∀ index < newCount, index ∉ touched → newLeaf index = oldLeaf index
  below : ∀ index ∈ touched, index < newCount
  nonempty : touched.Nonempty
  fits : height tree.treeCalc.bfactor newCount ≤ 255

/-- The list has exactly the touched nodes of a level of the reference tree. -/
def TouchedNodes (tree : Tree) (count : ℕ) (leaf : ℕ → Bytes) (touched : Set ℕ) (level : ℕ)
    (nodes : List Node) : Prop :=
  ∀ node, node ∈ nodes ↔ ∃ index ∈ touchedAt tree.treeCalc.bfactor touched level,
    node = refNode tree.hash tree.treeCalc.bfactor count leaf level index

theorem ofNat_succ_sub_one (level : ℕ) : UInt8.ofNat (level + 1) - 1 = UInt8.ofNat level := by
  rw [UInt8.ofNat_add]
  exact UInt8.add_sub_cancel _ _

theorem mem_uniqueMap {position : Position} {positions : List Position} :
    position ∈ uniqueMap positions ↔ position ∈ positions := by
  induction positions with
  | nil => simp [uniqueMap]
  | cons first rest ih =>
      by_cases same : position = first
      · simp [uniqueMap, same]
      · have texts : position.bytes ≠ first.bytes := Position.bytes_injective.ne same
        simp [uniqueMap, same, texts, ih]

section Level

variable {tree : Tree} {oldCount newCount : ℕ} {oldLeaf newLeaf : ℕ → Bytes} {touched : Set ℕ}

variable {level : ℕ} {nodes : List Node}

theorem Growth.stored (growth : Growth tree oldCount newCount oldLeaf newLeaf touched)
    {index : ℕ} (level_lt : level < height tree.treeCalc.bfactor newCount)
    (index_lt : index < rowSize tree.treeCalc.bfactor newCount level)
    (index_notMem : index ∉ touchedAt tree.treeCalc.bfactor touched level) :
    tree.store.getNode ⟨UInt8.ofNat level, index⟩ =
      some (node (combine tree.hash) tree.treeCalc.bfactor newCount newLeaf level index) := by
  obtain ⟨old_level, old_index, same⟩ :=
    node_eq_of_untouched (combine tree.hash) growth.two_le growth.grows growth.fresh
      growth.kept level_lt index_lt index_notMem
  rw [same]
  exact growth.holds level old_level index old_index

theorem groupPosition_refNode (level index : ℕ) :
    tree.groupPosition (refNode tree.hash tree.treeCalc.bfactor newCount newLeaf level index) =
      ⟨UInt8.ofNat (level + 1), index / tree.treeCalc.bfactor⟩ := by
  rw [UInt8.ofNat_add]
  rfl

theorem TouchedNodes.mem_members
    (touches : TouchedNodes tree newCount newLeaf touched level nodes) (index : ℕ) (node : Node) :
    node ∈ nodes.filter (fun node =>
        (tree.groupPosition node).bytes = (Position.mk (UInt8.ofNat (level + 1)) index).bytes) ↔
      ∃ child ∈ touchedAt tree.treeCalc.bfactor touched level,
        node = refNode tree.hash tree.treeCalc.bfactor newCount newLeaf level child ∧
          child / tree.treeCalc.bfactor = index := by
  simp only [List.mem_filter, decide_eq_true_eq, Position.bytes_injective.eq_iff, touches node]
  constructor
  · rintro ⟨⟨child, child_mem, rfl⟩, parent_eq⟩
    rw [groupPosition_refNode, Position.mk.injEq] at parent_eq
    exact ⟨child, child_mem, rfl, parent_eq.2⟩
  · rintro ⟨child, child_mem, rfl, rfl⟩
    exact ⟨⟨child, child_mem, rfl⟩, groupPosition_refNode level child⟩

theorem Growth.load_members (growth : Growth tree oldCount newCount oldLeaf newLeaf touched)
    (level_lt : level + 1 < height tree.treeCalc.bfactor newCount) (index : ℕ)
    {members : List Node} (mem_members : ∀ node, node ∈ members ↔
      ∃ child ∈ touchedAt tree.treeCalc.bfactor touched level,
        node = refNode tree.hash tree.treeCalc.bfactor newCount newLeaf level child ∧
          child / tree.treeCalc.bfactor = index) :
    ((members.foldl (Group.setNode tree.treeCalc)
        (Group.new tree.treeCalc ⟨UInt8.ofNat (level + 1), index⟩)).load tree.treeCalc tree.store
          (rowSize tree.treeCalc.bfactor newCount level)).nodes =
      (List.range tree.treeCalc.bfactor).map fun slot =>
        if index * tree.treeCalc.bfactor + slot < rowSize tree.treeCalc.bfactor newCount level then
          some (refNode tree.hash tree.treeCalc.bfactor newCount newLeaf level
            (index * tree.treeCalc.bfactor + slot)) else none := by
  have branch_pos : 0 < tree.treeCalc.bfactor := by have := growth.two_le; omega
  have empty_slots : List.replicate tree.treeCalc.bfactor (none : Option Node) =
      (List.range tree.treeCalc.bfactor).map fun _ => none := by simp
  have placed : ∀ node ∈ members,
      node = refNode tree.hash tree.treeCalc.bfactor newCount newLeaf level node.position.index ∧
        tree.treeCalc.groupOfNode node.position.index = index := by
    intro node node_mem
    obtain ⟨child, -, rfl, parent_eq⟩ := (mem_members node).mp node_mem
    exact ⟨rfl, parent_eq⟩
  rw [Group.new, empty_slots, foldl_setNode ⟨UInt8.ofNat (level + 1), index⟩ members placed,
    Group.load]
  simp only [ofNat_succ_sub_one, TreeCalc.firstNodeOfGroup, List.range_eq_range']
  apply loadFrom_eq (· ∈ members.map (·.position.index))
  · intro child child_mem
    obtain ⟨node, node_mem, rfl⟩ := List.mem_map.mp child_mem
    obtain ⟨child, child_touched, rfl, -⟩ := (mem_members node).mp node_mem
    exact touchedAt_lt branch_pos growth.below child_touched
  · intro slot _ slot_lt child_lt child_notMem
    have in_group : (index * tree.treeCalc.bfactor + slot) / tree.treeCalc.bfactor = index := by
      rw [Nat.mul_comm, Nat.mul_add_div branch_pos, Nat.div_eq_of_lt (by omega), Nat.add_zero]
    have untouched : index * tree.treeCalc.bfactor + slot ∉
        touchedAt tree.treeCalc.bfactor touched level := by
      intro child_touched
      exact child_notMem (List.mem_map.mpr
        ⟨_, (mem_members _).mpr ⟨_, child_touched, rfl, in_group⟩, rfl⟩)
    rw [growth.stored (by omega) child_lt untouched]
    rfl

theorem Growth.groupParent_eq (growth : Growth tree oldCount newCount oldLeaf newLeaf touched)
    (level_lt : level + 1 < height tree.treeCalc.bfactor newCount) (touches : TouchedNodes tree newCount newLeaf touched level nodes)
    {index : ℕ} (index_mem : index ∈ touchedAt tree.treeCalc.bfactor touched (level + 1)) :
    tree.groupParent nodes (rowSize tree.treeCalc.bfactor newCount level) ⟨UInt8.ofNat (level + 1), index⟩ =
      refNode tree.hash tree.treeCalc.bfactor newCount newLeaf (level + 1) index := by
  have branch_pos : 0 < tree.treeCalc.bfactor := by have := growth.two_le; omega
  have first_lt : index * tree.treeCalc.bfactor < rowSize tree.treeCalc.bfactor newCount level :=
    (lt_rowSize_succ_iff branch_pos).mp (touchedAt_lt branch_pos growth.below index_mem)
  have slots := growth.load_members level_lt index (touches.mem_members index)
  have parent_kept : ∀ (members : List Node) (group : Group),
      (members.foldl (Group.setNode tree.treeCalc) group).parentPosition = group.parentPosition := by
    intro members
    induction members with
    | nil => intro group; rfl
    | cons member members ih => intro group; exact ih _
  rw [Tree.groupParent, Group.makeParent, Group.sum, slots, filterMap_row, if_neg, refNode, node]
  · congr 1
    · exact parent_kept _ _
    · rw [List.map_map]
      rfl
  · simp only [List.all_map, List.all_eq_true, List.mem_range, not_forall]
    exact ⟨0, branch_pos, by simp [first_lt]⟩

/-- One level of an update turns touched nodes into the touched nodes above them. -/
theorem Growth.updateOneLevel (growth : Growth tree oldCount newCount oldLeaf newLeaf touched)
    (level_lt : level + 1 < height tree.treeCalc.bfactor newCount) (touches : TouchedNodes tree newCount newLeaf touched level nodes) :
    TouchedNodes tree newCount newLeaf touched (level + 1)
      (tree.updateOneLevel nodes (rowSize tree.treeCalc.bfactor newCount level)) := by
  have mem_positions : ∀ position, position ∈ nodes.map tree.groupPosition ↔
      ∃ index ∈ touchedAt tree.treeCalc.bfactor touched (level + 1),
        position = ⟨UInt8.ofNat (level + 1), index⟩ := by
    intro position
    simp only [List.mem_map, touches _]
    constructor
    · rintro ⟨_, ⟨child, child_mem, rfl⟩, rfl⟩
      exact ⟨_, ⟨child, child_mem, rfl⟩, groupPosition_refNode level child⟩
    · rintro ⟨_, ⟨child, child_mem, rfl⟩, rfl⟩
      exact ⟨_, ⟨child, child_mem, rfl⟩, groupPosition_refNode level child⟩
  intro node
  simp only [Tree.updateOneLevel, List.mem_map (f := tree.groupParent _ _), mem_uniqueMap,
    mem_positions]
  constructor
  · rintro ⟨_, ⟨index, index_mem, rfl⟩, rfl⟩
    exact ⟨index, index_mem, growth.groupParent_eq level_lt touches index_mem⟩
  · rintro ⟨index, index_mem, rfl⟩
    exact ⟨_, ⟨index, index_mem, rfl⟩, growth.groupParent_eq level_lt touches index_mem⟩

/-- The branches of a whole run: the touched nodes of every level above the first. The last of them
is on the last level. -/
theorem Growth.updateLoop (growth : Growth tree oldCount newCount oldLeaf newLeaf touched)
    {order : ℕ → List Node → List Node} (order_perm : ∀ level nodes, (order level nodes).Perm nodes)
    (rounds level : ℕ) (nodes branches : List Node) (level_lt : level + rounds < height tree.treeCalc.bfactor newCount)
    (touches : TouchedNodes tree newCount newLeaf touched level nodes) :
    (∀ node, node ∈ tree.updateLoop order rounds level nodes (rowSize tree.treeCalc.bfactor newCount level) branches ↔
      node ∈ branches ∨ ∃ upper, level < upper ∧ upper ≤ level + rounds ∧
        ∃ index ∈ touchedAt tree.treeCalc.bfactor touched upper,
          node = refNode tree.hash tree.treeCalc.bfactor newCount newLeaf upper index) ∧
    (0 < rounds → ∃ index ∈ touchedAt tree.treeCalc.bfactor touched (level + rounds),
      (tree.updateLoop order rounds level nodes (rowSize tree.treeCalc.bfactor newCount level) branches).getLast? =
          some (refNode tree.hash tree.treeCalc.bfactor newCount newLeaf (level + rounds) index)) := by
  induction rounds generalizing level nodes branches with
  | zero =>
      refine ⟨fun node => ⟨Or.inl, ?_⟩, fun positive => absurd positive (Nat.lt_irrefl 0)⟩
      rintro (old | ⟨upper, above, within, -⟩)
      · exact old
      · omega
  | succ rounds ih =>
      have branch_pos : 0 < tree.treeCalc.bfactor := by have := growth.two_le; omega
      set parents := order level
        (tree.updateOneLevel nodes (rowSize tree.treeCalc.bfactor newCount level)) with parents_eq
      have parents_touch : TouchedNodes tree newCount newLeaf touched (level + 1) parents := by
        intro node
        rw [parents_eq, (order_perm _ _).mem_iff]
        exact growth.updateOneLevel (by omega) touches node
      obtain ⟨members, last⟩ := ih (level + 1) parents (branches ++ parents) (by omega) parents_touch
      rw [Tree.updateLoop, TreeCalc.groupCount_rowSize branch_pos]
      refine ⟨fun node => ?_, fun _ => ?_⟩
      · rw [members, List.mem_append, parents_touch node]
        constructor
        · rintro ((old | ⟨index, index_mem, rfl⟩) | ⟨upper, above, within, rest⟩)
          · exact Or.inl old
          · exact Or.inr ⟨level + 1, by omega, by omega, index, index_mem, rfl⟩
          · exact Or.inr ⟨upper, by omega, by omega, rest⟩
        · rintro (old | ⟨upper, above, within, index, index_mem, rfl⟩)
          · exact Or.inl (Or.inl old)
          · rcases Nat.lt_or_eq_of_le above with higher | rfl
            · exact Or.inr ⟨upper, higher, by omega, index, index_mem, rfl⟩
            · exact Or.inl (Or.inr ⟨index, index_mem, rfl⟩)
      · rcases Nat.eq_zero_or_pos rounds with rfl | positive
        · -- the level just computed is the last one
          obtain ⟨index, index_mem⟩ :=
            touchedAt_nonempty tree.treeCalc.bfactor growth.nonempty (level + 1)
          have parents_ne : parents ≠ [] :=
            List.ne_nil_of_mem ((parents_touch _).mpr ⟨index, index_mem, rfl⟩)
          obtain ⟨last_index, last_mem, last_eq⟩ :=
            (parents_touch _).mp (List.getLast_mem parents_ne)
          refine ⟨last_index, last_mem, ?_⟩
          rw [Tree.updateLoop, List.getLast?_append, List.getLast?_eq_some_getLast parents_ne,
            last_eq]
          rfl
        · obtain ⟨index, index_mem, last_eq⟩ := last positive
          have shift : level + 1 + rounds = level + (rounds + 1) := by omega
          rw [shift] at index_mem last_eq
          exact ⟨index, index_mem, last_eq⟩

theorem Growth.index_eq_zero (growth : Growth tree oldCount newCount oldLeaf newLeaf touched)
    (index : ℕ) (index_mem : index ∈ touchedAt tree.treeCalc.bfactor touched
      (height tree.treeCalc.bfactor newCount - 1)) : index = 0 := by
  have branch_pos : 0 < tree.treeCalc.bfactor := by have := growth.two_le; omega
  have index_lt := touchedAt_lt branch_pos growth.below index_mem
  have single := rowSize_height growth.two_le newCount
  omega

/-- An update returns the height and the root of the new tree, and writes exactly its touched
nodes. -/
theorem Growth.update (growth : Growth tree oldCount newCount oldLeaf newLeaf touched)
    {order : ℕ → List Node → List Node} (order_perm : ∀ level nodes, (order level nodes).Perm nodes)
    {leaves : List Node} (touches : TouchedNodes tree newCount newLeaf touched 0 leaves) :
    ∃ result, tree.update order leaves newCount = some result ∧ result.leafCount = newCount ∧
      result.height = UInt8.ofNat (height tree.treeCalc.bfactor newCount) ∧
      result.root = refNode tree.hash tree.treeCalc.bfactor newCount newLeaf
        (height tree.treeCalc.bfactor newCount - 1) 0 ∧ ∀ node, node ∈ result.leaves ++ result.branches ↔
        ∃ level < height tree.treeCalc.bfactor newCount, ∃ index ∈ touchedAt tree.treeCalc.bfactor touched level,
            node = refNode tree.hash tree.treeCalc.bfactor newCount newLeaf level index := by
  have positive := height_pos tree.treeCalc.bfactor newCount
  have fits := growth.fits
  obtain ⟨top, top_eq⟩ : ∃ top, height tree.treeCalc.bfactor newCount = top + 1 :=
    ⟨_, (Nat.succ_pred_eq_of_pos positive).symm⟩
  have rounds_eq : (tree.treeCalc.height newCount - 1).toNat = top := by
    rw [TreeCalc.height_eq growth.two_le, top_eq, ofNat_succ_sub_one, UInt8.toNat_ofNat']
    exact Nat.mod_eq_of_lt (by omega)
  have several : 1 < tree.treeCalc.height newCount ↔ 0 < top := by
    rw [TreeCalc.height_eq growth.two_le, top_eq, UInt8.lt_iff_toNat_lt, UInt8.toNat_ofNat',
      Nat.mod_eq_of_lt (by omega)]
    exact Nat.succ_lt_succ_iff
  obtain ⟨members, last⟩ :=
    growth.updateLoop order_perm top 0 leaves [] (by omega) touches
  have root_eq : (if 1 < tree.treeCalc.height newCount then
      (tree.updateLoop order top 0 leaves newCount []).getLast? else leaves.head?) =
        some (refNode tree.hash tree.treeCalc.bfactor newCount newLeaf top 0) := by
    by_cases grown : 0 < top
    · obtain ⟨index, index_mem, last_eq⟩ := last grown
      rw [Nat.zero_add] at index_mem last_eq
      obtain rfl := growth.index_eq_zero index (by rwa [top_eq])
      rw [if_pos (several.mpr grown)]
      exact last_eq
    · obtain ⟨index, index_mem⟩ := growth.nonempty
      have leaves_ne : leaves ≠ [] :=
        List.ne_nil_of_mem ((touches _).mpr ⟨index, index_mem, rfl⟩)
      obtain ⟨first, first_mem, first_eq⟩ := (touches _).mp (List.head_mem leaves_ne)
      obtain rfl : top = 0 := by omega
      obtain rfl := growth.index_eq_zero first (by rwa [top_eq])
      rw [if_neg (by rwa [several]), List.head?_eq_some_head leaves_ne, first_eq]
  refine ⟨⟨newCount, tree.treeCalc.height newCount, leaves,
    tree.updateLoop order top 0 leaves newCount [], _⟩, ?_, rfl,
    TreeCalc.height_eq growth.two_le newCount, rfl, ?_⟩
  · rw [Tree.update, rounds_eq, root_eq, top_eq]
    rfl
  · intro node
    rw [List.mem_append, touches node]
    refine (or_congr_right (members node)).trans ?_
    constructor
    · rintro (⟨index, index_mem, rfl⟩ | none_mem | ⟨upper, above, within, rest⟩)
      · exact ⟨0, positive, index, index_mem, rfl⟩
      · exact absurd none_mem List.not_mem_nil
      · exact ⟨upper, by omega, rest⟩
    · rintro ⟨level, level_lt, index, index_mem, rfl⟩
      rcases Nat.eq_zero_or_pos level with rfl | above
      · exact Or.inl ⟨index, index_mem, rfl⟩
      · exact Or.inr (Or.inr ⟨level, above, by omega, index, index_mem, rfl⟩)

theorem Growth.holds_written (growth : Growth tree oldCount newCount oldLeaf newLeaf touched)
    {written : List Node} {getNode : Position → Option Bytes}
    (touches : ∀ node, node ∈ written ↔ ∃ level < height tree.treeCalc.bfactor newCount,
      ∃ index ∈ touchedAt tree.treeCalc.bfactor touched level,
        node = refNode tree.hash tree.treeCalc.bfactor newCount newLeaf level index)
    (writes : ∀ node ∈ written, (∀ other ∈ written, other.position = node.position →
      other.data = node.data) → getNode node.position = some node.data)
    (keeps : ∀ position, (∀ node ∈ written, node.position ≠ position) →
      getNode position = tree.store.getNode position) :
    HoldsTree tree.hash tree.treeCalc.bfactor newCount newLeaf getNode := by
  have fits := growth.fits
  have same_level : ∀ {left right : ℕ}, left < height tree.treeCalc.bfactor newCount →
      right < height tree.treeCalc.bfactor newCount → UInt8.ofNat left = UInt8.ofNat right →
        left = right := by
    intro left right left_lt right_lt equal
    have values := congrArg UInt8.toNat equal
    rwa [UInt8.toNat_ofNat', UInt8.toNat_ofNat', Nat.mod_eq_of_lt (by omega),
      Nat.mod_eq_of_lt (by omega)] at values
  intro level level_lt index index_lt
  by_cases index_mem : index ∈ touchedAt tree.treeCalc.bfactor touched level
  · apply writes (refNode tree.hash tree.treeCalc.bfactor newCount newLeaf level index)
      ((touches _).mpr ⟨level, level_lt, index, index_mem, rfl⟩)
    intro other other_mem same_position
    obtain ⟨otherLevel, other_lt, otherIndex, -, rfl⟩ := (touches _).mp other_mem
    obtain ⟨levels, indexes⟩ := Position.mk.inj same_position
    obtain rfl := same_level other_lt level_lt levels
    obtain rfl := indexes
    rfl
  · rw [keeps, growth.stored level_lt index_lt index_mem]
    intro node node_mem same_position
    obtain ⟨otherLevel, other_lt, otherIndex, other_mem, rfl⟩ := (touches _).mp node_mem
    obtain ⟨levels, indexes⟩ := Position.mk.inj same_position
    obtain rfl := same_level other_lt level_lt levels
    obtain rfl := indexes
    exact index_mem other_mem

theorem Growth.holds_writeAll (growth : Growth tree oldCount newCount oldLeaf newLeaf touched) {written : List Node}
    (touches : ∀ node, node ∈ written ↔ ∃ level < height tree.treeCalc.bfactor newCount,
      ∃ index ∈ touchedAt tree.treeCalc.bfactor touched level,
        node = refNode tree.hash tree.treeCalc.bfactor newCount newLeaf level index) (table : Bytes → Option Bytes)
    (reads : ∀ position, tree.store.getNode position = table position.bytes) :
    HoldsTree tree.hash tree.treeCalc.bfactor newCount newLeaf
      fun position => Table.writeAll table (written.map Node.entry) position.bytes := by
  apply growth.holds_written touches
  · intro node node_mem agree
    have entry_mem : (node.position.bytes, node.data) ∈ written.map Node.entry :=
      List.mem_map.mpr ⟨node, node_mem, rfl⟩
    apply Table.writeAll_of_mem entry_mem
    intro other other_mem
    obtain ⟨otherNode, otherNode_mem, equal⟩ := List.mem_map.mp other_mem
    obtain ⟨texts, rfl⟩ := Prod.mk.inj equal
    exact agree otherNode otherNode_mem (Position.bytes_injective texts)
  · intro position absent
    rw [reads]
    apply Table.writeAll_of_notMem
    rw [List.map_map, List.mem_map]
    rintro ⟨node, node_mem, texts⟩
    exact absent node node_mem (Position.bytes_injective texts)

end Level

/-! ## Map stores -/

variable {leaves : List Node}

theorem leafAfter_of_mem (leaf : ℕ → Bytes)
    (distinct : (leaves.map (·.position.index)).Nodup) {node : Node} (node_mem : node ∈ leaves) :
    leafAfter leaf leaves node.position.index = node.data := by
  have found : leaves.find? (fun other => other.position.index = node.position.index) = some node := by
    cases search : leaves.find? (fun other => other.position.index = node.position.index) with
    | none => simpa using List.find?_eq_none.mp search node node_mem
    | some other =>
        have same_index : other.position.index = node.position.index := by
          simpa using List.find?_some search
        rw [List.inj_on_of_nodup_map distinct (List.mem_of_find?_eq_some search) node_mem same_index]
  rw [leafAfter, found]
  rfl

theorem leafAfter_of_notMem {leaf : ℕ → Bytes} {index : ℕ} (index_notMem : index ∉ leaves.map (·.position.index)) :
    leafAfter leaf leaves index = leaf index := by
  have missing : leaves.find? (fun other => other.position.index = index) = none := by
    rw [List.find?_eq_none]
    intro node node_mem
    simpa using fun same_index => index_notMem (List.mem_map.mpr ⟨node, node_mem, same_index⟩)
  rw [leafAfter, missing]
  rfl

theorem touchedNodes_leafAfter (tree : Tree) (count : ℕ) (leaf : ℕ → Bytes)
    (level_zero : ∀ node ∈ leaves, node.position.level = 0) (distinct : (leaves.map (·.position.index)).Nodup) :
    TouchedNodes tree count (leafAfter leaf leaves) {index | index ∈ leaves.map (·.position.index)} 0 leaves := by
  have node_eq : ∀ node ∈ leaves, node = refNode tree.hash tree.treeCalc.bfactor count
      (leafAfter leaf leaves) 0 node.position.index := by
    intro node node_mem
    have data_eq := leafAfter_of_mem leaf distinct node_mem
    have level_eq := level_zero node node_mem
    rcases node with ⟨⟨level, index⟩, data⟩
    simp only at data_eq level_eq
    rw [refNode, HashTree.node, data_eq, level_eq]
    rfl
  intro node
  constructor
  · intro node_mem
    exact ⟨_, List.mem_map_of_mem node_mem, node_eq node node_mem⟩
  · rintro ⟨index, index_mem, rfl⟩
    obtain ⟨node, node_mem, rfl⟩ := List.mem_map.mp index_mem
    rwa [← node_eq node node_mem]

/-- An update of a store that holds the tree of a leaf vector returns the height and the root of
the tree of the updated leaf vector, and committing it makes the store hold that tree. -/
theorem update_eq_rebuild (hash : Bytes → Bytes) (branchFactor : UInt8) (two_le : 2 ≤ branchFactor)
    (store : MapStore) (oldCount newCount : ℕ) (leaf : ℕ → Bytes)
    (holds : HoldsTree hash branchFactor.toNat oldCount leaf store.toStore.getNode)
    (leaves : List Node) (nonempty : leaves ≠ [])
    (level_zero : ∀ node ∈ leaves, node.position.level = 0)
    (distinct : (leaves.map (·.position.index)).Nodup)
    (below : ∀ node ∈ leaves, node.position.index < newCount)
    (fresh : ∀ index, oldCount ≤ index → index < newCount →
      index ∈ leaves.map (·.position.index))
    (grows : oldCount ≤ newCount) (fits : height branchFactor.toNat newCount ≤ 255)
    (order : ℕ → List Node → List Node)
    (order_perm : ∀ level nodes, (order level nodes).Perm nodes) :
    ∃ result, (newTree store.toStore hash branchFactor).update order leaves newCount = some result ∧
      result.height.toNat = height branchFactor.toNat newCount ∧
      result.root = refNode hash branchFactor.toNat newCount (leafAfter leaf leaves)
        (height branchFactor.toNat newCount - 1) 0 ∧
      (store.commitUpdate result).leafCount = newCount ∧
      (store.commitUpdate result).height = result.height ∧
      HoldsTree hash branchFactor.toNat newCount (leafAfter leaf leaves)
        (store.commitUpdate result).toStore.getNode := by
  set tree := newTree store.toStore hash branchFactor with tree_eq
  have calc_eq : tree.treeCalc.bfactor = branchFactor.toNat := by
    rw [tree_eq, newTree, if_neg (by simpa using two_le)]
    rfl
  have growth : Growth tree oldCount newCount leaf (leafAfter leaf leaves)
      {index | index ∈ leaves.map (·.position.index)} := by
    refine ⟨?_, ?_, grows, fresh, ?_, ?_, ?_, ?_⟩
    · rw [calc_eq]
      exact two_le
    · rw [calc_eq]
      exact holds
    · exact fun index _ index_notMem => leafAfter_of_notMem index_notMem
    · rintro index index_mem
      obtain ⟨node, node_mem, rfl⟩ := List.mem_map.mp index_mem
      exact below node node_mem
    · obtain ⟨node, node_mem⟩ := List.exists_mem_of_ne_nil leaves nonempty
      exact ⟨_, List.mem_map_of_mem node_mem⟩
    · rw [calc_eq]
      exact fits
  have touches := touchedNodes_leafAfter tree newCount leaf level_zero distinct
  obtain ⟨result, returned, count_eq, height_eq, root_eq, written⟩ := growth.update order_perm touches
  rw [calc_eq] at height_eq root_eq
  refine ⟨result, returned, ?_, root_eq, count_eq, rfl, ?_⟩
  · rw [height_eq, UInt8.toNat_ofNat', Nat.mod_eq_of_lt (by omega)]
  · have holds' := growth.holds_writeAll written store.nodes fun _ => rfl
    rw [List.map_append, Table.writeAll_append, calc_eq] at holds'
    exact holds'

/-- A binary tree with one leaf grows to three leaves, the last of them arriving first. -/
theorem update_eq_rebuild_one_to_three :
    ∃ result, (newTree (MapStore.mk 1 1 fun key => if key = [0, 0] then some [7] else none).toStore
        id 2).update (fun _ nodes => nodes.reverse)
          [⟨⟨0, 2⟩, [9]⟩, ⟨⟨0, 1⟩, [8]⟩] 3 = some result ∧
      result.root.data = node (combine id) 2 3
        (leafAfter (fun _ => [7]) [⟨⟨0, 2⟩, [9]⟩, ⟨⟨0, 1⟩, [8]⟩]) (height 2 3 - 1) 0 := by
  have one_level : height 2 1 = 1 := height_eq_of_first le_rfl fun _ lower_lt => by omega
  obtain ⟨result, returned, -, root_eq, -⟩ :=
    update_eq_rebuild id 2 (by decide)
      ⟨1, 1, fun key => if key = [0, 0] then some [7] else none⟩ 1 3 (fun _ => [7])
      (by
        intro level level_lt index index_lt
        obtain rfl : level = 0 := by
          have : level < height 2 1 := level_lt
          omega
        obtain rfl : index = 0 := Nat.lt_one_iff.mp index_lt
        rfl)
      [⟨⟨0, 2⟩, [9]⟩, ⟨⟨0, 1⟩, [8]⟩]
      (by decide) (by decide) (by decide) (by decide)
      (by
        intro index index_ge index_lt
        interval_cases index <;> decide)
      (by decide) ((height_le (by decide) 3).trans (by decide))
      (fun _ nodes => nodes.reverse) (fun _ nodes => nodes.reverse_perm)
  exact ⟨result, returned, congrArg Node.data root_eq⟩

end SvpChain.Merkle
