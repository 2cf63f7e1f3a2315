import Mathlib.Algebra.Order.Floor.Div
import Mathlib.Tactic

/-!
# Hash trees of arbitrary arity

The reference tree over a vector of leaves: every parent combines its existing children, and a
level is the ceiling division of the one below it, up to a level with at most one node.  The last
section compares the trees of two leaf vectors: above every leaf that neither changed nor is new,
the two trees agree, and the smaller one already has the level in question.
-/

namespace SvpChain.HashTree

variable {V : Type*}

/-- Number of nodes of a level. -/
def rowSize (branch count : ℕ) : ℕ → ℕ
  | 0 => count
  | level + 1 => rowSize branch count level ⌈/⌉ branch

/-- Indexes of the existing children of a node, in a level of the given width. -/
def children (branch width index : ℕ) : List ℕ :=
  ((List.range branch).map (index * branch + ·)).filter (· < width)

/-- A node of the reference tree. -/
def node (combine : List V → V) (branch count : ℕ) (leaf : ℕ → V) : ℕ → ℕ → V
  | 0, index => leaf index
  | level + 1, index =>
      combine ((children branch (rowSize branch count level) index).map
        (node combine branch count leaf level))

/-- Number of levels: the first level with at most one node is the last one. -/
noncomputable def height (branch count : ℕ) : ℕ :=
  sInf {level | rowSize branch count level ≤ 1} + 1

/-! ## Shape -/

variable {branch index count level : ℕ}

theorem lt_ceilDiv_iff {width : ℕ} (branch_pos : 0 < branch) : index < width ⌈/⌉ branch ↔ index * branch < width := by
  rw [← not_le, ceilDiv_le_iff_le_mul branch_pos, not_le, Nat.mul_comm]

theorem lt_rowSize_succ_iff (branch_pos : 0 < branch) :
    index < rowSize branch count (level + 1) ↔ index * branch < rowSize branch count level :=
  lt_ceilDiv_iff branch_pos

theorem mem_children_iff {width child : ℕ} (branch_pos : 0 < branch) :
    child ∈ children branch width index ↔ child < width ∧ child / branch = index := by
  simp only [children, List.mem_filter, List.mem_map, List.mem_range, decide_eq_true_eq]
  constructor
  · rintro ⟨⟨offset, offset_lt, rfl⟩, child_lt⟩
    refine ⟨child_lt, ?_⟩
    rw [Nat.mul_comm, Nat.mul_add_div branch_pos, Nat.div_eq_of_lt offset_lt, Nat.add_zero]
  · rintro ⟨child_lt, rfl⟩
    refine ⟨⟨child % branch, Nat.mod_lt child branch_pos, ?_⟩, child_lt⟩
    exact Nat.div_add_mod' child branch

theorem rowSize_mono {small large : ℕ} (branch_pos : 0 < branch) (grows : small ≤ large)
    (level : ℕ) : rowSize branch small level ≤ rowSize branch large level := by
  induction level with
  | zero => exact grows
  | succ level ih =>
      rw [rowSize, ceilDiv_le_iff_le_mul branch_pos]
      refine ih.trans ?_
      rw [← ceilDiv_le_iff_le_mul branch_pos]
      rfl

theorem rowSize_pos (branch_pos : 0 < branch) (count_pos : 0 < count) (level : ℕ) : 0 < rowSize branch count level := by
  induction level with
  | zero => exact count_pos
  | succ level ih => rw [lt_rowSize_succ_iff branch_pos]; simpa using ih

theorem rowSize_succ_lt (two_le : 2 ≤ branch) (many : 1 < rowSize branch count level) :
    rowSize branch count (level + 1) < rowSize branch count level := by
  have bound : rowSize branch count (level + 1) ≤ rowSize branch count level - 1 := by
    rw [rowSize, ceilDiv_le_iff_le_mul (by omega)]
    calc
      rowSize branch count level ≤ 2 * (rowSize branch count level - 1) := by omega
      _ ≤ branch * (rowSize branch count level - 1) := Nat.mul_le_mul_right _ two_le
  omega

/-- While a level has several nodes, every level below it lost one. -/
theorem rowSize_add_level_le {branch count level : ℕ} (two_le : 2 ≤ branch)
    (many : ∀ lower < level, 1 < rowSize branch count lower) : rowSize branch count level + level ≤ count := by
  induction level with
  | zero => exact le_rfl
  | succ level ih =>
      have below := ih fun lower lower_lt => many lower (by omega)
      have shrinks := rowSize_succ_lt two_le (many level (by omega))
      omega

theorem exists_rowSize_le_one (two_le : 2 ≤ branch) (count : ℕ) : ∃ level, rowSize branch count level ≤ 1 := by
  by_contra never
  push Not at never
  have := @rowSize_add_level_le branch count (count + 1) two_le fun lower _ => never lower
  omega

theorem rowSize_height (two_le : 2 ≤ branch) (count : ℕ) : rowSize branch count (height branch count - 1) ≤ 1 :=
  Nat.sInf_mem (s := {level | rowSize branch count level ≤ 1})
    (exists_rowSize_le_one two_le count)

theorem one_lt_rowSize (below : level + 1 < height branch count) : 1 < rowSize branch count level := by
  have := Nat.notMem_of_lt_sInf (s := {level | rowSize branch count level ≤ 1})
    (m := level) (by unfold height at below; omega)
  simpa using this

theorem height_le (two_le : 2 ≤ branch) (count : ℕ) : height branch count ≤ count + 1 := by
  have lost := @rowSize_add_level_le branch count (height branch count - 1) two_le
    fun lower lower_lt => one_lt_rowSize (by omega)
  omega

theorem rowSize_le_iff (branch_pos : 0 < branch) (bound : ℕ) :
    rowSize branch count level ≤ bound ↔ count ≤ bound * branch ^ level := by
  induction level generalizing bound with
  | zero => simp [rowSize]
  | succ level ih =>
      rw [rowSize, ceilDiv_le_iff_le_mul branch_pos, ih, pow_succ, Nat.mul_comm branch bound,
        Nat.mul_assoc, Nat.mul_comm branch]

theorem height_le_of_le_pow {top : ℕ} (branch_pos : 0 < branch)
    (few : count ≤ branch ^ top) : height branch count ≤ top + 1 := by
  have single : rowSize branch count top ≤ 1 := by
    rw [rowSize_le_iff branch_pos]
    simpa using few
  exact Nat.succ_le_succ (Nat.sInf_le single)

theorem isLeast_height (two_le : 2 ≤ branch) (count : ℕ) :
    IsLeast {h | 1 ≤ h ∧ count ≤ branch ^ (h - 1)} (height branch count) := by
  have branch_pos : 0 < branch := by omega
  constructor
  · have few := (rowSize_le_iff branch_pos 1).mp (rowSize_height two_le count)
    rw [Nat.one_mul] at few
    exact ⟨Nat.succ_pos _, few⟩
  · rintro h ⟨positive, few⟩
    have bounded := height_le_of_le_pow branch_pos few
    omega

theorem height_mono {small large : ℕ} (two_le : 2 ≤ branch) (grows : small ≤ large) :
    height branch small ≤ height branch large := by
  have few : rowSize branch large (height branch large - 1) ≤ 1 := rowSize_height two_le large
  have smaller := (rowSize_mono (by omega) grows (height branch large - 1)).trans few
  have least : sInf {level | rowSize branch small level ≤ 1} ≤ height branch large - 1 :=
    Nat.sInf_le smaller
  have positive : 0 < height branch large := Nat.succ_pos _
  calc
    height branch small = sInf {level | rowSize branch small level ≤ 1} + 1 := rfl
    _ ≤ height branch large := by omega

theorem height_pos (branch count : ℕ) : 0 < height branch count := Nat.succ_pos _

/-- The height is the number of levels: the first level with at most one node is the last. -/
theorem height_eq_of_first {branch count level : ℕ} (few : rowSize branch count level ≤ 1)
    (many : ∀ lower < level, 1 < rowSize branch count lower) : height branch count = level + 1 := by
  have least : sInf {level | rowSize branch count level ≤ 1} = level := by
    apply le_antisymm
    · exact Nat.sInf_le few
    · by_contra smaller
      have found := Nat.sInf_mem (s := {level | rowSize branch count level ≤ 1}) ⟨level, few⟩
      exact absurd (many _ (not_le.mp smaller)) (not_lt.mpr found)
  rw [height, least]

/-! ## Trees of two leaf vectors -/

/-- Indexes of a level that lie above a touched leaf. -/
def touchedAt (branch : ℕ) (touched : Set ℕ) : ℕ → Set ℕ
  | 0 => touched
  | level + 1 => (· / branch) '' touchedAt branch touched level

theorem touchedAt_lt {touched : Set ℕ} (branch_pos : 0 < branch) (below : ∀ index ∈ touched, index < count)
    (index_mem : index ∈ touchedAt branch touched level) : index < rowSize branch count level := by
  induction level generalizing index with
  | zero => exact below index index_mem
  | succ level ih =>
      obtain ⟨child, child_mem, rfl⟩ := index_mem
      rw [lt_rowSize_succ_iff branch_pos]
      exact (Nat.div_mul_le_self child branch).trans_lt (ih child_mem)

theorem touchedAt_nonempty (branch : ℕ) {touched : Set ℕ} (nonempty : touched.Nonempty)
    (level : ℕ) : (touchedAt branch touched level).Nonempty := by
  induction level with
  | zero => exact nonempty
  | succ level ih => exact ih.image _

theorem node_congr (combine : List V → V) {left right : ℕ → V}
    (branch_pos : 0 < branch) (same : ∀ index < count, left index = right index) (level index : ℕ)
    (index_lt : index < rowSize branch count level) :
    node combine branch count left level index = node combine branch count right level index := by
  induction level generalizing index with
  | zero => exact same index index_lt
  | succ level ih =>
      rw [node, node]
      congr 1
      refine List.map_congr_left fun child member => ?_
      exact ih child ((mem_children_iff branch_pos).mp member).1

/-- Where the combination of the children determines every child, the root determines every node. -/
theorem node_eq_of_root_eq (combine : List V → V) {left right : ℕ → V} (two_le : 2 ≤ branch)
    (cancel : ∀ level index, level + 1 < height branch count → node combine branch count left (level + 1) index =
        node combine branch count right (level + 1) index →
      ∀ child ∈ children branch (rowSize branch count level) index,
        node combine branch count left level child = node combine branch count right level child)
    (root_eq : node combine branch count left (height branch count - 1) 0 =
      node combine branch count right (height branch count - 1) 0)
    (below level : ℕ) (level_eq : level + below = height branch count - 1) (index : ℕ)
    (index_lt : index < rowSize branch count level) :
    node combine branch count left level index = node combine branch count right level index := by
  induction below generalizing level index with
  | zero =>
      have single : rowSize branch count (height branch count - 1) ≤ 1 := rowSize_height two_le count
      obtain rfl : level = height branch count - 1 := by omega
      obtain rfl : index = 0 := by omega
      exact root_eq
  | succ below ih =>
      have branch_pos : 0 < branch := by omega
      have parent_lt : index / branch < rowSize branch count (level + 1) :=
        (lt_rowSize_succ_iff branch_pos).mpr ((Nat.div_mul_le_self index branch).trans_lt index_lt)
      refine cancel level (index / branch) (by omega)
        (ih (level + 1) (by omega) _ parent_lt) index ?_
      exact (mem_children_iff branch_pos).mpr ⟨index_lt, rfl⟩

section Compare

variable {branch oldCount newCount : ℕ} {oldLeaf newLeaf : ℕ → V}
  {touched : Set ℕ}

theorem child_notMem_touchedAt {level index child : ℕ} (branch_pos : 0 < branch)
    {width : ℕ} (index_notMem : index ∉ touchedAt branch touched (level + 1))
    (member : child ∈ children branch width index) : child ∉ touchedAt branch touched level := by
  intro child_touched
  obtain ⟨-, parent_eq⟩ := (mem_children_iff branch_pos).mp member
  exact index_notMem ⟨child, child_touched, parent_eq⟩

/-- A node that is not above a touched leaf stands in the old tree with the same value. -/
theorem node_eq_of_untouched (combine : List V → V) (two_le : 2 ≤ branch) (grows : oldCount ≤ newCount)
    (fresh : ∀ index, oldCount ≤ index → index < newCount → index ∈ touched)
    (kept : ∀ index < newCount, index ∉ touched → newLeaf index = oldLeaf index)
    {level index : ℕ} (level_lt : level < height branch newCount) (index_lt : index < rowSize branch newCount level)
    (index_notMem : index ∉ touchedAt branch touched level) :
    level < height branch oldCount ∧ index < rowSize branch oldCount level ∧
      node combine branch newCount newLeaf level index = node combine branch oldCount oldLeaf level index := by
  have branch_pos : 0 < branch := by omega
  induction level generalizing index with
  | zero =>
      refine ⟨height_pos branch oldCount, ?_, kept index index_lt index_notMem⟩
      by_contra beyond
      exact index_notMem (fresh index (not_lt.mp beyond) index_lt)
  | succ level ih =>
      have below : level < height branch newCount := by omega
      have stable : ∀ child ∈ children branch (rowSize branch newCount level) index,
          level < height branch oldCount ∧ child < rowSize branch oldCount level ∧
            node combine branch newCount newLeaf level child =
              node combine branch oldCount oldLeaf level child := by
        intro child member
        exact ih below ((mem_children_iff branch_pos).mp member).1
          (child_notMem_touchedAt branch_pos index_notMem member)
      have first_child : index * branch ∈ children branch (rowSize branch newCount level) index :=
        (mem_children_iff branch_pos).mpr
          ⟨(lt_rowSize_succ_iff branch_pos).mp index_lt, Nat.mul_div_cancel index branch_pos⟩
      obtain ⟨old_level, first_lt, -⟩ := stable _ first_child
      have old_many : 1 < rowSize branch oldCount level := by
        -- otherwise node 1 of this level is new, hence touched, and so is its parent 0
        by_contra single
        have index_zero : index = 0 := by
          by_contra nonzero
          have : branch ≤ index * branch := Nat.le_mul_of_pos_left branch (Nat.pos_of_ne_zero nonzero)
          omega
        have one_touched : 1 ∈ touchedAt branch touched level := by
          by_contra one_untouched
          obtain ⟨-, one_lt, -⟩ := ih below (one_lt_rowSize level_lt) one_untouched
          exact single one_lt
        refine index_notMem ⟨1, one_touched, ?_⟩
        rw [index_zero]
        exact Nat.div_eq_of_lt (by omega)
      refine ⟨?_, (lt_rowSize_succ_iff branch_pos).mpr first_lt, ?_⟩
      · by_contra top
        have same_level : height branch oldCount - 1 = level := by omega
        have := rowSize_height two_le oldCount
        rw [same_level] at this
        omega
      · have same_children : children branch (rowSize branch newCount level) index =
            children branch (rowSize branch oldCount level) index := by
          apply List.filter_congr
          intro child member
          obtain ⟨offset, offset_mem, rfl⟩ := List.mem_map.mp member
          have in_group : (index * branch + offset) / branch = index := by
            rw [Nat.mul_comm, Nat.mul_add_div branch_pos,
              Nat.div_eq_of_lt (List.mem_range.mp offset_mem), Nat.add_zero]
          have wider := rowSize_mono branch_pos grows level
          simp only [decide_eq_decide]
          constructor
          · intro child_lt
            exact (stable _ ((mem_children_iff branch_pos).mpr ⟨child_lt, in_group⟩)).2.1
          · intro child_lt
            omega
        rw [node, node, same_children]
        congr 1
        apply List.map_congr_left
        intro child member
        rw [← same_children] at member
        exact (stable child member).2.2

end Compare

end SvpChain.HashTree
