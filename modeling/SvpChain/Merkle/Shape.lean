import SvpChain.Lib.HashTree
import SvpChain.Merkle.Tree

/-!
# The shape of the tree

`TreeCalc` counts the rows of the reference tree.  `Height` is the number of its rows as long as that
number fits into a `uint8`, and the groups of a row partition it.
-/

namespace SvpChain.Merkle

open HashTree

namespace TreeCalc

variable {tc : TreeCalc}

theorem groupCount_eq_ceilDiv (branch_pos : 0 < tc.bfactor) (nodeCount : ℕ) :
    tc.groupCount nodeCount = nodeCount ⌈/⌉ tc.bfactor := by
  have split := Nat.div_add_mod' nodeCount tc.bfactor
  have remainder_lt := Nat.mod_lt nodeCount branch_pos
  rw [groupCount, Nat.ceilDiv_eq_add_pred_div]
  by_cases even : nodeCount % tc.bfactor = 0
  · rw [if_neg (by omega), eq_comm, Nat.div_eq_iff branch_pos]
    omega
  · rw [if_pos (by omega), eq_comm, Nat.div_eq_iff branch_pos, Nat.add_mul]
    omega

theorem groupCount_rowSize (branch_pos : 0 < tc.bfactor) (count level : ℕ) :
    tc.groupCount (rowSize tc.bfactor count level) = rowSize tc.bfactor count (level + 1) :=
  groupCount_eq_ceilDiv branch_pos _

theorem heightLoop_rowSize (two_le : 2 ≤ tc.bfactor) (count : ℕ) (rounds level : ℕ) (h : UInt8)
    (level_lt : level < HashTree.height tc.bfactor count)
    (enough : HashTree.height tc.bfactor count ≤ level + 1 + rounds) :
    tc.heightLoop rounds (rowSize tc.bfactor count level) h =
      h + UInt8.ofNat (HashTree.height tc.bfactor count - 1 - level) := by
  induction rounds generalizing level h with
  | zero =>
      have : HashTree.height tc.bfactor count - 1 - level = 0 := by omega
      simp [heightLoop, this]
  | succ rounds ih =>
      rw [heightLoop]
      by_cases top : level + 1 < HashTree.height tc.bfactor count
      · rw [if_pos (one_lt_rowSize top), groupCount_rowSize (by omega),
          ih (level + 1) (h + 1) top (by omega)]
        have step : HashTree.height tc.bfactor count - 1 - level =
            1 + (HashTree.height tc.bfactor count - 1 - (level + 1)) := by omega
        rw [step, UInt8.ofNat_add, UInt8.add_assoc]
        rfl
      · have last : HashTree.height tc.bfactor count - 1 = level := by omega
        have few := rowSize_height two_le count
        rw [last] at few
        rw [if_neg (by omega), last, Nat.sub_self]
        simp

theorem height_eq (two_le : 2 ≤ tc.bfactor) (count : ℕ) :
    tc.height count = UInt8.ofNat (HashTree.height tc.bfactor count) := by
  have positive := height_pos tc.bfactor count
  have bounded := height_le two_le count
  have counted := heightLoop_rowSize two_le count count 0 1 positive (by omega)
  rw [height]
  calc
    tc.heightLoop count count 1 = 1 + UInt8.ofNat (HashTree.height tc.bfactor count - 1 - 0) :=
      counted
    _ = UInt8.ofNat (1 + (HashTree.height tc.bfactor count - 1 - 0)) := by
      rw [UInt8.ofNat_add]; rfl
    _ = UInt8.ofNat (HashTree.height tc.bfactor count) := by congr 1; omega

theorem iterate_groupCount (branch_pos : 0 < tc.bfactor) (count level : ℕ) :
    tc.groupCount^[level] count = rowSize tc.bfactor count level := by
  induction level with
  | zero => rfl
  | succ level ih =>
      rw [Function.iterate_succ_apply', ih]
      exact groupCount_rowSize branch_pos count level

theorem group_of_node (branch_pos : 0 < tc.bfactor) {rowSize index : ℕ} (index_lt : index < rowSize) :
    tc.groupOfNode index < tc.groupCount rowSize ∧
      tc.firstNodeOfGroup (tc.groupOfNode index) + tc.nodeIndexInGroup index = index ∧
      tc.nodeIndexInGroup index < tc.bfactor := by
  refine ⟨?_, Nat.div_add_mod' index tc.bfactor, Nat.mod_lt index branch_pos⟩
  rw [groupCount_eq_ceilDiv branch_pos, lt_ceilDiv_iff branch_pos]
  exact (Nat.div_mul_le_self index tc.bfactor).trans_lt index_lt

/-- The loop of `Height` ends after the least number of rounds that can bring a row down to one node,
and the groups of every row partition it. -/
theorem shape_of_rows (tc : TreeCalc) (two_le : 2 ≤ tc.bfactor) :
    (∀ nleaf ≤ tc.bfactor ^ 254, ∃ h : ℕ,
      IsLeast {h | 1 ≤ h ∧ nleaf ≤ tc.bfactor ^ (h - 1)} h ∧ h ≤ 255 ∧
      (∀ round < h - 1, 1 < tc.groupCount^[round] nleaf) ∧ tc.groupCount^[h - 1] nleaf ≤ 1 ∧
      (∀ rounds, h - 1 ≤ rounds → (tc.heightLoop rounds nleaf 1).toNat = h) ∧
      (tc.height nleaf).toNat = h ∧ (1 ≤ nleaf → tc.groupCount^[h - 1] nleaf = 1)) ∧
    ∀ rowSize, (∀ index < rowSize, tc.groupOfNode index < tc.groupCount rowSize ∧
        tc.firstNodeOfGroup (tc.groupOfNode index) + tc.nodeIndexInGroup index = index ∧
        tc.nodeIndexInGroup index < tc.bfactor) ∧
      ∀ group < tc.groupCount rowSize, tc.firstNodeOfGroup group < rowSize := by
  have branch_pos : 0 < tc.bfactor := by omega
  constructor
  · intro nleaf few
    have least := isLeast_height two_le nleaf
    have fits : HashTree.height tc.bfactor nleaf ≤ 255 := height_le_of_le_pow branch_pos few
    have positive := height_pos tc.bfactor nleaf
    have single := rowSize_height two_le nleaf
    have counted (h : ℕ) (small : h ≤ 255) : (UInt8.ofNat h).toNat = h := by
      rw [UInt8.toNat_ofNat']
      omega
    refine ⟨HashTree.height tc.bfactor nleaf, least, fits, ?_, ?_, ?_, ?_, ?_⟩
    · intro round early
      rw [iterate_groupCount branch_pos]
      exact one_lt_rowSize (by omega)
    · rwa [iterate_groupCount branch_pos]
    · intro rounds enough
      have loop := heightLoop_rowSize two_le nleaf rounds 0 1 positive (by omega)
      have sum : 1 + UInt8.ofNat (HashTree.height tc.bfactor nleaf - 1 - 0) =
          UInt8.ofNat (1 + (HashTree.height tc.bfactor nleaf - 1 - 0)) := by
        rw [UInt8.ofNat_add]
        rfl
      rw [rowSize, sum] at loop
      rw [loop, counted _ (by omega)]
      omega
    · rw [height_eq two_le, counted _ fits]
    · intro some_leaf
      rw [iterate_groupCount branch_pos]
      have kept := rowSize_pos branch_pos some_leaf (HashTree.height tc.bfactor nleaf - 1)
      omega
  · intro rowSize
    refine ⟨fun index index_lt => group_of_node branch_pos index_lt, fun group group_lt => ?_⟩
    rwa [groupCount_eq_ceilDiv branch_pos, lt_ceilDiv_iff branch_pos] at group_lt

/-- Nine leaves under a branch factor of three. -/
theorem shape_of_rows_nine : 2 ≤ TreeCalc.bfactor ⟨3⟩ ∧
    IsLeast {h | 1 ≤ h ∧ 9 ≤ TreeCalc.bfactor ⟨3⟩ ^ (h - 1)} (TreeCalc.height ⟨3⟩ 9).toNat ∧
    TreeCalc.groupOfNode ⟨3⟩ 7 < TreeCalc.groupCount ⟨3⟩ 8 := by
  obtain ⟨heights, groups⟩ := shape_of_rows ⟨3⟩ (by decide)
  obtain ⟨h, least, -, -, -, -, rfl, -⟩ := heights 9 (by decide)
  exact ⟨by decide, least, ((groups 8).1 7 (by decide)).1⟩

end TreeCalc

end SvpChain.Merkle
