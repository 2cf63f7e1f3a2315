import Mathlib.Data.Prod.Lex
import Mathlib.Logic.Relation
import Mathlib.Tactic

/-!
# Commits by two certified blocks of one view

A tree of blocks with views and heights, voters, and certified blocks.  A block is final when a
certified child of it has the same view.  The rules of `TwoChain.Safe` say what voters and proposers
keep to: a voter never votes under a parent of lower priority in a later view, and of two certified
blocks of one view one was proposed under a parent that is at least the other.  They make the final
blocks lie on one branch.
-/

namespace SvpChain

/-- A history of proposals, votes and certificates. -/
structure TwoChain (Voter Block : Type) where
  root : Block
  Parent : Block → Block → Prop
  view : Block → ℕ
  height : Block → ℕ
  Voted : Voter → Block → Prop
  Certified : Block → Prop

namespace TwoChain

open Relation

variable {Voter Block : Type} (chain : TwoChain Voter Block)

/-- Blocks are compared by view, then by height. -/
def prio (block : Block) : ℕ ×ₗ ℕ := toLex (chain.view block, chain.height block)

/-- The second block is an ancestor of the first one, or the block itself. -/
def Descends : Block → Block → Prop := ReflTransGen chain.Parent

/-- A child in the same view is certified. -/
def Final (block : Block) : Prop :=
  ∃ child, chain.Certified child ∧ chain.Parent child block ∧ chain.view block = chain.view child

/-- The rules of the protocol. -/
structure Safe : Prop where
  root_prio : chain.view chain.root = 0 ∧ chain.height chain.root = 0
  root_parent : ∀ parent, ¬ chain.Parent chain.root parent
  parent_unique : ∀ block parent parent', chain.Parent block parent → chain.Parent block parent' →
    parent = parent'
  /-- A certified block hangs under a certified one. -/
  certified_parent : ∀ block, chain.Certified block → block ≠ chain.root →
    ∃ parent, chain.Parent block parent ∧ chain.Certified parent ∧
      chain.height block = chain.height parent + 1 ∧ chain.view parent ≤ chain.view block
  /-- Two quorums meet. -/
  common_voter : ∀ block block', chain.Certified block → chain.Certified block' →
    block ≠ chain.root → block' ≠ chain.root → ∃ voter, chain.Voted voter block ∧ chain.Voted voter block'
  /-- A voter keeps the priority it has voted under in an earlier view. -/
  locked : ∀ voter block block' parent parent', chain.Voted voter block →
    chain.Voted voter block' → chain.view block < chain.view block' → chain.Parent block parent →
    chain.Parent block' parent' → chain.prio parent ≤ chain.prio parent'
  /-- In one view the later of two certified blocks has seen the certificate of the earlier one. -/
  ordered : ∀ block block' parent parent', chain.Certified block → chain.Certified block' →
    block ≠ block' → chain.view block = chain.view block' → chain.Parent block parent →
    chain.Parent block' parent' →
      chain.prio block ≤ chain.prio parent' ∨ chain.prio block' ≤ chain.prio parent

variable {chain} {block block' parent child : Block}

theorem prio_le_iff : chain.prio block ≤ chain.prio block' ↔ chain.view block < chain.view block' ∨
      chain.view block = chain.view block' ∧ chain.height block ≤ chain.height block' :=
  Prod.Lex.toLex_le_toLex

namespace Safe

variable (safe : chain.Safe)
include safe

theorem root_le (block : Block) : chain.prio chain.root ≤ chain.prio block := by
  obtain ⟨view_eq, height_eq⟩ := safe.root_prio
  rw [prio_le_iff, view_eq, height_eq]
  omega

theorem ne_root (is_parent : chain.Parent child parent) : child ≠ chain.root := by
  rintro rfl
  exact safe.root_parent parent is_parent

theorem certified_of_parent (certified : chain.Certified child) (is_parent : chain.Parent child parent) :
    chain.Certified parent ∧ chain.height child = chain.height parent + 1 ∧ chain.view parent ≤ chain.view child := by
  obtain ⟨parent', is_parent', facts⟩ :=
    safe.certified_parent child certified (safe.ne_root is_parent)
  rwa [safe.parent_unique child parent parent' is_parent is_parent']

/-- A certified block that is not below a final block in priority hangs under a parent that is not
below it either, unless it is the final block itself. -/
theorem prio_le_parent {final : Block} (is_final : chain.Final final)
    (certified : chain.Certified block) (above : chain.prio final ≤ chain.prio block)
    (different : block ≠ final) (is_parent : chain.Parent block parent) : chain.prio final ≤ chain.prio parent := by
  obtain ⟨child, child_certified, child_parent, same_view⟩ := is_final
  rcases prio_le_iff.mp above with later | ⟨same, higher⟩
  · obtain ⟨voter, voted_child, voted_block⟩ := safe.common_voter child block child_certified
      certified (safe.ne_root child_parent) (safe.ne_root is_parent)
    exact safe.locked voter child block final parent voted_child voted_block (same_view ▸ later)
      child_parent is_parent
  · have final_certified := (safe.certified_of_parent child_certified child_parent).1
    by_cases at_root : final = chain.root
    · rw [at_root]
      exact safe.root_le parent
    · obtain ⟨grand, grand_parent, -, height_eq, view_le⟩ :=
        safe.certified_parent final final_certified at_root
      rcases safe.ordered final block grand parent final_certified certified different.symm same
        grand_parent is_parent with seen | unseen
      · exact seen
      · -- the block would be below the parent of the final block
        have := prio_le_iff.mp unseen
        omega

theorem descends_final {final : Block} (is_final : chain.Final final)
    (certified : chain.Certified block) (above : chain.prio final ≤ chain.prio block) : chain.Descends block final := by
  induction height_eq : chain.height block using Nat.strong_induction_on generalizing block with
  | _ height ih =>
      by_cases same : block = final
      · rw [same]
        exact ReflTransGen.refl
      · obtain ⟨child, child_certified, child_parent, same_view⟩ := id is_final
        have final_certified := (safe.certified_of_parent child_certified child_parent).1
        by_cases at_root : block = chain.root
        · -- nothing certified but the root is as low as the root
          exfalso
          have final_ne : final ≠ chain.root := fun final_root => same (at_root.trans final_root.symm)
          obtain ⟨grand, -, -, final_height, -⟩ :=
            safe.certified_parent final final_certified final_ne
          obtain ⟨view_zero, height_zero⟩ := safe.root_prio
          have := prio_le_iff.mp above
          rw [at_root] at this
          omega
        · obtain ⟨parent, is_parent, parent_certified, block_height, -⟩ :=
            safe.certified_parent block certified at_root
          have parent_above := safe.prio_le_parent is_final certified above same is_parent
          exact ReflTransGen.head is_parent
            (ih (chain.height parent) (by omega) parent_certified parent_above rfl)

theorem certified_of_descends (certified : chain.Certified block) (descends : chain.Descends block block') :
    chain.Certified block' ∧ chain.height block' ≤ chain.height block := by
  induction descends with
  | refl => exact ⟨certified, le_rfl⟩
  | tail _ is_parent ih =>
      obtain ⟨parent_certified, height_eq, -⟩ := safe.certified_of_parent ih.1 is_parent
      exact ⟨parent_certified, by omega⟩

theorem eq_of_descends {top : Block} (certified : chain.Certified top)
    (left : chain.Descends top block) (right : chain.Descends top block')
    (same_height : chain.height block = chain.height block') : block = block' := by
  induction left using ReflTransGen.head_induction_on with
  | refl =>
      rcases ReflTransGen.cases_head right with same | ⟨parent, is_parent, rest⟩
      · exact same
      · obtain ⟨parent_certified, height_eq, -⟩ := safe.certified_of_parent certified is_parent
        have := (safe.certified_of_descends parent_certified rest).2
        omega
  | head is_parent rest ih =>
      obtain ⟨parent_certified, height_eq, -⟩ := safe.certified_of_parent certified is_parent
      rcases ReflTransGen.cases_head right with rfl | ⟨parent', is_parent', rest'⟩
      · have := (safe.certified_of_descends parent_certified rest).2
        omega
      · obtain rfl := safe.parent_unique _ _ _ is_parent is_parent'
        exact ih parent_certified rest'

/-- Ancestors of final blocks agree at every height. -/
theorem agreement {final final' : Block} (is_final : chain.Final final)
    (is_final' : chain.Final final') (descends : chain.Descends final block) (descends' : chain.Descends final' block')
    (same_height : chain.height block = chain.height block') : block = block' := by
  have certified_of_final : ∀ {final}, chain.Final final → chain.Certified final := by
    rintro final ⟨child, child_certified, child_parent, -⟩
    exact (safe.certified_of_parent child_certified child_parent).1
  rcases le_total (chain.prio final) (chain.prio final') with lower | lower
  · have linked := safe.descends_final is_final (certified_of_final is_final') lower
    exact safe.eq_of_descends (certified_of_final is_final') (linked.trans descends) descends'
      same_height
  · have linked := safe.descends_final is_final' (certified_of_final is_final) lower
    exact safe.eq_of_descends (certified_of_final is_final) descends (linked.trans descends')
      same_height

end Safe

end TwoChain

end SvpChain
