import SvpChain.Consensus.CommitRecursive

/-!
# Fetching the parents of a block

`syncParentBlock` fetches missing ancestors by their hashes and stores what the peer answers under the hash of
the answer.  Where the answers are the blocks asked for, every parent down to the committed height is at hand
afterwards, one lower than its child.
-/

namespace SvpChain.Consensus

open Core TxPool Program

variable {params : Params} {env : Env} {node node' : Node} {blk : Block} {peer : PublicKey}

/-- Answers to requests by hash are the blocks asked for. -/
def AnswersMatch (env : Env) : Prop :=
  ∀ number peer hash answer, env.requestBlock number peer hash = some answer → answer.hash = hash

/-- From a block down to a height, every parent is at hand and one lower than its child. -/
def Connected (node : Node) (height : UInt64) (blk : Block) : Prop :=
  ∀ base path, Lineage node base path blk → (∀ other ∈ base :: path, height < other.height) →
    ∃ parent, node.lookup base.parentHash = some parent ∧ base.height = parent.height + 1

theorem connected_of_height {height : UInt64} (height_eq : blk.height = height) : Connected node height blk := by
  intro base path lineage above
  have top : height < blk.height := by
    rcases lineage.cases_top with ⟨-, rfl⟩ | ⟨_, below, rfl, -, -⟩
    · exact above base (by simp)
    · exact above blk (by simp)
  exact absurd (height_eq ▸ top) (UInt64.lt_irrefl _)

theorem Connected.child {height : UInt64} {parent : Block} (connected : Connected node height parent)
    (found : node.lookup blk.parentHash = some parent) (height_eq : blk.height = parent.height + 1) :
    Connected node height blk := by
  intro base path lineage above
  rcases lineage.cases_top with ⟨-, rfl⟩ | ⟨other, below, rfl, found', lineage⟩
  · exact ⟨parent, found, height_eq⟩
  · obtain rfl := Option.some.inj (found.symm.trans found')
    refine connected base below lineage fun other mem => above other ?_
    rcases List.mem_cons.mp mem with rfl | mem
    · exact List.mem_cons_self
    · exact List.mem_cons_of_mem _ (List.mem_append_left _ mem)

/-- What is at hand stays at hand, and nothing is committed. -/
structure Grown (node node' : Node) : Prop where
  lookup : ∀ {hash : Bytes} {blk : Block}, node.lookup hash = some blk → node'.lookup hash = some blk
  blockHeight_eq : node'.storage.blockHeight = node.storage.blockHeight

theorem Grown.trans {node'' : Node} (first : Grown node node') (second : Grown node' node'') : Grown node node'' where
  lookup found := second.lookup (first.lookup found)
  blockHeight_eq := second.blockHeight_eq.trans first.blockHeight_eq

theorem Cached.grown (cached : Cached node node') : Grown node node' := by
  obtain ⟨blocks, rfl, same⟩ := cached
  exact ⟨fun found => (same _).trans found, rfl⟩

/-- An accepted answer is stored under the hash that was asked for, which was free. -/
theorem grown_acceptBlock (missing : node.lookup blk.hash = none) : Grown node (node.acceptBlock blk) where
  lookup {hash other} found := by
    change (node.setBlock blk).lookup hash = some other
    rw [lookup_setBlock, if_neg, found]
    rintro rfl
    cases missing.symm.trans found
  blockHeight_eq := rfl

theorem wp_requestBlock_match (matching : AnswersMatch env) {hash : Bytes} (missing : node.lookup hash = none) :
    wp (requestBlock params env peer hash)
      (fun answer node' => node'.lookup hash = some answer ∧ Grown node node') (fun _ _ => True) node := by
  rw [requestBlock, wp_bind, nextRequest, wp_bind, wp_gets, wp_bind, wp_modify, wp_pure]
  cases answered : env.requestBlock node.requests peer hash with
  | none => trivial
  | some answer =>
      obtain rfl := matching _ _ _ _ answered
      rw [wp_bind, onRoleStore, wp_zoom]
      refine wp_mono (wp_trivial _) (fun _ store _ => ?_) fun halt _ _ => by cases halt <;> trivial
      rw [wp_bind, wp_modify, wp_pure]
      have grown := @grown_acceptBlock { node with requests := node.requests + 1, roleStore := store } answer missing
      refine ⟨?_, grown.lookup, grown.blockHeight_eq⟩
      exact (lookup_setBlock _ answer answer.hash).trans (if_pos rfl)

theorem wp_getOrRequestBlock_match (matching : AnswersMatch env) (hash : Bytes) :
    wp (getOrRequestBlock params env peer hash)
      (fun found node' => node'.lookup hash = some found ∧ Grown node node') (fun _ _ => True) node := by
  rw [getOrRequestBlock]
  refine wp_then (wp_getBlockByHash hash) ?_
  rintro _ node1 ⟨rfl, cached, -⟩
  obtain ⟨_, _, same⟩ := id cached
  cases found : node.lookup hash with
  | some blk => exact ⟨(same hash).trans found, cached.grown⟩
  | none =>
      refine wp_mono (wp_requestBlock_match matching ((same hash).trans found)) ?_ fun _ _ _ => trivial
      rintro answer node2 ⟨stored, grown⟩
      exact ⟨stored, cached.grown.trans grown⟩

theorem wp_syncTxs_grown (hashes : List Bytes) :
    wp (syncTxs params env peer hashes) (fun _ node' => Grown node node') (fun _ _ => True) node := by
  rw [syncTxs, wp_bind, nextRequest, wp_bind, wp_gets, wp_bind, wp_modify, wp_pure, wp_bind, wp_get, onTxPool,
    wp_zoom]
  exact wp_mono (wp_trivial _) (fun _ _ _ => ⟨id, rfl⟩) fun halt _ _ => by cases halt <;> trivial

/-- What the walk down from a block has found. -/
def Walked (blk : Block) (node : Node) (parent : Block) (node' : Node) : Prop :=
  node'.lookup blk.parentHash = some parent ∧ Grown node node' ∧
    Connected node' node'.storage.blockHeight blk

/-- One step of the walk, before a walk from the parent. -/
theorem wp_syncParentStep (matching : AnswersMatch env) {rest : Block → Handler Block}
    (below : ∀ parent node2, wp (rest parent) (fun found node3 => found = parent ∧
      ∃ above, Walked parent node2 above node3) (fun _ _ => True) node2) :
    wp (do
        let parent ← getOrRequestBlock params env peer blk.parentHash
        let commitHeight ← Program.gets fun node => node.storage.blockHeight
        if blk.height = commitHeight then pure parent
        else do
          Program.throwIf (blk.height ≠ parent.height + 1) (.invalidHeight blk.height parent.height)
          Program.when params.config.executeTxFlag (syncTxs params env peer parent.transactions)
          rest parent)
      (Walked blk node) (fun _ _ => True) node := by
  rw [wp_bind]
  refine wp_mono (wp_getOrRequestBlock_match matching blk.parentHash) ?_ fun _ _ _ => trivial
  rintro parent node1 ⟨found, grown1⟩
  rw [wp_bind, wp_gets, wp_ite]
  refine ⟨fun committed => ⟨found, grown1, connected_of_height committed⟩, fun _ => ?_⟩
  rw [wp_bind, wp_throwIf]
  refine ⟨fun _ => trivial, fun height_eq => ?_⟩
  have synced : wp (Program.when params.config.executeTxFlag (syncTxs params env peer parent.transactions))
      (fun _ node2 => Grown node1 node2) (fun _ _ => True) node1 := by
    rw [Program.when, wp_ite]
    exact ⟨fun _ => wp_syncTxs_grown _, fun _ => ⟨id, rfl⟩⟩
  rw [wp_bind]
  refine wp_mono synced ?_ fun _ _ _ => trivial
  intro _ node2 grown2
  refine wp_mono (below parent node2) ?_ fun _ _ _ => trivial
  rintro _ node3 ⟨rfl, _, -, grown3, connected⟩
  have found3 := grown3.lookup (grown2.lookup found)
  exact ⟨found3, grown1.trans (grown2.trans grown3), connected.child found3 (not_not.mp height_eq)⟩

theorem wp_syncMissingParentRecursive (matching : AnswersMatch env) (fuel : ℕ) (blk : Block) (node : Node) :
    wp (syncMissingParentRecursive params env peer fuel blk) (Walked blk node) (fun _ _ => True) node := by
  induction fuel generalizing blk node with
  | zero => exact wp_syncParentStep matching fun _ _ => trivial
  | succ fuel ih =>
      refine wp_syncParentStep matching fun parent node2 => ?_
      rw [wp_bind]
      exact wp_mono (ih parent node2) (fun above _ walked => ⟨rfl, above, walked⟩) fun _ _ stopped => stopped

/-- A peer that answers requests by hash in one way. -/
def hashAnswers (answer : Bytes → Option Block) : Env :=
  { silentEnv with requestBlock := fun _ _ hash => answer hash }

/-- The second validator after the commit of a block. -/
def committedOnce : Node := final (commitRecursive transparentParams silentEnv lowerBlk) secondValidator

/-- A peer that knows one block, and answers with it where it is asked for. -/
def upperEnv : Env := hashAnswers fun hash => if hash = upperBlk.hash then some upperBlk else none

end SvpChain.Consensus
