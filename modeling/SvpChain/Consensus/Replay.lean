import SvpChain.Consensus.HandlerSteps
import SvpChain.Core.Binding

/-!
# How often a transaction is executed

A commit executes the transactions of a block that are not stored, and stores them.  So only the first
executed block that lists a hash executes it, and that block executes it as often as it lists it.
-/

namespace SvpChain.Consensus

open Core TxPool

variable {params : Params} {inbox : Inbox} {node node' : Node} {hash : Bytes}

/-! ## Executions -/

/-- The blocks executed, each with the transactions handed to `Execute`, the earliest first. -/
def executions (trace : List Event) : List (Block × List Transaction) :=
  trace.reverse.filterMap fun event =>
    match event with
    | .execute blk txs => some (blk, txs)
    | _ => none

/-- The hashes handed to `Execute`. -/
def executedTxs (trace : List Event) : List Bytes :=
  (executions trace).flatMap fun execution => execution.2.map Transaction.hash

/-- The first executed block that lists the hash. -/
def firstBlock (hash : Bytes) (trace : List Event) : Option Block :=
  ((executions trace).map Prod.fst).find? fun blk => hash ∈ blk.transactions

theorem executions_cons (event : Event) (trace : List Event) :
    executions (event :: trace) = executions trace ++ executions [event] := by
  simp [executions]

/-- What a step does to the executions and to the stored transactions. -/
theorem NodeStep.executions (step : NodeStep params inbox node node') :
    (executions node'.trace = executions node.trace ∧ node'.storage.txs = node.storage.txs) ∨
      ∃ blk txs, Consensus.executions node'.trace = Consensus.executions node.trace ++ [(blk, txs)] ∧
        node'.storage.txs = txs.map Transaction.hash ++ node.storage.txs ∧
          txs.map Transaction.hash = blk.transactions.filter fun hash => !node.storage.hasTx hash := by
  cases step with
  | chain step =>
      cases step with
      | load loads =>
          obtain ⟨_, rfl, -⟩ := loads
          exact Or.inl ⟨rfl, rfl⟩
      | @execute blk txs _ _ _ _ txs_eq _ =>
          exact Or.inr ⟨blk, txs, executions_cons _ _, rfl, txs_eq⟩
      | receive | answer | commit => exact Or.inl ⟨(executions_cons _ _).trans (List.append_nil _), rfl⟩
      | _ => exact Or.inl ⟨rfl, rfl⟩
  | approve | adopt | certify | build | propose | broadcast | sendVote | beginViewChange | countQC
  | newView | validate | receiveQC | sendQC | enterNextView => exact Or.inl ⟨(executions_cons _ _).trans (List.append_nil _), rfl⟩
  | _ => exact Or.inl ⟨rfl, rfl⟩

/-! ## The count of a hash -/

/-- A hash that was not stored at the start is stored once a block that lists it is executed, and only
that block executes it. -/
structure ExecutedBy (hash : Bytes) (node : Node) : Prop where
  stored_iff : node.storage.hasTx hash = (firstBlock hash node.trace).isSome
  count_eq : (executedTxs node.trace).count hash =
    (firstBlock hash node.trace).elim 0 fun blk => blk.transactions.count hash

theorem ExecutedBy.step (inv : ExecutedBy hash node) (step : NodeStep params inbox node node') :
    ExecutedBy hash node' := by
  rcases step.executions with ⟨same, same_txs⟩ | ⟨blk, txs, appended, stored, txs_eq⟩
  · have same_first : firstBlock hash node'.trace = firstBlock hash node.trace := by
      rw [firstBlock, same, firstBlock]
    constructor
    · rw [same_first, ← inv.stored_iff, ChainStore.hasTx, same_txs, ChainStore.hasTx]
    · rw [same_first, ← inv.count_eq, executedTxs, same, executedTxs]
  · have first_eq : firstBlock hash node'.trace = (firstBlock hash node.trace).or
        (if hash ∈ blk.transactions then some blk else none) := by
      rw [firstBlock, appended, List.map_append, List.find?_append, firstBlock]
      by_cases listed : hash ∈ blk.transactions <;> simp [listed]
    have executed_eq : executedTxs node'.trace =
        executedTxs node.trace ++ blk.transactions.filter fun hash => !node.storage.hasTx hash := by
      rw [executedTxs, appended, List.flatMap_append, executedTxs, List.flatMap_singleton, txs_eq]
    have stored_eq : node'.storage.hasTx hash = (node.storage.hasTx hash ||
        decide (hash ∈ blk.transactions)) := by
      rw [ChainStore.hasTx, stored, txs_eq]
      by_cases before : hash ∈ node.storage.txs <;> simp [ChainStore.hasTx, before]
    cases first : firstBlock hash node.trace with
    | some earlier =>
        have was_stored : node.storage.hasTx hash = true := by rw [inv.stored_iff, first]; rfl
        constructor
        · rw [stored_eq, first_eq, first, was_stored]
          rfl
        · have not_again : hash ∉ blk.transactions.filter fun hash => !node.storage.hasTx hash := by
            simp [was_stored]
          rw [first_eq, executed_eq, List.count_append, inv.count_eq, first,
            List.count_eq_zero_of_not_mem not_again]
          rfl
    | none =>
        have not_stored : node.storage.hasTx hash = false := by rw [inv.stored_iff, first]; rfl
        constructor
        · rw [stored_eq, first_eq, first, not_stored]
          by_cases listed : hash ∈ blk.transactions <;> simp [listed]
        · rw [first_eq, executed_eq, List.count_append, inv.count_eq, first,
            List.count_filter (by simp [not_stored])]
          by_cases listed : hash ∈ blk.transactions
          · simp [listed]
          · simp [listed, List.count_eq_zero_of_not_mem]

theorem ExecutedBy.steps (inv : ExecutedBy hash node) (steps : Steps params inbox node node') :
    ExecutedBy hash node' := by
  induction steps with
  | refl => exact inv
  | tail _ step ih => exact ih.step step

/-- A hash that is not stored at the start of a run is executed at most once exactly when the first
executed block that lists it does not repeat it. -/
theorem executed_once_iff {start : Node} (run : NodeRun params anyEnv start node)
    (started : start.trace = []) (not_stored : start.storage.hasTx hash = false) :
    (executedTxs node.trace).count hash ≤ 1 ↔
      ∀ blk, firstBlock hash node.trace = some blk → blk.transactions.count hash ≤ 1 := by
  have initial : ExecutedBy hash start := by
    constructor <;> simp [started, not_stored, firstBlock, executedTxs, executions]
  rw [(initial.steps run.open_steps).count_eq]
  cases firstBlock hash node.trace with
  | none => simp
  | some blk => simp

/-! ## A block that repeats a hash -/

/-- Two validators with equal stake. -/
def twoValidators : RoleStore :=
  RoleStore.ofGenesis [(transparentSigner 1).pubKey, (transparentSigner 2).pubKey] [1, 1] 4

/-- The two-phase protocol with `transparentCrypto`. -/
def transparentParams : Params := ⟨transparentCrypto, ⟨true, false, true, 500, 0⟩⟩

/-- Surroundings in which no peer answers. -/
def silentEnv : Env where
  requestBlock _ _ _ := none
  requestBlockByHeight _ _ _ := none
  requestTxList _ _ _ := none
  execute roleStore _ _ _ := ⟨[], roleStore⟩
  verifyTx _ := true
  txOrder := id
  txOrder_perm _ := .refl _
  voteOrder := id
  voteOrder_perm _ := .refl _
  blockOrder := id
  blockOrder_perm _ := .refl _
  now := 0
  rand := 0

/-- The certificate that the first of two validators builds from the votes of both. -/
def bothVotes (blk : Block) : QuorumCert :=
  QuorumCert.build (transparentSigner 1)
    [blk.vote (transparentSigner 1) 1, blk.vote (transparentSigner 2) 1]

/-- A signed block with a certificate for its parent. -/
def childBlock (byte : UInt8) (parent : Block) (view : UInt32) (height : UInt64) (timestamp : Int64)
    (transactions : List Bytes) : Block :=
  let qc := bothVotes parent
  Block.sign transparentCrypto (transparentSigner byte)
    { hash := [], view := view, height := height, parentHash := parent.hash, execHeight := 0
      merkleRoot := [], timestamp := timestamp, transactions := transactions
      quorumCert := some qc.data, signature := none } (some qc)

/-- The second of two validators after the genesis block. -/
def secondValidator : Node :=
  setupNode transparentParams (transparentSigner 2) twoValidators
    (genesisStore (transparentBlock []) (bothVotes (transparentBlock [])) [] []) newTxStore
    (transparentBlock []) (transparentBlock []) (bothVotes (transparentBlock []))

theorem secondValidator_started : Started transparentParams (transparentSigner 2) twoValidators (transparentBlock [])
      secondValidator :=
  ⟨bothVotes (transparentBlock []), [], [], newTxStore,
    ⟨rfl, rfl, rfl, by decide, rfl, rfl, rfl, by decide⟩, rfl⟩

/-- A block that lists one transaction twice. -/
def repeatingBlock : Block :=
  childBlock 1 (transparentBlock []) 0 1 0
    [(transparentTx [1] [2]).hash, (transparentTx [1] [2]).hash]

/-- The block arrives with its transaction, and two descendants with their certificates. -/
def repeatingInputs : List Input :=
  let next := childBlock 1 repeatingBlock 0 2 0 []
  [.receiveTx (transparentTx [1] [2]), .proposal repeatingBlock, .proposal next,
    .proposal (childBlock 1 next 0 3 0 [])]

/-- The second validator at the end. -/
def repeatedNode : Node := secondValidator.receiveAll transparentParams silentEnv repeatingInputs

theorem repeatedNode_run : NodeRun transparentParams anyEnv secondValidator repeatedNode :=
  NodeRun.receiveAll .start trivial repeatingInputs (by decide +kernel)

/-- A validator votes for the block, commits it, and executes its transaction twice. -/
theorem repeated_hash_executed_twice :
    Started transparentParams (transparentSigner 2) twoValidators (transparentBlock [])
      secondValidator ∧
    NodeRun transparentParams anyEnv secondValidator repeatedNode ∧
    secondValidator.storage.hasTx (transparentTx [1] [2]).hash = false ∧
    .sendVote repeatingBlock (repeatingBlock.vote (transparentSigner 2) 1) ∈ repeatedNode.trace ∧
    .commit repeatingBlock ∈ repeatedNode.trace ∧
    (executedTxs repeatedNode.trace).count (transparentTx [1] [2]).hash = 2 :=
  ⟨secondValidator_started, repeatedNode_run, by decide +kernel⟩

/-- The criterion applied to that run. -/
theorem executed_once_iff_repeatedNode :
    (executedTxs repeatedNode.trace).count (transparentTx [1] [2]).hash ≤ 1 ↔
      ∀ blk, firstBlock (transparentTx [1] [2]).hash repeatedNode.trace = some blk →
        blk.transactions.count (transparentTx [1] [2]).hash ≤ 1 :=
  executed_once_iff repeatedNode_run rfl (by decide)

end SvpChain.Consensus
