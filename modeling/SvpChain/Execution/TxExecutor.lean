import SvpChain.Core.Message
import SvpChain.Execution.Tracker
import SvpChain.Lib.Speculation

/-!
# Execution of one transaction

`txExecutor` and `codeRegistry` of package `execution`.  Chaincodes are arbitrary deterministic
programs that read and write through their call context, so a call is given by its next action after
the answers it has received.  One step of the executor is one such action; reads go through the
trackers down to the root tracker of the block, which other transactions may change in between.
-/

namespace SvpChain.Execution

open Core

/-! ## Chaincodes -/

/-- `CallContextTx`, without its tracker. -/
structure CallContext where
  sender : Bytes
  transactionHash : Bytes
  blockHash : Bytes
  blockHeight : UInt64
  input : Bytes

/-- What a chaincode call does next. -/
inductive Action where
  | getState (key : Bytes)
  | setState (key : Bytes) (value : Option Bytes)
  | finish (error : Option String)
  | panic (reason : String)

/-- A call: the next action after the answers so far, one for each action before it. -/
abbrev ChaincodeCall := List (Option Bytes) → Action

/-- `Chaincode`. -/
structure Chaincode where
  init : CallContext → ChaincodeCall
  invoke : CallContext → ChaincodeCall

/-- `CodeInfo`. -/
structure CodeInfo where
  driverType : UInt8
  codeID : Bytes

/-- `DeploymentInput`; its install data is read by `Install` only. -/
structure DeploymentInput where
  codeInfo : CodeInfo
  initInput : Bytes

/-- `codeRegistry`, with the JSON codecs that it and the executor use. -/
structure CodeRegistry where
  /-- `GetInstance` of the driver of a driver type. -/
  driver : UInt8 → Option (Bytes → Except String Chaincode)
  unmarshalInput : Bytes → Except String DeploymentInput
  unmarshalCodeInfo : Option Bytes → Except String CodeInfo
  marshalCodeInfo : CodeInfo → Option Bytes

/-- `codeRegistryAddr`. -/
def codeRegistryAddr : Bytes := List.replicate 32 0

namespace CodeRegistry

/-- `codeRegistry.getDriver`. -/
def getDriver (reg : CodeRegistry) (driverType : UInt8) :
    Except String (Bytes → Except String Chaincode) :=
  match reg.driver driverType with
  | some driver => .ok driver
  | none => .error "unknown chaincode driver type"

/-- `codeRegistry.setCodeInfo`, whose error its caller ignores. -/
def setCodeInfo (reg : CodeRegistry) (codeAddr : Bytes) (info : CodeInfo) (trk : StateTracker) :
    StateTracker :=
  match reg.marshalCodeInfo info with
  | some text => trk.setState codeAddr (some text)
  | none => trk

/-- `codeRegistry.deploy`. -/
def deploy (reg : CodeRegistry) (codeAddr : Bytes) (input : DeploymentInput) (trk : StateTracker) :
    Except String (Chaincode × StateTracker) := do
  let driver ← reg.getDriver input.codeInfo.driverType
  let trk := reg.setCodeInfo codeAddr input.codeInfo trk
  return (← driver input.codeInfo.codeID, trk)

/-- `codeRegistry.getInstance`, after the code info was read. -/
def getInstance (reg : CodeRegistry) (text : Option Bytes) : Except String Chaincode := do
  let info ← reg.unmarshalCodeInfo text
  let driver ← reg.getDriver info.driverType
  driver info.codeID

end CodeRegistry

/-! ## The executor -/

/-- What all transactions of a block share. -/
structure BlockEnv where
  codeRegistry : CodeRegistry
  /-- `GetState` of the state store. -/
  state : Bytes → Option Bytes
  blk : Block

/-- How far an execution is. -/
inductive Stage where
  | start
  /-- In `Init` or `Invoke`, with the registry tracker of a deployment. -/
  | running (regTrk : Option StateTracker) (trk : StateTracker) (call : ChaincodeCall)
      (answers : List (Option Bytes))
  /-- `executeChaincode` returned; the error text is empty for nil. -/
  | finished (error : String)

/-- `txExecutor`, in execution. -/
structure TxExecutor where
  txTrk : StateTracker
  stage : Stage

/-- An executor with a tracker spawned from the root tracker. -/
def newTxExecutor : TxExecutor := ⟨spawn [], .start⟩

/-- `GetState` of the root tracker. -/
def rootGetState (env : BlockEnv) (root : StateTracker) : StateGetter Unit :=
  fun key _ => ((StateTracker.getState (fun key below => (env.state key, below)) key (root, ())).1, ())

/-- `GetState` of a tracker spawned from the tracker of a transaction. -/
def childGetState (env : BlockEnv) (root trk txTrk : StateTracker) (key : Bytes) :
    Option Bytes × StateTracker × StateTracker :=
  let (value, (trk, (txTrk, _))) :=
    StateTracker.getState (StateTracker.getState (rootGetState env root)) key (trk, (txTrk, ()))
  (value, trk, txTrk)

/-- `txExecutor.makeCallContext`. -/
def makeCallContext (env : BlockEnv) (tx : Transaction) (input : Bytes) : CallContext :=
  ⟨tx.sender.key, tx.hash, env.blk.hash, env.blk.height, input⟩

namespace TxExecutor

/-- `executeDeployment` up to the call of `Init`. -/
def startDeployment (env : BlockEnv) (tx : Transaction) (exe : TxExecutor) : TxExecutor :=
  match env.codeRegistry.unmarshalInput tx.input with
  | .error reason => ⟨exe.txTrk, .finished reason⟩
  | .ok input =>
      match env.codeRegistry.deploy tx.hash input (spawn codeRegistryAddr) with
      | .error reason => ⟨exe.txTrk, .finished reason⟩
      | .ok (cc, regTrk) =>
          ⟨exe.txTrk, .running (some regTrk) (spawn tx.hash)
            (cc.init (makeCallContext env tx input.initInput)) []⟩

/-- `executeInvoke` up to the call of `Invoke`. -/
def startInvoke (env : BlockEnv) (tx : Transaction) (root : StateTracker) (exe : TxExecutor) :
    TxExecutor :=
  let (text, _, txTrk) := childGetState env root (spawn codeRegistryAddr) exe.txTrk tx.codeAddr
  match env.codeRegistry.getInstance text with
  | .error reason => ⟨txTrk, .finished reason⟩
  | .ok cc =>
      ⟨txTrk, .running none (spawn tx.codeAddr) (cc.invoke (makeCallContext env tx tx.input)) []⟩

/-- One action of the chaincode. A panic is recovered in `executeChaincode`. -/
def act (env : BlockEnv) (root : StateTracker) (exe : TxExecutor) (regTrk : Option StateTracker)
    (trk : StateTracker) (call : ChaincodeCall) (answers : List (Option Bytes)) :
    Action → TxExecutor
  | .getState key =>
      let (value, trk, txTrk) := childGetState env root trk exe.txTrk key
      ⟨txTrk, .running regTrk trk call (answers ++ [value])⟩
  | .setState key value =>
      ⟨exe.txTrk, .running regTrk (trk.setState key value) call (answers ++ [none])⟩
  | .finish (some reason) => ⟨exe.txTrk, .finished reason⟩
  | .finish none =>
      let txTrk := match regTrk with
        | some regTrk => exe.txTrk.merge regTrk
        | none => exe.txTrk
      ⟨txTrk.merge trk, .finished ""⟩
  | .panic reason => ⟨exe.txTrk, .finished ("recovered from panic: " ++ reason)⟩

/-- One step of `executeChaincode`. -/
def step (env : BlockEnv) (tx : Transaction) (root : StateTracker) (exe : TxExecutor) : TxExecutor :=
  match exe.stage with
  | .start =>
      if tx.codeAddr.length = 0 then startDeployment env tx exe else startInvoke env tx root exe
  | .running regTrk trk call answers => act env root exe regTrk trk call answers (call answers)
  | .finished _ => exe

/-- `execute` once `executeChaincode` returned. -/
def txCommit (env : BlockEnv) (tx : Transaction) (error : String) : TxCommit :=
  ⟨tx.hash, env.blk.hash, env.blk.height, error⟩

end TxExecutor

/-! ## Reads through the trackers -/

/-- A tracker over the state store itself: it adds nothing to keys and records no reads. -/
structure RootTracker where
  trk : StateTracker
  keyPrefix_eq : trk.keyPrefix = []
  trackDep_eq : trk.trackDep = false

namespace RootTracker

/-- `NewStateTracker(bexe.state, nil)`. -/
def new : RootTracker := ⟨newStateTracker [], rfl, rfl⟩

/-- Merge the changes of a transaction. -/
def merge (root : RootTracker) (child : StateTracker) : RootTracker where
  trk := root.trk.merge child
  keyPrefix_eq := (StateTracker.merge_spec root.trk child).1.trans root.keyPrefix_eq
  trackDep_eq := (StateTracker.merge_spec root.trk child).2.1.trans root.trackDep_eq

/-- The keys changed so far. -/
def changed (root : RootTracker) : Set Bytes := {key | (root.trk.changes.lookup key).isSome}

theorem changed_merge (root : RootTracker) (child : StateTracker) : root.changed ⊆ (root.merge child).changed :=
  (StateTracker.merge_spec root.trk child).2.2.2

theorem getState_of_notMem (env : BlockEnv) {root : RootTracker} {key : Bytes}
    (key_notMem : key ∉ root.changed) : rootGetState env root.trk key () = (env.state key, ()) := by
  have full_eq : root.trk.keyPrefix ++ key = key := by rw [root.keyPrefix_eq, List.nil_append]
  have unchanged : root.trk.changes.lookup (root.trk.keyPrefix ++ key) = none := by
    rw [full_eq]
    simpa [changed] using key_notMem
  rw [rootGetState, StateTracker.getState_of_missing _ unchanged, full_eq]

end RootTracker

/-- The tracker of a transaction records reads under their full keys. -/
def TxExecutor.Recording (exe : TxExecutor) : Prop :=
  exe.txTrk.keyPrefix = [] ∧ exe.txTrk.trackDep = true

/-- A read by a chaincode either stays in the trackers of the transaction, or reaches the root under
a key that the transaction's tracker records. -/
theorem childGetState_cases (env : BlockEnv) (trk txTrk : StateTracker) (key : Bytes)
    (recording : txTrk.keyPrefix = [] ∧ txTrk.trackDep = true) :
    (∃ value trk', ∀ root, childGetState env root trk txTrk key = (value, trk', txTrk)) ∨
    ∃ full trk', (∃ value, ∀ root, childGetState env root trk txTrk key =
        (value, trk', { txTrk with dependencies := full :: txTrk.dependencies })) ∨
      ∀ root, childGetState env root trk txTrk key = ((rootGetState env root full ()).1, trk',
        { txTrk with dependencies := full :: txTrk.dependencies }) := by
  obtain ⟨keyPrefix_eq, trackDep_eq⟩ := recording
  have full_eq : txTrk.keyPrefix ++ (trk.keyPrefix ++ key) = trk.keyPrefix ++ key := by
    rw [keyPrefix_eq, List.nil_append]
  have recorded : txTrk.setDependency (txTrk.keyPrefix ++ (trk.keyPrefix ++ key)) =
      { txTrk with dependencies := (trk.keyPrefix ++ key) :: txTrk.dependencies } := by
    rw [StateTracker.setDependency, if_pos trackDep_eq, full_eq]
  cases own : trk.changes.lookup (trk.keyPrefix ++ key) with
  | some value =>
      refine Or.inl ⟨value, trk.setDependency (trk.keyPrefix ++ key), fun root => ?_⟩
      rw [childGetState, StateTracker.getState_of_lookup _ own]
  | none =>
      refine Or.inr ⟨trk.keyPrefix ++ key, trk.setDependency (trk.keyPrefix ++ key), ?_⟩
      cases below : txTrk.changes.lookup (trk.keyPrefix ++ key) with
      | some value =>
          rw [← full_eq] at below
          refine Or.inl ⟨value, fun root => ?_⟩
          rw [childGetState, StateTracker.getState_of_missing _ own,
            StateTracker.getState_of_lookup _ below, recorded]
      | none =>
          rw [← full_eq] at below
          refine Or.inr fun root => ?_
          rw [childGetState, StateTracker.getState_of_missing _ own,
            StateTracker.getState_of_missing _ below, recorded, full_eq]

theorem childGetState_txTrk (env : BlockEnv) (root trk : StateTracker) {txTrk : StateTracker}
    (key : Bytes) (recording : txTrk.keyPrefix = [] ∧ txTrk.trackDep = true) :
    ((childGetState env root trk txTrk key).2.2.keyPrefix = [] ∧
      (childGetState env root trk txTrk key).2.2.trackDep = true) ∧
      txTrk.dependencies ⊆ (childGetState env root trk txTrk key).2.2.dependencies := by
  rcases childGetState_cases env trk txTrk key recording with
    ⟨_, _, stays⟩ | ⟨full, _, ⟨_, stays⟩ | reaches⟩
  · rw [stays]
    exact ⟨recording, List.Subset.refl _⟩
  · rw [stays]
    exact ⟨recording, List.subset_cons_self _ _⟩
  · rw [reaches]
    exact ⟨recording, List.subset_cons_self _ _⟩

theorem childGetState_eq (env : BlockEnv) {root root' : RootTracker}
    (grows : root.changed ⊆ root'.changed) (trk : StateTracker) {txTrk : StateTracker} (key : Bytes)
    (recording : txTrk.keyPrefix = [] ∧ txTrk.trackDep = true)
    (clean : ∀ dep ∈ (childGetState env root.trk trk txTrk key).2.2.dependencies, dep ∉ root'.changed) :
    childGetState env root'.trk trk txTrk key = childGetState env root.trk trk txTrk key := by
  rcases childGetState_cases env trk txTrk key recording with
    ⟨_, _, stays⟩ | ⟨full, _, ⟨_, stays⟩ | reaches⟩
  · rw [stays, stays]
  · rw [stays, stays]
  · have unchanged : full ∉ root'.changed := by
      apply clean
      rw [reaches]
      exact List.mem_cons_self
    rw [reaches, reaches, RootTracker.getState_of_notMem env unchanged,
      RootTracker.getState_of_notMem env fun changed => unchanged (grows changed)]

/-! ## Executions as speculations -/

namespace TxExecutor

theorem merge_recording {txTrk : StateTracker}
    (recording : txTrk.keyPrefix = [] ∧ txTrk.trackDep = true) (child : StateTracker) :
    ((txTrk.merge child).keyPrefix = [] ∧ (txTrk.merge child).trackDep = true) ∧
      (txTrk.merge child).dependencies = txTrk.dependencies := by
  obtain ⟨keyPrefix_eq, trackDep_eq, dependencies_eq, -⟩ := StateTracker.merge_spec txTrk child
  rw [keyPrefix_eq, trackDep_eq]
  exact ⟨recording, dependencies_eq⟩

theorem step_recording (env : BlockEnv) (tx : Transaction) (root : StateTracker) {exe : TxExecutor}
    (recording : exe.Recording) : (step env tx root exe).Recording ∧
      exe.txTrk.dependencies ⊆ (step env tx root exe).txTrk.dependencies := by
  have unchanged : exe.Recording ∧ exe.txTrk.dependencies ⊆ exe.txTrk.dependencies :=
    ⟨recording, List.Subset.refl _⟩
  rcases exe with ⟨txTrk, stage⟩
  cases stage with
  | start =>
      simp only [step]
      split
      · unfold startDeployment
        split
        · exact unchanged
        · split <;> exact unchanged
      · have read := childGetState_txTrk env root (spawn codeRegistryAddr) tx.codeAddr recording
        simp only [startInvoke]
        split <;> exact read
  | running regTrk trk call answers =>
      simp only [step]
      cases call answers with
      | getState key => exact childGetState_txTrk env root trk key recording
      | setState key value => exact unchanged
      | finish error =>
          cases error with
          | some reason => exact unchanged
          | none =>
              cases regTrk with
              | none =>
                  obtain ⟨kept, dependencies_eq⟩ := merge_recording recording trk
                  exact ⟨kept, dependencies_eq ▸ List.Subset.refl _⟩
              | some regTrk =>
                  obtain ⟨first, first_eq⟩ := merge_recording recording regTrk
                  obtain ⟨kept, dependencies_eq⟩ := merge_recording first trk
                  exact ⟨kept, (dependencies_eq.trans first_eq) ▸ List.Subset.refl _⟩
      | panic reason => exact unchanged
  | finished error => exact unchanged

theorem step_eq (env : BlockEnv) (tx : Transaction) {root root' : RootTracker} {exe : TxExecutor}
    (recording : exe.Recording) (grows : root.changed ⊆ root'.changed)
    (clean : ∀ dep ∈ (step env tx root.trk exe).txTrk.dependencies, dep ∉ root'.changed) :
    step env tx root'.trk exe = step env tx root.trk exe := by
  rcases exe with ⟨txTrk, stage⟩
  cases stage with
  | start =>
      simp only [step] at clean ⊢
      split
      · rfl
      · next invoke =>
          rw [if_neg invoke] at clean
          simp only [startInvoke] at clean ⊢
          rw [childGetState_eq env grows _ _ recording]
          split at clean <;> exact clean
  | running regTrk trk call answers =>
      simp only [step] at clean ⊢
      cases action : call answers with
      | getState key =>
          simp only [act, action] at clean ⊢
          rw [childGetState_eq env grows _ _ recording clean]
      | setState key value => rfl
      | finish error => cases error <;> rfl
      | panic reason => rfl
  | finished error => rfl

/-- Executions of a transaction over the root trackers of its block. -/
def speculation (env : BlockEnv) (tx : Transaction) : Speculation RootTracker TxExecutor Bytes where
  step root := step env tx root.trk
  Valid := Recording
  deps exe := {key | key ∈ exe.txTrk.dependencies}
  changed := RootTracker.changed
  valid_step recording := (step_recording env tx _ recording).1
  deps_mono recording := fun _ dep_mem => (step_recording env tx _ recording).2 dep_mem
  step_eq recording := step_eq env tx recording

theorem recording_new : newTxExecutor.Recording := ⟨rfl, rfl⟩

/-- `HasDependencyChanges` is the test for a clean execution. -/
theorem hasDependencyChanges_eq_false_iff (env : BlockEnv) (tx : Transaction) (root : RootTracker)
    (exe : TxExecutor) : root.trk.hasDependencyChanges exe.txTrk = false ↔ (speculation env tx).Clean root exe := by
  rw [StateTracker.hasDependencyChanges, List.any_eq_false]
  refine forall₂_congr fun key _ => ?_
  rw [show root.trk.keyPrefix ++ key = key by rw [root.keyPrefix_eq, List.nil_append]]
  rfl

end TxExecutor

end SvpChain.Execution
