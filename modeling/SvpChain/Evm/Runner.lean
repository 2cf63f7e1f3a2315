import SvpChain.Evm.Call
import SvpChain.Execution.SRole

/-!
# EVM transactions

`Runner` of package `execution/evm`, as `txExecutor` and `blkExecutor` of package `execution` run it.  The errors of
`Create` and `Call` are overwritten by the one of `Commit` before anyone reads them.  The proxy serves one transaction
after another; between them other transactions change the trackers of their blocks and the state store.
-/

namespace SvpChain.Evm

open Core Execution Program

/-- An `Init` of a contract. -/
structure Deployment where
  sender : Bytes
  /-- How the parsing of the input, the compilation and the packing of the arguments end. -/
  packed : Except (Halt String) Unit
  /-- Whether the gas pays for the storage of the code. -/
  paid : Bool
  /-- What the constructor does. -/
  script : Script

/-- An `Invoke` of a contract. -/
structure Invocation where
  sender : Bytes
  /-- The address of the contract in the state. -/
  codeAddr : Bytes
  /-- How the parsing of the input and the packing of the arguments end. -/
  packed : Except (Halt String) Unit
  /-- What a precompiled contract at the address returns. -/
  precompiled : Outcome
  /-- What the code of the contract does. -/
  script : Script

/-- `keyAddr`. -/
def keyAddr : Bytes := "address".toUTF8.toList

/-- What the tracker of the transaction shows. -/
def Native.currentView (n : Native) (key : Bytes) : Option Bytes := n.proxy.txTrk.bind fun tx => n.txView tx key

section

variable (params : EvmParams)

/-- `Runner.setConfig`, with the origin of the call. -/
def setConfig (sender : Bytes) : EvmCall Address := do
  let addr20 ← onNative (queryAddr params.codeAddr sender)
  pure (bytesToAddress addr20)

/-- The result of a part that does not touch the trackers. -/
def ofResult (result : Except (Halt String) Unit) : EvmCall Unit := fun m => (result, m)

/-- `Runner.Init`. The states that it sets in its call context are merged by the executor. -/
def Deployment.init (deployment : Deployment) : EvmCall Unit := do
  let origin ← setConfig params deployment.sender
  ofResult deployment.packed
  let m ← get
  let address := params.createAddress origin (m.db.getNonce origin)
  let created ← create params 0 origin address 0 deployment.paid (interpret params 1 deployment.script)
  -- the error of the creation is not looked at
  onDB StateDB.commit
  onNative (storeAddr params.codeAddr created.2.1)
  onNative mergeTrks

/-- `Runner.Invoke` up to the call, with the origin and the address of the contract. -/
def Invocation.prepare (invocation : Invocation) : EvmCall (Address × Address) := do
  let origin ← setConfig params invocation.sender
  ofResult invocation.packed
  let m ← get
  pure (origin, bytesToAddress ((m.native.currentView (invocation.codeAddr ++ keyAddr)).getD []))

/-- The call of the contract in `Runner.Invoke`. -/
def Invocation.callContract (invocation : Invocation) (origin address : Address) : EvmCall Outcome :=
  call params 0 origin address 0 invocation.precompiled (interpret params 1 invocation.script)

/-- `Runner.Invoke`. -/
def Invocation.invoke (invocation : Invocation) : EvmCall Unit := do
  let prepared ← invocation.prepare params
  let _ ← invocation.callContract params prepared.1 prepared.2
  -- the error of the call is not looked at
  onDB StateDB.commit
  onNative mergeTrks

/-- A transaction that runs a contract of the EVM. -/
inductive EvmTx where
  | init (deployment : Deployment)
  | invoke (invocation : Invocation)

/-- `Init` or `Invoke`. -/
def EvmTx.run : EvmTx → EvmCall Unit
  | .init deployment => deployment.init params
  | .invoke invocation => invocation.invoke params

/-- A tracker is spawned from the root tracker of a block and given to `SetTxTrk`. -/
def Machine.begin (root : ℕ) (m : Machine) : Machine := { m with native := m.native.setTxTrk root }

/-- `mergeTxStateChanges`, for the transaction that has just ended. -/
def Machine.mergeTx (root : ℕ) (m : Machine) : Machine :=
  match m.native.proxy.txTrk.bind fun tx => m.native.txTrks[tx]? with
  | none => m
  | some tracker =>
      { m with native := { m.native with roots := m.native.roots.modify root fun trk => trk.merge tracker.trk } }

/-- `executeTx` and `mergeTxStateChanges` for an invocation: the error of its `TxCommit`, which is empty for nil.
`none` is the end of the process. -/
def executeInvoke (root : ℕ) (invocation : Invocation) (m : Machine) : Option (String × Machine) :=
  match invocation.invoke params (m.begin root) with
  | (.ok _, m') => some ("", m'.mergeTx root)
  | (.error (.error reason), m') => some (reason, if reason = "" then m'.mergeTx root else m')
  | (.error (.fault reason), m') => (RoleEnv.recovered reason).map fun text => (text, m')

end

/-! ## Failed calls -/

/-- The call of the contract returns an error. -/
def CallFails (params : EvmParams) (root : ℕ) (invocation : Invocation) (m : Machine) : Prop :=
  ∃ origin address m1 outcome m2, invocation.prepare params (m.begin root) = (.ok (origin, address), m1) ∧
    invocation.callContract params origin address m1 = (.ok outcome, m2) ∧ outcome.err.isSome = true

/-- Neither the state changes of the blocks nor the store of the node have changed. -/
structure NoTrace (m m' : Machine) : Prop where
  roots_eq : m'.native.roots = m.native.roots
  backend_eq : m'.db.cacheDB.backend = m.db.cacheDB.backend

/-- A native invariant is kept by everything that the database does. -/
theorem KeepsProxy.keeps {params : EvmParams} {inv : Native → Prop} (proxy : KeepsProxy params.codeAddr inv) :
    Keeps params (fun m => inv m.native) fun _ => True := by
  have handled {α : Type} {program : NativeCall α} (maintains : Maintains inv program fun _ _ => True) :
      Maintains (fun m => inv m.native) (onNative program) fun _ _ => True :=
    .zoom maintains (fun _ holds => holds) fun _ _ _ holds => holds
  refine ⟨fun holds _ _ _ _ => holds, fun m holds => ⟨holds, trivial⟩, fun _ m holds => ?_,
    fun addr val => handled (proxy.subBalance addr val), fun addr val => handled (proxy.addBalance addr val),
    fun addr val => handled (proxy.setBalance addr val), fun addr => handled (proxy.getBalance addr)⟩
  refine (wp_bind _ _).mpr (wp_get.mpr ?_)
  split
  · exact holds
  · exact ⟨holds, trivial⟩

section

variable {params : EvmParams} {inv : Native → Prop} (proxy : KeepsProxy params.codeAddr inv)
include proxy

theorem KeepsProxy.setConfig (sender : Bytes) :
    Maintains (fun m => inv m.native) (Evm.setConfig params sender) fun _ _ => True :=
  .seq (.zoom (proxy.queryAddr sender) (fun _ holds => holds) fun _ _ _ holds => holds) fun _ =>
    .pure fun _ _ => trivial

omit proxy in
theorem maintains_ofResult (result : Except (Halt String) Unit) :
    Maintains (fun m => inv m.native) (ofResult result) fun _ _ => True := by
  intro m holds
  cases result with
  | ok => exact ⟨holds, trivial⟩
  | error => exact holds

theorem KeepsProxy.prepare (invocation : Invocation) :
    Maintains (fun m => inv m.native) (invocation.prepare params) fun _ _ => True :=
  .seq (proxy.setConfig _) fun _ => .seq (maintains_ofResult _) fun _ => .get_bind fun _ holds => ⟨holds, trivial⟩

theorem KeepsProxy.callContract (invocation : Invocation) (origin address : Address) :
    Maintains (fun m => inv m.native) (invocation.callContract params origin address) fun _ _ => True :=
  proxy.keeps.call (proxy.keeps.interpret 1 invocation.script) 0 origin address 0 invocation.precompiled

end

section

variable {params : EvmParams}

theorem mergeTrks_of_txTrk {n : Native} {tx : ℕ}
    (current : n.proxy.txTrk = some tx) : ∃ n', mergeTrks n = (.ok (), n') := by
  rcases merged : mergeTrks n with ⟨result, n'⟩
  rw [mergeTrks, bind_eq] at merged
  simp only [Program.get, current] at merged
  cases entries : n.proxy.tmpTrk.entries with
  | nil =>
      rw [entries] at merged
      cases merged
      exact ⟨_, rfl⟩
  | cons entry entries' =>
      rw [entries] at merged
      cases merged
      exact ⟨_, rfl⟩

theorem holds_of_returned {α : Type} {inv : Machine → Prop} {program : EvmCall α} {value : α} {m m' : Machine}
    (maintains : Maintains inv program fun _ _ => True) (holds : inv m) (returned : program m = (.ok value, m')) :
    inv m' := by
  have kept := maintains m holds
  unfold wp at kept
  rw [returned] at kept
  exact kept.1

/-- Where the call fails, the transaction succeeds. -/
theorem executeInvoke_of_callFails {root : ℕ} {invocation : Invocation} {m : Machine}
    (fails : CallFails params root invocation m) : ∃ m', executeInvoke params root invocation m = some ("", m') := by
  obtain ⟨origin, address, m1, outcome, m2, prepared, called, -⟩ := fails
  have proxy := keepsProxy_txTrk params.codeAddr (some m.native.txTrks.length)
  have current1 := holds_of_returned (proxy.prepare invocation) rfl prepared
  have current2 := holds_of_returned (proxy.callContract invocation origin address) current1 called
  obtain ⟨n', merged⟩ := mergeTrks_of_txTrk current2
  have succeeded : invocation.invoke params (m.begin root) = (.ok (), ⟨m2.db.commit, n'⟩) := by
    rw [Invocation.invoke, bind_eq, prepared]
    change (invocation.callContract params origin address >>= _) m1 = _
    rw [bind_eq, called]
    change onNative mergeTrks { m2 with db := m2.db.commit } = _
    simp only [onNative, zoom, merged]
  refine ⟨Machine.mergeTx root ⟨m2.db.commit, n'⟩, ?_⟩
  rw [executeInvoke, succeeded]

/-- For every invocation, the property that a failing call leaves an error and no trace holds only where the call
does not fail. -/
theorem failed_call_leaves_error_iff (root : ℕ) (invocation : Invocation) (m : Machine) :
    (CallFails params root invocation m →
      ∃ error m', executeInvoke params root invocation m = some (error, m') ∧ error ≠ "" ∧ NoTrace m m') ↔
    ¬ CallFails params root invocation m := by
  constructor
  · intro property fails
    obtain ⟨m', succeeded⟩ := executeInvoke_of_callFails fails
    obtain ⟨error, m'', executed, failed, -⟩ := property fails
    obtain ⟨rfl, -⟩ := Prod.mk.inj (Option.some.inj (succeeded.symm.trans executed))
    exact failed rfl
  · intro passes fails
    exact absurd fails passes

end

/-- A contract with some code, and where the state has its address. -/
def contractDB (contract : Address) : StateDB where
  cacheDB :=
    { memdb := ∅
      backend := (AList.insert (DataEntry.ethCode.byte :: (bytesToHash [1]).1) [0]
        (AList.insert (DataEntry.ethAccount.byte :: contract.1) (EthAccount.serialization ⟨1, bytesToHash [1]⟩) ∅)) }
  suicided := []
  logs := []
  refund := 0
  snapshots := []

/-- A new proxy over a state with a contract at the code address `[3]`. -/
def contractMachine (contract : Address) (balances : List (UInt8 × UInt64)) : Machine where
  db := contractDB contract
  native :=
    { state := fun key => if key = [3] ++ keyAddr then some contract.1 else plainState balances key
      roots := [newStateTracker []]
      txTrks := []
      proxy := newNativeProxy
      trace := [] }

/-- An invocation of the contract by an account. -/
def invocationBy (sender : UInt8) (script : Script) : Invocation :=
  ⟨plainAddr32 sender, [3], .ok (), ⟨[], none⟩, script⟩

/-- The contract sends three of its five coins to another one and then reverts. -/
def sendAndRevert : Invocation :=
  invocationBy 7 (.call .call (plainAddress 9) (plainAddress 8) 3 ⟨[], none⟩ (.finish ⟨[], none⟩)
    (.finish (.failed (.execution "execution reverted"))))

theorem callFails_of_results {params : EvmParams} {root : ℕ} {invocation : Invocation} {m : Machine}
    {origin address : Address} {outcome : Outcome}
    (prepared : (invocation.prepare params (m.begin root)).1 = .ok (origin, address))
    (called : (invocation.callContract params origin address (final (invocation.prepare params) (m.begin root))).1 =
      .ok outcome) (failed : outcome.err.isSome = true) : CallFails params root invocation m :=
  ⟨origin, address, _, outcome, _, Prod.ext prepared rfl, Prod.ext called rfl, failed⟩

/-- The call fails, the commit of the transaction has no error, and the coins have moved in the state changes of the
block. -/
theorem reverted_call_moves_coins :
    let m := contractMachine (plainAddress 9) [(7, 1), (8, 0), (9, 5)]
    CallFails plainParams 0 sendAndRevert m ∧
    (executeInvoke plainParams 0 sendAndRevert m).map (fun result => (result.1,
      result.2.native.rootView 0 ([1] ++ plainAddr32 9), result.2.native.rootView 0 ([1] ++ plainAddr32 8))) =
        some ("", some (encodeBalance 2), some (encodeBalance 3)) := by
  intro m
  have prepared : (sendAndRevert.prepare plainParams (m.begin 0)).1 = .ok (plainAddress 7, plainAddress 9) := by
    decide +kernel
  have called : (sendAndRevert.callContract plainParams (plainAddress 7) (plainAddress 9)
      (final (sendAndRevert.prepare plainParams) (m.begin 0))).1 =
        .ok (.failed (.execution "execution reverted")) := by
    decide +kernel
  exact ⟨callFails_of_results prepared called rfl, by decide +kernel⟩

end SvpChain.Evm
