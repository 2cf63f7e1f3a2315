import SvpChain.Evm.StateDB

/-!
# Calls of contracts

`Call`, `CallCode`, `DelegateCall`, `StaticCall` and `create` of package `evm`, with `CanTransfer` and `Transfer` of
package `runtime`.  What the interpreter does is any finite script of operations on the database and of nested
calls; gas is not counted, so a script may end with any error at any point.  Each call takes a snapshot and reverts
to it where the script ends with an error.
-/

namespace SvpChain.Evm

open Core Execution Program

/-- The errors of package `evm`. -/
inductive VMError where
  | depth
  | insufficientBalance
  | contractAddressCollision
  | codeStoreOutOfGas
  | maxCodeSizeExceeded
  /-- An error of the interpreter or of a precompiled contract. -/
  | execution (reason : String)
  deriving DecidableEq

/-- What a call returns, without the gas left over. -/
structure Outcome where
  ret : Bytes
  err : Option VMError
  deriving DecidableEq

/-- A call that returns an error and nothing else. -/
def Outcome.failed (err : VMError) : Outcome := ⟨[], some err⟩

section

variable (params : EvmParams)

/-! ## Transfers -/

/-- `CanTransfer`. -/
def canTransfer (addr : Address) (amount : ℕ) : EvmCall Bool := do
  let balance ← StateDB.getBalance params addr
  pure (decide (amount ≤ balance))

/-- `MakeOngTransferLog`. -/
def makeOngTransferLog (sender recipient : Address) (value : ℕ) : EvmCall Unit :=
  when (0 < value) (onDB (StateDB.addLog
    ⟨bytesToAddress [],
      [params.keccak256 "Transfer(address,address,uint256)".toUTF8.toList, bytesToHash sender.1,
        bytesToHash recipient.1],
      (bytesToHash (Bytes.ofNat value)).1⟩))

/-- `Transfer`. -/
def transfer (sender recipient : Address) (amount : ℕ) : EvmCall Unit := do
  StateDB.subBalance params sender amount
  StateDB.addBalance params recipient amount
  makeOngTransferLog params sender recipient amount

/-! ## Calls -/

/-- `CallCreateDepth`. -/
def callCreateDepth : ℕ := 1024

/-- A call that has failed is reverted. -/
def revertOnError (id : ℕ) (outcome : Outcome) : EvmCall Outcome := do
  when (outcome.err.isSome = true) (StateDB.revertToSnapshot id)
  pure outcome

/-- A precompiled contract is called, which does not touch the database, or the interpreter is run. -/
def runCode (addr : Address) (precompiled : Outcome) (run : EvmCall Outcome) : EvmCall Outcome :=
  if params.isPrecompile addr then pure precompiled else run

/-- `EVM.Call`. -/
def call (depth : ℕ) (caller addr : Address) (value : ℕ) (precompiled : Outcome) (run : EvmCall Outcome) :
    EvmCall Outcome := do
  if callCreateDepth < depth then pure (.failed .depth)
  else
    let able ← (if value = 0 then pure true else canTransfer params caller value : EvmCall Bool)
    if able = false then pure (.failed .insufficientBalance)
    else
      let id ← StateDB.snapshot
      let exist ← StateDB.exist params addr
      if exist = false ∧ params.isPrecompile addr = false ∧ value = 0 then pure ⟨[], none⟩
      else
        transfer params caller addr value
        let m ← get
        let outcome ← runCode params addr precompiled (if m.db.getCode addr = [] then pure ⟨[], none⟩ else run)
        revertOnError id outcome

/-- `EVM.CallCode`. -/
def callCode (depth : ℕ) (caller addr : Address) (value : ℕ) (precompiled : Outcome) (run : EvmCall Outcome) :
    EvmCall Outcome := do
  if callCreateDepth < depth then pure (.failed .depth)
  else
    let able ← canTransfer params caller value
    if able = false then pure (.failed .insufficientBalance)
    else
      let id ← StateDB.snapshot
      let outcome ← runCode params addr precompiled run
      revertOnError id outcome

/-- `EVM.DelegateCall`. -/
def delegateCall (depth : ℕ) (addr : Address) (precompiled : Outcome) (run : EvmCall Outcome) : EvmCall Outcome := do
  if callCreateDepth < depth then pure (.failed .depth)
  else
    let id ← StateDB.snapshot
    let outcome ← runCode params addr precompiled run
    revertOnError id outcome

/-- `EVM.StaticCall`. -/
def staticCall (depth : ℕ) (addr : Address) (precompiled : Outcome) (run : EvmCall Outcome) : EvmCall Outcome := do
  if callCreateDepth < depth then pure (.failed .depth)
  else
    let id ← StateDB.snapshot
    StateDB.addBalance params addr 0
    let outcome ← runCode params addr precompiled run
    revertOnError id outcome

/-- `MaxCodeSize`. -/
def maxCodeSize : ℕ := 24576

/-- The code that the constructor returns is stored where it is not too long and its storage is paid for. -/
def storeCode (address : Address) (paid : Bool) (outcome : Outcome) : EvmCall Outcome := do
  if outcome.err.isSome = true then pure outcome
  else if maxCodeSize < outcome.ret.length then pure { outcome with err := some .maxCodeSizeExceeded }
  else if paid = false then pure { outcome with err := some .codeStoreOutOfGas }
  else
    onDB (StateDB.setCode params.keccak256 address outcome.ret)
    pure outcome

/-- There is a contract at an address. -/
def occupied (db : StateDB) (address : Address) : Bool :=
  decide (db.getNonce address ≠ 0) ||
    decide (db.getCodeHash address ≠ bytesToHash [] ∧ db.getCodeHash address ≠ params.keccak256 [])

/-- `EVM.create`, with the address that it returns. -/
def create (depth : ℕ) (caller address : Address) (value : ℕ) (paid : Bool) (run : EvmCall Outcome) :
    EvmCall (Outcome × Address) := do
  if callCreateDepth < depth then pure (.failed .depth, bytesToAddress [])
  else
    let able ← canTransfer params caller value
    if able = false then pure (.failed .insufficientBalance, bytesToAddress [])
    else
      onDB fun db => db.setNonce caller (db.getNonce caller + 1)
      let m ← get
      if occupied params m.db address = true then pure (.failed .contractAddressCollision, bytesToAddress [])
      else
        let id ← StateDB.snapshot
        onDB (StateDB.setNonce address 1)
        transfer params caller address value
        let outcome ← run
        let outcome ← storeCode params address paid outcome
        let outcome ← revertOnError id outcome
        pure (outcome, address)

/-! ## Scripts -/

/-- The calls without a creation. -/
inductive CallKind where
  | call
  | callCode
  | delegateCall
  | staticCall

/-- What a run of the interpreter does. -/
inductive Script where
  /-- The run ends. -/
  | finish (outcome : Outcome)
  /-- An instruction operates on the database. -/
  | op (op : Op) (rest : Script)
  /-- A nested call, with what a precompiled contract returns or the code of the contract does. -/
  | call (kind : CallKind) (caller addr : Address) (value : ℕ) (precompiled : Outcome) (inner rest : Script)
  /-- A nested creation, with what the constructor does. -/
  | create (caller address : Address) (value : ℕ) (paid : Bool) (inner rest : Script)

/-- `EVMInterpreter.Run`, which is at a depth. -/
def interpret : ℕ → Script → EvmCall Outcome
  | _, .finish outcome => pure outcome
  | depth, .op op rest => do
      op.perform params
      interpret depth rest
  | depth, .call kind caller addr value precompiled inner rest => do
      let run := interpret (depth + 1) inner
      let _ ← match kind with
        | .call => call params depth caller addr value precompiled run
        | .callCode => callCode params depth caller addr value precompiled run
        | .delegateCall => delegateCall params depth addr precompiled run
        | .staticCall => staticCall params depth addr precompiled run
      interpret depth rest
  | depth, .create caller address value paid inner rest => do
      let _ ← create params depth caller address value paid (interpret (depth + 1) inner)
      interpret depth rest

end

/-! ## What every script keeps -/

namespace Keeps

variable {params : EvmParams} {inv : Machine → Prop} {safe : ℕ → Prop} (keeps : Keeps params inv safe)
include keeps

theorem canTransfer (addr : Address) (amount : ℕ) : Maintains inv (Evm.canTransfer params addr amount) fun _ _ => True :=
  .seq (.orElse (keeps.getBalance _)) fun _ => .pure fun _ _ => trivial

theorem exist (addr : Address) : Maintains inv (StateDB.exist params addr) fun _ _ => True := by
  refine .get_bind fun m holds => ?_
  split
  · exact ⟨holds, trivial⟩
  · exact (Maintains.orElse (.seq (keeps.getBalance _) fun _ => .pure fun _ _ => trivial)) m holds

theorem transfer (sender recipient : Address) (amount : ℕ) :
    Maintains inv (Evm.transfer params sender recipient amount) fun _ _ => True :=
  .seq (keeps.perform (.subBalance sender amount)) fun _ => .seq (keeps.perform (.addBalance recipient amount)) fun _ =>
    .ite (keeps.perform (.addLog _)) (.pure fun _ _ => trivial)

theorem revertOnError {id : ℕ} (is_safe : safe id) (outcome : Outcome) :
    Maintains inv (Evm.revertOnError id outcome) fun _ _ => True :=
  .seq (.ite (keeps.revertToSnapshot is_safe) (.pure fun _ _ => trivial)) fun _ => .pure fun _ _ => trivial

omit keeps in
theorem runCode {run : EvmCall Outcome} (runs : Maintains inv run fun _ _ => True) (addr : Address)
    (precompiled : Outcome) : Maintains inv (Evm.runCode params addr precompiled run) fun _ _ => True :=
  .ite (.pure fun _ _ => trivial) runs

theorem storeCode (address : Address) (paid : Bool) (outcome : Outcome) :
    Maintains inv (Evm.storeCode params address paid outcome) fun _ _ => True :=
  .ite (.pure fun _ _ => trivial) (.ite (.pure fun _ _ => trivial) (.ite (.pure fun _ _ => trivial)
    (.seq (keeps.perform (.setCode address outcome.ret)) fun _ => .pure fun _ _ => trivial)))

theorem snapshotted {α : Type} {next : ℕ → EvmCall α} (rest : ∀ id, safe id → Maintains inv (next id) fun _ _ => True) :
    Maintains inv (StateDB.snapshot >>= next) fun _ _ => True :=
  .bind keeps.snapshot fun id m holds is_safe => rest id is_safe m holds

variable {run : EvmCall Outcome} (runs : Maintains inv run fun _ _ => True)
include runs

theorem call (depth : ℕ) (caller addr : Address) (value : ℕ) (precompiled : Outcome) :
    Maintains inv (Evm.call params depth caller addr value precompiled run) fun _ _ => True := by
  have able : Maintains inv (if value = 0 then pure true else Evm.canTransfer params caller value) fun _ _ => True :=
    .ite (.pure fun _ _ => trivial) (keeps.canTransfer caller value)
  refine .ite (.pure fun _ _ => trivial) (.seq able fun _ => .ite (.pure fun _ _ => trivial) ?_)
  refine keeps.snapshotted fun id is_safe => .seq (keeps.exist addr) fun _ => .ite (.pure fun _ _ => trivial) ?_
  refine .seq (keeps.transfer caller addr value) fun _ => .get_bind fun m holds => ?_
  exact (Maintains.seq (runCode (.ite (.pure fun _ _ => trivial) runs) addr precompiled) fun outcome =>
    keeps.revertOnError is_safe outcome) m holds

theorem callCode (depth : ℕ) (caller addr : Address) (value : ℕ) (precompiled : Outcome) :
    Maintains inv (Evm.callCode params depth caller addr value precompiled run) fun _ _ => True :=
  .ite (.pure fun _ _ => trivial) (.seq (keeps.canTransfer caller value) fun _ => .ite (.pure fun _ _ => trivial)
    (keeps.snapshotted fun _ is_safe => .seq (runCode runs addr precompiled) fun outcome =>
      keeps.revertOnError is_safe outcome))

theorem delegateCall (depth : ℕ) (addr : Address) (precompiled : Outcome) :
    Maintains inv (Evm.delegateCall params depth addr precompiled run) fun _ _ => True :=
  .ite (.pure fun _ _ => trivial) (keeps.snapshotted fun _ is_safe =>
    .seq (runCode runs addr precompiled) fun outcome => keeps.revertOnError is_safe outcome)

theorem staticCall (depth : ℕ) (addr : Address) (precompiled : Outcome) :
    Maintains inv (Evm.staticCall params depth addr precompiled run) fun _ _ => True :=
  .ite (.pure fun _ _ => trivial) (keeps.snapshotted fun _ is_safe =>
    .seq (keeps.perform (.addBalance addr 0)) fun _ => .seq (runCode runs addr precompiled) fun outcome =>
      keeps.revertOnError is_safe outcome)

theorem create (depth : ℕ) (caller address : Address) (value : ℕ) (paid : Bool) :
    Maintains inv (Evm.create params depth caller address value paid run) fun _ _ => True := by
  have counted : Maintains inv (Evm.onDB fun db => db.setNonce caller (db.getNonce caller + 1)) fun _ _ => True :=
    keeps.onDB (fun _ => rfl) (fun _ => List.prefix_rfl) fun _ => rfl
  refine .ite (.pure fun _ _ => trivial) (.seq (keeps.canTransfer caller value) fun _ => .ite (.pure fun _ _ => trivial) ?_)
  refine .seq counted fun _ => .get_bind fun m holds => ?_
  split
  · exact ⟨holds, trivial⟩
  · refine keeps.snapshotted (fun id is_safe => ?_) m holds
    exact .seq (keeps.perform (.setNonce address 1)) fun _ => .seq (keeps.transfer caller address value) fun _ =>
      .seq runs fun outcome => .seq (keeps.storeCode address paid outcome) fun outcome =>
        .seq (keeps.revertOnError is_safe outcome) fun _ => .pure fun _ _ => trivial

omit runs in
/-- By induction on the script: nested calls revert to their own snapshots only. -/
theorem interpret (depth : ℕ) (script : Script) : Maintains inv (Evm.interpret params depth script) fun _ _ => True := by
  induction script generalizing depth with
  | finish outcome => exact .pure fun _ _ => trivial
  | op op rest rest_keeps => exact .seq (keeps.perform op) fun _ => rest_keeps depth
  | call kind caller addr value precompiled inner rest inner_keeps rest_keeps =>
      have runs := inner_keeps (depth + 1)
      cases kind with
      | call => exact .seq (keeps.call runs depth caller addr value precompiled) fun _ => rest_keeps depth
      | callCode => exact .seq (keeps.callCode runs depth caller addr value precompiled) fun _ => rest_keeps depth
      | delegateCall => exact .seq (keeps.delegateCall runs depth addr precompiled) fun _ => rest_keeps depth
      | staticCall => exact .seq (keeps.staticCall runs depth addr precompiled) fun _ => rest_keeps depth
  | create caller address value paid inner rest inner_keeps rest_keeps =>
      exact .seq (keeps.create (inner_keeps (depth + 1)) depth caller address value paid) fun _ => rest_keeps depth

end Keeps

/-! ## Failed calls -/

section

variable {params : EvmParams}

theorem maintains_db_canTransfer (db : StateDB) (addr : Address) (amount : ℕ) :
    Maintains (fun m => m.db = db) (canTransfer params addr amount) fun _ _ => True :=
  .seq (.orElse (.zoom .trivial (fun _ _ => True.intro) fun _ _ same _ => same)) fun _ => .pure fun _ _ => trivial

theorem wp_revertOnError {base : StateDB} {m : Machine} (since : Since base m.db) (outcome : Outcome) :
    wp (revertOnError base.snapshots.length outcome) (fun outcome m' => outcome.err.isSome = true → m'.db = base)
      (fun _ _ => True) m := by
  obtain ⟨found, restored⟩ := since.restore
  refine (wp_bind _ _).mpr ((wp_ite _ _ _).mpr ⟨fun _ => ?_, fun passed => ?_⟩)
  · unfold wp
    rw [revertToSnapshot_of_found found]
    exact fun _ => restored
  · exact fun failed => absurd failed passed

/-- A call that fails, at whatever point, leaves what the database keeps itself as it was. -/
theorem failed_call_restores_db (depth : ℕ) (caller addr : Address) (value : ℕ) (precompiled : Outcome)
    (script : Script) (m : Machine) :
    wp (call params depth caller addr value precompiled (interpret params (depth + 1) script))
      (fun outcome m' => outcome.err.isSome = true → m'.db = m.db) (fun _ _ => True) m := by
  have able : Maintains (fun m' => m'.db = m.db)
      (if value = 0 then pure true else canTransfer params caller value) fun _ _ => True :=
    .ite (.pure fun _ _ => trivial) (maintains_db_canTransfer m.db caller value)
  refine (wp_ite _ _ _).mpr ⟨fun _ _ => rfl, fun _ => (wp_bind _ _).mpr (wp_mono (able m rfl) ?_ fun _ _ _ => trivial)⟩
  rintro able m0 ⟨same, -⟩
  refine (wp_ite _ _ _).mpr ⟨fun _ _ => same, fun _ => (wp_bind _ _).mpr ?_⟩
  rw [← same]
  -- from the snapshot on, every part keeps what a revert to it needs
  have keeps := Since.keeps params m0.db
  have begun : Since m0.db (final StateDB.snapshot m0).db := .begin m0.db
  change wp _ _ _ (final StateDB.snapshot m0)
  refine (wp_bind _ _).mpr (wp_mono (keeps.exist addr _ begun) ?_ fun _ _ _ => trivial)
  rintro exist m1 ⟨since, -⟩
  refine (wp_ite _ _ _).mpr ⟨fun _ failed => absurd failed Bool.false_ne_true, fun _ => ?_⟩
  refine (wp_bind _ _).mpr (wp_mono (keeps.transfer caller addr value m1 since) ?_ fun _ _ _ => trivial)
  rintro _ m2 ⟨since, -⟩
  have runs : Maintains (fun m => Since m0.db m.db)
      (if m2.db.getCode addr = [] then pure ⟨[], none⟩ else interpret params (depth + 1) script) fun _ _ => True :=
    .ite (.pure fun _ _ => trivial) (keeps.interpret (depth + 1) script)
  refine (wp_bind _ _).mpr (wp_get.mpr ((wp_bind _ _).mpr ?_))
  refine wp_mono (Keeps.runCode runs addr precompiled m2 since) ?_ fun _ _ _ => trivial
  rintro outcome m3 ⟨since, -⟩
  exact wp_revertOnError since outcome

end

end SvpChain.Evm
