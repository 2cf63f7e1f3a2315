import SvpChain.Evm.NativeProxy

/-!
# The state database of the EVM

`StateDB` and `CacheDB` of package `evm/statedb`, over the native proxy as its balance handler.  Contract storage,
accounts and code are kept in a cache over the store of the node, coins are kept by the proxy.  A snapshot copies
the cache and what else the database keeps itself; the balance handler has no snapshots.
-/

namespace SvpChain.Evm

open Core Execution Program

/-! ## Addresses and accounts -/

/-- `Address` of package `ethcomm`. -/
abbrev Address := { bytes : Bytes // bytes.length = 20 }

/-- `Hash` of package `ethcomm`. -/
abbrev Hash := { bytes : Bytes // bytes.length = 32 }

/-- The last bytes, with zeros in front of them where there are too few. -/
def fitBytes (width : ℕ) (bytes : Bytes) : { fit : Bytes // fit.length = width } :=
  ⟨List.replicate (width - bytes.length) 0 ++ bytes.drop (bytes.length - width), by simp; omega⟩

/-- `BytesToAddress`. -/
def bytesToAddress : Bytes → Address := fitBytes 20

/-- `BytesToHash`. -/
def bytesToHash : Bytes → Hash := fitBytes 32

/-- `EthAccount`. -/
structure EthAccount where
  nonce : UInt64
  codeHash : Hash

namespace EthAccount

/-- An account that is not there. -/
def zero : EthAccount := ⟨0, bytesToHash []⟩

/-- `EthAccount.IsEmpty`. -/
def isEmpty (account : EthAccount) : Bool := account.nonce = 0 ∧ account.codeHash = bytesToHash []

/-- `EthAccount.Serialization`. -/
def serialization (account : EthAccount) : Bytes :=
  Bytes.littleEndian 8 account.nonce.toNat ++ account.codeHash.1

/-- `EthAccount.Deserialization`. -/
def deserialization (source : Bytes) : Option EthAccount :=
  if short : source.length < 40 then none
  else some ⟨UInt64.ofNat (Bytes.toNat (source.take 8).reverse), (source.drop 8).take 32, by simp; omega⟩

end EthAccount

/-! ## The cache -/

/-- `MemDB`: a deleted key has the empty value. -/
abbrev MemDB := AList fun _ : Bytes => Bytes

/-- `CacheDB`. The errors of its reads are never looked at. -/
structure CacheDB where
  memdb : MemDB
  /-- The store of the node. -/
  backend : AList fun _ : Bytes => Bytes

/-- `STORAGE`, `ETH_CODE` and `ETH_ACCOUNT`. -/
inductive DataEntry where
  | storage
  | ethCode
  | ethAccount

/-- The first byte of the keys. -/
def DataEntry.byte : DataEntry → UInt8
  | .storage => 17
  | .ethCode => 19
  | .ethAccount => 20

namespace CacheDB

/-- `CacheDB.get`; a key that is in neither part is an error. -/
def get (db : CacheDB) (entry : DataEntry) (key : Bytes) : Option Bytes :=
  (db.memdb.lookup (entry.byte :: key)).or (db.backend.lookup (entry.byte :: key))

/-- `CacheDB.put`. -/
def put (db : CacheDB) (entry : DataEntry) (key value : Bytes) : CacheDB :=
  { db with memdb := db.memdb.insert (entry.byte :: key) value }

/-- `CacheDB.GetEthAccount`, with the zero account for an error. -/
def getEthAccount (db : CacheDB) (addr : Address) : EthAccount :=
  match db.get .ethAccount addr.1 with
  | none | some [] => .zero
  | some value => (EthAccount.deserialization value).getD .zero

/-- `CacheDB.PutEthAccount`. -/
def putEthAccount (db : CacheDB) (addr : Address) (account : EthAccount) : CacheDB :=
  db.put .ethAccount addr.1 (if account.isEmpty then [] else account.serialization)

/-- `CacheDB.DelEthAccount`. -/
def delEthAccount (db : CacheDB) (addr : Address) : CacheDB := db.put .ethAccount addr.1 []

/-- The storage keys of a contract that have a value, as `NewIterator` enumerates them. -/
def storageKeys (db : CacheDB) (addr : Address) : List Bytes :=
  (db.memdb.keys ++ db.backend.keys).filter fun key =>
    (DataEntry.storage.byte :: addr.1) <+: key ∧ ((db.memdb.lookup key).or (db.backend.lookup key)).getD [] ≠ []

/-- `CacheDB.CleanContractStorageData`. -/
def cleanContractStorageData (db : CacheDB) (addr : Address) : CacheDB :=
  (db.storageKeys addr).foldl (fun db key => { db with memdb := db.memdb.insert key [] }) db

/-- `CacheDB.Commit`. -/
def commit (db : CacheDB) : CacheDB where
  memdb := ∅
  backend := db.memdb.entries.foldl (fun backend entry =>
    if entry.2 = [] then backend.erase entry.1 else backend.insert entry.1 entry.2) db.backend

end CacheDB

/-! ## The database -/

/-- `StorageLog`. -/
structure StorageLog where
  address : Address
  topics : List Hash
  data : Bytes

/-- `snapshot`. -/
structure Snapshot where
  changes : MemDB
  suicided : List Address
  logsSize : ℕ
  refund : UInt64

/-- `StateDB`, without the hashes that `Prepare` sets. -/
structure StateDB where
  cacheDB : CacheDB
  suicided : List Address
  logs : List StorageLog
  refund : UInt64
  snapshots : List Snapshot

/-- What the database is given from outside. -/
structure EvmParams where
  /-- `GetCodeAddr` of the built-in chaincodes. -/
  codeAddr : NativeCode → Bytes
  /-- `Keccak256Hash`. -/
  keccak256 : Bytes → Hash
  /-- The addresses of precompiled contracts. -/
  isPrecompile : Address → Bool
  /-- `CreateAddress`. -/
  createAddress : Address → UInt64 → Address

namespace StateDB

/-- `StateDB.GetState`. -/
def getState (db : StateDB) (contract : Address) (key : Hash) : Hash :=
  bytesToHash ((db.cacheDB.get .storage (contract.1 ++ key.1)).getD [])

/-- `StateDB.SetState`. -/
def setState (contract : Address) (key value : Hash) (db : StateDB) : StateDB :=
  { db with cacheDB := db.cacheDB.put .storage (contract.1 ++ key.1) value.1 }

/-- `StateDB.GetNonce`. -/
def getNonce (db : StateDB) (addr : Address) : UInt64 := (db.cacheDB.getEthAccount addr).nonce

/-- `StateDB.SetNonce`. -/
def setNonce (addr : Address) (nonce : UInt64) (db : StateDB) : StateDB :=
  { db with cacheDB := db.cacheDB.putEthAccount addr { db.cacheDB.getEthAccount addr with nonce := nonce } }

/-- `StateDB.GetCodeHash`. -/
def getCodeHash (db : StateDB) (addr : Address) : Hash := (db.cacheDB.getEthAccount addr).codeHash

/-- `StateDB.GetCode`. -/
def getCode (db : StateDB) (addr : Address) : Bytes := (db.cacheDB.get .ethCode (db.getCodeHash addr).1).getD []

/-- `StateDB.SetCode`. -/
def setCode (keccak256 : Bytes → Hash) (addr : Address) (code : Bytes) (db : StateDB) : StateDB :=
  let codeHash := keccak256 code
  let cacheDB := db.cacheDB.putEthAccount addr { db.cacheDB.getEthAccount addr with codeHash := codeHash }
  { db with cacheDB := cacheDB.put .ethCode codeHash.1 code }

/-- `StateDB.HasSuicided`. -/
def hasSuicided (db : StateDB) (addr : Address) : Bool := addr ∈ db.suicided

/-- `StateDB.AddLog`. -/
def addLog (log : StorageLog) (db : StateDB) : StateDB := { db with logs := db.logs ++ [log] }

/-- `StateDB.AddRefund`. -/
def addRefund (gas : UInt64) (db : StateDB) : StateDB := { db with refund := db.refund + gas }

/-- The snapshot that `StateDB.Snapshot` takes. -/
def takeSnapshot (db : StateDB) : Snapshot := ⟨db.cacheDB.memdb, db.suicided, db.logs.length, db.refund⟩

/-- What `StateDB.RevertToSnapshot` makes of the database. -/
def restore (idx : ℕ) (sn : Snapshot) (db : StateDB) : StateDB where
  cacheDB := { db.cacheDB with memdb := sn.changes }
  suicided := sn.suicided
  logs := db.logs.take sn.logsSize
  refund := sn.refund
  snapshots := db.snapshots.take idx

/-- `StateDB.CommitToCacheDB`. -/
def commitToCacheDB (db : StateDB) : StateDB :=
  { db with
    cacheDB := db.suicided.foldl (fun cacheDB addr =>
      (cacheDB.delEthAccount addr).cleanContractStorageData addr) db.cacheDB
    suicided := []
    snapshots := [] }

/-- `StateDB.Commit`. -/
def commit (db : StateDB) : StateDB :=
  let db := db.commitToCacheDB
  { db with cacheDB := db.cacheDB.commit }

end StateDB

/-- The database with its balance handler. -/
structure Machine where
  db : StateDB
  native : Native

/-- A call that reaches the database. -/
abbrev EvmCall := Program String Machine

/-- A call of the balance handler. -/
def onNative {α : Type} (program : NativeCall α) : EvmCall α :=
  zoom (fun m => m.native) (fun native m => { m with native := native }) id program

/-- An update of what the database keeps itself. -/
def onDB (update : StateDB → StateDB) : EvmCall Unit := modify fun m => { m with db := update m.db }

namespace StateDB

/-- `StateDB.SubRefund`. -/
def subRefund (gas : UInt64) : EvmCall Unit := do
  let m ← get
  if m.db.refund < gas then fault (.panic "Refund counter below zero")
  else onDB fun db => { db with refund := db.refund - gas }

/-- `StateDB.Snapshot`. -/
def snapshot : EvmCall ℕ := do
  let m ← get
  onDB fun db => { db with snapshots := db.snapshots ++ [db.takeSnapshot] }
  pure m.db.snapshots.length

/-- `StateDB.RevertToSnapshot`. -/
def revertToSnapshot (idx : ℕ) : EvmCall Unit := do
  let m ← get
  match m.db.snapshots[idx]? with
  | none => fault (.panic "cannot revert snapshot")
  | some sn => onDB (restore idx sn)

variable (params : EvmParams)

/-- `StateDB.SubBalance`. -/
def subBalance (addr : Address) (val : ℕ) : EvmCall Unit :=
  discardError (onNative (Evm.subBalance params.codeAddr addr.1 val))

/-- `StateDB.AddBalance`. -/
def addBalance (addr : Address) (val : ℕ) : EvmCall Unit :=
  discardError (onNative (Evm.addBalance params.codeAddr addr.1 val))

/-- `StateDB.GetBalance`. -/
def getBalance (addr : Address) : EvmCall ℕ := orElse (onNative (Evm.getBalance params.codeAddr addr.1)) 0

/-- `StateDB.Suicide`. -/
def suicide (addr : Address) : EvmCall Bool := do
  let m ← get
  if (m.db.cacheDB.getEthAccount addr).isEmpty then pure false
  else do
    onDB fun db => { db with suicided := db.suicided.insert addr }
    discardError (onNative (Evm.setBalance params.codeAddr addr.1 0))
    pure true

/-- `StateDB.Exist`. -/
def exist (addr : Address) : EvmCall Bool := do
  let m ← get
  if m.db.hasSuicided addr then pure true
  else orElse (do
    let balance ← onNative (Evm.getBalance params.codeAddr addr.1)
    pure (!(m.db.cacheDB.getEthAccount addr).isEmpty || decide (0 < balance))) false

end StateDB

/-- An operation of a contract on the database, `Snapshot` and `RevertToSnapshot` apart. -/
inductive Op where
  | setState (contract : Address) (key value : Hash)
  | setNonce (addr : Address) (nonce : UInt64)
  | setCode (addr : Address) (code : Bytes)
  | suicide (addr : Address)
  | addBalance (addr : Address) (val : ℕ)
  | subBalance (addr : Address) (val : ℕ)
  | getBalance (addr : Address)
  | addLog (log : StorageLog)
  | addRefund (gas : UInt64)
  | subRefund (gas : UInt64)

/-- An operation is performed. -/
def Op.perform (params : EvmParams) : Op → EvmCall Unit
  | .setState contract key value => onDB (StateDB.setState contract key value)
  | .setNonce addr nonce => onDB (StateDB.setNonce addr nonce)
  | .setCode addr code => onDB (StateDB.setCode params.keccak256 addr code)
  | .suicide addr => do let _ ← StateDB.suicide params addr
  | .addBalance addr val => StateDB.addBalance params addr val
  | .subBalance addr val => StateDB.subBalance params addr val
  | .getBalance addr => do let _ ← StateDB.getBalance params addr
  | .addLog log => onDB (StateDB.addLog log)
  | .addRefund gas => onDB (StateDB.addRefund gas)
  | .subRefund gas => StateDB.subRefund gas

/-- An operation on the database. -/
inductive Step where
  | op (op : Op)
  | snapshot
  | revertToSnapshot (idx : ℕ)

/-- Operations are performed one after another. -/
def performAll (params : EvmParams) : List Step → EvmCall Unit
  | [] => pure ()
  | .op op :: steps => do
      op.perform params
      performAll params steps
  | .snapshot :: steps => do
      let _ ← StateDB.snapshot
      performAll params steps
  | .revertToSnapshot idx :: steps => do
      StateDB.revertToSnapshot idx
      performAll params steps

/-- What `GetBalance` returns. -/
def Machine.balance (params : EvmParams) (m : Machine) (addr : Address) : Except (Halt String) ℕ :=
  (StateDB.getBalance params addr m).1

/-- Two databases show the same, and the same snapshots can be reverted to. -/
structure SameObservations (params : EvmParams) (m m' : Machine) : Prop where
  getState : ∀ contract key, m'.db.getState contract key = m.db.getState contract key
  getNonce : ∀ addr, m'.db.getNonce addr = m.db.getNonce addr
  getCode : ∀ addr, m'.db.getCode addr = m.db.getCode addr
  getCodeHash : ∀ addr, m'.db.getCodeHash addr = m.db.getCodeHash addr
  hasSuicided : ∀ addr, m'.db.hasSuicided addr = m.db.hasSuicided addr
  getBalance : ∀ addr, m'.balance params addr = m.balance params addr
  getLogs : m'.db.logs = m.db.logs
  getRefund : m'.db.refund = m.db.refund
  snapshots : m'.db.snapshots = m.db.snapshots

/-! ## Between a snapshot and its revert -/

/-- The database after a snapshot of an earlier one. -/
structure Since (base db : StateDB) : Prop where
  backend_eq : db.cacheDB.backend = base.cacheDB.backend
  logs : base.logs <+: db.logs
  snapshots : ∃ later, db.snapshots = base.snapshots ++ base.takeSnapshot :: later ∧
    ∀ sn ∈ later, base.logs.length ≤ sn.logsSize

variable {params : EvmParams} {base : StateDB}

theorem Since.begin (db : StateDB) : Since db { db with snapshots := db.snapshots ++ [db.takeSnapshot] } :=
  ⟨rfl, List.prefix_rfl, [], rfl, nofun⟩

theorem Since.restore {db : StateDB} (since : Since base db) :
    db.snapshots[base.snapshots.length]? = some base.takeSnapshot ∧
      db.restore base.snapshots.length base.takeSnapshot = base := by
  obtain ⟨backend_eq, ⟨added, logs_eq⟩, later, snapshots_eq, -⟩ := since
  have first : db.snapshots[base.snapshots.length]? = some base.takeSnapshot := by
    rw [snapshots_eq, List.getElem?_append_right (le_refl _), Nat.sub_self]
    rfl
  have snapshots : db.snapshots.take base.snapshots.length = base.snapshots := by
    rw [snapshots_eq, List.take_left]
  have logs : db.logs.take base.logs.length = base.logs := by
    rw [← logs_eq, List.take_left]
  refine ⟨first, ?_⟩
  change StateDB.mk ⟨base.cacheDB.memdb, db.cacheDB.backend⟩ base.suicided (db.logs.take base.logs.length) base.refund
    (db.snapshots.take base.snapshots.length) = base
  rw [backend_eq, logs, snapshots]

theorem Since.revert {db : StateDB} {idx : ℕ} {sn : Snapshot} (since : Since base db)
    (later_idx : base.snapshots.length < idx) (found : db.snapshots[idx]? = some sn) : Since base (db.restore idx sn) := by
  obtain ⟨backend_eq, logs, later, snapshots_eq, sizes⟩ := since
  obtain ⟨offset, rfl⟩ : ∃ offset, idx = base.snapshots.length + (offset + 1) :=
    ⟨idx - base.snapshots.length - 1, by omega⟩
  have sn_later : later[offset]? = some sn := by
    rw [← found, snapshots_eq, List.getElem?_append_right (by omega), Nat.add_sub_cancel_left, List.getElem?_cons_succ]
  refine ⟨backend_eq, ?_, later.take offset, ?_, fun other mem => sizes other (List.mem_of_mem_take mem)⟩
  · have long := sizes sn (List.mem_of_getElem? sn_later)
    exact List.prefix_take_iff.mpr ⟨logs, long⟩
  · change db.snapshots.take (base.snapshots.length + (offset + 1)) = _
    rw [snapshots_eq, List.take_length_add_append, List.take_succ_cons]

/-- An invariant that the operations keep; `safe` tells which snapshots may be reverted to. -/
structure Keeps (params : EvmParams) (inv : Machine → Prop) (safe : ℕ → Prop) : Prop where
  update : ∀ {m}, inv m → ∀ db : StateDB, db.cacheDB.backend = m.db.cacheDB.backend → m.db.logs <+: db.logs →
    db.snapshots = m.db.snapshots → inv { m with db := db }
  snapshot : Maintains inv StateDB.snapshot fun id _ => safe id
  revertToSnapshot : ∀ {id}, safe id → Maintains inv (StateDB.revertToSnapshot id) fun _ _ => True
  subBalance : ∀ addr val, Maintains inv (onNative (Evm.subBalance params.codeAddr addr val)) fun _ _ => True
  addBalance : ∀ addr val, Maintains inv (onNative (Evm.addBalance params.codeAddr addr val)) fun _ _ => True
  setBalance : ∀ addr val, Maintains inv (onNative (Evm.setBalance params.codeAddr addr val)) fun _ _ => True
  getBalance : ∀ addr, Maintains inv (onNative (Evm.getBalance params.codeAddr addr)) fun _ _ => True

namespace Keeps

variable {inv : Machine → Prop} {safe : ℕ → Prop} (keeps : Keeps params inv safe)
include keeps

theorem onDB {update : StateDB → StateDB} (backend_eq : ∀ db, (update db).cacheDB.backend = db.cacheDB.backend)
    (logs : ∀ db, db.logs <+: (update db).logs) (snapshots_eq : ∀ db, (update db).snapshots = db.snapshots) :
    Maintains inv (Evm.onDB update) fun _ _ => True :=
  .modify fun m holds => keeps.update holds _ (backend_eq m.db) (logs m.db) (snapshots_eq m.db)

theorem suicide (addr : Address) : Maintains inv (StateDB.suicide params addr) fun _ _ => True := by
  have marked : Maintains inv (Evm.onDB fun db => { db with suicided := db.suicided.insert addr }) fun _ _ => True :=
    keeps.onDB (fun _ => rfl) (fun _ => List.prefix_rfl) fun _ => rfl
  refine .get_bind fun m holds => ?_
  split
  · exact ⟨holds, trivial⟩
  · exact (Maintains.seq marked fun _ => .seq (.discardError (keeps.setBalance _ _)) fun _ =>
      .pure fun _ _ => trivial) m holds

theorem subRefund (gas : UInt64) : Maintains inv (StateDB.subRefund gas) fun _ _ => True := by
  have subtracted : Maintains inv (Evm.onDB fun db => { db with refund := db.refund - gas }) fun _ _ => True :=
    keeps.onDB (fun _ => rfl) (fun _ => List.prefix_rfl) fun _ => rfl
  refine .get_bind fun m holds => ?_
  split
  · exact holds
  · exact subtracted m holds

theorem perform (op : Op) : Maintains inv (op.perform params) fun _ _ => True := by
  cases op with
  | setState | setNonce | setCode | addRefund =>
      exact keeps.onDB (fun _ => rfl) (fun _ => List.prefix_rfl) fun _ => rfl
  | addLog => exact keeps.onDB (fun _ => rfl) (fun _ => List.prefix_append _ _) fun _ => rfl
  | addBalance => exact .discardError (keeps.addBalance _ _)
  | subBalance => exact .discardError (keeps.subBalance _ _)
  | getBalance => exact .seq (.orElse (keeps.getBalance _)) fun _ => .pure fun _ _ => trivial
  | suicide => exact .seq (keeps.suicide _) fun _ => .pure fun _ _ => trivial
  | subRefund => exact keeps.subRefund _

theorem performAll {steps : List Step} (nested : ∀ idx, .revertToSnapshot idx ∈ steps → safe idx) :
    Maintains inv (Evm.performAll params steps) fun _ _ => True := by
  induction steps with
  | nil => exact .pure fun _ _ => trivial
  | cons step steps ih =>
      have rest := ih fun idx mem => nested idx (List.mem_cons_of_mem _ mem)
      cases step with
      | op op => exact .seq (keeps.perform op) fun _ => rest
      | snapshot => exact .seq keeps.snapshot fun _ => rest
      | revertToSnapshot idx =>
          exact .seq (keeps.revertToSnapshot (nested idx List.mem_cons_self)) fun _ => rest

end Keeps

theorem Since.keeps (params : EvmParams) (base : StateDB) :
    Keeps params (fun m => Since base m.db) (base.snapshots.length < ·) := by
  have handled {α : Type} (program : NativeCall α) :
      Maintains (fun m => Since base m.db) (onNative program) fun _ _ => True :=
    .zoom .trivial (fun _ _ => True.intro) fun _ _ since _ => since
  refine ⟨?_, ?_, ?_, fun _ _ => handled _, fun _ _ => handled _, fun _ _ => handled _, fun _ => handled _⟩
  · intro m since db backend_eq logs snapshots_eq
    refine ⟨backend_eq.trans since.backend_eq, since.logs.trans logs, ?_⟩
    rw [snapshots_eq]
    exact since.snapshots
  · intro m since
    obtain ⟨later, snapshots_eq, sizes⟩ := since.snapshots
    refine ⟨⟨since.backend_eq, since.logs, later ++ [m.db.takeSnapshot], ?_, ?_⟩, ?_⟩
    · change m.db.snapshots ++ [m.db.takeSnapshot] = _
      rw [snapshots_eq, List.append_assoc, List.cons_append]
    · intro sn mem
      rcases List.mem_append.mp mem with old | new
      · exact sizes sn old
      · rw [List.mem_singleton.mp new]
        exact since.logs.length_le
    · rw [snapshots_eq, List.length_append, List.length_cons]
      omega
  · intro idx later_idx m since
    refine (wp_bind _ _).mpr (wp_get.mpr ?_)
    cases found : m.db.snapshots[idx]? with
    | none => exact since
    | some sn => exact ⟨since.revert later_idx found, trivial⟩

theorem revertToSnapshot_of_found {m : Machine} {idx : ℕ} {sn : Snapshot}
    (found : m.db.snapshots[idx]? = some sn) :
    StateDB.revertToSnapshot idx m = (.ok (), { m with db := m.db.restore idx sn }) := by
  rw [StateDB.revertToSnapshot, bind_eq]
  change (match m.db.snapshots[idx]? with
    | none => fault (.panic "cannot revert snapshot")
    | some sn => onDB (StateDB.restore idx sn) : EvmCall Unit) m = _
  rw [found]
  rfl

theorem balance_congr (m m' : Machine) (same : m'.native = m.native) (addr : Address) :
    m'.balance params addr = m.balance params addr := by
  simp only [Machine.balance, StateDB.getBalance, orElse, onNative, zoom, same]
  rcases Evm.getBalance params.codeAddr addr.1 m.native with ⟨(_ | _) | _, _⟩ <;> rfl

theorem SameObservations.of_db {m m' : Machine} (same : m'.db = m.db)
    (balances : ∀ addr, m'.balance params addr = m.balance params addr) : SameObservations params m m' := by
  constructor
  case getBalance => exact balances
  all_goals simp [same]

/-- Whatever is done between `Snapshot` and `RevertToSnapshot`, reverting restores every observation and the earlier
snapshots exactly if the balance handler shows just before the revert what it has shown at the snapshot. -/
theorem revert_restores_iff {m m0 m1 : Machine} {id : ℕ} (taken : StateDB.snapshot m = (.ok id, m0))
    {steps : List Step} (nested : ∀ idx, .revertToSnapshot idx ∈ steps → id < idx)
    (performed : performAll params steps m0 = (.ok (), m1)) :
    ∃ m2, StateDB.revertToSnapshot id m1 = (.ok (), m2) ∧
      (SameObservations params m m2 ↔ ∀ addr, m1.balance params addr = m.balance params addr) := by
  obtain ⟨rfl, rfl⟩ : m.db.snapshots.length = id ∧ final StateDB.snapshot m = m0 := by
    obtain ⟨id_eq, m0_eq⟩ := Prod.mk.inj taken
    exact ⟨Except.ok.inj id_eq, m0_eq⟩
  have since : Since m.db m1.db := by
    have begun : Since m.db (final StateDB.snapshot m).db := .begin m.db
    have kept := (Since.keeps params m.db).performAll nested (final StateDB.snapshot m) begun
    unfold wp at kept
    rw [performed] at kept
    exact kept.1
  obtain ⟨found, restored⟩ := since.restore
  refine ⟨{ m1 with db := m.db }, ?_, fun same addr => ?_, fun balances => ?_⟩
  · rw [revertToSnapshot_of_found found, restored]
  · rw [← same.getBalance addr]
    exact balance_congr { m1 with db := m.db } m1 rfl addr
  · exact .of_db rfl fun addr => (balance_congr m1 { m1 with db := m.db } rfl addr).trans (balances addr)

/-! ## Balances stay after a revert -/

/-- Short code addresses, and a hash that is always zero. -/
def plainParams : EvmParams where
  codeAddr code := match code with
    | .xcoin => [1]
    | .taddr => [2]
  keccak256 _ := bytesToHash []
  isPrecompile _ := false
  createAddress addr _ := addr

/-- An account of the EVM. -/
def plainAddress (byte : UInt8) : Address := ⟨List.replicate 20 byte, List.length_replicate⟩

/-- The same account for native code. -/
def plainAddr32 (byte : UInt8) : Bytes := toAddr32 (plainAddress byte).1

/-- `TAddr` knows some accounts, and `XCoin` has their balances. -/
def plainState (balances : List (UInt8 × UInt64)) (key : Bytes) : Option Bytes :=
  (balances.flatMap fun entry => [([1] ++ plainAddr32 entry.1, encodeBalance entry.2),
    ([2] ++ (plainAddress entry.1).1, plainAddr32 entry.1),
    ([2] ++ plainAddr32 entry.1, (plainAddress entry.1).1)]).lookup key

/-- A new database and a new proxy, with a transaction that has just begun. -/
def plainMachine (balances : List (UInt8 × UInt64)) : Machine where
  db := ⟨⟨∅, ∅⟩, [], [], 0, []⟩
  native := Native.setTxTrk ⟨plainState balances, [newStateTracker []], [], newNativeProxy, []⟩ 0

/-- Three of five coins are taken away and the snapshot is reverted to: two coins are left. -/
theorem sub_balance_not_reverted :
    let m := plainMachine [(7, 5)]
    let m1 := final (performAll plainParams [.op (.subBalance (plainAddress 7) 3)]) (final StateDB.snapshot m)
    (performAll plainParams [.op (.subBalance (plainAddress 7) 3)] (final StateDB.snapshot m)).1 = .ok () ∧
    (StateDB.revertToSnapshot 0 m1).1 = .ok () ∧ m.balance plainParams (plainAddress 7) = .ok 5 ∧
    (final (StateDB.revertToSnapshot 0) m1).balance plainParams (plainAddress 7) = .ok 2 := by
  decide +kernel

/-- A contract sets a state, and a nested call of it logs and fails. -/
theorem revert_restores_plainMachine :
    let m := plainMachine [(7, 5)]
    let steps : List Step := [.op (.setState (plainAddress 9) (bytesToHash [1]) (bytesToHash [2])), .snapshot,
      .op (.addLog ⟨plainAddress 9, [], [3]⟩), .revertToSnapshot 1]
    ∃ m2, StateDB.revertToSnapshot 0 (final (performAll plainParams steps) (final StateDB.snapshot m)) = (.ok (), m2) ∧
      SameObservations plainParams m m2 := by
  intro m steps
  obtain ⟨m2, reverted, same_iff⟩ := @revert_restores_iff plainParams m _ _ 0 rfl steps (by simp [steps]) rfl
  refine ⟨m2, reverted, same_iff.mpr ?_⟩
  apply balance_congr
  rfl

end SvpChain.Evm
