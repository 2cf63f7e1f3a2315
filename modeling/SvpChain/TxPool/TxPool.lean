import SvpChain.TxPool.TxStore

/-!
# The transaction pool

`TxPool` of package `txpool`, over `HasTx` of the storage and `VerifyTx` of the execution.  The workers
of `addTxList` take the transactions of a list in some order, which is a parameter; what they still
add after the first error is an addition of its own.
-/

namespace SvpChain.TxPool

open Core

/-- Errors returned by the pool. -/
inductive TxPoolError where
  | core (reason : CoreError)
  /-- `VerifyTx` failed. -/
  | verify
  /-- `RequestTxList` failed. -/
  | request
  /-- `invalid txlist response`. -/
  | invalidTxListResponse
  deriving DecidableEq, Repr

/-- What the pool asks the other services. -/
structure Services where
  crypto : Crypto
  hasTx : Bytes → Bool
  verifyTx : Transaction → Bool
  /-- The time of reception. -/
  now : ℤ

/-- `TxPool.addNewTx`. -/
def addNewTx (services : Services) (tx : Transaction) : Program TxPoolError TxStore Unit := do
  match tx.validate services.crypto with
  | .error reason => Program.throw (.core reason)
  | .ok () =>
      if services.hasTx tx.hash then pure ()
      else do
        Program.throwIf (services.verifyTx tx = false) .verify
        Program.modify fun store => store.addNewTx tx services.now

theorem addNewTx_snd (services : Services) (tx : Transaction) (store : TxStore) :
    (addNewTx services tx store).2 =
      match tx.validate services.crypto with
      | .error _ => store
      | .ok () =>
          if services.hasTx tx.hash then store
          else if services.verifyTx tx then store.addNewTx tx services.now else store := by
  rw [addNewTx]
  cases tx.validate services.crypto with
  | error reason => rfl
  | ok =>
      cases services.hasTx tx.hash with
      | true => rfl
      | false => cases services.verifyTx tx <;> rfl

/-- `TxPool.addTxList`, up to the first error. -/
def addTxList (services : Services) : List Transaction → Program TxPoolError TxStore Unit
  | [] => pure ()
  | tx :: txs => do
      addNewTx services tx
      addTxList services txs

/-- `TxPool.submitTx`, without the broadcast. -/
def submitTx (services : Services) (tx : Transaction) : Program TxPoolError TxStore Unit := do
  Program.modify fun store => store.putTxsToQueue [tx.hash]
  addNewTx services tx

/-- The comparison loop of `requestTxList`. -/
def checkTxList : List Bytes → List Transaction → Program TxPoolError TxStore Unit
  | _, [] => pure ()
  | [], _ :: _ => Program.fault .indexOutOfRange
  | hash :: hashes, tx :: txs => do
      Program.throwIf (hash ≠ tx.hash) .invalidTxListResponse
      checkTxList hashes txs

/-- The hashes that `syncTxs` asks for. -/
def missingTxs (services : Services) (store : TxStore) (hashes : List Bytes) : List Bytes :=
  hashes.filter fun hash => !services.hasTx hash && (store.getTx hash).isNone

/-- `TxPool.syncTxs`, with the peer's answer and the order of the workers. -/
def syncTxs (services : Services) (request : List Bytes → Option (List Transaction))
    (order : List Transaction → List Transaction) (hashes : List Bytes) :
    Program TxPoolError TxStore Unit := do
  let store ← Program.get
  let missing := missingTxs services store hashes
  if missing.length = 0 then pure ()
  else
    match request missing with
    | none => Program.throw .request
    | some txList => do
        checkTxList missing txList
        addTxList services (order txList)

/-- The loop of `getTxsToExecute`: the transactions to execute and the hashes executed before. -/
def splitTxs (hasTx : Bytes → Bool) (store : TxStore) :
    List Bytes → Except Fault (List Transaction × List Bytes)
  | [] => .ok ([], [])
  | hash :: hashes =>
      if hasTx hash then do
        let (txs, executed) ← splitTxs hasTx store hashes
        return (txs, hash :: executed)
      else
        match store.getTx hash with
        | some tx => do
            let (txs, executed) ← splitTxs hasTx store hashes
            return (tx :: txs, executed)
        | none => .error (.fatal "missing tx to execute")

/-- `TxPool.getTxsToExecute`. -/
def getTxsToExecute (hasTx : Bytes → Bool) (hashes : List Bytes) :
    Program TxPoolError TxStore (List Transaction × List Bytes) := do
  let store ← Program.get
  match splitTxs hasTx store hashes with
  | .error reason => Program.fault reason
  | .ok result => do
      Program.modify fun store => store.setTxsPending hashes
      pure result

theorem splitTxs_isOk_iff {hasTx : Bytes → Bool} {store : TxStore} {hashes : List Bytes} :
    (∃ result, splitTxs hasTx store hashes = .ok result) ↔
      ∀ hash ∈ hashes, hasTx hash = true ∨ (store.getTx hash).isSome = true := by
  induction hashes with
  | nil => simp [splitTxs]
  | cons hash hashes ih =>
      rw [List.forall_mem_cons, ← ih, splitTxs]
      cases hasTx hash with
      | true => cases splitTxs hasTx store hashes <;> simp [bind, Except.bind, pure, Except.pure]
      | false =>
          cases store.getTx hash with
          | none => simp
          | some tx => cases splitTxs hasTx store hashes <;> simp [bind, Except.bind, pure, Except.pure]

/-- The transactions to execute are those of the hashes that are not stored, and the others have been
executed before, both in their order. -/
theorem hashes_of_splitTxs {hasTx : Bytes → Bool} {store : TxStore} {hashes : List Bytes}
    {result : List Transaction × List Bytes} (split : splitTxs hasTx store hashes = .ok result) :
    (result.1.map Transaction.hash = hashes.filter fun hash => !hasTx hash) ∧ result.2 = hashes.filter hasTx := by
  induction hashes generalizing result with
  | nil =>
      obtain rfl := Except.ok.inj split
      exact ⟨rfl, rfl⟩
  | cons hash hashes ih =>
      rw [splitTxs] at split
      cases stored : hasTx hash with
      | true =>
          rw [if_pos stored] at split
          cases rest : splitTxs hasTx store hashes with
          | error reason => simp [rest, bind, Except.bind] at split
          | ok pair =>
              simp only [rest, bind, Except.bind, pure, Except.pure, Except.ok.injEq] at split
              rw [← split]
              simpa [stored] using ih rest
      | false =>
          rw [if_neg (by simp [stored])] at split
          cases found : store.getTx hash with
          | none => simp [found] at split
          | some tx =>
              cases rest : splitTxs hasTx store hashes with
              | error reason => simp [found, rest, bind, Except.bind] at split
              | ok pair =>
                  simp only [found, rest, bind, Except.bind, pure, Except.pure,
                    Except.ok.injEq] at split
                  rw [← split]
                  simpa [stored, TxStore.hash_of_getTx found] using ih rest

theorem splitTxs_of_stored {hasTx : Bytes → Bool} {hashes : List Bytes}
    (stored : ∀ hash ∈ hashes, hasTx hash = true) (store : TxStore) :
    splitTxs hasTx store hashes = .ok ([], hashes) := by
  induction hashes with
  | nil => rfl
  | cons hash hashes ih =>
      obtain ⟨own, rest⟩ := List.forall_mem_cons.mp stored
      rw [splitTxs, if_pos own, ih rest]
      rfl

theorem wp_getTxsToExecute (hasTx : Bytes → Bool) (hashes : List Bytes) (store : TxStore) :
    Program.wp (getTxsToExecute hasTx hashes)
      (fun result _ => result.1.map Transaction.hash = hashes.filter fun hash => !hasTx hash)
      (fun _ _ => True) store := by
  rw [getTxsToExecute, Program.wp_bind, Program.wp_get]
  cases split : splitTxs hasTx store hashes with
  | error reason => trivial
  | ok result => exact (hashes_of_splitTxs split).1

end SvpChain.TxPool
