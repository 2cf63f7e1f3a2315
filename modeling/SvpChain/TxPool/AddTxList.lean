import SvpChain.Core.Binding
import SvpChain.Lib.Workers
import SvpChain.TxPool.TxPool

/-!
# Adding a list of transactions

`addTxList` with its 50 workers and its two channels, in every order of their moves.  It returns at the
first error and closes the channels, so that a worker which is still busy with another transaction sends
its result on a closed channel.  `SyncTxs` hands the answer of a peer to it.
-/

namespace SvpChain.TxPool

open Core Workers

/-! ## The work on one transaction -/

/-- `addNewTx` returns no error. -/
def Accepted (services : Services) (tx : Transaction) : Prop :=
  tx.validate services.crypto = .ok () ∧ (services.hasTx tx.hash = true ∨ services.verifyTx tx = true)

/-- The error of `addNewTx`, which does not depend on the store. -/
def addNewTxError (services : Services) (tx : Transaction) : Option TxPoolError :=
  match tx.validate services.crypto with
  | .error reason => some (.core reason)
  | .ok () => if services.hasTx tx.hash || services.verifyTx tx then none else some .verify

/-- `addNewTx` as the job of a worker. -/
def addTask (services : Services) : Task TxStore Transaction TxPoolError where
  effect tx store := (addNewTx services tx store).2
  error := addNewTxError services

theorem addNewTx_fst (services : Services) (tx : Transaction) (store : TxStore) :
    (addNewTx services tx store).1 =
      match addNewTxError services tx with
      | none => .ok ()
      | some reason => .error (.error reason) := by
  rw [addNewTx, addNewTxError]
  cases tx.validate services.crypto with
  | error reason => rfl
  | ok =>
      cases services.hasTx tx.hash with
      | true => rfl
      | false => cases services.verifyTx tx <;> rfl

variable {services : Services} {tx : Transaction} {txList txs : List Transaction} {store : TxStore}
   {hashes missing : List Bytes} {hash : Bytes} {request : List Bytes → Option (List Transaction)}

theorem addNewTxError_eq_none_iff : addNewTxError services tx = none ↔ Accepted services tx := by
  rw [addNewTxError, Accepted]
  cases tx.validate services.crypto with
  | error reason => simp
  | ok => cases services.hasTx tx.hash <;> simp

/-! ## Channels -/

/-- The process that starts with `addTxList` on a list. -/
def addTxListCrew (txList : List Transaction) (store : TxStore) :
    Crew (Fin 50) TxStore Transaction TxPoolError := start txList store

/-- A rejected transaction beside another one lets a worker send on the closed channel. -/
theorem exists_send_on_closed (many : 2 ≤ txList.length)
    {bad : Transaction} (mem : bad ∈ txList) (rejected : ¬Accepted services bad) (store : TxStore) :
    ∃ crew, Reaches (addTask services) (addTxListCrew txList store) crew ∧ crew.panicked = true := by
  have different : (0 : Fin 50) ≠ 1 := by decide
  exact exists_panicked different many mem fun accepted => rejected (addNewTxError_eq_none_iff.mp accepted)

theorem not_panicked_of_accepted {crew : Crew (Fin 50) TxStore Transaction TxPoolError}
    (safe : txList.length ≤ 1 ∨ ∀ tx ∈ txList, Accepted services tx)
    (reaches : Reaches (addTask services) (addTxListCrew txList store) crew) : crew.panicked = false := by
  refine not_panicked (safe.imp_right fun accepted tx mem => ?_) reaches
  exact addNewTxError_eq_none_iff.mpr (accepted tx mem)

/-- No worker ever sends on the closed channel exactly where the list has at most one transaction or
each of them is accepted. -/
theorem no_send_on_closed_iff (services : Services) (txList : List Transaction) (store : TxStore) :
    (∀ crew, Reaches (addTask services) (addTxListCrew txList store) crew → crew.panicked = false) ↔
      txList.length ≤ 1 ∨ ∀ tx ∈ txList, Accepted services tx := by
  constructor
  · intro safe
    rcases Nat.lt_or_ge 1 txList.length with many | short
    · refine .inr fun tx mem => ?_
      by_contra rejected
      obtain ⟨crew, reaches, panicked⟩ := exists_send_on_closed many mem rejected store
      simp [safe crew reaches] at panicked
    · exact .inl short
  · exact fun safe crew reaches => not_panicked_of_accepted safe reaches

/-- Services that verify everything, with an empty storage. -/
def openServices : Services where
  crypto := transparentCrypto
  hasTx _ := false
  verifyTx _ := true
  now := 0

/-- A transaction whose hash is not that of its contents. -/
def forgedTx : Transaction :=
  { transparentTx [1] [2] with data := { (transparentTx [1] [2]).data with hash := [] } }

/-- A forged transaction ends `addTxList` while a worker is busy with a good one. -/
theorem forged_transaction_panics :
    ¬Accepted openServices forgedTx ∧ Accepted openServices (transparentTx [1] [2]) ∧
      ∃ crew, Reaches (addTask openServices) (addTxListCrew [forgedTx, transparentTx [1] [2]] newTxStore) crew ∧
        crew.panicked = true := by
  have rejected : ¬Accepted openServices forgedTx := by
    rw [← addNewTxError_eq_none_iff]
    decide +kernel
  have accepted : Accepted openServices (transparentTx [1] [2]) :=
    addNewTxError_eq_none_iff.mp (by decide +kernel)
  exact ⟨rejected, accepted, exists_send_on_closed le_rfl List.mem_cons_self rejected newTxStore⟩

/-! ## One worker after the other -/

theorem run_addTxList (accepted : ∀ tx ∈ txs, Accepted services tx) (store : TxStore) :
    addTxList services txs store = (.ok (), (addTask services).effects txs store) := by
  induction txs generalizing store with
  | nil => rfl
  | cons tx txs ih =>
      rw [List.forall_mem_cons] at accepted
      have first := addNewTx_fst services tx store
      rw [addNewTxError_eq_none_iff.mpr accepted.1] at first
      have first_eq : addNewTx services tx store = (.ok (), (addTask services).effect tx store) :=
        Prod.ext first rfl
      rw [addTxList, Program.bind_eq, first_eq]
      exact ih accepted.2 _

/-- What the workers leave after a return without an error is what they leave one after the other, in
some order of the list. -/
theorem addTxList_of_returned {crew : Crew (Fin 50) TxStore Transaction TxPoolError}
    (reaches : Reaches (addTask services) (addTxListCrew txList store) crew) (returned : crew.returned = some none) :
    ∃ order : List Transaction, order.Perm txList ∧ addTxList services order store = (.ok (), crew.state) := by
  obtain ⟨clean, order, perm, state_eq⟩ := effects_of_returned reaches returned
  refine ⟨order, perm, ?_⟩
  rw [run_addTxList fun tx mem => addNewTxError_eq_none_iff.mp (clean tx (perm.mem_iff.mp mem)), state_eq]

/-! ## Available transactions -/

/-- A transaction is stored or in the pool. -/
def Available (hasTx : Bytes → Bool) (store : TxStore) (hash : Bytes) : Prop :=
  hasTx hash = true ∨ (store.getTx hash).isSome = true

theorem effect_of_accepted (accepted : Accepted services tx)
    (store : TxStore) :
    (addTask services).effect tx store =
      if services.hasTx tx.hash then store else store.addNewTx tx services.now := by
  obtain ⟨valid, verified⟩ := accepted
  change (addNewTx services tx store).2 = _
  rw [addNewTx_snd, valid]
  simp only
  split
  · rfl
  · next unstored => exact if_pos (verified.resolve_left unstored)

theorem available_effect (accepted : Accepted services tx) :
    Available services.hasTx ((addTask services).effect tx store) hash ↔
      hash = tx.hash ∨ Available services.hasTx store hash := by
  rw [effect_of_accepted accepted, Available, Available]
  split
  · next stored => exact ⟨.inr, fun either => either.elim (fun own => .inl (own ▸ stored)) id⟩
  · rw [TxStore.isSome_getTx_addNewTx]
    exact or_left_comm

theorem available_effects (accepted : ∀ tx ∈ txs, Accepted services tx) :
    Available services.hasTx ((addTask services).effects txs store) hash ↔
      hash ∈ txs.map Transaction.hash ∨ Available services.hasTx store hash := by
  induction txs generalizing store with
  | nil => simp [Task.effects]
  | cons tx txs ih =>
      rw [List.forall_mem_cons] at accepted
      change Available services.hasTx ((addTask services).effects txs _) hash ↔ _
      rw [ih accepted.2, available_effect accepted.1, List.map_cons, List.mem_cons, or_assoc]
      exact or_left_comm

/-! ## Synchronization -/

/-- A position at which the answer is not what was asked for. -/
def Differs (missing : List Bytes) (txList : List Transaction) : Prop :=
  ∃ (i : ℕ) (hash : Bytes) (tx : Transaction),
    missing[i]? = some hash ∧ txList[i]? = some tx ∧ hash ≠ tx.hash

theorem differs_cons_iff : Differs (hash :: hashes) (tx :: txs) ↔ hash ≠ tx.hash ∨ Differs hashes txs := by
  constructor
  · rintro ⟨i, first, second, first_eq, second_eq, different⟩
    cases i with
    | zero =>
        obtain rfl := Option.some.inj first_eq
        obtain rfl := Option.some.inj second_eq
        exact .inl different
    | succ i => exact .inr ⟨i, first, second, first_eq, second_eq, different⟩
  · rintro (different | ⟨i, first, second, first_eq, second_eq, different⟩)
    · exact ⟨0, hash, tx, rfl, rfl, different⟩
    · exact ⟨i + 1, first, second, first_eq, second_eq, different⟩

theorem checkTxList_cons (hash : Bytes) (hashes : List Bytes) (tx : Transaction) (txs : List Transaction)
    (store : TxStore) : (checkTxList (hash :: hashes) (tx :: txs) store).1 =
      if hash ≠ tx.hash then .error (.error .invalidTxListResponse)
      else (checkTxList hashes txs store).1 := by
  rw [checkTxList, Program.throwIf]
  split <;> rfl

theorem run_checkTxList (begins : txList.map Transaction.hash <+: missing) (store : TxStore) :
    checkTxList missing txList store = (.ok (), store) := by
  obtain ⟨rest, rfl⟩ := begins
  induction txList with
  | nil => cases rest <;> rfl
  | cons tx txs ih =>
      rw [List.map_cons, List.cons_append, checkTxList, Program.throwIf, if_neg (not_not.mpr rfl)]
      exact ih

theorem checkTxList_cases (missing : List Bytes) (txList : List Transaction) (store : TxStore) :
    ((checkTxList missing txList store).1 = .ok () ∧ ¬Differs missing txList ∧
      txList.map Transaction.hash <+: missing) ∨
    ((checkTxList missing txList store).1 = .error (.error .invalidTxListResponse) ∧ Differs missing txList) ∨
    ((checkTxList missing txList store).1 = .error (.fault .indexOutOfRange) ∧ ¬Differs missing txList ∧
      missing.length < txList.length) := by
  induction txList generalizing missing with
  | nil => exact .inl ⟨by cases missing <;> rfl, by simp [Differs], List.nil_prefix⟩
  | cons tx txs ih =>
      cases missing with
      | nil => exact .inr (.inr ⟨rfl, by simp [Differs], Nat.succ_pos _⟩)
      | cons hash hashes =>
          rw [differs_cons_iff, checkTxList_cons]
          by_cases same : hash = tx.hash
          · subst same
            simpa [List.prefix_cons_inj] using ih hashes
          · exact .inr (.inl ⟨if_pos same, .inl same⟩)

/-- `requestTxList`: the answer of the peer, compared with what was asked for. -/
def requestTxList (request : List Bytes → Option (List Transaction)) (missing : List Bytes)
    (store : TxStore) : Except (Halt TxPoolError) (List Transaction) :=
  match request missing with
  | none => .error (.error .request)
  | some txList => (checkTxList missing txList store).1.map fun _ => txList

/-- How a call of `SyncTxs` ends: with its result and the pool at that time, or with the process. -/
inductive SyncEnd where
  | returned (result : Option TxPoolError) (store : TxStore)
  | faulted (fault : Fault)

/-- A call of `SyncTxs` can end so, in some order of the moves of the workers. -/
inductive SyncsTo (services : Services) (request : List Bytes → Option (List Transaction))
    (hashes : List Bytes) (store : TxStore) : SyncEnd → Prop where
  | complete (complete : missingTxs services store hashes = []) :
      SyncsTo services request hashes store (.returned none store)
  | refused {reason : TxPoolError} (incomplete : missingTxs services store hashes ≠ [])
      (refused : requestTxList request (missingTxs services store hashes) store = .error (.error reason)) :
      SyncsTo services request hashes store (.returned (some reason) store)
  | faulted {fault : Fault} (incomplete : missingTxs services store hashes ≠ [])
      (faulted : requestTxList request (missingTxs services store hashes) store = .error (.fault fault)) :
      SyncsTo services request hashes store (.faulted fault)
  | added {txList : List Transaction} {crew : Crew (Fin 50) TxStore Transaction TxPoolError}
      {result : Option TxPoolError} (incomplete : missingTxs services store hashes ≠ [])
      (answered : requestTxList request (missingTxs services store hashes) store = .ok txList)
      (reaches : Reaches (addTask services) (addTxListCrew txList store) crew)
      (returned : crew.returned = some result) :
      SyncsTo services request hashes store (.returned result crew.state)
  | panicked {txList : List Transaction} {crew : Crew (Fin 50) TxStore Transaction TxPoolError}
      (incomplete : missingTxs services store hashes ≠ [])
      (answered : requestTxList request (missingTxs services store hashes) store = .ok txList)
      (reaches : Reaches (addTask services) (addTxListCrew txList store) crew)
      (panicked : crew.panicked = true) :
      SyncsTo services request hashes store (.faulted (.panic "send on closed channel"))

/-- The call did not end the process, and where it returned nil, every transaction is available and
`getTxsToExecute` finds them as long as they stay available. -/
def SyncEnd.Sound (services : Services) (hashes : List Bytes) : SyncEnd → Prop
  | .returned none store =>
      (∀ hash ∈ hashes, Available services.hasTx store hash) ∧
        ∀ (hasTx : Bytes → Bool) (store' : TxStore),
          (∀ hash ∈ hashes, Available services.hasTx store hash → Available hasTx store' hash) →
            ∃ result, splitTxs hasTx store' hashes = .ok result
  | .returned (some _) _ => True
  | .faulted _ => False

/-- The list answers what is missing: all of it is accepted and nothing is left out, or it is one
transaction that is rejected. -/
def Answers (services : Services) (missing : List Bytes) (txList : List Transaction) : Prop :=
  txList.map Transaction.hash <+: missing ∧
    (((∀ tx ∈ txList, Accepted services tx) ∧ ∀ hash ∈ missing, hash ∈ txList.map Transaction.hash) ∨
      ∃ tx, txList = [tx] ∧ ¬Accepted services tx)

theorem SyncEnd.sound_returned (available : ∀ hash ∈ hashes, Available services.hasTx store hash) :
    (SyncEnd.returned none store).Sound services hashes :=
  ⟨available, fun _ _ stays => splitTxs_isOk_iff.mpr fun hash mem => stays hash mem (available hash mem)⟩

theorem mem_missingTxs_iff :
    hash ∈ missingTxs services store hashes ↔ hash ∈ hashes ∧ ¬Available services.hasTx store hash := by
  simp [missingTxs, Available]

theorem requestTxList_eq_ok_iff : requestTxList request missing store = .ok txList ↔ request missing = some txList ∧
      ¬Differs missing txList ∧ txList.map Transaction.hash <+: missing := by
  rw [requestTxList]
  cases request missing with
  | none => simp
  | some answer =>
      rw [Option.some.injEq]
      rcases checkTxList_cases missing answer store with ⟨checked, agrees, begins⟩ | ⟨checked, differs⟩ |
        ⟨checked, agrees, longer⟩
      · simp only [checked, Except.map, Except.ok.injEq]
        exact ⟨fun same => ⟨same, same ▸ agrees, same ▸ begins⟩, And.left⟩
      · simp only [checked, Except.map, reduceCtorEq, false_iff]
        rintro ⟨rfl, agrees, -⟩
        exact agrees differs
      · simp only [checked, Except.map, reduceCtorEq, false_iff]
        rintro ⟨rfl, -, begins⟩
        have := begins.length_le
        rw [List.length_map] at this
        omega

theorem requestTxList_eq_fault_iff {fault : Fault} :
    requestTxList request missing store = .error (.fault fault) ↔ fault = .indexOutOfRange ∧
      ∃ txList, request missing = some txList ∧ ¬Differs missing txList ∧ missing.length < txList.length := by
  rw [requestTxList]
  cases request missing with
  | none => simp
  | some answer =>
      rcases checkTxList_cases missing answer store with ⟨checked, agrees, begins⟩ | ⟨checked, differs⟩ |
        ⟨checked, agrees, longer⟩
      · simp only [checked, Except.map, reduceCtorEq, false_iff]
        rintro ⟨-, _, ⟨⟩, -, longer⟩
        have := begins.length_le
        rw [List.length_map] at this
        omega
      · simp only [checked, Except.map]
        refine ⟨nofun, ?_⟩
        rintro ⟨-, _, ⟨⟩, agrees, -⟩
        exact absurd differs agrees
      · simp only [checked, Except.map, Except.error.injEq, Halt.fault.injEq]
        exact ⟨fun same => ⟨same.symm, answer, rfl, agrees, longer⟩, fun both => both.1.symm⟩

theorem answers_of_sound (sound : ∀ ending, SyncsTo services request hashes store ending → ending.Sound services hashes)
    {txList : List Transaction} (incomplete : missingTxs services store hashes ≠ [])
    (answered : request (missingTxs services store hashes) = some txList)
    (agrees : ¬Differs (missingTxs services store hashes) txList) :
    Answers services (missingTxs services store hashes) txList := by
  rcases checkTxList_cases (missingTxs services store hashes) txList store with
    ⟨-, -, begins⟩ | ⟨-, differs⟩ | ⟨-, -, longer⟩
  · have asked : requestTxList request (missingTxs services store hashes) store = .ok txList :=
      requestTxList_eq_ok_iff.mpr ⟨answered, agrees, begins⟩
    refine ⟨begins, ?_⟩
    by_cases accepted : ∀ tx ∈ txList, Accepted services tx
    · refine .inl ⟨accepted, fun hash mem => ?_⟩
      obtain ⟨crew, reaches, returned, state_eq⟩ : ∃ crew : Crew (Fin 50) TxStore Transaction TxPoolError,
          Reaches (addTask services) (start txList store) crew ∧ crew.returned = some none ∧
            crew.state = (addTask services).effects txList store :=
        exists_returned 0 fun tx tx_mem => addNewTxError_eq_none_iff.mpr (accepted tx tx_mem)
      obtain ⟨requested, unavailable⟩ := mem_missingTxs_iff.mp mem
      have available := (sound _ (.added incomplete asked reaches returned)).1 hash requested
      rw [state_eq, available_effects accepted] at available
      exact available.resolve_right unavailable
    · simp only [not_forall] at accepted
      obtain ⟨bad, mem, rejected⟩ := accepted
      rcases Nat.lt_or_ge 1 txList.length with many | short
      · obtain ⟨crew, reaches, panicked⟩ := exists_send_on_closed many mem rejected store
        exact (sound _ (.panicked incomplete asked reaches panicked)).elim
      · obtain ⟨tx, rfl⟩ := List.length_eq_one_iff.mp (le_antisymm short (List.length_pos_of_mem mem))
        obtain rfl := List.mem_singleton.mp mem
        exact .inr ⟨bad, rfl, rejected⟩
  · exact absurd differs agrees
  · have asked : requestTxList request (missingTxs services store hashes) store =
        .error (.fault .indexOutOfRange) :=
      requestTxList_eq_fault_iff.mpr ⟨rfl, txList, answered, agrees, longer⟩
    exact (sound _ (.faulted incomplete asked)).elim

theorem SyncsTo.sound (answers : ∀ txList, missingTxs services store hashes ≠ [] →
      request (missingTxs services store hashes) = some txList → ¬Differs (missingTxs services store hashes) txList →
          Answers services (missingTxs services store hashes) txList)
    {ending : SyncEnd} (syncs : SyncsTo services request hashes store ending) : ending.Sound services hashes := by
  cases syncs with
  | complete complete =>
      refine SyncEnd.sound_returned fun hash mem => ?_
      by_contra unavailable
      simpa [complete] using mem_missingTxs_iff.mpr ⟨mem, unavailable⟩
  | refused => trivial
  | faulted incomplete faulted =>
      obtain ⟨-, txList, answered, agrees, longer⟩ := requestTxList_eq_fault_iff.mp faulted
      have := (answers txList incomplete answered agrees).1.length_le
      rw [List.length_map] at this
      omega
  | @added txList crew result incomplete asked reaches returned =>
      obtain ⟨answered, agrees, -⟩ := requestTxList_eq_ok_iff.mp asked
      cases result with
      | some reason => trivial
      | none =>
          obtain ⟨clean, order, perm, state_eq⟩ := effects_of_returned reaches returned
          have accepted (tx : Transaction) (mem : tx ∈ txList) : Accepted services tx :=
            addNewTxError_eq_none_iff.mp (clean tx mem)
          have covers : ∀ hash ∈ missingTxs services store hashes, hash ∈ txList.map Transaction.hash := by
            rcases (answers txList incomplete answered agrees).2 with ⟨-, covers⟩ | ⟨tx, rfl, rejected⟩
            · exact covers
            · exact absurd (accepted tx List.mem_cons_self) rejected
          refine SyncEnd.sound_returned fun hash mem => ?_
          rw [state_eq, available_effects fun tx tx_mem => accepted tx (perm.mem_iff.mp tx_mem),
            (perm.map Transaction.hash).mem_iff]
          by_cases available : Available services.hasTx store hash
          · exact .inr available
          · exact .inl (covers hash (mem_missingTxs_iff.mpr ⟨mem, available⟩))
  | @panicked txList crew incomplete asked reaches panicked =>
      obtain ⟨answered, agrees, -⟩ := requestTxList_eq_ok_iff.mp asked
      have safe : txList.length ≤ 1 ∨ ∀ tx ∈ txList, Accepted services tx := by
        rcases (answers txList incomplete answered agrees).2 with ⟨accepted, -⟩ | ⟨tx, rfl, -⟩
        · exact .inr accepted
        · exact .inl le_rfl
      simp [not_panicked_of_accepted safe reaches] at panicked

/-- A call that returns nil is one in which the workers go one after the other. -/
theorem syncTxs_of_returned {store' : TxStore} (syncs : SyncsTo services request hashes store (.returned none store')) :
    ∃ order : List Transaction → List Transaction, (∀ txList, (order txList).Perm txList) ∧
      syncTxs services request order hashes store = (.ok (), store') := by
  cases syncs with
  | complete complete =>
      refine ⟨id, fun _ => .refl _, ?_⟩
      rw [syncTxs, Program.bind_eq]
      simp only [Program.get]
      rw [complete, if_pos List.length_nil]
      rfl
  | @added txList crew _ incomplete asked reaches returned =>
      obtain ⟨order, perm, added⟩ := addTxList_of_returned reaches returned
      obtain ⟨answered, -, begins⟩ := requestTxList_eq_ok_iff.mp asked
      have asks : (missingTxs services store hashes).length ≠ 0 := fun none_missing =>
        incomplete (List.eq_nil_of_length_eq_zero none_missing)
      refine ⟨fun other => if other = txList then order else other, fun other => ?_, ?_⟩
      · beta_reduce
        split
        · next same => exact same ▸ perm
        · exact .refl other
      · rw [syncTxs, Program.bind_eq]
        simp only [Program.get]
        rw [if_neg asks, answered]
        simp only [if_true]
        rw [Program.bind_eq, run_checkTxList begins, ← added]

/-- The peer sends the one transaction that is missing. -/
theorem syncTxs_of_returned_one : ∃ store' order, (∀ txList : List Transaction, (order txList).Perm txList) ∧
    syncTxs openServices (fun _ => some [transparentTx [1] [2]]) order [(transparentTx [1] [2]).hash] newTxStore =
      (.ok (), store') := by
  obtain ⟨crew, reaches, returned, -⟩ := @exists_returned (Fin 50) _ _ _ _ (addTask openServices)
    [transparentTx [1] [2]] newTxStore 0 (by decide +kernel)
  exact ⟨_, syncTxs_of_returned (.added (by decide +kernel) rfl reaches returned)⟩

/-- Every call of `SyncTxs` is sound exactly where an answer that agrees with the request, as far as
both go, answers it. -/
theorem syncTxs_sound_iff (services : Services) (request : List Bytes → Option (List Transaction))
    (hashes : List Bytes) (store : TxStore) :
    (∀ ending, SyncsTo services request hashes store ending → ending.Sound services hashes) ↔
      ∀ txList, missingTxs services store hashes ≠ [] →
        request (missingTxs services store hashes) = some txList →
          ¬Differs (missingTxs services store hashes) txList →
            Answers services (missingTxs services store hashes) txList :=
  ⟨fun sound _ => answers_of_sound sound, fun answers _ => SyncsTo.sound answers⟩

/-- A peer that sends more than was asked for ends the process, and one that sends nothing makes the
call return nil with nothing synchronized. -/
theorem wrong_length_unsound :
    SyncsTo openServices (fun _ => some [transparentTx [1] [2], transparentTx [1] [2]])
        [(transparentTx [1] [2]).hash] newTxStore (.faulted .indexOutOfRange) ∧
      SyncsTo openServices (fun _ => some []) [(transparentTx [1] [2]).hash] newTxStore
        (.returned none newTxStore) ∧
      splitTxs openServices.hasTx newTxStore [(transparentTx [1] [2]).hash] =
        .error (.fatal "missing tx to execute") := by
  have incomplete : missingTxs openServices newTxStore [(transparentTx [1] [2]).hash] ≠ [] := by
    decide +kernel
  obtain ⟨crew, reaches, returned, state_eq⟩ : ∃ crew : Crew (Fin 50) TxStore Transaction TxPoolError,
      Reaches (addTask openServices) (start [] newTxStore) crew ∧ crew.returned = some none ∧
        crew.state = newTxStore := exists_returned 0 nofun
  have returns : SyncsTo openServices (fun _ => some []) [(transparentTx [1] [2]).hash] newTxStore
      (.returned none crew.state) := .added incomplete rfl reaches returned
  exact ⟨.faulted incomplete rfl, state_eq ▸ returns, rfl⟩

end SvpChain.TxPool
