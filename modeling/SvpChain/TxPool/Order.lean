import SvpChain.TxPool.Refinement

/-!
# The order of the queue

What `popTxsFromQueue` takes are the oldest transactions of the queue, oldest first.
`getTxsFromQueue` reads the array of the heap from its start, and shows the same transactions only
where that part of the array is in order.
-/

namespace SvpChain.TxPool
namespace ItemStore

open Core

/-- The receive time of a transaction. -/
def receivedTime (store : ItemStore) (hash : Bytes) : ℤ :=
  ((store.item hash).map TxItem.receivedTime).getD 0

/-! ## Pointers that were popped -/

/-- The queue held the popped pointers, in order, in front of what is left. -/
structure Popped (store store' : ItemStore) (pointers : List ℕ) : Prop where
  requeued : Requeued store store'
  perm : (pointers ++ store'.txq).Perm store.txq
  front : Heap.Front (time store.contents) pointers store'.txq

variable {store : ItemStore}

theorem Heaped.head_le (heaped : store.Heaped) {pointer : ℕ} (found : store.txq[0]? = some pointer) :
    ∀ other ∈ store.txq, time store.contents pointer ≤ time store.contents other := by
  intro other mem
  obtain ⟨place, place_eq⟩ := List.mem_iff_getElem?.mp mem
  obtain ⟨inside, -⟩ := List.getElem?_eq_some_iff.mp place_eq
  exact heaped.ordered.head_le le_rfl inside pointer other found place_eq

theorem Requeued.hashOf_eq {store' : ItemStore} (requeued : Requeued store store') (pointer : ℕ) :
    store'.hashOf pointer = store.hashOf pointer := by
  rw [ItemStore.hashOf_eq, requeued.contents_eq, ← ItemStore.hashOf_eq]

theorem Popped.cons {first second third : ItemStore} {pointer : ℕ} {pointers : List ℕ}
    (later : Popped second third pointers) (requeued : Requeued first second)
    (perm : (pointer :: second.txq).Perm first.txq)
    (oldest : ∀ other ∈ first.txq, time first.contents pointer ≤ time first.contents other) :
    Popped first third (pointer :: pointers) where
  requeued := ⟨later.requeued.heaped, later.requeued.contents_eq.trans requeued.contents_eq,
    later.requeued.entries_eq.trans requeued.entries_eq⟩
  perm := (later.perm.cons pointer).trans perm
  front := by
    refine Heap.Front.cons (requeued.contents_eq ▸ later.front) fun other mem => oldest other ?_
    exact perm.mem_iff.mp (List.mem_cons_of_mem _ (later.perm.mem_iff.mp mem))

theorem Heaped.popped_popTxs (heaped : store.Heaped) {count : ℕ} (enough : count ≤ store.txq.length) :
    ∃ pointers, pointers.length = count ∧ (popTxs count store).1 = pointers.filterMap store.hashOf ∧
      Popped store (popTxs count store).2 pointers := by
  induction count generalizing store with
  | zero => exact ⟨[], rfl, rfl, .refl heaped, .refl _, .nil, nofun⟩
  | succ count ih =>
      have found := List.getElem?_eq_getElem (show 0 < store.txq.length by omega)
      generalize store.txq[0] = pointer at found
      obtain ⟨popped, requeued, perm⟩ := heaped.heapPop found
      have length_eq : (txQueue.heapPop store).2.txq.length + 1 = store.txq.length := perm.length_eq
      obtain ⟨pointers, count_eq, hashes_eq, later⟩ := ih requeued.heaped (by omega)
      have allocated := heaped.allocated pointer (List.mem_of_getElem? found)
      have hash_eq : store.hashOf pointer = some store.memory[pointer].tx.hash := by
        rw [hashOf, List.getElem?_eq_getElem allocated, Option.map_some]
      rw [popTxs_succ popped ((requeued.hashOf_eq pointer).trans hash_eq)]
      refine ⟨pointer :: pointers, congrArg (· + 1) count_eq, ?_,
        later.cons requeued perm (heaped.head_le found)⟩
      rw [List.filterMap_cons_some hash_eq, hashes_eq]
      exact congrArg _ (List.filterMap_congr fun other _ => requeued.hashOf_eq other)

/-! ## Hashes that were popped -/

section

variable {store : ItemStore} (represents : store.Represents)
include represents

theorem Represents.entry_name {pointer : ℕ} (queued : pointer ∈ store.txq) :
    (name store.contents pointer, pointer) ∈ store.txItems := by
  obtain ⟨hash, entry⟩ := represents.entry_of_queued queued
  rwa [represents.keyed.name_of_entry entry]

variable {pointers : List ℕ}

theorem Represents.filterMap_hashOf (queued : ∀ pointer ∈ pointers, pointer ∈ store.txq) :
    pointers.filterMap store.hashOf = pointers.map (name store.contents) := by
  rw [← List.filterMap_eq_map]
  exact List.filterMap_congr fun pointer mem =>
    represents.hash_of_entry (represents.entry_name (queued pointer mem))

theorem Represents.name_inj {first second : ℕ} (first_queued : first ∈ store.txq)
    (second_queued : second ∈ store.txq) (name_eq : name store.contents first = name store.contents second) :
    first = second := by
  have first_eq := represents.pointer_eq_some_iff.mpr (represents.entry_name first_queued)
  have second_eq := represents.pointer_eq_some_iff.mpr (represents.entry_name second_queued)
  rw [name_eq, second_eq] at first_eq
  exact (Option.some.inj first_eq).symm

theorem Represents.map_name_inj {pointers' : List ℕ} (queued : ∀ pointer ∈ pointers, pointer ∈ store.txq)
    (queued' : ∀ pointer ∈ pointers', pointer ∈ store.txq)
    (names_eq : pointers.map (name store.contents) = pointers'.map (name store.contents)) : pointers = pointers' := by
  induction pointers generalizing pointers' with
  | nil => exact (List.map_eq_nil_iff.mp names_eq.symm).symm
  | cons first pointers ih =>
      obtain ⟨first', rest, rfl, first_eq, rest_eq⟩ := List.map_eq_cons_iff.mp names_eq.symm
      rw [List.forall_mem_cons] at queued queued'
      rw [represents.name_inj queued.1 queued'.1 first_eq.symm, ih queued.2 queued'.2 rest_eq.symm]

theorem Represents.receivedTime_name {pointer : ℕ} (queued : pointer ∈ store.txq) :
    store.receivedTime (name store.contents pointer) = time store.contents pointer := by
  have pointed := represents.pointer_eq_some_iff.mpr (represents.entry_name queued)
  rw [receivedTime, item, pointed]
  simp [time, contents, Function.comp_def]

theorem Represents.getTxStatus_queue_iff {hash : Bytes} :
    store.getTxStatus hash = .queue ↔ ∃ pointer ∈ store.txq, name store.contents pointer = hash := by
  rw [represents.getTxStatus_eq]
  constructor
  · intro queued
    cases found : store.pointer hash with
    | none => simp [found] at queued
    | some pointer =>
        refine ⟨pointer, ?_, represents.keyed.name_of_entry (mem_of_pointer found)⟩
        by_contra outside
        simp [found, outside] at queued
  · rintro ⟨pointer, queued, rfl⟩
    rw [represents.pointer_eq_some_iff.mpr (represents.entry_name queued)]
    exact if_pos queued

theorem Represents.popped_popTxs {count : ℕ} (enough : count ≤ store.txq.length) :
    ∃ pointers, pointers.length = count ∧ (∀ pointer ∈ pointers, pointer ∈ store.txq) ∧
      (popTxs count store).1 = pointers.map (name store.contents) ∧ Popped store (popTxs count store).2 pointers := by
  obtain ⟨pointers, length_eq, hashes_eq, popped⟩ := represents.heaped.popped_popTxs enough
  have queued (pointer : ℕ) (mem : pointer ∈ pointers) : pointer ∈ store.txq :=
    popped.perm.mem_iff.mp (List.mem_append_left _ mem)
  exact ⟨pointers, length_eq, queued, hashes_eq.trans (represents.filterMap_hashOf queued), popped⟩

theorem Represents.nodup_map_name (queued : ∀ pointer ∈ pointers, pointer ∈ store.txq)
    (nodup : pointers.Nodup) : (pointers.map (name store.contents)).Nodup :=
  nodup.map_on fun first first_mem second second_mem =>
    represents.name_inj (queued first first_mem) (queued second second_mem)

end

theorem popTxsFromQueue_natCast (store : ItemStore) (max : ℕ) :
    store.popTxsFromQueue max = (.ok (popTxs (min store.txq.length max) store).1,
      (popTxs (min store.txq.length max) store).2) := by
  rw [popTxsFromQueue, fill, if_neg (by omega), ← Nat.cast_min, Int.toNat_natCast]

/-- After any calls on a new store, `popTxsFromQueue` takes the oldest transactions of the queue,
oldest first, and makes them pending; the others keep their status. -/
theorem pop_oldest_first (calls : List StoreCall) (max : ℕ) :
    let store := calls.foldl StoreCall.run newItemStore
    let after := (store.popTxsFromQueue max).2
    ∃ hashes, (store.popTxsFromQueue max).1 = .ok hashes ∧
      hashes.length = min store.txq.length max ∧ hashes.Nodup ∧
      (hashes.Pairwise fun first second => store.receivedTime first ≤ store.receivedTime second) ∧
      (∀ first ∈ hashes, ∀ left, after.getTxStatus left = .queue →
        store.getTxStatus left = .queue ∧ store.receivedTime first ≤ store.receivedTime left) ∧
      (∀ hash ∈ hashes, store.getTxStatus hash = .queue ∧ after.getTxStatus hash = .pending) ∧
      ∀ hash, hash ∉ hashes → after.getTxStatus hash = store.getTxStatus hash := by
  intro store
  have represents : store.Represents := represents_run calls
  have enough : min store.txq.length max ≤ store.txq.length := min_le_left _ _
  rw [popTxsFromQueue_natCast]
  intro after
  obtain ⟨outcome, were_queued⟩ := represents.outcome_popTxs enough
  obtain ⟨pointers, length_eq, queued, hashes_eq, popped⟩ := represents.popped_popTxs enough
  have nodup : pointers.Nodup :=
    ((popped.perm.nodup_iff.mpr represents.heaped.placed.nodup).sublist (List.sublist_append_left _ _))
  have status_eq (hash : Bytes) : after.getTxStatus hash = moved .pending _ hash (store.getTxStatus hash) :=
    outcome.status_eq hash
  refine ⟨_, rfl, ?_, ?_, ?_, ?_, ?_, ?_⟩
  · rw [hashes_eq, List.length_map, length_eq]
  · rw [hashes_eq]
    exact represents.nodup_map_name queued nodup
  · rw [hashes_eq, List.pairwise_map]
    refine popped.front.sorted.imp_of_mem fun first_mem second_mem older => ?_
    rwa [represents.receivedTime_name (queued _ first_mem), represents.receivedTime_name (queued _ second_mem)]
  · intro first first_mem left left_queued
    rw [hashes_eq] at first_mem
    obtain ⟨pointer, mem, rfl⟩ := List.mem_map.mp first_mem
    obtain ⟨other, other_mem, rfl⟩ := outcome.represents.getTxStatus_queue_iff.mp left_queued
    have other_queued : other ∈ store.txq := popped.perm.mem_iff.mp (List.mem_append_right _ other_mem)
    rw [popped.requeued.contents_eq, represents.receivedTime_name (queued pointer mem),
      represents.receivedTime_name other_queued]
    exact ⟨represents.getTxStatus_queue_iff.mpr ⟨other, other_queued, rfl⟩,
      popped.front.below pointer mem other other_mem⟩
  · intro hash mem
    have before := were_queued hash mem
    refine ⟨before, ?_⟩
    rw [status_eq, before, moved]
    exact if_pos ⟨mem, by rintro ⟨⟩⟩
  · intro hash outside
    rw [status_eq, moved]
    exact if_neg fun both => outside both.1

/-! ## Peeking -/

/-- Queued transactions were received at different times. -/
def DistinctTimes (store : ItemStore) : Prop :=
  ∀ first second, store.getTxStatus first = .queue → store.getTxStatus second = .queue →
    store.receivedTime first = store.receivedTime second → first = second

/-- The first `max` places of the queue are in order, and no later place is older. -/
def FrontInOrder (store : ItemStore) (max : ℤ) : Prop :=
  ∀ i j : ℕ, i < max → i < j → j < store.txq.length → store.timeAt i ≤ store.timeAt j

theorem frontInOrder_iff (store : ItemStore) (max : ℕ) : store.FrontInOrder max ↔
      Heap.Front (time store.contents) (store.txq.take max) (store.txq.drop max) := by
  rw [Heap.front_take_iff]
  constructor
  · intro order i j first second inside later first_eq second_eq
    obtain ⟨j_lt, -⟩ := List.getElem?_eq_some_iff.mp second_eq
    rw [← timeAt_eq first_eq, ← timeAt_eq second_eq]
    exact order i j (by omega) later j_lt
  · intro order i j inside later j_lt
    have first_eq := List.getElem?_eq_getElem (show i < store.txq.length by omega)
    have second_eq := List.getElem?_eq_getElem j_lt
    rw [timeAt_eq first_eq, timeAt_eq second_eq]
    exact order i j _ _ (by omega) later first_eq second_eq

theorem getTxsFromQueue_natCast (store : ItemStore) (max : ℕ) :
    (store.getTxsFromQueue max).1 = .ok ((store.txq.take max).filterMap store.hashOf) := by
  rw [getTxsFromQueue, fill, if_neg (by omega), ← Nat.cast_min, Int.toNat_natCast]
  rw [min_comm, ← List.take_eq_take_min]

theorem DistinctTimes.time_inj (distinct : store.DistinctTimes)
    (represents : store.Represents) {first second : ℕ} (first_queued : first ∈ store.txq)
    (second_queued : second ∈ store.txq)
    (time_eq : time store.contents first = time store.contents second) : first = second := by
  refine represents.name_inj first_queued second_queued (distinct _ _ ?_ ?_ ?_)
  · exact represents.getTxStatus_queue_iff.mpr ⟨first, first_queued, rfl⟩
  · exact represents.getTxStatus_queue_iff.mpr ⟨second, second_queued, rfl⟩
  · rw [represents.receivedTime_name first_queued, represents.receivedTime_name second_queued, time_eq]

/-- The two calls return the same hashes where the array of the heap starts with its oldest items. -/
theorem Represents.getTxs_eq_popTxs_iff (represents : store.Represents) (distinct : store.DistinctTimes) (max : ℕ) :
    (store.txq.take max).filterMap store.hashOf = (popTxs (min store.txq.length max) store).1 ↔
      Heap.Front (time store.contents) (store.txq.take max) (store.txq.drop max) := by
  obtain ⟨pointers, length_eq, queued, hashes_eq, popped⟩ :=
    represents.popped_popTxs (min_le_left store.txq.length max)
  have taken_queued (pointer : ℕ) (mem : pointer ∈ store.txq.take max) : pointer ∈ store.txq :=
    List.mem_of_mem_take mem
  rw [hashes_eq, represents.filterMap_hashOf taken_queued]
  constructor
  · intro same
    have taken_eq : store.txq.take max = pointers := represents.map_name_inj taken_queued queued same
    have rest_perm : (popTxs (min store.txq.length max) store).2.txq.Perm (store.txq.drop max) := by
      rw [← List.perm_append_left_iff pointers, ← taken_eq, List.take_append_drop, taken_eq]
      exact popped.perm
    rw [taken_eq]
    exact ⟨popped.front.sorted, fun first mem second second_mem =>
      popped.front.below first mem second (rest_perm.mem_iff.mpr second_mem)⟩
  · intro front
    refine congrArg _ (front.eq popped.front ?_ ?_ ?_)
    · rw [List.take_append_drop]
      exact popped.perm.symm
    · rw [List.length_take, length_eq, min_comm]
    · rw [List.take_append_drop]
      exact fun first first_mem second second_mem => distinct.time_inj represents first_mem second_mem

/-- After any calls on a new store whose queued transactions came at different times,
`getTxsFromQueue` changes nothing, and returns what `popTxsFromQueue` would where the places it reads
are in order and no place behind them is older. -/
theorem peek_eq_pop_iff (calls : List StoreCall)
    (distinct : (calls.foldl StoreCall.run newItemStore).DistinctTimes) (max : ℤ) :
    let store := calls.foldl StoreCall.run newItemStore
    (store.getTxsFromQueue max).2 = store ∧
      ((store.getTxsFromQueue max).1 = (store.popTxsFromQueue max).1 ↔ store.FrontInOrder max) := by
  intro store
  have represents : store.Represents := represents_run calls
  refine ⟨store.getTxsFromQueue_snd max, ?_⟩
  rcases lt_or_ge max 0 with negative | nonnegative
  · -- Both calls panic when they make the slice.
    have panics : min (store.txq.length : ℤ) max < 0 := by omega
    rw [getTxsFromQueue, popTxsFromQueue, fill, fill, if_pos panics, if_pos panics]
    exact iff_of_true rfl fun i j inside => absurd inside (by omega)
  · lift max to ℕ using nonnegative
    rw [getTxsFromQueue_natCast, popTxsFromQueue_natCast, Except.ok.injEq, store.frontInOrder_iff]
    exact represents.getTxs_eq_popTxs_iff distinct max

theorem Represents.distinctTimes (represents : store.Represents)
    (nodup : (store.txq.map (time store.contents)).Nodup) : store.DistinctTimes := by
  intro first second first_queued second_queued time_eq
  obtain ⟨pointer, mem, rfl⟩ := represents.getTxStatus_queue_iff.mp first_queued
  obtain ⟨other, other_mem, rfl⟩ := represents.getTxStatus_queue_iff.mp second_queued
  rw [represents.receivedTime_name mem, represents.receivedTime_name other_mem] at time_eq
  rw [List.inj_on_of_nodup_map nodup mem other_mem time_eq]

/-- A transaction with the given hash. -/
def hashedTx (hash : Bytes) : Transaction :=
  ⟨⟨hash, [], 0, List.replicate 32 1, [], [], 0⟩, ⟨List.replicate 32 1, length_ones⟩⟩

/-- Three transactions received one after the other. -/
def arrivals : List StoreCall :=
  [.addNewTx (hashedTx [1]) 1, .addNewTx (hashedTx [2]) 2, .addNewTx (hashedTx [3]) 3]

/-- In the order of arrival the two calls agree. -/
theorem peek_eq_pop_arrivals :
    (arrivals.foldl StoreCall.run newItemStore).DistinctTimes ∧
      ((arrivals.foldl StoreCall.run newItemStore).getTxsFromQueue 2).1 =
        ((arrivals.foldl StoreCall.run newItemStore).popTxsFromQueue 2).1 := by
  have distinct : (arrivals.foldl StoreCall.run newItemStore).DistinctTimes :=
    (represents_run arrivals).distinctTimes (by decide +kernel)
  have length_eq : (arrivals.foldl StoreCall.run newItemStore).txq.length = 3 := by decide +kernel
  refine ⟨distinct, (peek_eq_pop_iff arrivals distinct 2).2.mpr fun i j inside later j_lt => ?_⟩
  have : i < 2 := by omega
  have : j < 3 := by omega
  interval_cases i <;> interval_cases j <;> revert later <;> decide +kernel

/-- The second transaction is set pending and put back: it is behind the third in the array, and
`getTxsFromQueue` shows the third in its place. -/
theorem peek_differs_from_pop :
    let store := (arrivals ++ [StoreCall.setTxsPending [[2]], .putTxsToQueue [[2]]]).foldl StoreCall.run
      newItemStore
    store.DistinctTimes ∧ (store.getTxsFromQueue 2).1 = .ok [[1], [3]] ∧
      (store.popTxsFromQueue 2).1 = .ok [[1], [2]] := by
  refine ⟨(represents_run _).distinctTimes ?_, ?_, ?_⟩
  · decide +kernel
  · rfl
  · rfl

end ItemStore
end SvpChain.TxPool
