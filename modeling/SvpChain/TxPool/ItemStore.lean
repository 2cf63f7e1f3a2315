import SvpChain.Lib.Heap
import SvpChain.TxPool.TxStore

/-!
# The transaction store by pointer

`txStore` as it lies in memory: the queue and the map hold pointers to the same items, `Swap`, `Push`
and `Pop` of the queue write the index of an item through its pointer, and random removal reads it
back.  A pointer is a place in the list of all items ever allocated.
-/

namespace SvpChain.TxPool

open Core

/-- `newTxItem` at a time. -/
def newTxItem (tx : Transaction) (now : ℤ) : TxItem := ⟨tx, now, -1⟩

/-- `txStore`, with the memory its pointers point into. -/
structure ItemStore where
  memory : List TxItem
  txq : List ℕ
  txItems : List (Bytes × ℕ)

/-- `newTxStore`. -/
def newItemStore : ItemStore := ⟨[], [], []⟩

/-- `Status`. -/
structure Status where
  total : ℤ
  queue : ℤ
  pending : ℤ
  deriving DecidableEq

/-- `TxStatus`. -/
inductive TxStatus where
  | notFound
  | queue
  | pending
  deriving DecidableEq

namespace ItemStore

/-- `store.txItems[string(hash)]`. -/
def pointer (store : ItemStore) (hash : Bytes) : Option ℕ :=
  (store.txItems.find? fun entry => entry.1 = hash).map Prod.snd

/-- Write the index of an item through its pointer. -/
def setIndex (store : ItemStore) (pointer : ℕ) (index : ℤ) : ItemStore :=
  { store with memory := store.memory.modify pointer fun item => { item with index := index } }

/-- `item.inQueue()` through a pointer. -/
def inQueue (store : ItemStore) (pointer : ℕ) : Bool := (store.memory[pointer]?).any TxItem.inQueue

/-! ## The queue -/

/-- The receive time at a place of the queue. -/
def timeAt (store : ItemStore) (place : ℕ) : ℤ :=
  (((store.txq[place]?).bind (store.memory[·]?)).map TxItem.receivedTime).getD 0

/-- `txQueue.Less`. -/
def less (store : ItemStore) (i j : ℕ) : Bool := store.timeAt i < store.timeAt j

/-- `txQueue.Swap`. -/
def swap (store : ItemStore) (i j : ℕ) : ItemStore :=
  match store.txq[i]?, store.txq[j]? with
  | some first, some second =>
      ({ store with txq := (store.txq.set i second).set j first }.setIndex second i).setIndex first j
  | _, _ => store

/-- `txQueue.Push`. -/
def push (store : ItemStore) (pointer : ℕ) : ItemStore :=
  { store.setIndex pointer store.txq.length with txq := store.txq ++ [pointer] }

/-- `txQueue.Pop`. -/
def pop (store : ItemStore) : Option ℕ × ItemStore :=
  match store.txq.getLast? with
  | some pointer => (some pointer, { store.setIndex pointer (-1) with txq := store.txq.dropLast })
  | none => (none, store)

/-- `txQueue` as a `heap.Interface`. -/
def txQueue : Heap.Interface ItemStore ℕ where
  len store := store.txq.length
  less := less
  swap := swap
  push := push
  pop := pop

/-! ## The store -/

/-- `txStore.addNewTx` at a time. -/
def addNewTx (store : ItemStore) (tx : Transaction) (now : ℤ) : ItemStore :=
  if (store.pointer tx.hash).isSome then store
  else
    let pointer := store.memory.length
    let store := { store with memory := store.memory ++ [newTxItem tx now] }
    let store := txQueue.heapPush store pointer
    { store with txItems := (tx.hash, pointer) :: store.txItems }

/-- The hash of the item behind a pointer. -/
def hashOf (store : ItemStore) (pointer : ℕ) : Option Bytes :=
  (store.memory[pointer]?).map fun item => item.tx.hash

/-- The loop of `popTxsFromQueue`. -/
def popTxs : ℕ → ItemStore → List Bytes × ItemStore
  | 0, store => ([], store)
  | count + 1, store =>
      let (popped, store) := txQueue.heapPop store
      let (hashes, after) := popTxs count store
      ((popped.bind store.hashOf).toList ++ hashes, after)

/-- `make([][]byte, count)` and the loop that fills it, for `count = min(store.txq.Len(), max)`. -/
def fill {α : Type} (count : ℤ) (loop : ℕ → List Bytes × α) (store : α) :
    Except Fault (List Bytes) × α :=
  if count < 0 then (.error (.panic "makeslice: len out of range"), store)
  else ((.ok (loop count.toNat).1), (loop count.toNat).2)

/-- `txStore.popTxsFromQueue`. -/
def popTxsFromQueue (store : ItemStore) (max : ℤ) : Except Fault (List Bytes) × ItemStore :=
  fill (min store.txq.length max) (fun count => popTxs count store) store

/-- `txStore.getTxsFromQueue`. -/
def getTxsFromQueue (store : ItemStore) (max : ℤ) : Except Fault (List Bytes) × ItemStore :=
  fill (min store.txq.length max) (fun count => ((store.txq.take count).filterMap store.hashOf, store)) store

/-- One round of `putTxsToQueue`. -/
def putTx (store : ItemStore) (hash : Bytes) : ItemStore :=
  match store.pointer hash with
  | some pointer => if store.inQueue pointer then store else txQueue.heapPush store pointer
  | none => store

/-- `txStore.putTxsToQueue`. -/
def putTxsToQueue (store : ItemStore) (hashes : List Bytes) : ItemStore := hashes.foldl putTx store

/-- The removal of an item from the queue, where it is in there. -/
def removeFromQueue (store : ItemStore) (pointer : ℕ) : ItemStore :=
  match store.memory[pointer]? with
  | some item => if item.inQueue then (txQueue.heapRemove store item.index.toNat).2 else store
  | none => store

/-- One round of `setTxsPending`. -/
def setTxPending (store : ItemStore) (hash : Bytes) : ItemStore :=
  match store.pointer hash with
  | some pointer => store.removeFromQueue pointer
  | none => store

/-- `txStore.setTxsPending`. -/
def setTxsPending (store : ItemStore) (hashes : List Bytes) : ItemStore :=
  hashes.foldl setTxPending store

/-- `delete(store.txItems, string(hash))`. -/
def deleteItem (store : ItemStore) (hash : Bytes) : ItemStore :=
  { store with txItems := store.txItems.filter fun entry => entry.1 ≠ hash }

/-- One round of `removeTxs`. -/
def removeTx (store : ItemStore) (hash : Bytes) : ItemStore :=
  match store.pointer hash with
  | some pointer => (store.removeFromQueue pointer).deleteItem hash
  | none => store

/-- `txStore.removeTxs`. -/
def removeTxs (store : ItemStore) (hashes : List Bytes) : ItemStore := hashes.foldl removeTx store

/-- The item of a hash. -/
def item (store : ItemStore) (hash : Bytes) : Option TxItem :=
  (store.pointer hash).bind (store.memory[·]?)

/-- `txStore.getTx`. -/
def getTx (store : ItemStore) (hash : Bytes) : Option Transaction := (store.item hash).map TxItem.tx

/-- `txStore.getTxStatus`. -/
def getTxStatus (store : ItemStore) (hash : Bytes) : TxStatus :=
  match store.item hash with
  | none => .notFound
  | some item => if item.inQueue then .queue else .pending

/-- `txStore.getStatus`. -/
def getStatus (store : ItemStore) : Status where
  total := store.txItems.length
  queue := store.txq.length
  pending := store.txItems.length - store.txq.length

/-! ## The queue is an indexed heap -/

/-- What never changes in an item. -/
def contents (store : ItemStore) : List (Transaction × ℤ) :=
  store.memory.map fun item => (item.tx, item.receivedTime)

/-- The receive time behind a pointer. -/
def time (contents : List (Transaction × ℤ)) (pointer : ℕ) : ℤ :=
  (contents[pointer]?.map Prod.snd).getD 0

/-- The queue, with the indexes its items carry. -/
def observe (store : ItemStore) : Heap.Indexed ℕ :=
  ⟨store.txq, fun pointer => (store.memory[pointer]?.map TxItem.index).getD (-1)⟩

/-- The store has the given items and entries, and its queue is the given one. -/
structure Tracks (contents : List (Transaction × ℤ)) (entries : List (Bytes × ℕ)) (store : ItemStore)
    (queue : Heap.Indexed ℕ) : Prop where
  contents_eq : store.contents = contents
  entries_eq : store.txItems = entries
  allocated : ∀ pointer ∈ store.txq, pointer < contents.length
  observe_eq : store.observe = queue

@[simp]
theorem contents_setIndex (store : ItemStore) (pointer : ℕ) (index : ℤ) :
    (store.setIndex pointer index).contents = store.contents := by
  apply List.ext_getElem?
  intro place
  simp only [contents, setIndex, List.getElem?_map, List.getElem?_modify, Option.map_eq_map,
    Option.map_map]
  congr 1
  funext item
  simp only [Function.comp_apply]
  split <;> rfl

variable {store store' : ItemStore} {entries : List (Bytes × ℕ)} {queue : Heap.Indexed ℕ}
   {hash : Bytes} {change : Bytes → TxStatus → TxStatus} {tx : Transaction}

theorem index_setIndex {pointer : ℕ} (index : ℤ)
    (allocated : pointer < store.memory.length) : (store.setIndex pointer index).observe.index =
      Function.update store.observe.index pointer index := by
  funext other
  simp only [observe, setIndex]
  rw [Function.update_apply, List.getElem?_modify]
  split
  · rename_i same
    subst same
    simp [List.getElem?_eq_getElem allocated]
  · rename_i different
    simp [Ne.symm different]

theorem length_contents (store : ItemStore) : store.contents.length = store.memory.length :=
  List.length_map _

theorem timeAt_eq {place pointer : ℕ} (found : store.txq[place]? = some pointer) :
    store.timeAt place = time store.contents pointer := by
  simp [timeAt, time, contents, found, Function.comp_def]

theorem Tracks.memory_of_mem {contents : List (Transaction × ℤ)} (tracks : Tracks contents entries store queue)
    {pointer place : ℕ} (found : store.txq[place]? = some pointer) : pointer < store.memory.length := by
  rw [← store.length_contents, tracks.contents_eq]
  exact tracks.allocated pointer (List.mem_of_getElem? found)

theorem Tracks.swap {contents : List (Transaction × ℤ)} (tracks : Tracks contents entries store queue)
    {i j : ℕ} (first : i < store.txq.length) (second : j < store.txq.length) :
    Tracks contents entries (store.swap i j) (queue.swap i j) := by
  have first_eq := List.getElem?_eq_getElem first
  have second_eq := List.getElem?_eq_getElem second
  have first_memory := tracks.memory_of_mem first_eq
  have second_memory := tracks.memory_of_mem second_eq
  obtain ⟨rfl, rfl, allocated, rfl⟩ := tracks
  have observe_eq : (store.swap i j).observe = store.observe.swap i j := by
    simp only [ItemStore.swap, Heap.Indexed.swap, observe, first_eq, second_eq, Heap.Indexed.mk.injEq]
    refine ⟨rfl, (index_setIndex j (by simpa [setIndex] using first_memory)).trans ?_⟩
    rw [index_setIndex i (by simpa using second_memory)]
    rfl
  refine ⟨?_, ?_, ?_, observe_eq⟩
  · simp only [ItemStore.swap, first_eq, second_eq, contents_setIndex]
    rfl
  · simp only [ItemStore.swap, first_eq, second_eq]
    rfl
  · intro pointer mem
    refine allocated pointer ((store.observe.swap_perm i j).mem_iff.mp ?_)
    rwa [← observe_eq]

theorem Tracks.push {contents : List (Transaction × ℤ)} (tracks : Tracks contents entries store queue)
    {pointer : ℕ} (allocated : pointer < contents.length) :
    Tracks contents entries (store.push pointer) (queue.push pointer) := by
  obtain ⟨rfl, rfl, old, rfl⟩ := tracks
  refine ⟨store.contents_setIndex _ _, rfl, ?_, ?_⟩
  · intro other mem
    rcases List.mem_append.mp mem with before | own
    · exact old other before
    · obtain rfl := List.mem_singleton.mp own
      exact allocated
  · simp only [observe, ItemStore.push, Heap.Indexed.push, Heap.Indexed.mk.injEq, true_and]
    exact index_setIndex store.txq.length (store.length_contents ▸ allocated)

theorem Tracks.pop {contents : List (Transaction × ℤ)} (tracks : Tracks contents entries store queue) :
    store.pop.1 = queue.pop.1 ∧ Tracks contents entries store.pop.2 queue.pop.2 := by
  have memory_of_mem : ∀ {pointer place : ℕ}, store.txq[place]? = some pointer →
      pointer < store.memory.length := tracks.memory_of_mem
  obtain ⟨rfl, rfl, allocated, rfl⟩ := tracks
  cases last : store.txq.getLast? with
  | none =>
      simp only [ItemStore.pop, Heap.Indexed.pop, observe, last]
      exact ⟨trivial, rfl, rfl, allocated, rfl⟩
  | some pointer =>
      simp only [ItemStore.pop, Heap.Indexed.pop, observe, last, true_and]
      refine ⟨store.contents_setIndex _ _, rfl, ?_, ?_⟩
      · exact fun other mem => allocated other (List.mem_of_mem_dropLast mem)
      · rw [List.getLast?_eq_getElem?] at last
        simp only [observe, Heap.Indexed.mk.injEq, true_and]
        exact index_setIndex (-1) (memory_of_mem last)

theorem simulation (contents : List (Transaction × ℤ)) (entries : List (Bytes × ℕ)) :
    Heap.Simulation txQueue (Heap.Indexed.interface (time contents)) (Tracks contents entries) id where
  len_swap queue i j := (queue.swap_perm i j).length_eq
  len_eq tracks := by
    obtain ⟨rfl, rfl, -, rfl⟩ := tracks
    rfl
  less_eq tracks first second := by
    obtain ⟨rfl, rfl, -, rfl⟩ := tracks
    have first_eq := List.getElem?_eq_getElem first
    have second_eq := List.getElem?_eq_getElem second
    simp only [txQueue, ItemStore.less, Heap.Indexed.interface, Heap.Indexed.less, first_eq, second_eq,
      timeAt_eq first_eq, timeAt_eq second_eq]
  swap tracks first second := by
    obtain ⟨rfl, rfl, -, rfl⟩ := id tracks
    exact tracks.swap first second
  pop tracks _ := by
    rw [Option.map_id]
    exact tracks.pop

/-- The queue of a store is a heap in which every item knows its place. -/
structure Heaped (store : ItemStore) : Prop where
  placed : store.observe.Placed
  ordered : Heap.Indexed.Ordered (time store.contents) store.txq.length store.observe
  allocated : ∀ pointer ∈ store.txq, pointer < store.memory.length

/-- The heap functions change nothing but the queue and the indexes. -/
structure Requeued (store store' : ItemStore) : Prop where
  heaped : store'.Heaped
  contents_eq : store'.contents = store.contents
  entries_eq : store'.txItems = store.txItems

theorem Heaped.tracks (heaped : store.Heaped) : Tracks store.contents store.txItems store store.observe :=
  ⟨rfl, rfl, store.length_contents ▸ heaped.allocated, rfl⟩

theorem Tracks.requeued (tracks : Tracks store.contents store.txItems store' queue) (placed : queue.Placed)
    (ordered : Heap.Indexed.Ordered (time store.contents) queue.queue.length queue) : Requeued store store' := by
  obtain ⟨contents_eq, entries_eq, allocated, rfl⟩ := tracks
  refine ⟨⟨placed, contents_eq ▸ ordered, ?_⟩, contents_eq, entries_eq⟩
  rw [← store'.length_contents, contents_eq]
  exact allocated

theorem Heaped.heapPush (heaped : store.Heaped) {pointer : ℕ}
    (allocated : pointer < store.memory.length) (fresh : pointer ∉ store.txq) :
    Requeued store (txQueue.heapPush store pointer) ∧
      (txQueue.heapPush store pointer).txq.Perm (pointer :: store.txq) := by
  have pushed := heaped.tracks.push (store.length_contents ▸ allocated)
  have tracks := (simulation _ _).heapPush heaped.tracks pushed
    (Heap.Indexed.length_push store.observe pointer)
  obtain ⟨placed, perm, ordered⟩ := Heap.Indexed.heapPush_spec heaped.placed heaped.ordered fresh
  refine ⟨tracks.requeued placed ordered, ?_⟩
  rw [← tracks.observe_eq] at perm
  exact perm

theorem Heaped.heapPop (heaped : store.Heaped) {pointer : ℕ} (found : store.txq[0]? = some pointer) :
    (txQueue.heapPop store).1 = some pointer ∧ Requeued store (txQueue.heapPop store).2 ∧
      (pointer :: (txQueue.heapPop store).2.txq).Perm store.txq := by
  obtain ⟨inside, -⟩ := List.getElem?_eq_some_iff.mp found
  obtain ⟨popped_eq, tracks⟩ := (simulation _ _).heapPop heaped.tracks inside
  obtain ⟨popped, placed, perm, ordered⟩ :=
    Heap.Indexed.heapPop_spec heaped.placed heaped.ordered found
  rw [Option.map_id] at popped_eq
  refine ⟨popped_eq.trans popped, tracks.requeued placed ordered, ?_⟩
  rw [← tracks.observe_eq] at perm
  exact perm

theorem Heaped.heapRemove (heaped : store.Heaped) {pointer place : ℕ} (found : store.txq[place]? = some pointer) :
    Requeued store (txQueue.heapRemove store place).2 ∧
      (pointer :: (txQueue.heapRemove store place).2.txq).Perm store.txq := by
  obtain ⟨inside, -⟩ := List.getElem?_eq_some_iff.mp found
  obtain ⟨-, tracks⟩ := (simulation _ _).heapRemove heaped.tracks inside
  obtain ⟨-, placed, perm, ordered⟩ :=
    Heap.Indexed.heapRemove_spec heaped.placed heaped.ordered found
  refine ⟨tracks.requeued placed ordered, ?_⟩
  rw [← tracks.observe_eq] at perm
  exact perm

/-! ## The representation invariant -/

theorem hashOf_eq (store : ItemStore) (pointer : ℕ) :
    store.hashOf pointer = store.contents[pointer]?.map fun content => content.1.hash := by
  simp [hashOf, contents, Function.comp_def]

/-- The map and the queue share their items, and the queue is a heap of them. -/
structure Represents (store : ItemStore) : Prop where
  heaped : store.Heaped
  keys_nodup : (store.txItems.map Prod.fst).Nodup
  hash_of_entry : ∀ {hash pointer}, (hash, pointer) ∈ store.txItems → store.hashOf pointer = some hash
  entry_of_queued : ∀ {pointer}, pointer ∈ store.txq → ∃ hash, (hash, pointer) ∈ store.txItems

theorem represents_new : newItemStore.Represents where
  heaped :=
    { placed := ⟨(nomatch ·), fun _ => rfl⟩
      ordered := fun _ _ inside => absurd inside (Nat.not_lt_zero _)
      allocated := fun _ mem => absurd mem List.not_mem_nil }
  keys_nodup := List.nodup_nil
  hash_of_entry entry := absurd entry List.not_mem_nil
  entry_of_queued queued := absurd queued List.not_mem_nil

theorem mem_of_pointer {pointer : ℕ} (found : store.pointer hash = some pointer) : (hash, pointer) ∈ store.txItems := by
  obtain ⟨entry, entry_eq, rfl⟩ := Option.map_eq_some_iff.mp found
  have key_eq : entry.1 = hash := by simpa using List.find?_some entry_eq
  exact key_eq ▸ List.mem_of_find?_eq_some entry_eq

theorem pointer_eq_none_iff : store.pointer hash = none ↔ hash ∉ store.txItems.map Prod.fst := by
  simp only [pointer, Option.map_eq_none_iff, List.find?_eq_none, decide_eq_true_eq, List.mem_map,
    not_exists, not_and]

theorem pointer_of_mem (keys_nodup : (store.txItems.map Prod.fst).Nodup) {pointer : ℕ}
    (entry : (hash, pointer) ∈ store.txItems) : store.pointer hash = some pointer := by
  cases found : store.pointer hash with
  | none => exact absurd (List.mem_map_of_mem entry) (pointer_eq_none_iff.mp found)
  | some other =>
      have same := List.inj_on_of_nodup_map keys_nodup (mem_of_pointer found) entry rfl
      exact congrArg (some ∘ Prod.snd) same

theorem Represents.pointer_eq_some_iff (represents : store.Represents) {pointer : ℕ} :
    store.pointer hash = some pointer ↔ (hash, pointer) ∈ store.txItems :=
  ⟨mem_of_pointer, pointer_of_mem represents.keys_nodup⟩

theorem Represents.allocated_of_entry (represents : store.Represents) {pointer : ℕ}
    (entry : (hash, pointer) ∈ store.txItems) : ∃ item, store.memory[pointer]? = some item ∧ item.tx.hash = hash :=
  Option.map_eq_some_iff.mp (represents.hash_of_entry entry)

theorem Represents.hash_unique (represents : store.Represents)
    {first second : Bytes} {pointer : ℕ} (first_entry : (first, pointer) ∈ store.txItems)
    (second_entry : (second, pointer) ∈ store.txItems) : first = second :=
  Option.some.inj ((represents.hash_of_entry first_entry).symm.trans
    (represents.hash_of_entry second_entry))

theorem Requeued.refl (heaped : store.Heaped) : Requeued store store :=
  ⟨heaped, rfl, rfl⟩

theorem Requeued.represents (requeued : Requeued store store') (represents : store.Represents)
    (entry_of_queued : ∀ pointer ∈ store'.txq, ∃ hash, (hash, pointer) ∈ store.txItems) : store'.Represents where
  heaped := requeued.heaped
  keys_nodup := requeued.entries_eq ▸ represents.keys_nodup
  hash_of_entry entry := by
    rw [hashOf_eq, requeued.contents_eq, ← hashOf_eq]
    exact represents.hash_of_entry (requeued.entries_eq ▸ entry)
  entry_of_queued queued := requeued.entries_eq ▸ entry_of_queued _ queued

theorem Heaped.inQueue_iff (heaped : store.Heaped) {pointer : ℕ} {item : TxItem}
    (found : store.memory[pointer]? = some item) : item.inQueue = true ↔ pointer ∈ store.txq := by
  have index_eq : store.observe.index pointer = item.index := by simp [observe, found]
  have outside := heaped.placed.index_eq_neg_iff pointer
  rw [index_eq] at outside
  rw [TxItem.inQueue, decide_eq_true_eq, ne_eq, outside, not_not]
  rfl

theorem Heaped.place (heaped : store.Heaped) {pointer : ℕ} {item : TxItem}
    (found : store.memory[pointer]? = some item) (queued : pointer ∈ store.txq) :
    store.txq[item.index.toNat]? = some pointer := by
  obtain ⟨place, place_eq⟩ := List.mem_iff_getElem?.mp queued
  have index_eq : item.index = place := by
    have := heaped.placed.index_of_place place_eq
    simpa [observe, found] using this
  rw [index_eq, Int.toNat_natCast, place_eq]

theorem mem_of_cons_perm {pointer other : ℕ} {queue queue' : List ℕ}
    (perm : (pointer :: queue').Perm queue) (nodup : queue.Nodup) :
    other ∈ queue' ↔ other ∈ queue ∧ other ≠ pointer := by
  have fresh := (List.nodup_cons.mp (perm.nodup_iff.mpr nodup)).1
  rw [← perm.mem_iff, List.mem_cons]
  grind

theorem Heaped.removeFromQueue (heaped : store.Heaped) (pointer : ℕ) : Requeued store (store.removeFromQueue pointer) ∧
      ∀ other, other ∈ (store.removeFromQueue pointer).txq ↔ other ∈ store.txq ∧ other ≠ pointer := by
  rw [ItemStore.removeFromQueue]
  split
  · rename_i item found
    split
    · rename_i queued
      have place := heaped.place found ((heaped.inQueue_iff found).mp queued)
      obtain ⟨requeued, perm⟩ := heaped.heapRemove place
      exact ⟨requeued, fun other => mem_of_cons_perm perm heaped.placed.nodup⟩
    · rename_i outside
      rw [heaped.inQueue_iff found] at outside
      exact ⟨.refl heaped, fun other => ⟨fun mem => ⟨mem, fun same => outside (same ▸ mem)⟩, And.left⟩⟩
  · rename_i missing
    refine ⟨.refl heaped, fun other => ⟨fun mem => ⟨mem, ?_⟩, And.left⟩⟩
    rintro rfl
    have := heaped.allocated other mem
    rw [List.getElem?_eq_none_iff] at missing
    omega

theorem Represents.putTx (represents : store.Represents) (hash : Bytes) : Requeued store (store.putTx hash) ∧ ∀ pointer,
      pointer ∈ (store.putTx hash).txq ↔ pointer ∈ store.txq ∨ (hash, pointer) ∈ store.txItems := by
  rw [ItemStore.putTx]
  split
  · rename_i pointer found
    have entry := represents.pointer_eq_some_iff.mp found
    obtain ⟨item, item_eq, -⟩ := represents.allocated_of_entry entry
    have only : ∀ other, (hash, other) ∈ store.txItems ↔ other = pointer := by
      intro other
      rw [← represents.pointer_eq_some_iff, found, Option.some.injEq, eq_comm]
    have queued_iff := represents.heaped.inQueue_iff item_eq
    simp only [inQueue, item_eq, Option.any_some, only]
    split
    · rename_i queued
      refine ⟨.refl represents.heaped, fun other => ⟨.inl, fun cases => cases.elim id ?_⟩⟩
      rintro rfl
      exact queued_iff.mp queued
    · rename_i outside
      rw [queued_iff] at outside
      obtain ⟨requeued, perm⟩ := represents.heaped.heapPush (List.getElem?_eq_some_iff.mp item_eq).1 outside
      refine ⟨requeued, fun other => ?_⟩
      rw [perm.mem_iff, List.mem_cons, or_comm]
  · rename_i missing
    refine ⟨.refl represents.heaped, fun other => ⟨.inl, fun cases => cases.elim id fun entry => ?_⟩⟩
    rw [represents.pointer_eq_some_iff.mpr entry] at missing
    cases missing

theorem Represents.setTxPending (represents : store.Represents) (hash : Bytes) :
    Requeued store (store.setTxPending hash) ∧ ∀ pointer, pointer ∈ (store.setTxPending hash).txq ↔
        pointer ∈ store.txq ∧ (hash, pointer) ∉ store.txItems := by
  rw [ItemStore.setTxPending]
  split
  · rename_i pointer found
    obtain ⟨requeued, queued_iff⟩ := represents.heaped.removeFromQueue pointer
    refine ⟨requeued, fun other => ?_⟩
    rw [queued_iff, ← represents.pointer_eq_some_iff, found, Option.some.injEq, ne_comm]
  · rename_i missing
    refine ⟨.refl represents.heaped, fun other => ⟨fun queued => ⟨queued, fun entry => ?_⟩, And.left⟩⟩
    rw [represents.pointer_eq_some_iff.mpr entry] at missing
    cases missing

/-! ## The status of a transaction -/

theorem Represents.getTxStatus_eq (represents : store.Represents) (hash : Bytes) :
    store.getTxStatus hash =
      match store.pointer hash with
      | none => .notFound
      | some pointer => if pointer ∈ store.txq then .queue else .pending := by
  cases found : store.pointer hash with
  | none => simp [ItemStore.getTxStatus, item, found]
  | some pointer =>
      obtain ⟨item, item_eq, -⟩ := represents.allocated_of_entry (mem_of_pointer found)
      simp [ItemStore.getTxStatus, ItemStore.item, found, item_eq, represents.heaped.inQueue_iff item_eq]

theorem getTx_eq (store : ItemStore) (hash : Bytes) : store.getTx hash =
      (store.pointer hash).bind fun pointer => store.contents[pointer]?.map Prod.fst := by
  cases found : store.pointer hash <;> simp [getTx, item, contents, found, Function.comp_def]

theorem Requeued.pointer_eq (requeued : Requeued store store')
    (hash : Bytes) : store'.pointer hash = store.pointer hash := by
  rw [pointer, requeued.entries_eq, ← pointer]

theorem Requeued.getTx_eq (requeued : Requeued store store') (hash : Bytes) : store'.getTx hash = store.getTx hash := by
  rw [ItemStore.getTx_eq, requeued.pointer_eq, requeued.contents_eq, ← ItemStore.getTx_eq]

/-- Known transactions of a list go to a status; the others keep theirs. -/
def moved (target : TxStatus) (hashes : List Bytes) (hash : Bytes) (status : TxStatus) : TxStatus :=
  if hash ∈ hashes ∧ status ≠ .notFound then target else status

theorem moved_nil (target : TxStatus) (hash : Bytes) (status : TxStatus) :
    moved target [] hash status = status := if_neg fun both => List.not_mem_nil both.1

theorem moved_cons (target : TxStatus) (first : Bytes) (hashes : List Bytes) (hash : Bytes) (status : TxStatus) :
    moved target (first :: hashes) hash status = moved target hashes hash (moved target [first] hash status) := by
  simp only [moved, List.mem_cons, List.not_mem_nil, or_false]
  grind

theorem moved_notFound (target : TxStatus) (hashes : List Bytes) (hash : Bytes) :
    moved target hashes hash .notFound = .notFound := if_neg fun both => both.2 rfl

/-- What an operation does to the status of the transactions, and that it keeps what stays known. -/
structure Outcome (store store' : ItemStore) (change : Bytes → TxStatus → TxStatus) : Prop where
  represents : store'.Represents
  status_eq : ∀ hash, store'.getTxStatus hash = change hash (store.getTxStatus hash)
  kept : ∀ {hash tx}, store.getTx hash = some tx → change hash (store.getTxStatus hash) ≠ .notFound →
    store'.getTx hash = some tx

theorem Outcome.refl (represents : store.Represents) : Outcome store store fun _ status => status :=
  ⟨represents, fun _ => rfl, fun found _ => found⟩

theorem Outcome.trans {first second third : ItemStore} {change' : Bytes → TxStatus → TxStatus}
    (earlier : Outcome first second change) (later : Outcome second third change')
    (unknown : ∀ hash, change' hash .notFound = .notFound) :
    Outcome first third fun hash status => change' hash (change hash status) where
  represents := later.represents
  status_eq hash := by rw [later.status_eq, earlier.status_eq]
  kept {hash _} found known := by
    refine later.kept (earlier.kept found fun lost => known ?_) ?_
    · rw [lost, unknown]
    · rwa [earlier.status_eq]

theorem Outcome.congr {change' : Bytes → TxStatus → TxStatus} (outcome : Outcome store store' change)
    (same : ∀ hash, change hash (store.getTxStatus hash) = change' hash (store.getTxStatus hash)) :
    Outcome store store' change' where
  represents := outcome.represents
  status_eq hash := (outcome.status_eq hash).trans (same hash)
  kept {hash _} found known := outcome.kept found ((same hash).symm ▸ known)

theorem Outcome.foldl {target : TxStatus} {round : ItemStore → Bytes → ItemStore}
    (each : ∀ store : ItemStore, store.Represents → ∀ hash,
      Outcome store (round store hash) (moved target [hash])) (represents : store.Represents) (hashes : List Bytes) :
    Outcome store (hashes.foldl round store) (moved target hashes) := by
  induction hashes generalizing store with
  | nil => exact (Outcome.refl represents).congr fun hash => (moved_nil target hash _).symm
  | cons first hashes ih =>
      have earlier := each store represents first
      have later := ih earlier.represents
      exact (earlier.trans later (moved_notFound target hashes)).congr
        fun hash => (moved_cons target first hashes hash _).symm

/-- An operation on the queue, by what it does to the places of the queue. -/
theorem Requeued.outcome (requeued : Requeued store store')
    (represents : store.Represents)
    (entry_of_queued : ∀ pointer ∈ store'.txq, ∃ hash, (hash, pointer) ∈ store.txItems)
    (unknown : ∀ hash, change hash .notFound = .notFound)
    (known : ∀ hash pointer, (hash, pointer) ∈ store.txItems →
      (if pointer ∈ store'.txq then TxStatus.queue else .pending) =
        change hash (if pointer ∈ store.txq then .queue else .pending)) :
    Outcome store store' change := by
  have represents' := requeued.represents represents entry_of_queued
  refine ⟨represents', fun hash => ?_, fun found _ => (requeued.getTx_eq _).trans found⟩
  rw [represents'.getTxStatus_eq, represents.getTxStatus_eq, requeued.pointer_eq]
  cases found : store.pointer hash with
  | none => exact (unknown hash).symm
  | some pointer => exact known hash pointer (mem_of_pointer found)

theorem Represents.outcome_putTx (represents : store.Represents) (first : Bytes) :
    Outcome store (store.putTx first) (moved .queue [first]) := by
  obtain ⟨requeued, queued_iff⟩ := represents.putTx first
  refine requeued.outcome represents ?_ (moved_notFound .queue [first]) fun hash pointer entry => ?_
  · intro pointer queued
    rcases (queued_iff pointer).mp queued with before | own
    · exact represents.entry_of_queued before
    · exact ⟨first, own⟩
  · have own_iff : (first, pointer) ∈ store.txItems ↔ hash = first :=
      ⟨fun own => represents.hash_unique entry own, fun same => same ▸ entry⟩
    simp only [moved, queued_iff, own_iff, List.mem_singleton]
    grind

theorem Represents.outcome_setTxPending (represents : store.Represents)
    (first : Bytes) : Outcome store (store.setTxPending first) (moved .pending [first]) := by
  obtain ⟨requeued, queued_iff⟩ := represents.setTxPending first
  refine requeued.outcome represents ?_ (moved_notFound .pending [first]) fun hash pointer entry => ?_
  · exact fun pointer queued => represents.entry_of_queued ((queued_iff pointer).mp queued).1
  · have own_iff : (first, pointer) ∈ store.txItems ↔ hash = first :=
      ⟨fun own => represents.hash_unique entry own, fun same => same ▸ entry⟩
    simp only [moved, queued_iff, own_iff, List.mem_singleton]
    grind

theorem pointer_deleteItem (store : ItemStore) (first hash : Bytes) :
    (store.deleteItem first).pointer hash = if hash = first then none else store.pointer hash := by
  simp only [pointer, deleteItem, List.find?_filter]
  split
  · rename_i same
    rw [Option.map_eq_none_iff, List.find?_eq_none]
    simp [same]
  · rename_i different
    congr 2
    funext entry
    grind

theorem Represents.getTxStatus_of_getTx (represents : store.Represents) (found : store.getTx hash = some tx) :
    store.getTxStatus hash ≠ .notFound := by
  rw [getTx_eq] at found
  rw [represents.getTxStatus_eq]
  cases pointed : store.pointer hash with
  | none => simp [pointed] at found
  | some pointer =>
      simp only
      split <;> exact TxStatus.noConfusion

theorem Represents.outcome_deleteItem (represents : store.Represents)
    (first : Bytes) (outside : ∀ pointer, (first, pointer) ∈ store.txItems → pointer ∉ store.txq) :
    Outcome store (store.deleteItem first) (moved .notFound [first]) := by
  have represents' : (store.deleteItem first).Represents :=
    { heaped := ⟨represents.heaped.placed, represents.heaped.ordered, represents.heaped.allocated⟩
      keys_nodup := represents.keys_nodup.sublist (List.filter_sublist.map Prod.fst)
      hash_of_entry := fun entry => represents.hash_of_entry (List.mem_filter.mp entry).1
      entry_of_queued := fun {pointer} queued => by
        obtain ⟨hash, entry⟩ := represents.entry_of_queued queued
        refine ⟨hash, List.mem_filter.mpr ⟨entry, decide_eq_true ?_⟩⟩
        rintro rfl
        exact outside pointer entry queued }
  refine ⟨represents', fun hash => ?_, fun {hash tx} found known => ?_⟩
  · rw [represents'.getTxStatus_eq, represents.getTxStatus_eq, pointer_deleteItem]
    by_cases own : hash = first
    · rw [if_pos own, moved]
      grind
    · rw [if_neg own, moved, if_neg fun both => own (List.mem_singleton.mp both.1)]
      rfl
  · have own : hash ≠ first := by
      rintro rfl
      exact known (if_pos ⟨List.mem_singleton_self _, represents.getTxStatus_of_getTx found⟩)
    rw [getTx_eq] at found ⊢
    rwa [pointer_deleteItem, if_neg own]

theorem Represents.outcome_removeTx (represents : store.Represents)
    (first : Bytes) : Outcome store (store.removeTx first) (moved .notFound [first]) := by
  have pended := represents.outcome_setTxPending first
  obtain ⟨requeued, queued_iff⟩ := represents.setTxPending first
  -- The removal is the move to pending followed by the deletion of the entry.
  have removeTx_eq : store.removeTx first = (store.setTxPending first).deleteItem first := by
    rw [removeTx, ItemStore.setTxPending]
    cases found : store.pointer first with
    | some pointer => rfl
    | none =>
        rw [pointer_eq_none_iff, List.mem_map] at found
        have all : store.txItems.filter (fun entry => entry.1 ≠ first) = store.txItems :=
          List.filter_eq_self.mpr fun entry mem =>
            decide_eq_true fun same => found ⟨entry, mem, same⟩
        simp only [deleteItem, all]
  rw [removeTx_eq]
  have deleted := pended.represents.outcome_deleteItem first fun pointer entry queued =>
    ((queued_iff pointer).mp queued).2 (requeued.entries_eq ▸ entry)
  refine (pended.trans deleted (moved_notFound .notFound [first])).congr fun hash => ?_
  simp only [moved, List.mem_singleton]
  grind

theorem length_swap (store : ItemStore) (i j : ℕ) : (store.swap i j).txq.length = store.txq.length := by
  rw [swap]
  split
  · simp [setIndex]
  · rfl

theorem heapPush_withEntries (store : ItemStore) (pointer : ℕ) (entries : List (Bytes × ℕ)) :
    txQueue.heapPush { store with txItems := entries } pointer =
      { txQueue.heapPush store pointer with txItems := entries } := by
  have same : Heap.Simulation txQueue txQueue
      (fun store store' => store = { store' with txItems := entries }) id :=
    { len_swap := length_swap
      len_eq := by
        rintro _ store rfl
        rfl
      less_eq := by
        rintro _ store i j rfl _ _
        rfl
      swap := by
        rintro _ store i j rfl _ _
        simp only [txQueue, swap]
        split <;> rfl
      pop := by
        rintro _ store rfl _
        simp only [txQueue, pop, Option.map_id, id_eq]
        split <;> exact ⟨rfl, rfl⟩ }
  refine same.heapPush rfl rfl ?_
  simp [txQueue, push, setIndex]

/-- What `addNewTx` does to a status. -/
def added (tx : Transaction) (hash : Bytes) (status : TxStatus) : TxStatus :=
  if hash = tx.hash ∧ status = .notFound then .queue else status

/-- A new item in memory, with its entry in the map. -/
def allocate (store : ItemStore) (tx : Transaction) (now : ℤ) : ItemStore :=
  { store with
    memory := store.memory ++ [newTxItem tx now]
    txItems := (tx.hash, store.memory.length) :: store.txItems }

theorem observe_allocate (store : ItemStore) (tx : Transaction) (now : ℤ) :
    (store.allocate tx now).observe = store.observe := by
  simp only [observe, allocate, Heap.Indexed.mk.injEq, true_and]
  funext pointer
  rw [List.getElem?_append]
  split
  · rfl
  · rename_i beyond
    rw [List.getElem?_eq_none (not_lt.mp beyond), List.getElem?_singleton]
    split <;> rfl

theorem Represents.allocate (represents : store.Represents)
    (now : ℤ) (fresh : store.pointer tx.hash = none) : (store.allocate tx now).Represents := by
  have contents_eq : (store.allocate tx now).contents = store.contents ++ [(tx, now)] := by
    simp [contents, ItemStore.allocate, newTxItem]
  refine ⟨⟨?_, ?_, ?_⟩, ?_, ?_, ?_⟩
  · rw [observe_allocate]
    exact represents.heaped.placed
  · intro k positive inside
    have order := represents.heaped.ordered k positive inside
    have time_eq (pointer : ℕ) (queued : pointer ∈ store.txq) :
        time (store.allocate tx now).contents pointer = time store.contents pointer := by
      have allocated := represents.heaped.allocated pointer queued
      rw [time, contents_eq, List.getElem?_append_left (store.length_contents.symm ▸ allocated), ← time]
    rw [observe_allocate]
    intro first second first_eq second_eq
    rw [time_eq first (List.mem_of_getElem? first_eq), time_eq second (List.mem_of_getElem? second_eq)]
    exact order first second first_eq second_eq
  · intro pointer queued
    have := represents.heaped.allocated pointer queued
    simp only [ItemStore.allocate, List.length_append, List.length_singleton]
    omega
  · exact List.nodup_cons.mpr ⟨pointer_eq_none_iff.mp fresh, represents.keys_nodup⟩
  · intro hash pointer entry
    rcases List.mem_cons.mp entry with own | before
    · obtain ⟨rfl, rfl⟩ := Prod.mk.inj own
      simp [hashOf, ItemStore.allocate, newTxItem]
    · obtain ⟨item, item_eq, hash_eq⟩ := represents.allocated_of_entry before
      obtain ⟨inside, -⟩ := List.getElem?_eq_some_iff.mp item_eq
      rw [hashOf, ItemStore.allocate, List.getElem?_append_left inside, item_eq, ← hash_eq]
      rfl
  · intro pointer queued
    obtain ⟨hash, entry⟩ := represents.entry_of_queued queued
    exact ⟨hash, List.mem_cons_of_mem _ entry⟩

theorem pointer_allocate (store : ItemStore) (tx : Transaction) (now : ℤ) (hash : Bytes) :
    (store.allocate tx now).pointer hash =
      if hash = tx.hash then some store.memory.length else store.pointer hash := by
  rw [pointer, allocate, List.find?_cons]
  grind [pointer]

theorem Represents.outcome_allocate (represents : store.Represents) (now : ℤ)
    (fresh : store.pointer tx.hash = none) :
    Outcome store (store.allocate tx now) fun hash status =>
      if hash = tx.hash then .pending else status := by
  have represents' := represents.allocate now fresh
  refine ⟨represents', fun hash => ?_, fun {hash other} found _ => ?_⟩
  · rw [represents'.getTxStatus_eq, represents.getTxStatus_eq, pointer_allocate]
    by_cases own : hash = tx.hash
    · have outside : store.memory.length ∉ store.txq := fun queued =>
        lt_irrefl _ (represents.heaped.allocated _ queued)
      rw [if_pos own, if_pos own]
      exact if_neg outside
    · rw [if_neg own, if_neg own]
      rfl
  · have pointed : hash ≠ tx.hash := by
      rintro rfl
      simp [getTx_eq, fresh] at found
    obtain ⟨item, item_eq, rfl⟩ := Option.map_eq_some_iff.mp found
    obtain ⟨pointer, pointer_eq, memory_eq⟩ := Option.bind_eq_some_iff.mp item_eq
    obtain ⟨inside, -⟩ := List.getElem?_eq_some_iff.mp memory_eq
    simp only [getTx, ItemStore.item, pointer_allocate, if_neg pointed, pointer_eq, Option.bind_some]
    rw [ItemStore.allocate, List.getElem?_append_left inside, memory_eq]
    rfl

theorem addNewTx_of_fresh {now : ℤ} (fresh : store.pointer tx.hash = none) :
    store.addNewTx tx now = txQueue.heapPush (store.allocate tx now) store.memory.length := by
  rw [addNewTx, fresh]
  simp only [Option.isSome_none, Bool.false_eq_true, if_false]
  have kept := congrArg txItems (heapPush_withEntries
    { store with memory := store.memory ++ [newTxItem tx now] } store.memory.length store.txItems)
  rw [kept, ← heapPush_withEntries]
  rfl

theorem putTx_allocate (store : ItemStore) (tx : Transaction) (now : ℤ) : (store.allocate tx now).putTx tx.hash =
      txQueue.heapPush (store.allocate tx now) store.memory.length := by
  have outside : (store.allocate tx now).inQueue store.memory.length = false := by
    simp [inQueue, allocate, newTxItem, TxItem.inQueue]
  rw [putTx, pointer_allocate, if_pos rfl]
  simp only [outside, Bool.false_eq_true, if_false]

theorem Represents.outcome_addNewTx (represents : store.Represents)
    (tx : Transaction) (now : ℤ) : Outcome store (store.addNewTx tx now) (added tx) := by
  cases found : store.pointer tx.hash with
  | some pointer =>
      rw [addNewTx, found, Option.isSome_some, if_pos rfl]
      refine (Outcome.refl represents).congr fun hash => (if_neg ?_).symm
      rintro ⟨rfl, missing⟩
      rw [represents.getTxStatus_eq, found] at missing
      grind
  | none =>
      rw [addNewTx_of_fresh found, ← putTx_allocate]
      have allocated := represents.outcome_allocate now found
      have queued := allocated.represents.outcome_putTx tx.hash
      refine (allocated.trans queued (moved_notFound .queue [tx.hash])).congr fun hash => ?_
      have missing : store.getTxStatus tx.hash = .notFound := by rw [represents.getTxStatus_eq, found]
      simp only [moved, added, List.mem_singleton]
      grind

theorem Represents.heapPop (represents : store.Represents) (nonempty : 0 < store.txq.length) :
    ∃ first pointer, (txQueue.heapPop store).1 = some pointer ∧
      (txQueue.heapPop store).2.hashOf pointer = some first ∧ store.getTxStatus first = .queue ∧
      Outcome store (txQueue.heapPop store).2 (moved .pending [first]) ∧
      (txQueue.heapPop store).2.txq.length + 1 = store.txq.length ∧ (first, pointer) ∈ store.txItems := by
  have head_eq := List.getElem?_eq_getElem nonempty
  generalize store.txq[0] = pointer at head_eq
  have queued := List.mem_of_getElem? head_eq
  obtain ⟨popped, requeued, perm⟩ := represents.heaped.heapPop head_eq
  have queued_iff : ∀ other, other ∈ (txQueue.heapPop store).2.txq ↔
      other ∈ store.txq ∧ other ≠ pointer := fun _ =>
    mem_of_cons_perm perm represents.heaped.placed.nodup
  obtain ⟨first, entry⟩ := represents.entry_of_queued queued
  refine ⟨first, pointer, popped, ?_, ?_, ?_, perm.length_eq, entry⟩
  · rw [hashOf_eq, requeued.contents_eq, ← hashOf_eq]
    exact represents.hash_of_entry entry
  · rw [represents.getTxStatus_eq, represents.pointer_eq_some_iff.mpr entry]
    exact if_pos queued
  · refine requeued.outcome represents ?_ (moved_notFound .pending [first])
      fun hash other other_entry => ?_
    · exact fun other mem => represents.entry_of_queued ((queued_iff other).mp mem).1
    · have own_iff : other = pointer ↔ hash = first := by
        refine ⟨?_, ?_⟩
        · rintro rfl
          exact represents.hash_unique other_entry entry
        · rintro rfl
          rw [← represents.pointer_eq_some_iff] at entry other_entry
          exact Option.some.inj (other_entry.symm.trans entry)
      simp only [moved, queued_iff, own_iff, ne_eq, List.mem_singleton]
      grind

theorem popTxs_succ {first : Bytes} {pointer : ℕ} (popped : (txQueue.heapPop store).1 = some pointer)
    (hash_eq : (txQueue.heapPop store).2.hashOf pointer = some first) (count : ℕ) :
    popTxs (count + 1) store = (first :: (popTxs count (txQueue.heapPop store).2).1,
      (popTxs count (txQueue.heapPop store).2).2) := by
  simp only [popTxs, popped, Option.bind_some, hash_eq, Option.toList_some, List.singleton_append]

/-- The transactions that `popTxsFromQueue` returns were queued and are pending now. -/
theorem Represents.outcome_popTxs (represents : store.Represents) {count : ℕ} (enough : count ≤ store.txq.length) :
    Outcome store (popTxs count store).2 (moved .pending (popTxs count store).1) ∧
      ∀ hash ∈ (popTxs count store).1, store.getTxStatus hash = .queue := by
  induction count generalizing store with
  | zero =>
      refine ⟨(Outcome.refl represents).congr fun hash => (moved_nil .pending hash _).symm, ?_⟩
      exact fun hash mem => absurd mem List.not_mem_nil
  | succ count ih =>
      obtain ⟨first, pointer, popped, hash_eq, queued, once, length_eq, -⟩ :=
        represents.heapPop (by omega)
      obtain ⟨rest, were_queued⟩ := ih once.represents (by omega)
      rw [popTxs_succ popped hash_eq]
      refine ⟨?_, fun hash mem => ?_⟩
      · exact (once.trans rest (moved_notFound .pending _)).congr
          fun hash => (moved_cons .pending first _ hash _).symm
      · rcases List.mem_cons.mp mem with rfl | later
        · exact queued
        · have after := were_queued hash later
          rw [once.status_eq, moved] at after
          grind

/-! ## Runs -/

/-- A call of a method that changes the store. -/
inductive StoreCall where
  | addNewTx (tx : Transaction) (now : ℤ)
  | popTxsFromQueue (max : ℤ)
  | getTxsFromQueue (max : ℤ)
  | putTxsToQueue (hashes : List Bytes)
  | setTxsPending (hashes : List Bytes)
  | removeTxs (hashes : List Bytes)

/-- The store after a call. -/
def StoreCall.run (store : ItemStore) : StoreCall → ItemStore
  | .addNewTx tx now => store.addNewTx tx now
  | .popTxsFromQueue max => (store.popTxsFromQueue max).2
  | .getTxsFromQueue max => (store.getTxsFromQueue max).2
  | .putTxsToQueue hashes => store.putTxsToQueue hashes
  | .setTxsPending hashes => store.setTxsPending hashes
  | .removeTxs hashes => store.removeTxs hashes

theorem Represents.outcome_popTxsFromQueue (represents : store.Represents)
    (max : ℤ) : ∃ hashes, Outcome store (store.popTxsFromQueue max).2 (moved .pending hashes) := by
  rw [popTxsFromQueue, fill]
  split
  · exact ⟨[], (Outcome.refl represents).congr fun hash => (moved_nil .pending hash _).symm⟩
  · have enough : (min (store.txq.length : ℤ) max).toNat ≤ store.txq.length := by omega
    exact ⟨_, (represents.outcome_popTxs enough).1⟩

theorem getTxsFromQueue_snd (store : ItemStore) (max : ℤ) : (store.getTxsFromQueue max).2 = store := by
  rw [getTxsFromQueue, fill]
  split <;> rfl

theorem moved_eq_notFound {target : TxStatus} {hashes : List Bytes} {status : TxStatus}
    (known : status ≠ .notFound) (lost : moved target hashes hash status = .notFound) :
    target = .notFound ∧ hash ∈ hashes := by
  rw [moved] at lost
  grind

/-- Every call keeps the invariant, and only `removeTxs` makes a transaction unknown. -/
theorem Represents.outcome_run (represents : store.Represents) (call : StoreCall) :
    ∃ change, Outcome store (call.run store) change ∧ ∀ hash status, status ≠ .notFound →
      change hash status = .notFound → ∃ hashes, call = .removeTxs hashes ∧ hash ∈ hashes := by
  cases call with
  | addNewTx tx now =>
      refine ⟨added tx, represents.outcome_addNewTx tx now, fun hash status known lost => ?_⟩
      rw [added, if_neg fun both => known both.2] at lost
      exact absurd lost known
  | popTxsFromQueue max =>
      obtain ⟨hashes, outcome⟩ := represents.outcome_popTxsFromQueue max
      refine ⟨_, outcome, fun hash status known lost => ?_⟩
      cases (moved_eq_notFound known lost).1
  | getTxsFromQueue max =>
      refine ⟨fun _ status => status, ?_, fun hash status known lost => absurd lost known⟩
      rw [StoreCall.run, getTxsFromQueue_snd]
      exact .refl represents
  | putTxsToQueue hashes =>
      refine ⟨_, Outcome.foldl (fun _ => outcome_putTx) represents hashes,
        fun hash status known lost => ?_⟩
      cases (moved_eq_notFound known lost).1
  | setTxsPending hashes =>
      refine ⟨_, Outcome.foldl (fun _ => outcome_setTxPending) represents hashes,
        fun hash status known lost => ?_⟩
      cases (moved_eq_notFound known lost).1
  | removeTxs hashes =>
      refine ⟨_, Outcome.foldl (fun _ => outcome_removeTx) represents hashes,
        fun hash status known lost => ?_⟩
      exact ⟨hashes, rfl, (moved_eq_notFound known lost).2⟩

theorem represents_run (calls : List StoreCall) : (calls.foldl StoreCall.run newItemStore).Represents := by
  induction calls using List.reverseRecOn with
  | nil => exact represents_new
  | append_singleton calls call ih =>
      rw [List.foldl_append]
      obtain ⟨_, outcome, -⟩ := ih.outcome_run call
      exact outcome.represents

theorem Represents.length_txItems (represents : store.Represents) : store.txItems.length = store.txq.length +
      store.txItems.countP fun entry => store.getTxStatus entry.1 = .pending := by
  have pointers_nodup : (store.txItems.map Prod.snd).Nodup := by
    refine List.Nodup.map_on ?_ (List.Nodup.of_map Prod.fst represents.keys_nodup)
    rintro ⟨first, pointer⟩ first_mem ⟨second, _⟩ second_mem rfl
    exact congrArg (·, pointer) (represents.hash_unique first_mem second_mem)
  have queued : ((store.txItems.map Prod.snd).filter (· ∈ store.txq)).Perm store.txq := by
    refine (List.perm_ext_iff_of_nodup (pointers_nodup.filter _) represents.heaped.placed.nodup).mpr ?_
    intro pointer
    rw [List.mem_filter, decide_eq_true_eq]
    refine ⟨And.right, fun mem => ⟨?_, mem⟩⟩
    obtain ⟨hash, entry⟩ := represents.entry_of_queued mem
    exact List.mem_map_of_mem entry
  have pending_eq : (store.txItems.countP fun entry => store.getTxStatus entry.1 = .pending) =
      store.txItems.countP fun entry => ¬(entry.2 ∈ store.txq) := by
    refine List.countP_congr fun entry mem => ?_
    rw [represents.getTxStatus_eq, represents.pointer_eq_some_iff.mpr mem]
    by_cases inside : entry.2 ∈ store.txq <;> simp [inside]
  rw [pending_eq, ← queued.length_eq, List.filter_map, List.length_map, ← List.countP_eq_length_filter,
    List.length_eq_countP_add_countP fun entry : Bytes × ℕ => entry.2 ∈ store.txq]
  simp [Function.comp_def]

/-- After any calls on a new store: no item is queued twice, every item knows its place, the queue
holds entries of the map and is ordered by receive time, the status adds up, and a further call
loses no transaction unless it removes it. -/
theorem tx_store_invariant (calls : List StoreCall) :
    let store := calls.foldl StoreCall.run newItemStore
    store.txq.Nodup ∧
    (∀ (j pointer : ℕ), store.txq[j]? = some pointer →
      ∃ item : TxItem, store.memory[pointer]? = some item ∧ item.index = j) ∧
    (∀ (pointer : ℕ) (item : TxItem), store.memory[pointer]? = some item →
      (item.index = -1 ↔ pointer ∉ store.txq)) ∧
    (∀ pointer ∈ store.txq, ∃ item : TxItem, store.memory[pointer]? = some item ∧
      store.pointer item.tx.hash = some pointer) ∧
    (∀ j, 0 < j → j < store.txq.length → store.timeAt ((j - 1) / 2) ≤ store.timeAt j) ∧
    (store.getStatus.total = store.getStatus.queue + store.getStatus.pending ∧
      store.getStatus.pending =
        store.txItems.countP fun entry => store.getTxStatus entry.1 = .pending) ∧
    ∀ (call : StoreCall) hash tx, store.getTx hash = some tx →
      (call.run store).getTx hash = some tx ∨ ∃ hashes, call = .removeTxs hashes ∧ hash ∈ hashes := by
  intro store
  have represents : store.Represents := represents_run calls
  obtain ⟨placed, ordered, allocated⟩ := represents.heaped
  have read {pointer : ℕ} (queued : pointer ∈ store.txq) :
      ∃ item, store.memory[pointer]? = some item :=
    ⟨_, List.getElem?_eq_getElem (allocated pointer queued)⟩
  have index_eq {pointer : ℕ} {item : TxItem} (found : store.memory[pointer]? = some item) :
      store.observe.index pointer = item.index := by simp [observe, found]
  refine ⟨placed.nodup, ?_, ?_, ?_, ?_, ⟨?_, ?_⟩, ?_⟩
  · intro j pointer found
    obtain ⟨item, item_eq⟩ := read (List.mem_of_getElem? found)
    exact ⟨item, item_eq, (index_eq item_eq).symm.trans (placed.index_of_place found)⟩
  · intro pointer item found
    rw [← index_eq found]
    exact placed.index_eq_neg_iff pointer
  · intro pointer queued
    obtain ⟨hash, entry⟩ := represents.entry_of_queued queued
    obtain ⟨item, item_eq, rfl⟩ := represents.allocated_of_entry entry
    exact ⟨item, item_eq, represents.pointer_eq_some_iff.mpr entry⟩
  · intro j positive inside
    have parent_eq := List.getElem?_eq_getElem (show (j - 1) / 2 < store.txq.length by omega)
    have own_eq := List.getElem?_eq_getElem inside
    rw [timeAt_eq parent_eq, timeAt_eq own_eq]
    exact ordered j positive inside _ _ parent_eq own_eq
  · simp only [getStatus]
    omega
  · have := represents.length_txItems
    simp only [getStatus]
    omega
  · intro call hash tx found
    obtain ⟨change, outcome, only⟩ := represents.outcome_run call
    have known := represents.getTxStatus_of_getTx found
    by_cases lost : change hash (store.getTxStatus hash) = .notFound
    · exact .inr (only hash _ known lost)
    · exact .inl (outcome.kept found lost)

end ItemStore
end SvpChain.TxPool
