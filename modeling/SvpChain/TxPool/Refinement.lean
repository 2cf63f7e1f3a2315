import SvpChain.TxPool.ItemStore
import SvpChain.TxPool.TxPool

/-!
# Forgetting the pointers

The store whose queue holds hashes follows the store whose queue holds pointers, operation by
operation.  What is known of the second, the status of every transaction after every operation, is
then known of the first.
-/

namespace SvpChain.TxPool

open Core

namespace TxStore

/-- The queue of hashes as a `heap.Interface`. -/
def txQueue : Heap.Interface TxStore Bytes where
  len store := store.txq.length
  less := less
  swap := swap
  push := push
  pop store := (store.txq.getLast?, store.pop)

theorem up_eq (fuel j : ℕ) (store : TxStore) : up fuel j store = txQueue.up fuel j store := by
  induction fuel generalizing j store with
  | zero => rfl
  | succ fuel ih =>
      simp only [up, Heap.Interface.up, ih]
      rfl

theorem down_eq (n fuel i : ℕ) (store : TxStore) : down n fuel i store = txQueue.down n fuel i store := by
  induction fuel generalizing i store with
  | zero => rfl
  | succ fuel ih =>
      simp only [down, Heap.Interface.down, Heap.Interface.child, ih]
      rfl

theorem heapPush_eq (store : TxStore) (hash : Bytes) : store.heapPush hash = txQueue.heapPush store hash := up_eq _ _ _

theorem heapPop_eq (store : TxStore) : store.heapPop = txQueue.heapPop store := by
  simp only [heapPop, Heap.Interface.heapPop, down_eq]
  rfl

theorem heapRemove_eq (store : TxStore) (place : ℕ) : store.heapRemove place = (txQueue.heapRemove store place).2 := by
  simp only [heapRemove, Heap.Interface.heapRemove, Heap.Interface.settle, down_eq, up_eq]
  rfl

/-- `txStore.getTxStatus`. -/
def getTxStatus (store : TxStore) (hash : Bytes) : TxStatus :=
  match store.item hash with
  | none => .notFound
  | some item => if item.inQueue then .queue else .pending

end TxStore

namespace ItemStore

/-- The hash behind a pointer. -/
def name (contents : List (Transaction × ℤ)) (pointer : ℕ) : Bytes :=
  (contents[pointer]?.map fun content => content.1.hash).getD []

/-- The store of hashes behind a store of pointers. -/
def forget (store : ItemStore) : TxStore :=
  ⟨store.txq.map (name store.contents), store.txItems.filterMap fun entry => store.memory[entry.2]?⟩

theorem forget_withQueue (store : ItemStore) (queue : List ℕ) :
    forget { store with txq := queue } =
      { store.forget with txq := queue.map (name store.contents) } := rfl

/-- The entries of a map are those of their items' hashes. -/
structure Keyed (contents : List (Transaction × ℤ)) (entries : List (Bytes × ℕ)) : Prop where
  keys_nodup : (entries.map Prod.fst).Nodup
  name_eq : ∀ {hash pointer}, (hash, pointer) ∈ entries →
    contents[pointer]?.map (fun content => content.1.hash) = some hash

variable {store : ItemStore}

theorem Represents.keyed (represents : store.Represents) : Keyed store.contents store.txItems :=
  ⟨represents.keys_nodup, fun entry => hashOf_eq store _ ▸ represents.hash_of_entry entry⟩

/-- The store has the given items and entries, and the second store is what it is without pointers. -/
structure Forgets (contents : List (Transaction × ℤ)) (entries : List (Bytes × ℕ)) (store : ItemStore)
    (hashes : TxStore) : Prop where
  contents_eq : store.contents = contents
  entries_eq : store.txItems = entries
  entry_of_queued : ∀ pointer ∈ store.txq, ∃ hash, (hash, pointer) ∈ entries
  forget_eq : store.forget = hashes

section

variable {contents : List (Transaction × ℤ)} {entries : List (Bytes × ℕ)}
  (keyed : Keyed contents entries) {store : ItemStore}
include keyed

variable {hash : Bytes} {hashes : TxStore}

theorem Keyed.name_of_entry {pointer : ℕ} (entry : (hash, pointer) ∈ entries) : name contents pointer = hash := by
  rw [name, keyed.name_eq entry, Option.getD_some]

theorem Keyed.item_of_entry (contents_eq : store.contents = contents) {pointer : ℕ}
    (entry : (hash, pointer) ∈ entries) : ∃ item, store.memory[pointer]? = some item ∧ item.tx.hash = hash := by
  have found := keyed.name_eq entry
  rw [← contents_eq, ← hashOf_eq] at found
  exact Option.map_eq_some_iff.mp found

theorem Keyed.item_forget (contents_eq : store.contents = contents) (entries_eq : store.txItems = entries)
    (hash : Bytes) : store.forget.item hash = store.item hash := by
  have found : ∀ entry ∈ store.txItems, ∃ item, store.memory[entry.2]? = some item ∧
      item.tx.hash = entry.1 := fun entry mem => keyed.item_of_entry contents_eq (entries_eq ▸ mem)
  rw [TxStore.item, forget, item, pointer]
  generalize store.txItems = list at found
  induction list with
  | nil => rfl
  | cons entry list ih =>
      obtain ⟨⟨item, item_eq, hash_eq⟩, rest⟩ := List.forall_mem_cons.mp found
      rw [List.filterMap_cons, item_eq]
      simp only [List.find?_cons, hash_eq]
      split
      · simp [item_eq]
      · exact ih rest

theorem Keyed.forget_setIndex (contents_eq : store.contents = contents)
    (entries_eq : store.txItems = entries) {pointer : ℕ} (entry : (hash, pointer) ∈ entries) (index : ℤ) :
    (store.setIndex pointer index).forget = store.forget.setIndex hash index := by
  simp only [forget, contents_setIndex, TxStore.setIndex, TxStore.mk.injEq]
  refine ⟨rfl, ?_⟩
  rw [List.map_filterMap]
  refine List.filterMap_congr fun other other_mem => ?_
  have other_mem : (other.1, other.2) ∈ entries := entries_eq ▸ other_mem
  obtain ⟨item, item_eq, hash_eq⟩ := keyed.item_of_entry contents_eq other_mem
  have own_iff : pointer = other.2 ↔ item.tx.hash = hash := by
    rw [hash_eq]
    refine ⟨fun same => ?_, fun same => ?_⟩
    · rw [← keyed.name_of_entry other_mem, ← same, keyed.name_of_entry entry]
    · exact congrArg Prod.snd (List.inj_on_of_nodup_map keyed.keys_nodup entry other_mem same.symm)
  simp only [setIndex, List.getElem?_modify, item_eq, own_iff, Option.map_eq_map, Option.map_some]

theorem Keyed.swap (forgets : Forgets contents entries store hashes) {i j : ℕ}
    (first : i < store.txq.length) (second : j < store.txq.length) :
    Forgets contents entries (store.swap i j) (hashes.swap i j) := by
  obtain ⟨contents_eq, entries_eq, entry_of_queued, rfl⟩ := forgets
  have first_eq := List.getElem?_eq_getElem first
  have second_eq := List.getElem?_eq_getElem second
  obtain ⟨first_hash, first_entry⟩ := entry_of_queued _ (List.mem_of_getElem? first_eq)
  obtain ⟨second_hash, second_entry⟩ := entry_of_queued _ (List.mem_of_getElem? second_eq)
  generalize store.txq[i] = left at first_eq first_entry
  generalize store.txq[j] = right at second_eq second_entry
  have left_name : name store.contents left = first_hash := contents_eq ▸ keyed.name_of_entry first_entry
  have right_name : name store.contents right = second_hash :=
    contents_eq ▸ keyed.name_of_entry second_entry
  have swap_eq : store.swap i j = ({ store with
      txq := (store.txq.set i right).set j left }.setIndex right i).setIndex left j := by
    rw [ItemStore.swap, first_eq, second_eq]
  have swap_eq' : store.forget.swap i j = ({ store.forget with
      txq := (store.forget.txq.set i second_hash).set j first_hash }.setIndex second_hash i).setIndex
        first_hash j := by
    have first_eq' : store.forget.txq[i]? = some first_hash := by simp [forget, first_eq, left_name]
    have second_eq' : store.forget.txq[j]? = some second_hash := by simp [forget, second_eq, right_name]
    rw [TxStore.swap, first_eq', second_eq']
  refine ⟨?_, ?_, ?_, ?_⟩
  · rw [swap_eq, contents_setIndex, contents_setIndex]
    exact contents_eq
  · rw [swap_eq]
    exact entries_eq
  · intro pointer mem
    rw [swap_eq] at mem
    have mem : pointer ∈ (store.txq.set i right).set j left := mem
    rcases List.mem_or_eq_of_mem_set mem with before | rfl
    · rcases List.mem_or_eq_of_mem_set before with before | rfl
      · exact entry_of_queued pointer before
      · exact ⟨_, second_entry⟩
    · exact ⟨_, first_entry⟩
  · obtain ⟨exchanged, exchanged_eq⟩ : ∃ exchanged : ItemStore,
        exchanged = { store with txq := (store.txq.set i right).set j left } := ⟨_, rfl⟩
    have exchanged_contents : exchanged.contents = contents := by rw [exchanged_eq, ← contents_eq]; rfl
    have exchanged_entries : exchanged.txItems = entries := by rw [exchanged_eq, ← entries_eq]
    have second_step := keyed.forget_setIndex exchanged_contents exchanged_entries second_entry i
    have first_step := keyed.forget_setIndex
      ((contents_setIndex exchanged right i).trans exchanged_contents) exchanged_entries first_entry j
    have forget_exchanged : exchanged.forget = { store.forget with
        txq := (store.forget.txq.set i second_hash).set j first_hash } := by
      rw [exchanged_eq, forget_withQueue, List.map_set, List.map_set, left_name, right_name]
      rfl
    rw [swap_eq, swap_eq', ← exchanged_eq, first_step, second_step, forget_exchanged]

theorem Keyed.push (forgets : Forgets contents entries store hashes) {pointer : ℕ} (entry : (hash, pointer) ∈ entries) :
    Forgets contents entries (store.push pointer) (hashes.push hash) := by
  obtain ⟨contents_eq, entries_eq, entry_of_queued, rfl⟩ := forgets
  have named : name store.contents pointer = hash := contents_eq ▸ keyed.name_of_entry entry
  refine ⟨(contents_setIndex store pointer _).trans contents_eq, entries_eq, ?_, ?_⟩
  · intro other mem
    rcases List.mem_append.mp mem with before | own
    · exact entry_of_queued other before
    · obtain rfl := List.mem_singleton.mp own
      exact ⟨hash, entry⟩
  · have length_eq : store.forget.txq.length = store.txq.length := List.length_map _
    rw [ItemStore.push, TxStore.push, forget_withQueue, contents_setIndex, List.map_append,
      List.map_singleton, named, length_eq,
      keyed.forget_setIndex contents_eq entries_eq entry store.txq.length]
    rfl

theorem Keyed.pop (forgets : Forgets contents entries store hashes) :
    store.pop.1.map (name contents) = hashes.txq.getLast? ∧ Forgets contents entries store.pop.2 hashes.pop := by
  obtain ⟨contents_eq, entries_eq, entry_of_queued, rfl⟩ := forgets
  have last_eq : store.forget.txq.getLast? = store.txq.getLast?.map (name contents) := by
    simp [forget, contents_eq]
  cases last : store.txq.getLast? with
  | none =>
      rw [last_eq, ItemStore.pop, TxStore.pop, last_eq, last]
      exact ⟨rfl, contents_eq, entries_eq, entry_of_queued, rfl⟩
  | some pointer =>
      obtain ⟨hash, entry⟩ := entry_of_queued pointer (List.mem_of_getLast? last)
      rw [last_eq, ItemStore.pop, TxStore.pop, last_eq, last]
      refine ⟨rfl, (contents_setIndex store pointer _).trans contents_eq, entries_eq, ?_, ?_⟩
      · exact fun other mem => entry_of_queued other (List.mem_of_mem_dropLast mem)
      · rw [Option.map_some, keyed.name_of_entry entry]
        simp only [forget_withQueue, contents_setIndex, List.map_dropLast,
          keyed.forget_setIndex contents_eq entries_eq entry (-1)]
        rfl

theorem Keyed.simulation : Heap.Simulation txQueue TxStore.txQueue (Forgets contents entries) (name contents) where
  len_swap hashes i j := by
    simp only [TxStore.txQueue, TxStore.swap]
    split
    · simp [TxStore.setIndex]
    · rfl
  len_eq := by
    rintro store _ ⟨-, -, -, rfl⟩
    simp [txQueue, TxStore.txQueue, forget]
  less_eq := by
    rintro store _ i j ⟨contents_eq, entries_eq, entry_of_queued, rfl⟩ first second
    have time_eq {place : ℕ} (inside : place < store.forget.txq.length) :
        store.timeAt place = store.forget.timeAt place := by
      have inside : place < store.txq.length := by simpa [forget] using inside
      have found := List.getElem?_eq_getElem inside
      generalize store.txq[place] = pointer at found
      obtain ⟨hash, entry⟩ := entry_of_queued pointer (List.mem_of_getElem? found)
      have found' : store.forget.txq[place]? = some hash := by
        simp [forget, found, contents_eq, keyed.name_of_entry entry]
      have item_eq : store.forget.item hash = store.memory[pointer]? := by
        rw [keyed.item_forget contents_eq entries_eq, item,
          pointer_of_mem (entries_eq ▸ keyed.keys_nodup) (entries_eq ▸ entry), Option.bind_some]
      rw [timeAt, TxStore.timeAt, found, found', Option.bind_some, Option.bind_some, item_eq]
    simp only [txQueue, TxStore.txQueue, ItemStore.less, TxStore.less, time_eq first, time_eq second]
  swap := by
    rintro store hashes i j forgets first second
    have length_eq : hashes.txq.length = store.txq.length := by
      rw [← forgets.forget_eq]
      simp [forget]
    exact keyed.swap forgets (length_eq ▸ first) (length_eq ▸ second)
  pop := fun forgets _ => keyed.pop forgets

end

/-! ## Operations -/

theorem Represents.forgets (represents : store.Represents) : Forgets store.contents store.txItems store store.forget :=
  ⟨rfl, rfl, fun _ queued => represents.entry_of_queued queued, rfl⟩

theorem Represents.item_forget (represents : store.Represents) (hash : Bytes) :
    store.forget.item hash = store.item hash := represents.keyed.item_forget rfl rfl hash

theorem Represents.getTxStatus_forget (represents : store.Represents)
    (hash : Bytes) : store.forget.getTxStatus hash = store.getTxStatus hash := by
  have same := represents.item_forget hash
  cases found : store.item hash with
  | none => simp [TxStore.getTxStatus, getTxStatus, same, found]
  | some item => simp [TxStore.getTxStatus, getTxStatus, same, found]

theorem Represents.forget_heapPush (represents : store.Represents) {hash : Bytes}
    {pointer : ℕ} (entry : (hash, pointer) ∈ store.txItems) :
    (txQueue.heapPush store pointer).forget = store.forget.heapPush hash := by
  rw [TxStore.heapPush_eq]
  refine (represents.keyed.simulation.heapPush represents.forgets
    (represents.keyed.push represents.forgets entry) ?_).forget_eq
  simp [TxStore.txQueue, TxStore.push, TxStore.setIndex]

theorem Represents.forget_putTx (represents : store.Represents) (hash : Bytes) :
    (store.putTx hash).forget = store.forget.putTxsToQueue [hash] := by
  rw [ItemStore.putTx, TxStore.putTxsToQueue, List.foldl_cons, List.foldl_nil, represents.item_forget, item]
  cases found : store.pointer hash with
  | none => rfl
  | some pointer =>
      obtain ⟨item, item_eq, -⟩ := represents.allocated_of_entry (mem_of_pointer found)
      simp only [Option.bind_some, item_eq, inQueue, Option.any_some]
      split
      · rfl
      · exact represents.forget_heapPush (mem_of_pointer found)

theorem Represents.forget_removeFromQueue (represents : store.Represents)
    {pointer : ℕ} {item : TxItem} (item_eq : store.memory[pointer]? = some item) :
    (store.removeFromQueue pointer).forget = store.forget.removeFromQueue item := by
  rw [ItemStore.removeFromQueue, item_eq, TxStore.removeFromQueue]
  simp only
  split
  · rename_i queued
    rw [represents.heaped.inQueue_iff item_eq] at queued
    have place := represents.heaped.place item_eq queued
    obtain ⟨inside, -⟩ := List.getElem?_eq_some_iff.mp place
    rw [TxStore.heapRemove_eq]
    refine (represents.keyed.simulation.heapRemove represents.forgets ?_).2.forget_eq
    simpa [TxStore.txQueue, forget] using inside
  · rfl

theorem Represents.forget_setTxPending (represents : store.Represents)
    (hash : Bytes) : (store.setTxPending hash).forget = store.forget.setTxsPending [hash] := by
  rw [ItemStore.setTxPending, TxStore.setTxsPending, List.foldl_cons, List.foldl_nil,
    represents.item_forget, item]
  cases found : store.pointer hash with
  | none => rfl
  | some pointer =>
      obtain ⟨item, item_eq, -⟩ := represents.allocated_of_entry (mem_of_pointer found)
      simp only [Option.bind_some, item_eq]
      exact represents.forget_removeFromQueue item_eq

theorem Represents.forget_deleteItem (represents : store.Represents)
    (hash : Bytes) : (store.deleteItem hash).forget = store.forget.deleteItem hash := by
  simp only [ItemStore.deleteItem, TxStore.deleteItem, forget, TxStore.mk.injEq]
  refine ⟨rfl, ?_⟩
  rw [List.filterMap_filter, List.filter_filterMap]
  refine List.filterMap_congr fun entry mem => ?_
  obtain ⟨item, item_eq, hash_eq⟩ := represents.allocated_of_entry mem
  simp [item_eq, hash_eq, Option.filter_some]

theorem Represents.forget_removeTx (represents : store.Represents) (hash : Bytes) :
    (store.removeTx hash).forget = store.forget.removeTxs [hash] := by
  have represents' := (represents.outcome_setTxPending hash).represents
  rw [ItemStore.removeTx, TxStore.removeTxs, List.foldl_cons, List.foldl_nil, represents.item_forget, item]
  rw [ItemStore.setTxPending] at represents'
  cases found : store.pointer hash with
  | none => rfl
  | some pointer =>
      obtain ⟨item, item_eq, -⟩ := represents.allocated_of_entry (mem_of_pointer found)
      rw [found] at represents'
      simp only [Option.bind_some, item_eq]
      rw [represents'.forget_deleteItem, represents.forget_removeFromQueue item_eq]

theorem Represents.forget_allocate (represents : store.Represents)
    (tx : Transaction) (now : ℤ) :
    (store.allocate tx now).forget =
      { store.forget with txItems := newTxItem tx now :: store.forget.txItems } := by
  have contents_eq : (store.allocate tx now).contents = store.contents ++ [(tx, now)] := by
    simp [contents, ItemStore.allocate, newTxItem]
  simp only [forget, TxStore.mk.injEq, contents_eq]
  refine ⟨List.map_congr_left fun pointer queued => ?_, ?_⟩
  · have allocated := represents.heaped.allocated pointer queued
    rw [name, List.getElem?_append_left (store.length_contents.symm ▸ allocated), ← name]
  · simp only [ItemStore.allocate, List.filterMap_cons]
    rw [List.getElem?_append_right le_rfl, Nat.sub_self]
    refine congrArg (newTxItem tx now :: ·) (List.filterMap_congr fun entry mem => ?_)
    obtain ⟨item, item_eq, -⟩ := represents.allocated_of_entry mem
    exact List.getElem?_append_left (List.getElem?_eq_some_iff.mp item_eq).1

theorem Represents.forget_addNewTx (represents : store.Represents)
    (tx : Transaction) (now : ℤ) : (store.addNewTx tx now).forget = store.forget.addNewTx tx now := by
  rw [TxStore.addNewTx, represents.item_forget]
  cases found : store.pointer tx.hash with
  | some pointer =>
      obtain ⟨item, item_eq, -⟩ := represents.allocated_of_entry (mem_of_pointer found)
      rw [ItemStore.addNewTx, ItemStore.item, found]
      simp [item_eq]
  | none =>
      rw [addNewTx_of_fresh found, (represents.allocate now found).forget_heapPush List.mem_cons_self,
        represents.forget_allocate, ItemStore.item, found]
      rfl

theorem Represents.forget_popTxs (represents : store.Represents) {count : ℕ} (enough : count ≤ store.txq.length) :
    TxStore.popTxs count store.forget = ((popTxs count store).1, (popTxs count store).2.forget) := by
  induction count generalizing store with
  | zero => rfl
  | succ count ih =>
      have nonempty : 0 < store.txq.length := by omega
      obtain ⟨first, pointer, popped, hash_eq, -, once, length_eq, entry⟩ := represents.heapPop nonempty
      have nonempty' : 0 < store.forget.txq.length := by simpa [forget] using nonempty
      obtain ⟨popped_eq, forgets⟩ := represents.keyed.simulation.heapPop represents.forgets nonempty'
      rw [popped, Option.map_some, represents.keyed.name_of_entry entry] at popped_eq
      rw [popTxs_succ popped hash_eq, TxStore.popTxs, TxStore.heapPop_eq]
      simp only [← popped_eq, ← forgets.forget_eq, ih once.represents (by omega),
        Option.toList_some, List.singleton_append]

theorem forget_foldl {target : TxStatus} {round : ItemStore → Bytes → ItemStore} {round' : TxStore → Bytes → TxStore}
    (each : ∀ store : ItemStore, store.Represents → ∀ hash, Outcome store (round store hash) (moved target [hash]))
    (follows : ∀ store : ItemStore, store.Represents → ∀ hash,
      (round store hash).forget = round' store.forget hash) (represents : store.Represents) (hashes : List Bytes) :
    (hashes.foldl round store).forget = hashes.foldl round' store.forget := by
  induction hashes generalizing store with
  | nil => rfl
  | cons first hashes ih =>
      rw [List.foldl_cons, List.foldl_cons, ← follows store represents first]
      exact ih (each store represents first).represents

end ItemStore

/-! ## The store of hashes -/

namespace TxStore

open ItemStore

/-- The store is what some store of pointers is without them. -/
def Represented (store : TxStore) : Prop := ∃ items : ItemStore, items.Represents ∧ items.forget = store

/-- What an operation does to the status of the transactions. -/
structure Outcome (store store' : TxStore) (change : Bytes → TxStatus → TxStatus) : Prop where
  represented : store'.Represented
  status_eq : ∀ hash, store'.getTxStatus hash = change hash (store.getTxStatus hash)

theorem Outcome.of_forget {items items' : ItemStore} {change : Bytes → TxStatus → TxStatus}
    {store' : TxStore} (represents : items.Represents) (outcome : ItemStore.Outcome items items' change)
    (forget_eq : items'.forget = store') : Outcome items.forget store' change := by
  subst forget_eq
  refine ⟨⟨items', outcome.represents, rfl⟩, fun hash => ?_⟩
  rw [outcome.represents.getTxStatus_forget, represents.getTxStatus_forget, outcome.status_eq]

variable {store : TxStore} (represented : store.Represented)

theorem represented_new : newTxStore.Represented := ⟨newItemStore, represents_new, rfl⟩

include represented

theorem Represented.addNewTx (tx : Transaction) (now : ℤ) : Outcome store (store.addNewTx tx now) (added tx) := by
  obtain ⟨items, represents, rfl⟩ := represented
  exact .of_forget represents (represents.outcome_addNewTx tx now) (represents.forget_addNewTx tx now)

theorem Represented.putTxsToQueue (hashes : List Bytes) :
    Outcome store (store.putTxsToQueue hashes) (moved .queue hashes) := by
  obtain ⟨items, represents, rfl⟩ := represented
  exact .of_forget represents (.foldl (fun _ => Represents.outcome_putTx) represents hashes)
    (forget_foldl (fun _ => Represents.outcome_putTx) (fun _ => Represents.forget_putTx) represents hashes)

theorem Represented.setTxsPending (hashes : List Bytes) :
    Outcome store (store.setTxsPending hashes) (moved .pending hashes) := by
  obtain ⟨items, represents, rfl⟩ := represented
  exact .of_forget represents (.foldl (fun _ => Represents.outcome_setTxPending) represents hashes)
    (forget_foldl (fun _ => Represents.outcome_setTxPending) (fun _ => Represents.forget_setTxPending)
      represents hashes)

theorem Represented.removeTxs (hashes : List Bytes) :
    Outcome store (store.removeTxs hashes) (moved .notFound hashes) := by
  obtain ⟨items, represents, rfl⟩ := represented
  exact .of_forget represents (.foldl (fun _ => Represents.outcome_removeTx) represents hashes)
    (forget_foldl (fun _ => Represents.outcome_removeTx) (fun _ => Represents.forget_removeTx) represents hashes)

theorem Represented.popTxsFromQueue (max : ℕ) :
    Outcome store (store.popTxsFromQueue max).2 (moved .pending (store.popTxsFromQueue max).1) := by
  obtain ⟨items, represents, rfl⟩ := represented
  have enough : min items.txq.length max ≤ items.txq.length := min_le_left _ _
  have length_eq : items.forget.txq.length = items.txq.length := List.length_map _
  rw [TxStore.popTxsFromQueue, length_eq, represents.forget_popTxs enough]
  exact .of_forget represents (represents.outcome_popTxs enough).1 rfl

end TxStore

end SvpChain.TxPool
