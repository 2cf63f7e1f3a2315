import SvpChain.Core.Message

/-!
# The transaction store

`txStore` of package `txpool` with its queue, a binary heap over `container/heap`.  Items are shared
between the queue and the map by pointer; an item is the one of its transaction hash, so the queue
holds hashes.
-/

namespace SvpChain.TxPool

open Core

/-- `txItem`; the index is `-1` outside the queue. -/
structure TxItem where
  tx : Transaction
  receivedTime : ℤ
  index : ℤ

/-- `txItem.inQueue`. -/
def TxItem.inQueue (item : TxItem) : Bool := item.index ≠ -1

/-- `txStore`. -/
structure TxStore where
  txq : List Bytes
  txItems : List TxItem

/-- `newTxStore`. -/
def newTxStore : TxStore := ⟨[], []⟩

namespace TxStore

/-- `store.txItems[string(hash)]`. -/
def item (store : TxStore) (hash : Bytes) : Option TxItem :=
  store.txItems.find? fun item => item.tx.hash = hash

/-- Write the index of an item. -/
def setIndex (store : TxStore) (hash : Bytes) (index : ℤ) : TxStore :=
  { store with
    txItems := store.txItems.map fun item =>
      if item.tx.hash = hash then { item with index := index } else item }

/-! ## The heap interface -/

/-- The receive time at a place of the queue. -/
def timeAt (store : TxStore) (place : ℕ) : ℤ :=
  (((store.txq[place]?).bind store.item).map TxItem.receivedTime).getD 0

/-- `txQueue.Less`. -/
def less (store : TxStore) (i j : ℕ) : Bool := store.timeAt i < store.timeAt j

/-- `txQueue.Swap`. -/
def swap (store : TxStore) (i j : ℕ) : TxStore :=
  match store.txq[i]?, store.txq[j]? with
  | some first, some second =>
      ({ store with txq := (store.txq.set i second).set j first }.setIndex second i).setIndex first j
  | _, _ => store

/-- `txQueue.Push`. -/
def push (store : TxStore) (hash : Bytes) : TxStore :=
  { store.setIndex hash store.txq.length with txq := store.txq ++ [hash] }

/-- `txQueue.Pop`. -/
def pop (store : TxStore) : TxStore :=
  match store.txq.getLast? with
  | some hash => { store.setIndex hash (-1) with txq := store.txq.dropLast }
  | none => store

/-- The loop `up` of `container/heap`, at most `fuel` times. -/
def up : ℕ → ℕ → TxStore → TxStore
  | 0, _, store => store
  | fuel + 1, j, store =>
      let i := (j - 1) / 2
      if i = j ∨ store.less j i = false then store else up fuel i (store.swap i j)

/-- The loop `down` of `container/heap`, at most `fuel` times, with the place it ends at. -/
def down (n : ℕ) : ℕ → ℕ → TxStore → TxStore × ℕ
  | 0, i, store => (store, i)
  | fuel + 1, i, store =>
      let left := 2 * i + 1
      if n ≤ left then (store, i)
      else
        let j := if left + 1 < n ∧ store.less (left + 1) left then left + 1 else left
        if store.less j i = false then (store, i) else down n fuel j (store.swap i j)

/-- `heap.Push`. -/
def heapPush (store : TxStore) (hash : Bytes) : TxStore :=
  up store.txq.length store.txq.length (store.push hash)

/-- `heap.Pop`, with the hash of the item popped. -/
def heapPop (store : TxStore) : Option Bytes × TxStore :=
  let n := store.txq.length - 1
  let store := (down n n 0 (store.swap 0 n)).1
  (store.txq.getLast?, store.pop)

/-- `heap.Remove`. -/
def heapRemove (store : TxStore) (place : ℕ) : TxStore :=
  let n := store.txq.length - 1
  let store :=
    if n = place then store
    else
      let (store, ended) := down n n place (store.swap place n)
      if place < ended then store else up place place store
  store.pop

/-! ## The store -/

/-- `txStore.addNewTx` at a time. -/
def addNewTx (store : TxStore) (tx : Transaction) (now : ℤ) : TxStore :=
  if (store.item tx.hash).isSome then store
  else { store with txItems := ⟨tx, now, -1⟩ :: store.txItems }.heapPush tx.hash

/-- The loop of `popTxsFromQueue`. -/
def popTxs : ℕ → TxStore → List Bytes × TxStore
  | 0, store => ([], store)
  | count + 1, store =>
      let (hash, store) := store.heapPop
      let (hashes, store) := popTxs count store
      (hash.toList ++ hashes, store)

/-- `txStore.popTxsFromQueue`. -/
def popTxsFromQueue (store : TxStore) (max : ℕ) : List Bytes × TxStore :=
  popTxs (min store.txq.length max) store

/-- `txStore.getTxsFromQueue`. -/
def getTxsFromQueue (store : TxStore) (max : ℕ) : List Bytes := store.txq.take max

/-- `txStore.putTxsToQueue`. -/
def putTxsToQueue (store : TxStore) (hashes : List Bytes) : TxStore :=
  hashes.foldl (fun store hash =>
    match store.item hash with
    | some item => if item.inQueue then store else store.heapPush hash
    | none => store) store

/-- The removal of an item from the queue, where it is in there. -/
def removeFromQueue (store : TxStore) (item : TxItem) : TxStore :=
  if item.inQueue then store.heapRemove item.index.toNat else store

/-- `txStore.setTxsPending`. -/
def setTxsPending (store : TxStore) (hashes : List Bytes) : TxStore :=
  hashes.foldl (fun store hash =>
    match store.item hash with
    | some item => store.removeFromQueue item
    | none => store) store

/-- `delete(store.txItems, string(hash))`. -/
def deleteItem (store : TxStore) (hash : Bytes) : TxStore :=
  { store with txItems := store.txItems.filter fun item => item.tx.hash ≠ hash }

/-- `txStore.removeTxs`. -/
def removeTxs (store : TxStore) (hashes : List Bytes) : TxStore :=
  hashes.foldl (fun store hash =>
    match store.item hash with
    | some item => (store.removeFromQueue item).deleteItem hash
    | none => store) store

/-- `txStore.getTx`. -/
def getTx (store : TxStore) (hash : Bytes) : Option Transaction :=
  (store.item hash).map TxItem.tx

theorem hash_of_getTx {store : TxStore} {hash : Bytes} {tx : Transaction}
    (found : store.getTx hash = some tx) : tx.hash = hash := by
  obtain ⟨item, item_eq, rfl⟩ := Option.map_eq_some_iff.mp found
  simpa using List.find?_some item_eq

/-! ## The transactions of the store -/

/-- The transactions that the store holds, in the queue or not. -/
def txs (store : TxStore) : List Transaction := store.txItems.map TxItem.tx

theorem getTx_eq (store : TxStore) (hash : Bytes) : store.getTx hash = store.txs.find? fun tx => tx.hash = hash := by
  rw [getTx, item, txs, List.find?_map]
  rfl

@[simp]
theorem txs_setIndex (store : TxStore) (hash : Bytes) (index : ℤ) : (store.setIndex hash index).txs = store.txs := by
  rw [txs, setIndex, List.map_map]
  refine List.map_congr_left fun item _ => ?_
  simp only [Function.comp_apply]
  split <;> rfl

theorem txs_swap (store : TxStore) (i j : ℕ) : (store.swap i j).txs = store.txs := by
  unfold swap
  split
  · rw [txs_setIndex, txs_setIndex]
    rfl
  · rfl

theorem txs_push (store : TxStore) (hash : Bytes) : (store.push hash).txs = store.txs :=
  txs_setIndex store hash store.txq.length

theorem txs_pop (store : TxStore) : store.pop.txs = store.txs := by
  unfold pop
  split
  · exact txs_setIndex store _ (-1)
  · rfl

theorem txs_up (fuel j : ℕ) (store : TxStore) : (up fuel j store).txs = store.txs := by
  induction fuel generalizing j store with
  | zero => rfl
  | succ fuel ih =>
      rw [up]
      split
      · rfl
      · rw [ih, txs_swap]

theorem txs_down (n fuel i : ℕ) (store : TxStore) : (down n fuel i store).1.txs = store.txs := by
  induction fuel generalizing i store with
  | zero => rfl
  | succ fuel ih =>
      simp only [down]
      generalize (if 2 * i + 1 + 1 < n ∧ store.less (2 * i + 1 + 1) (2 * i + 1) = true then 2 * i + 1 + 1
        else 2 * i + 1) = j
      split
      · rfl
      · split
        · rfl
        · rw [ih, txs_swap]

theorem txs_heapPush (store : TxStore) (hash : Bytes) : (store.heapPush hash).txs = store.txs := by
  rw [heapPush, txs_up, txs_push]

theorem txs_heapRemove (store : TxStore) (place : ℕ) : (store.heapRemove place).txs = store.txs := by
  rw [heapRemove, txs_pop]
  split
  · rfl
  · have sifted := (txs_down (store.txq.length - 1) (store.txq.length - 1) place
      (store.swap place (store.txq.length - 1))).trans (txs_swap store _ _)
    dsimp only
    split
    · exact sifted
    · exact (txs_up _ _ _).trans sifted

theorem txs_removeFromQueue (store : TxStore) (item : TxItem) : (store.removeFromQueue item).txs = store.txs := by
  unfold removeFromQueue
  split
  · exact txs_heapRemove store _
  · rfl

theorem txs_putTxsToQueue (store : TxStore) (hashes : List Bytes) : (store.putTxsToQueue hashes).txs = store.txs := by
  unfold putTxsToQueue
  induction hashes generalizing store with
  | nil => rfl
  | cons hash hashes ih =>
      rw [List.foldl_cons, ih]
      split
      · split
        · rfl
        · exact txs_heapPush store hash
      · rfl

theorem txs_setTxsPending (store : TxStore) (hashes : List Bytes) : (store.setTxsPending hashes).txs = store.txs := by
  unfold setTxsPending
  induction hashes generalizing store with
  | nil => rfl
  | cons hash hashes ih =>
      rw [List.foldl_cons, ih]
      split
      · exact txs_removeFromQueue store _
      · rfl

theorem txs_deleteItem (store : TxStore) (hash : Bytes) :
    (store.deleteItem hash).txs = store.txs.filter fun tx => tx.hash ≠ hash := by
  rw [txs, deleteItem, txs, List.filter_map]
  rfl

theorem txs_removeTxs (store : TxStore) (hashes : List Bytes) :
    (store.removeTxs hashes).txs = store.txs.filter fun tx => tx.hash ∉ hashes := by
  unfold removeTxs
  induction hashes generalizing store with
  | nil => simp
  | cons hash hashes ih =>
      have round : (match store.item hash with
          | some item => (store.removeFromQueue item).deleteItem hash
          | none => store).txs = store.txs.filter fun tx => tx.hash ≠ hash := by
        cases found : store.item hash with
        | some item => exact (txs_deleteItem _ hash).trans (by rw [txs_removeFromQueue])
        | none =>
            have absent := List.find?_eq_none.mp found
            refine (List.filter_eq_self.mpr fun tx mem => ?_).symm
            obtain ⟨item, item_mem, rfl⟩ := List.mem_map.mp mem
            simpa using absent item item_mem
      rw [List.foldl_cons, ih, round, List.filter_filter]
      refine List.filter_congr fun tx _ => ?_
      by_cases own : tx.hash = hash <;> simp [own]

theorem txs_addNewTx (store : TxStore) (tx : Transaction) (now : ℤ) :
    (store.addNewTx tx now).txs = if (store.getTx tx.hash).isSome then store.txs else tx :: store.txs := by
  rw [addNewTx, getTx, Option.isSome_map]
  split
  · rfl
  · exact txs_heapPush _ _

theorem isSome_getTx_addNewTx (store : TxStore) (tx : Transaction) (now : ℤ) (hash : Bytes) :
    ((store.addNewTx tx now).getTx hash).isSome = true ↔ hash = tx.hash ∨ (store.getTx hash).isSome = true := by
  rw [getTx_eq, txs_addNewTx]
  split
  · next known =>
      rw [← getTx_eq]
      exact ⟨.inr, fun either => either.elim (fun own => own ▸ known) id⟩
  · rw [List.find?_cons, getTx_eq]
    by_cases own : hash = tx.hash
    · simp [own]
    · simp [own, Ne.symm own]

theorem getTx_setTxsPending (store : TxStore) (hashes : List Bytes) (hash : Bytes) :
    (store.setTxsPending hashes).getTx hash = store.getTx hash := by
  rw [getTx_eq, txs_setTxsPending, getTx_eq]

theorem getTx_removeTxs (store : TxStore) (hashes : List Bytes) (hash : Bytes) :
    (store.removeTxs hashes).getTx hash = if hash ∈ hashes then none else store.getTx hash := by
  rw [getTx_eq, txs_removeTxs, getTx_eq, List.find?_filter]
  split
  · next removed =>
      refine List.find?_eq_none.mpr fun tx _ found => ?_
      simp only [decide_not, Bool.not_eq_eq_eq_not, Bool.not_true, decide_eq_false_iff_not,
        decide_eq_true_eq] at found
      exact found.1 (found.2 ▸ removed)
  · next kept =>
      refine List.find?_congr fun tx _ => ?_
      by_cases own : tx.hash = hash <;> simp [own, kept]

end TxStore

end SvpChain.TxPool
