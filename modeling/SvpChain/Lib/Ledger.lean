import Mathlib.Data.List.AList
import Mathlib.Algebra.BigOperators.Group.List.Basic
import Mathlib.Tactic

/-!
# Finite maps of amounts

The total of what a finite map holds, under a measure of its entries.  A write changes the total by the
difference between the new amount and the one that it replaces, so transfers between two keys keep it.
-/

namespace SvpChain.Ledger

variable {κ β : Type} [DecidableEq κ] {measure : κ → β → ℕ} {store : AList fun _ : κ => β} {key : κ}

/-- The amount that a map holds under a key. -/
def held (measure : κ → β → ℕ) (store : AList fun _ : κ => β) (key : κ) : ℕ :=
  (store.lookup key).elim 0 (measure key)

/-- The sum of all amounts. -/
def total (measure : κ → β → ℕ) (store : AList fun _ : κ => β) : ℕ :=
  (store.entries.map fun entry => measure entry.1 entry.2).sum

@[simp]
theorem held_empty : held measure ∅ key = 0 := rfl

omit [DecidableEq κ] in
@[simp]
theorem total_empty : total measure (∅ : AList fun _ : κ => β) = 0 := rfl

@[simp]
theorem held_insert (value : β) : held measure (store.insert key value) key = measure key value := by
  rw [held, AList.lookup_insert]
  rfl

theorem held_insert_of_ne {other : κ} (different : other ≠ key) (value : β) :
    held measure (store.insert key value) other = held measure store other := by
  rw [held, AList.lookup_insert_ne different, held]

theorem held_erase_of_ne {other : κ} (different : other ≠ key) :
    held measure (store.erase key) other = held measure store other := by
  rw [held, AList.lookup_erase_ne different, held]

theorem total_eq_erase_add_held (key : κ) :
    total measure store = total measure (store.erase key) + held measure store key := by
  by_cases mem : key ∈ store
  · obtain ⟨value, left, right, absent, entries_eq, erased_eq⟩ := List.exists_of_kerase mem
    have found : store.lookup key = some value := by
      rw [← Option.mem_def, AList.mem_lookup_iff, entries_eq]
      exact List.mem_append_right _ List.mem_cons_self
    have erased : (store.erase key).entries = left ++ right := erased_eq
    rw [total, total, held, found, erased, entries_eq]
    simp only [List.map_append, List.map_cons, List.sum_append, List.sum_cons, Option.elim_some]
    omega
  · have missing : store.lookup key = none := AList.lookup_eq_none.mpr mem
    have erased : (store.erase key).entries = store.entries := List.kerase_of_notMem_keys mem
    rw [total, total, held, missing, erased]
    rfl

theorem total_insert (value : β) : total measure (store.insert key value) + held measure store key =
      total measure store + measure key value := by
  have inserted : total measure (store.insert key value) =
      measure key value + total measure (store.erase key) := by
    rw [total, AList.entries_insert, List.map_cons, List.sum_cons]
    rfl
  have split : total measure store = total measure (store.erase key) + held measure store key :=
    total_eq_erase_add_held key
  omega

theorem held_le_total (key : κ) : held measure store key ≤ total measure store := by
  rw [total_eq_erase_add_held key]
  exact Nat.le_add_left _ _

theorem held_add_held_le_total {other : κ} (different : other ≠ key) :
    held measure store other + held measure store key ≤ total measure store := by
  rw [total_eq_erase_add_held key, ← held_erase_of_ne different]
  exact Nat.add_le_add_right (held_le_total other) _

theorem exists_held_of_lt (more : held measure store key < total measure store) :
    ∃ other ≠ key, other ∈ store ∧ 0 < held measure store other := by
  rw [total_eq_erase_add_held key] at more
  have positive : total measure (store.erase key) ≠ 0 := by omega
  obtain ⟨⟨other, value⟩, mem, amount⟩ : ∃ entry ∈ (store.erase key).entries,
      measure entry.1 entry.2 ≠ 0 := by
    by_contra none_left
    push Not at none_left
    exact positive (List.sum_eq_zero fun amount mem => by
      obtain ⟨entry, entry_mem, rfl⟩ := List.mem_map.mp mem
      exact none_left entry entry_mem)
  have found : (store.erase key).lookup other = some value := AList.mem_lookup_iff.mpr mem
  have present : other ∈ store.erase key := AList.lookup_isSome.mp (found ▸ rfl)
  obtain ⟨different, in_store⟩ := AList.mem_erase.mp present
  refine ⟨other, different, in_store, ?_⟩
  rw [← held_erase_of_ne different, held, found]
  exact Nat.pos_of_ne_zero amount

/-- Writes of amounts, one after the other. -/
def insertAll (writes : List (κ × β)) (store : AList fun _ : κ => β) : AList fun _ : κ => β :=
  writes.foldl (fun store write => store.insert write.1 write.2) store

theorem total_insertAll_le (writes : List (κ × β)) (store : AList fun _ : κ => β) :
    total measure (insertAll writes store) ≤
      total measure store + (writes.map fun write => measure write.1 write.2).sum := by
  induction writes generalizing store with
  | nil => exact le_rfl
  | cons write writes ih =>
      have rest : total measure (insertAll (write :: writes) store) ≤ _ := ih (store.insert write.1 write.2)
      have written : total measure (store.insert write.1 write.2) + held measure store write.1 =
          total measure store + measure write.1 write.2 := total_insert write.2
      rw [List.map_cons, List.sum_cons]
      omega

theorem held_insert_eq_zero_iff {writes : List (κ × β)} {write : κ × β} (nothing : held measure store write.1 = 0) :
    (∀ later ∈ writes, held measure (store.insert write.1 write.2) later.1 = 0) ↔
      (∀ later ∈ writes, held measure store later.1 = 0) ∧
        ∀ later ∈ writes, write.1 = later.1 → measure write.1 write.2 = 0 := by
  rw [← forall₂_and]
  refine forall₂_congr fun later _ => ?_
  by_cases same : write.1 = later.1
  · rw [← same, held_insert, nothing]
    simp
  · rw [held_insert_of_ne (Ne.symm same)]
    simp [same]

/-- Writes lose nothing exactly if what they replace is nothing. -/
theorem total_insertAll_eq_iff (writes : List (κ × β)) (store : AList fun _ : κ => β) :
    total measure (insertAll writes store) =
        total measure store + (writes.map fun write => measure write.1 write.2).sum ↔
      (∀ write ∈ writes, held measure store write.1 = 0) ∧
        writes.Pairwise fun earlier later => earlier.1 = later.1 → measure earlier.1 earlier.2 = 0 := by
  induction writes generalizing store with
  | nil => simp [insertAll]
  | cons write writes ih =>
      have rest_iff := ih (store.insert write.1 write.2)
      have rest_le : total measure (insertAll (write :: writes) store) ≤ _ :=
        total_insertAll_le writes (store.insert write.1 write.2)
      have written : total measure (store.insert write.1 write.2) + held measure store write.1 =
          total measure store + measure write.1 write.2 := total_insert write.2
      have split : total measure (insertAll (write :: writes) store) = total measure store +
            ((write :: writes).map fun write => measure write.1 write.2).sum ↔
          held measure store write.1 = 0 ∧
            total measure (insertAll writes (store.insert write.1 write.2)) =
              total measure (store.insert write.1 write.2) +
                (writes.map fun write => measure write.1 write.2).sum := by
        rw [List.map_cons, List.sum_cons]
        change total measure (insertAll writes (store.insert write.1 write.2)) ≤ _ at rest_le
        change total measure (insertAll writes (store.insert write.1 write.2)) = _ ↔ _
        omega
      rw [split, rest_iff, List.forall_mem_cons, List.pairwise_cons]
      constructor
      · rintro ⟨nothing, later, pairwise⟩
        obtain ⟨before, replaced⟩ := (held_insert_eq_zero_iff nothing).mp later
        exact ⟨⟨nothing, before⟩, replaced, pairwise⟩
      · rintro ⟨⟨nothing, before⟩, replaced, pairwise⟩
        exact ⟨nothing, (held_insert_eq_zero_iff nothing).mpr ⟨before, replaced⟩, pairwise⟩

end SvpChain.Ledger
