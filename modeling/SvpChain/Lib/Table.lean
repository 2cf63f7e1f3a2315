import Mathlib.Logic.Function.Basic
import Mathlib.Tactic

/-!
# Tables

A key-value table as a partial function, and the effect of a list of writes on it; a table as a list of entries.
-/

namespace SvpChain.Table

variable {K V : Type*} [DecidableEq K]

/-- Write a list of entries, in order. -/
def writeAll (table : K → Option V) (entries : List (K × V)) : K → Option V :=
  entries.foldl (fun table entry => Function.update table entry.1 (some entry.2)) table

@[simp]
theorem writeAll_cons (table : K → Option V) (entry : K × V) (entries : List (K × V)) :
    writeAll table (entry :: entries) = writeAll (Function.update table entry.1 (some entry.2)) entries := rfl

theorem writeAll_append (table : K → Option V) (first second : List (K × V)) :
    writeAll table (first ++ second) = writeAll (writeAll table first) second :=
  List.foldl_append

variable {table : K → Option V} {key : K} {entries : List (K × V)}

theorem writeAll_congr {table' : K → Option V} (same : table key = table' key)
    (entries : List (K × V)) : writeAll table entries key = writeAll table' entries key := by
  induction entries generalizing table table' with
  | nil => exact same
  | cons entry entries ih =>
      rw [writeAll_cons, writeAll_cons]
      apply ih
      by_cases own : key = entry.1
      · subst own
        simp
      · rw [Function.update_of_ne own, Function.update_of_ne own, same]

theorem writeAll_of_notMem (key_notMem : key ∉ entries.map Prod.fst) : writeAll table entries key = table key := by
  induction entries generalizing table with
  | nil => rfl
  | cons entry entries ih =>
      rw [List.map_cons, List.mem_cons, not_or] at key_notMem
      rw [writeAll_cons, ih key_notMem.2, Function.update_of_ne key_notMem.1]

theorem writeAll_of_mem {value : V} (entry_mem : (key, value) ∈ entries)
    (agree : ∀ other, (key, other) ∈ entries → other = value) : writeAll table entries key = some value := by
  induction entries generalizing table with
  | nil => exact absurd entry_mem List.not_mem_nil
  | cons entry entries ih =>
      rw [writeAll_cons]
      by_cases later : key ∈ entries.map Prod.fst
      · obtain ⟨⟨_, other⟩, other_mem, rfl⟩ := List.mem_map.mp later
        obtain rfl := agree other (List.mem_cons_of_mem _ other_mem)
        exact ih other_mem fun another another_mem => agree another (List.mem_cons_of_mem _ another_mem)
      · rcases List.mem_cons.mp entry_mem with rfl | in_rest
        · rw [writeAll_of_notMem later, Function.update_self]
        · exact absurd (List.mem_map_of_mem in_rest) later

theorem isSome_writeAll (stored : (table key).isSome)
    (entries : List (K × V)) : (writeAll table entries key).isSome := by
  induction entries generalizing table with
  | nil => exact stored
  | cons entry entries ih =>
      rw [writeAll_cons]
      apply ih
      by_cases own : key = entry.1
      · rw [own, Function.update_self]
        rfl
      · rwa [Function.update_of_ne own]

theorem isSome_writeAll_of_mem (table : K → Option V) {entry : K × V}
    (entry_mem : entry ∈ entries) : (writeAll table entries entry.1).isSome := by
  obtain ⟨before, after, rfl⟩ := List.append_of_mem entry_mem
  rw [writeAll_append, writeAll_cons]
  refine isSome_writeAll ?_ after
  rw [Function.update_self]
  rfl

theorem writeAll_of_stored
    (stored : ∀ entry ∈ entries, table entry.1 = some entry.2) : writeAll table entries = table := by
  induction entries with
  | nil => rfl
  | cons entry entries ih =>
      obtain ⟨own, rest⟩ := List.forall_mem_cons.mp stored
      rw [writeAll_cons, ← own, Function.update_eq_self, ih rest]

theorem writeAll_eq_of_mem (table table' : K → Option V)
    (key_mem : key ∈ entries.map Prod.fst) : writeAll table entries key = writeAll table' entries key := by
  induction entries generalizing table table' with
  | nil => exact absurd key_mem List.not_mem_nil
  | cons entry entries ih =>
      rw [writeAll_cons, writeAll_cons]
      by_cases later : key ∈ entries.map Prod.fst
      · exact ih _ _ later
      · rcases List.mem_cons.mp key_mem with rfl | in_rest
        · rw [writeAll_of_notMem later, writeAll_of_notMem later, Function.update_self,
            Function.update_self]
        · exact absurd in_rest later

/-- Writing a first part of the entries and then all of them is writing all of them. -/
theorem writeAll_take_writeAll (table : K → Option V) (entries : List (K × V)) (n : ℕ) :
    writeAll (writeAll table (entries.take n)) entries = writeAll table entries := by
  funext key
  by_cases key_mem : key ∈ entries.map Prod.fst
  · exact writeAll_eq_of_mem _ _ key_mem
  · have untouched : key ∉ (entries.take n).map Prod.fst := by
      rw [List.map_take]
      exact fun mem => key_mem (List.mem_of_mem_take mem)
    exact writeAll_congr (writeAll_of_notMem untouched) entries

theorem writeAll_embed {K' : Type*} [DecidableEq K'] {embed : K' → K}
    (embed_injective : Function.Injective embed) (table : K → Option V) (entries : List (K' × V)) (key : K') :
    writeAll table (entries.map fun entry => (embed entry.1, entry.2)) (embed key) =
      writeAll (fun key => table (embed key)) entries key := by
  induction entries generalizing table with
  | nil => rfl
  | cons entry entries ih =>
      rw [List.map_cons, writeAll_cons, writeAll_cons, ih]
      congr 1
      funext other
      by_cases same : other = entry.1
      · subst same
        simp
      · rw [Function.update_of_ne (embed_injective.ne same), Function.update_of_ne same]

theorem lookup_filter_ne [BEq K] [LawfulBEq K] {removed : K} (different : key ≠ removed) (entries : List (K × V)) :
    (entries.filter fun entry => entry.1 ≠ removed).lookup key = entries.lookup key := by
  induction entries with
  | nil => rfl
  | cons entry entries ih =>
      obtain ⟨other, value⟩ := entry
      by_cases same : other = removed
      · have skipped : (key == other) = false := by
          rw [same]
          exact beq_eq_false_iff_ne.mpr different
        rw [List.filter_cons_of_neg (by simpa using same), ih, List.lookup_cons, skipped]
      · rw [List.filter_cons_of_pos (by simpa using same), List.lookup_cons, List.lookup_cons, ih]

end SvpChain.Table
