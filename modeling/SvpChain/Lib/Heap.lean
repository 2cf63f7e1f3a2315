import Mathlib.Logic.Function.Basic
import Mathlib.Order.Basic
import Mathlib.Tactic

/-!
# Binary heaps over an interface

A binary heap that reaches its elements only through the five operations of an interface, with the
loops of `container/heap`.  A simulation between two interfaces carries over to the heap functions.
The indexed queue, in which every element knows its place, is the interface for which it is proved
what they do; other interfaces reach it by a simulation.
-/

namespace SvpChain.Heap

/-- What a heap is built on; `pop` removes the last element. -/
structure Interface (σ ι : Type*) where
  len : σ → ℕ
  less : σ → ℕ → ℕ → Bool
  swap : σ → ℕ → ℕ → σ
  push : σ → ι → σ
  pop : σ → Option ι × σ

namespace Interface

variable {σ ι : Type*} (heap : Interface σ ι)

/-- The loop `up`, at most `fuel` times. -/
def up : ℕ → ℕ → σ → σ
  | 0, _, state => state
  | fuel + 1, j, state =>
      let i := (j - 1) / 2
      if i = j ∨ heap.less state j i = false then state else up fuel i (heap.swap state i j)

/-- The smaller one of the children of a place that has a left one. -/
def child (n i : ℕ) (state : σ) : ℕ :=
  if 2 * i + 2 < n ∧ heap.less state (2 * i + 2) (2 * i + 1) then 2 * i + 2 else 2 * i + 1

/-- The loop `down`, at most `fuel` times, with the place it ends at. -/
def down (n : ℕ) : ℕ → ℕ → σ → σ × ℕ
  | 0, i, state => (state, i)
  | fuel + 1, i, state =>
      if n ≤ 2 * i + 1 then (state, i)
      else
        let j := heap.child n i state
        if heap.less state j i = false then (state, i) else down n fuel j (heap.swap state i j)

/-- `heap.Push`. -/
def heapPush (state : σ) (element : ι) : σ :=
  heap.up (heap.len state) (heap.len state) (heap.push state element)

/-- `heap.Pop`. -/
def heapPop (state : σ) : Option ι × σ :=
  let n := heap.len state - 1
  heap.pop (heap.down n n 0 (heap.swap state 0 n)).1

/-- What `heap.Remove` does before the last element is popped. -/
def settle (n place : ℕ) (state : σ) : σ :=
  let (state, ended) := heap.down n n place (heap.swap state place n)
  if place < ended then state else heap.up place place state

/-- `heap.Remove`. -/
def heapRemove (state : σ) (place : ℕ) : Option ι × σ :=
  let n := heap.len state - 1
  heap.pop (if n = place then state else heap.settle n place state)

theorem child_bounds {n i : ℕ} (state : σ) (left : 2 * i + 1 < n) :
    i < heap.child n i state ∧ heap.child n i state < n := by
  rw [child]
  split <;> omega

end Interface

/-! ## Simulation -/

/-- The operations of one interface follow those of another, with the elements renamed. -/
structure Simulation {σ ι τ κ : Type*} (heap : Interface σ ι) (model : Interface τ κ)
    (related : σ → τ → Prop) (name : ι → κ) : Prop where
  len_swap : ∀ state i j, model.len (model.swap state i j) = model.len state
  len_eq : ∀ {state state'}, related state state' → heap.len state = model.len state'
  less_eq : ∀ {state state' i j}, related state state' → i < model.len state' →
    j < model.len state' → heap.less state i j = model.less state' i j
  swap : ∀ {state state' i j}, related state state' → i < model.len state' →
    j < model.len state' → related (heap.swap state i j) (model.swap state' i j)
  pop : ∀ {state state'}, related state state' → 0 < model.len state' →
    (heap.pop state).1.map name = (model.pop state').1 ∧
      related (heap.pop state).2 (model.pop state').2

namespace Simulation

variable {σ ι τ κ : Type*} {heap : Interface σ ι} {model : Interface τ κ}
  {related : σ → τ → Prop} {name : ι → κ} (simulation : Simulation heap model related name)
include simulation

variable {state : σ} {state' : τ}

theorem up (fuel : ℕ) {j : ℕ} (together : related state state') (inside : j < model.len state') :
    related (heap.up fuel j state) (model.up fuel j state') ∧
      model.len (model.up fuel j state') = model.len state' := by
  induction fuel generalizing j state state' with
  | zero => exact ⟨together, rfl⟩
  | succ fuel ih =>
      have parent_inside : (j - 1) / 2 < model.len state' := by omega
      rw [Interface.up, Interface.up, simulation.less_eq together inside parent_inside]
      split
      · exact ⟨together, rfl⟩
      · have swapped := simulation.len_swap state' ((j - 1) / 2) j
        rw [← swapped]
        exact ih (simulation.swap together parent_inside inside) (swapped.symm ▸ parent_inside)

theorem child_eq {n i : ℕ} (together : related state state')
    (bound : n ≤ model.len state') : heap.child n i state = model.child n i state' := by
  rw [Interface.child, Interface.child]
  by_cases right : 2 * i + 2 < n
  · rw [simulation.less_eq together (by omega) (by omega)]
  · rw [if_neg (fun both => right both.1), if_neg (fun both => right both.1)]

theorem down (fuel i : ℕ) {n : ℕ} (together : related state state') (bound : n ≤ model.len state') :
    related (heap.down n fuel i state).1 (model.down n fuel i state').1 ∧
      (heap.down n fuel i state).2 = (model.down n fuel i state').2 ∧
      model.len (model.down n fuel i state').1 = model.len state' := by
  induction fuel generalizing i state state' with
  | zero => exact ⟨together, rfl, rfl⟩
  | succ fuel ih =>
      rw [Interface.down, Interface.down]
      split
      · exact ⟨together, rfl, rfl⟩
      · rename_i left
        have bounds := model.child_bounds state' (not_le.mp left)
        have child_eq := simulation.child_eq (i := i) together bound
        simp only [child_eq]
        rw [simulation.less_eq together (by omega) (by omega)]
        split
        · exact ⟨together, rfl, rfl⟩
        · have swapped := simulation.len_swap state' i (model.child n i state')
          rw [← swapped]
          exact ih _ (simulation.swap together (by omega) (by omega)) (swapped.symm ▸ bound)

theorem heapPush {element : ι} {element' : κ} (together : related state state')
    (pushed : related (heap.push state element) (model.push state' element'))
    (longer : model.len (model.push state' element') = model.len state' + 1) :
    related (heap.heapPush state element) (model.heapPush state' element') := by
  rw [Interface.heapPush, Interface.heapPush, simulation.len_eq together]
  exact (simulation.up _ pushed (by omega)).1

theorem heapPop (together : related state state') (nonempty : 0 < model.len state') :
    (heap.heapPop state).1.map name = (model.heapPop state').1 ∧
      related (heap.heapPop state).2 (model.heapPop state').2 := by
  simp only [Interface.heapPop, simulation.len_eq together]
  have swapped := simulation.swap together nonempty
    (show model.len state' - 1 < model.len state' by omega)
  have swapped_len := simulation.len_swap state' 0 (model.len state' - 1)
  obtain ⟨settled, -, settled_len⟩ :=
    simulation.down (model.len state' - 1) 0 (n := model.len state' - 1) swapped (by omega)
  exact simulation.pop settled (by omega)

theorem heapRemove {place : ℕ} (together : related state state') (inside : place < model.len state') :
    (heap.heapRemove state place).1.map name = (model.heapRemove state' place).1 ∧
      related (heap.heapRemove state place).2 (model.heapRemove state' place).2 := by
  simp only [Interface.heapRemove, simulation.len_eq together]
  split
  · exact simulation.pop together (by omega)
  · have swapped := simulation.swap together inside
      (show model.len state' - 1 < model.len state' by omega)
    have swapped_len := simulation.len_swap state' place (model.len state' - 1)
    obtain ⟨settled, ended_eq, settled_len⟩ :=
      simulation.down (model.len state' - 1) place (n := model.len state' - 1) swapped (by omega)
    simp only [Interface.settle, ended_eq]
    split
    · exact simulation.pop settled (by omega)
    · obtain ⟨lifted, lifted_len⟩ := simulation.up place (j := place) settled (by omega)
      exact simulation.pop lifted (by omega)

end Simulation

/-! ## The indexed queue -/

/-- A queue whose elements know their places, with `-1` outside. -/
structure Indexed (ι : Type*) where
  queue : List ι
  index : ι → ℤ

namespace Indexed

variable {ι K : Type*} [DecidableEq ι] [LinearOrder K] (key : ι → K)

/-- The element at the first place has a smaller key. -/
def less (state : Indexed ι) (i j : ℕ) : Bool :=
  match state.queue[i]?, state.queue[j]? with
  | some first, some second => key first < key second
  | _, _ => false

/-- Exchange the elements at two places. -/
def swap (state : Indexed ι) (i j : ℕ) : Indexed ι :=
  match state.queue[i]?, state.queue[j]? with
  | some first, some second =>
      ⟨(state.queue.set i second).set j first,
        Function.update (Function.update state.index second i) first j⟩
  | _, _ => state

/-- Append an element. -/
def push (state : Indexed ι) (element : ι) : Indexed ι :=
  ⟨state.queue ++ [element], Function.update state.index element state.queue.length⟩

/-- Remove the last element. -/
def pop (state : Indexed ι) : Option ι × Indexed ι :=
  match state.queue.getLast? with
  | some element => (some element, ⟨state.queue.dropLast, Function.update state.index element (-1)⟩)
  | none => (none, state)

/-- The interface of an indexed queue. -/
def interface : Interface (Indexed ι) ι where
  len state := state.queue.length
  less := less key
  swap := swap
  push := push
  pop := pop

@[simp]
theorem interface_len (state : Indexed ι) : (interface key).len state = state.queue.length := rfl

@[simp]
theorem interface_swap (state : Indexed ι) (i j : ℕ) : (interface key).swap state i j = state.swap i j := rfl

@[simp]
theorem interface_pop (state : Indexed ι) : (interface key).pop state = state.pop := rfl

/-! ### Places -/

/-- Every element knows its place. -/
structure Placed (state : Indexed ι) : Prop where
  index_of_place : ∀ {j : ℕ} {element : ι}, state.queue[j]? = some element → state.index element = j
  index_outside : ∀ {element : ι}, element ∉ state.queue → state.index element = -1

variable {state settled : Indexed ι} {i j n k place : ℕ} {element : ι}

omit [DecidableEq ι] in
theorem Placed.nodup (placed : state.Placed) : state.queue.Nodup := by
  rw [List.nodup_iff_getElem?_ne_getElem?]
  intro i j lt inside same
  have found := List.getElem?_eq_getElem inside
  have first := placed.index_of_place (same.trans found)
  have second := placed.index_of_place found
  omega

omit [DecidableEq ι] in
theorem Placed.index_eq_neg_iff (placed : state.Placed) (element : ι) :
    state.index element = -1 ↔ element ∉ state.queue := by
  refine ⟨fun outside mem => ?_, placed.index_outside⟩
  obtain ⟨j, found⟩ := List.mem_iff_getElem?.mp mem
  have := placed.index_of_place found
  omega

theorem getElem?_swap (first : i < state.queue.length) (second : j < state.queue.length) (k : ℕ) :
    (state.swap i j).queue[k]? = state.queue[Equiv.swap i j k]? := by
  simp only [swap, List.getElem?_eq_getElem first, List.getElem?_eq_getElem second]
  rw [List.getElem?_set, List.getElem?_set, Equiv.swap_apply_def]
  grind

theorem swap_perm (state : Indexed ι) (i j : ℕ) : (state.swap i j).queue.Perm state.queue := by
  rw [swap]
  split
  · rename_i first second first_eq second_eq
    obtain ⟨i_inside, rfl⟩ := List.getElem?_eq_some_iff.mp first_eq
    obtain ⟨j_inside, rfl⟩ := List.getElem?_eq_some_iff.mp second_eq
    exact List.set_set_perm i_inside j_inside
  · exact .refl _

theorem Placed.swap (placed : state.Placed)
    (first : i < state.queue.length) (second : j < state.queue.length) : (state.swap i j).Placed := by
  have perm := state.swap_perm i j
  have first_eq := List.getElem?_eq_getElem first
  have second_eq := List.getElem?_eq_getElem second
  have index_eq : (state.swap i j).index = Function.update
      (Function.update state.index state.queue[j] i) state.queue[i] j := by
    simp only [Indexed.swap, first_eq, second_eq]
  constructor
  · intro k element found
    rw [getElem?_swap first second] at found
    have place := placed.index_of_place found
    have first_place := placed.index_of_place first_eq
    have second_place := placed.index_of_place second_eq
    rw [index_eq]
    rw [Equiv.swap_apply_def] at found place
    simp only [Function.update_apply]
    grind
  · intro element outside
    rw [perm.mem_iff] at outside
    have not_first : element ≠ state.queue[i] := fun same => outside (same ▸ List.getElem_mem first)
    have not_second : element ≠ state.queue[j] := fun same => outside (same ▸ List.getElem_mem second)
    rw [index_eq, Function.update_of_ne not_first, Function.update_of_ne not_second]
    exact placed.index_outside outside

theorem Placed.push (placed : state.Placed) (fresh : element ∉ state.queue) : (state.push element).Placed := by
  constructor
  · intro j other found
    rw [Indexed.push, List.getElem?_append] at found
    simp only [Indexed.push, Function.update_apply]
    split at found
    · have := placed.index_of_place found
      have := List.mem_of_getElem? found
      grind
    · grind
  · intro other outside
    simp only [Indexed.push, List.mem_append, List.mem_singleton, not_or] at outside
    simp only [Indexed.push, Function.update_of_ne outside.2]
    exact placed.index_outside outside.1

theorem pop_spec (last : state.queue.getLast? = some element) :
    state.pop.1 = some element ∧ state.pop.2.queue = state.queue.dropLast ∧ (state.Placed → state.pop.2.Placed) := by
  rw [pop, last]
  refine ⟨rfl, rfl, fun placed => ⟨?_, ?_⟩⟩
  · intro j other found
    rw [List.getElem?_dropLast] at found
    split at found
    · have place := placed.index_of_place found
      rw [List.getLast?_eq_getElem?] at last
      have last_place := placed.index_of_place last
      have different : other ≠ element := by
        rintro rfl
        omega
      simp only [Function.update_of_ne different, place]
    · cases found
  · intro other outside
    simp only [Function.update_apply]
    split
    · rfl
    · rename_i different
      refine placed.index_outside fun mem => ?_
      rw [← List.dropLast_append_getLast? element last, List.mem_append, List.mem_singleton] at mem
      exact mem.elim outside different

/-- What any number of exchanges below a place leaves. -/
structure Rearranged (n : ℕ) (state state' : Indexed ι) : Prop where
  perm : state'.queue.Perm state.queue
  beyond : ∀ k, n ≤ k → state'.queue[k]? = state.queue[k]?
  placed : state.Placed → state'.Placed

omit [DecidableEq ι] in
theorem Rearranged.refl (n : ℕ) (state : Indexed ι) : Rearranged n state state :=
  ⟨.refl _, fun _ _ => rfl, id⟩

omit [DecidableEq ι] in
theorem Rearranged.trans {first second third : Indexed ι} (earlier : Rearranged n first second)
    (later : Rearranged n second third) : Rearranged n first third :=
  ⟨later.perm.trans earlier.perm,
    fun k beyond => (later.beyond k beyond).trans (earlier.beyond k beyond),
    fun placed => later.placed (earlier.placed placed)⟩

omit [DecidableEq ι] in
theorem Rearranged.length_eq {state' : Indexed ι} (rearranged : Rearranged n state state') :
    state'.queue.length = state.queue.length := rearranged.perm.length_eq

theorem Rearranged.swap (bound : n ≤ state.queue.length) (first : i < n)
    (second : j < n) : Rearranged n state (state.swap i j) where
  perm := state.swap_perm i j
  beyond k beyond := by
    rw [getElem?_swap (by omega) (by omega), Equiv.swap_apply_of_ne_of_ne (by omega) (by omega)]
  placed placed := placed.swap (by omega) (by omega)

theorem rearranged_up (fuel : ℕ) (bound : n ≤ state.queue.length)
    (inside : j < n) : Rearranged n state ((interface key).up fuel j state) := by
  induction fuel generalizing j state with
  | zero => exact .refl n state
  | succ fuel ih =>
      rw [Interface.up]
      split
      · exact .refl n state
      · have swapped : Rearranged n state (state.swap ((j - 1) / 2) j) :=
          .swap bound (by omega) inside
        exact swapped.trans (ih (swapped.length_eq.symm ▸ bound) (by omega))

theorem rearranged_down (fuel i : ℕ) (bound : n ≤ state.queue.length) :
    Rearranged n state ((interface key).down n fuel i state).1 := by
  induction fuel generalizing i state with
  | zero => exact .refl n state
  | succ fuel ih =>
      rw [Interface.down]
      split
      · exact .refl n state
      · rename_i left
        have bounds := (interface key).child_bounds state (not_le.mp left)
        simp only
        split
        · exact .refl n state
        · have swapped : Rearranged n state (state.swap i ((interface key).child n i state)) :=
            .swap bound (by omega) bounds.2
          exact swapped.trans (ih _ (swapped.length_eq.symm ▸ bound))

/-! ### Order -/

/-- The key at a place is at most the key at another, where both are there. -/
def Le (state : Indexed ι) (i j : ℕ) : Prop :=
  ∀ first second, state.queue[i]? = some first → state.queue[j]? = some second →
    key first ≤ key second

/-- The heap order among the first `n` places. -/
def Ordered (n : ℕ) (state : Indexed ι) : Prop :=
  ∀ k, 0 < k → k < n → Le key state ((k - 1) / 2) k

/-- The heap order among the first `n` places away from a hole, and across it. -/
structure OrderedExcept (n hole : ℕ) (state : Indexed ι) : Prop where
  away : ∀ k, 0 < k → k < n → k ≠ hole → (k - 1) / 2 ≠ hole → Le key state ((k - 1) / 2) k
  across : ∀ k, 0 < hole → hole < k → k < n → (k - 1) / 2 = hole → Le key state ((hole - 1) / 2) k

/-- The place is in order with its children. -/
def Below (n hole : ℕ) (state : Indexed ι) : Prop :=
  ∀ k, hole < k → k < n → (k - 1) / 2 = hole → Le key state hole k

variable {key}

omit [DecidableEq ι] in
theorem less_eq_false_iff : less key state j i = false ↔ Le key state i j := by
  rw [less, Le]
  split <;> grind

omit [DecidableEq ι] in
theorem le_of_less (smaller : less key state i j = true) : Le key state i j := by
  intro first second first_eq second_eq
  simp only [less, first_eq, second_eq, decide_eq_true_eq] at smaller
  exact smaller.le

omit [DecidableEq ι] in
theorem Le.trans (inside : j < state.queue.length)
    (first : Le key state i j) (second : Le key state j k) : Le key state i k := fun _ _ i_eq k_eq =>
  (first _ _ i_eq (List.getElem?_eq_getElem inside)).trans
    (second _ _ (List.getElem?_eq_getElem inside) k_eq)

omit [DecidableEq ι] in
theorem Ordered.head_le (ordered : Ordered key n state)
    (bound : n ≤ state.queue.length) (inside : k < n) : Le key state 0 k := by
  induction k using Nat.strong_induction_on with
  | _ k ih =>
      rcases Nat.eq_zero_or_pos k with rfl | positive
      · intro first second first_eq second_eq
        rw [Option.some.inj (first_eq.symm.trans second_eq)]
      · have parent := ih ((k - 1) / 2) (by omega) (by omega)
        exact parent.trans (by omega) (ordered k positive inside)

theorem le_swap_iff (key : ι → K) (first : i < state.queue.length) (second : j < state.queue.length) (k l : ℕ) :
    Le key (state.swap i j) k l ↔ Le key state (Equiv.swap i j k) (Equiv.swap i j l) := by
  simp only [Le, getElem?_swap first second]

omit [DecidableEq ι] in
theorem OrderedExcept.ordered {hole : ℕ} (order : OrderedExcept key n hole state)
    (below : Below key n hole state) (above : 0 < hole → Le key state ((hole - 1) / 2) hole) : Ordered key n state := by
  intro k positive inside
  by_cases own : k = hole
  · subst own
    exact above positive
  · by_cases child : (k - 1) / 2 = hole
    · exact child ▸ below k (by omega) inside child
    · exact order.away k positive inside own child

omit [DecidableEq ι] in
theorem Ordered.except (ordered : Ordered key n state)
    (bound : n ≤ state.queue.length) (hole : ℕ) : OrderedExcept key n hole state where
  away k positive inside _ _ := ordered k positive inside
  across k positive later inside child :=
    (ordered hole positive (by omega)).trans (by omega) (child ▸ ordered k (by omega) inside)

theorem OrderedExcept.swap_parent (order : OrderedExcept key n j state)
    (bound : n ≤ state.queue.length) (inside : j < n) (positive : 0 < j)
    (smaller : less key state j ((j - 1) / 2) = true) : OrderedExcept key n ((j - 1) / 2) (state.swap ((j - 1) / 2) j) ∧
      Below key n ((j - 1) / 2) (state.swap ((j - 1) / 2) j) := by
  obtain ⟨i, i_eq⟩ : ∃ i, i = (j - 1) / 2 := ⟨_, rfl⟩
  rw [← i_eq] at smaller ⊢
  have lt : i < j := by omega
  have smaller_le := le_of_less smaller
  have swap_iff := le_swap_iff key (show i < state.queue.length by omega)
    (show j < state.queue.length by omega)
  refine ⟨⟨?_, ?_⟩, ?_⟩
  · intro k k_positive k_inside k_ne child_ne
    rw [swap_iff]
    have k_ne_j : k ≠ j := fun same => child_ne (same ▸ i_eq.symm)
    rw [Equiv.swap_apply_of_ne_of_ne k_ne k_ne_j]
    by_cases child : (k - 1) / 2 = j
    · rw [child, Equiv.swap_apply_right]
      exact i_eq ▸ order.across k positive (by omega) k_inside child
    · rw [Equiv.swap_apply_of_ne_of_ne child_ne child]
      exact order.away k k_positive k_inside k_ne_j child
  · intro k i_positive later k_inside child
    rw [swap_iff, Equiv.swap_apply_of_ne_of_ne (by omega) (by omega)]
    have parent := order.away i i_positive (by omega) (by omega) (by omega)
    by_cases own : k = j
    · rw [own, Equiv.swap_apply_right]
      exact parent
    · rw [Equiv.swap_apply_of_ne_of_ne (by omega) own]
      exact parent.trans (by omega) (child ▸ order.away k (by omega) k_inside own (by omega))
  · intro k later k_inside child
    rw [swap_iff, Equiv.swap_apply_left]
    by_cases own : k = j
    · rw [own, Equiv.swap_apply_right]
      exact smaller_le
    · rw [Equiv.swap_apply_of_ne_of_ne (by omega) own]
      exact smaller_le.trans (by omega) (child ▸ order.away k (by omega) k_inside own (by omega))

theorem ordered_up (fuel : ℕ) (bound : n ≤ state.queue.length)
    (inside : j < n) (enough : j ≤ fuel) (order : OrderedExcept key n j state)
    (below : Below key n j state) : Ordered key n ((interface key).up fuel j state) := by
  induction fuel generalizing j state with
  | zero => exact order.ordered below fun positive => absurd positive (by omega)
  | succ fuel ih =>
      rw [Interface.up]
      split
      · rename_i stop
        refine order.ordered below fun positive => ?_
        exact less_eq_false_iff.mp (stop.resolve_left (by omega))
      · rename_i next
        rw [not_or, Bool.not_eq_false] at next
        obtain ⟨order', below'⟩ := order.swap_parent bound inside (by omega) next.2
        have swapped : Rearranged n state (state.swap ((j - 1) / 2) j) :=
          .swap bound (by omega) inside
        exact ih (swapped.length_eq.symm ▸ bound) (by omega) (by omega) order' below'

theorem child_le (later : i < k) (inside : k < n)
    (parent : (k - 1) / 2 = i) : Le key state ((interface key).child n i state) k := by
  have self (j : ℕ) : Le key state j j := fun first second first_eq second_eq =>
    (Option.some.inj (first_eq.symm.trans second_eq)) ▸ le_rfl
  have two : k = 2 * i + 1 ∨ k = 2 * i + 2 := by omega
  rw [Interface.child]
  split
  · rename_i right
    rcases two with rfl | rfl
    · exact le_of_less right.2
    · exact self _
  · rename_i right
    rcases two with rfl | rfl
    · exact self _
    · exact less_eq_false_iff.mp (by simpa [interface, inside] using right)

/-- One round of `down` moves the hole to the child, which is in order with its parent. -/
theorem OrderedExcept.swap_child (order : OrderedExcept key n i state)
    (bound : n ≤ state.queue.length) (left : 2 * i + 1 < n)
    (smaller : less key state ((interface key).child n i state) i = true) :
    OrderedExcept key n ((interface key).child n i state) (state.swap i ((interface key).child n i state)) ∧
      Le key (state.swap i ((interface key).child n i state))
        (((interface key).child n i state - 1) / 2) ((interface key).child n i state) := by
  have child_parent : ((interface key).child n i state - 1) / 2 = i := by
    rw [Interface.child]
    split <;> omega
  have chosen : ∀ k, i < k → k < n → (k - 1) / 2 = i →
      Le key state ((interface key).child n i state) k := fun k => child_le
  obtain ⟨later, inside⟩ := (interface key).child_bounds state left
  generalize (interface key).child n i state = j at *
  have swap_iff := le_swap_iff key (show i < state.queue.length by omega)
    (show j < state.queue.length by omega)
  refine ⟨⟨?_, ?_⟩, ?_⟩
  · intro k positive k_inside k_ne child_ne
    rw [swap_iff]
    by_cases own : k = i
    · rw [own, Equiv.swap_apply_left, Equiv.swap_apply_of_ne_of_ne (by omega) (by omega)]
      exact order.across j (by omega) later inside child_parent
    · rw [Equiv.swap_apply_of_ne_of_ne own k_ne]
      by_cases sibling : (k - 1) / 2 = i
      · rw [sibling, Equiv.swap_apply_left]
        exact chosen k (by omega) k_inside sibling
      · rw [Equiv.swap_apply_of_ne_of_ne sibling child_ne]
        exact order.away k positive k_inside own sibling
  · intro k _ k_later k_inside child
    rw [swap_iff, child_parent, Equiv.swap_apply_left, Equiv.swap_apply_of_ne_of_ne (by omega) (by omega)]
    exact child ▸ order.away k (by omega) k_inside (by omega) (by omega)
  · rw [swap_iff, child_parent, Equiv.swap_apply_left, Equiv.swap_apply_right]
    exact le_of_less smaller

/-- `down` ends above its children; where it has moved, below its parent too. -/
theorem ordered_down (fuel : ℕ) (bound : n ≤ state.queue.length)
    (enough : n ≤ fuel + i) (order : OrderedExcept key n i state) :
    ∃ state' ended, (interface key).down n fuel i state = (state', ended) ∧
      OrderedExcept key n ended state' ∧ Below key n ended state' ∧
      (ended = i ∧ state' = state ∨ i < ended ∧ Le key state' ((ended - 1) / 2) ended) := by
  induction fuel generalizing i state with
  | zero => exact ⟨state, i, rfl, order, fun k later inside => absurd inside (by omega), .inl ⟨rfl, rfl⟩⟩
  | succ fuel ih =>
      rw [Interface.down]
      split
      · exact ⟨state, i, rfl, order, fun k later inside child => absurd inside (by omega), .inl ⟨rfl, rfl⟩⟩
      · rename_i left
        rw [not_le] at left
        simp only
        obtain ⟨later, inside⟩ := (interface key).child_bounds state left
        split
        · rename_i stop
          refine ⟨state, i, rfl, order, fun k k_later k_inside child => ?_, .inl ⟨rfl, rfl⟩⟩
          exact (less_eq_false_iff.mp stop).trans (by omega) (child_le k_later k_inside child)
        · rename_i next
          rw [Bool.not_eq_false] at next
          obtain ⟨order', above⟩ := order.swap_child bound left next
          have swapped : Rearranged n state (state.swap i ((interface key).child n i state)) :=
            .swap bound (by omega) inside
          obtain ⟨state', ended, down_eq, settled, below, moved⟩ :=
            ih (swapped.length_eq.symm ▸ bound) (by omega) order'
          refine ⟨state', ended, down_eq, settled, below, .inr ?_⟩
          rcases moved with ⟨rfl, rfl⟩ | ⟨further, above'⟩
          · exact ⟨later, above⟩
          · exact ⟨later.trans further, above'⟩

/-! ### The heap functions -/

omit [LinearOrder K] in
theorem length_push (state : Indexed ι) (element : ι) : (state.push element).queue.length = state.queue.length + 1 := by
  simp [push]

theorem Ordered.push (ordered : Ordered key state.queue.length state) (element : ι) :
    OrderedExcept key (state.queue.length + 1) state.queue.length (state.push element) where
  away k positive inside own _ := by
    have old (j : ℕ) (inside : j < state.queue.length) :
        (state.push element).queue[j]? = state.queue[j]? := List.getElem?_append_left inside
    have order := ordered k positive (by omega)
    rwa [Le, old _ (by omega), old _ (by omega)]
  across k _ _ inside child := absurd child (by omega)

theorem heapPush_spec (placed : state.Placed)
    (ordered : Ordered key state.queue.length state) (fresh : element ∉ state.queue) :
    let pushed := (interface key).heapPush state element
    pushed.Placed ∧ pushed.queue.Perm (element :: state.queue) ∧
      Ordered key pushed.queue.length pushed := by
  have length_eq := length_push state element
  have last := Nat.lt_succ_self state.queue.length
  have rearranged := rearranged_up key state.queue.length length_eq.ge last
  have settled := ordered_up state.queue.length length_eq.ge last le_rfl (ordered.push element)
    fun k later inside => absurd inside (by omega)
  refine ⟨rearranged.placed (placed.push fresh), ?_, ?_⟩
  · exact rearranged.perm.trans (List.perm_append_singleton element state.queue)
  · exact (rearranged.length_eq.trans length_eq).symm ▸ settled

theorem pop_of_last (last : settled.queue.getLast? = some element) (perm : settled.queue.Perm state.queue)
    (placed : settled.Placed) (ordered : Ordered key (state.queue.length - 1) settled) :
    settled.pop.1 = some element ∧ settled.pop.2.Placed ∧ (element :: settled.pop.2.queue).Perm state.queue ∧
      Ordered key settled.pop.2.queue.length settled.pop.2 := by
  obtain ⟨popped, queue_eq, placed_of⟩ := pop_spec last
  refine ⟨popped, placed_of placed, ?_, ?_⟩
  · rw [queue_eq]
    have front := List.perm_append_singleton element settled.queue.dropLast
    rw [List.dropLast_append_getLast? element last] at front
    exact front.symm.trans perm
  · intro k positive inside
    rw [queue_eq, List.length_dropLast, perm.length_eq] at inside
    have order := ordered k positive inside
    rw [Le, queue_eq, List.getElem?_dropLast, List.getElem?_dropLast, perm.length_eq,
      if_pos (by omega), if_pos inside]
    exact order

theorem Rearranged.getLast?
    (rearranged : Rearranged (state.queue.length - 1) (state.swap place (state.queue.length - 1)) settled)
    (found : state.queue[place]? = some element) : settled.queue.getLast? = some element := by
  obtain ⟨inside, -⟩ := List.getElem?_eq_some_iff.mp found
  have length_eq := rearranged.length_eq.trans (state.swap_perm _ _).length_eq
  rw [List.getLast?_eq_getElem?, length_eq, rearranged.beyond _ le_rfl,
    getElem?_swap inside (by omega), Equiv.swap_apply_right, found]

theorem Ordered.swap_last (ordered : Ordered key state.queue.length state) (inside : place < state.queue.length) :
    OrderedExcept key (state.queue.length - 1) place (state.swap place (state.queue.length - 1)) := by
  have swap_iff := le_swap_iff key inside
    (show state.queue.length - 1 < state.queue.length by omega)
  obtain ⟨away, across⟩ := ordered.except le_rfl place
  constructor
  · intro k positive k_inside k_ne child_ne
    rw [swap_iff, Equiv.swap_apply_of_ne_of_ne child_ne (by omega),
      Equiv.swap_apply_of_ne_of_ne k_ne (by omega)]
    exact away k positive (by omega) k_ne child_ne
  · intro k positive later k_inside child
    rw [swap_iff, Equiv.swap_apply_of_ne_of_ne (by omega) (by omega),
      Equiv.swap_apply_of_ne_of_ne (by omega) (by omega)]
    exact across k positive later (by omega) child

/-- Exchange with the last element, then `down`: the hole is settled towards the leaves. -/
theorem down_after_swap (ordered : Ordered key state.queue.length state) (inside : place < state.queue.length) :
    ∃ state' ended, (interface key).down (state.queue.length - 1) (state.queue.length - 1) place
        (state.swap place (state.queue.length - 1)) = (state', ended) ∧
      Rearranged (state.queue.length - 1) (state.swap place (state.queue.length - 1)) state' ∧
      OrderedExcept key (state.queue.length - 1) ended state' ∧ Below key (state.queue.length - 1) ended state' ∧
      (ended = place ∨ place < ended ∧ Le key state' ((ended - 1) / 2) ended) := by
  have bound : state.queue.length - 1 ≤ (state.swap place (state.queue.length - 1)).queue.length := by
    rw [(state.swap_perm _ _).length_eq]
    omega
  obtain ⟨state', ended, down_eq, order, below, moved⟩ :=
    ordered_down (state.queue.length - 1) bound (by omega) (ordered.swap_last inside)
  have rearranged := rearranged_down key (state.queue.length - 1) place bound
  rw [down_eq] at rearranged
  exact ⟨state', ended, down_eq, rearranged, order, below, moved.imp And.left id⟩

theorem Rearranged.pop
    (rearranged : Rearranged (state.queue.length - 1) (state.swap place (state.queue.length - 1)) settled)
    (placed : state.Placed) (found : state.queue[place]? = some element)
    (ordered : Ordered key (state.queue.length - 1) settled) : settled.pop.1 = some element ∧ settled.pop.2.Placed ∧
      (element :: settled.pop.2.queue).Perm state.queue ∧ Ordered key settled.pop.2.queue.length settled.pop.2 := by
  obtain ⟨inside, -⟩ := List.getElem?_eq_some_iff.mp found
  exact pop_of_last (rearranged.getLast? found) (rearranged.perm.trans (state.swap_perm _ _))
    (rearranged.placed (placed.swap inside (by omega))) ordered

theorem heapPop_spec (placed : state.Placed)
    (ordered : Ordered key state.queue.length state) (found : state.queue[0]? = some element) :
    let popped := (interface key).heapPop state
    popped.1 = some element ∧ popped.2.Placed ∧ (element :: popped.2.queue).Perm state.queue ∧
      Ordered key popped.2.queue.length popped.2 := by
  obtain ⟨inside, -⟩ := List.getElem?_eq_some_iff.mp found
  obtain ⟨state', ended, down_eq, rearranged, order, below, moved⟩ := down_after_swap ordered inside
  have settled : Ordered key (state.queue.length - 1) state' := by
    refine order.ordered below fun positive => ?_
    exact (moved.resolve_left (by omega)).2
  have popped := rearranged.pop placed found settled
  simpa only [Interface.heapPop, interface_len, interface_swap, interface_pop, down_eq] using popped

theorem heapRemove_spec (placed : state.Placed)
    (ordered : Ordered key state.queue.length state) (found : state.queue[place]? = some element) :
    let removed := (interface key).heapRemove state place
    removed.1 = some element ∧ removed.2.Placed ∧ (element :: removed.2.queue).Perm state.queue ∧
      Ordered key removed.2.queue.length removed.2 := by
  obtain ⟨inside, -⟩ := List.getElem?_eq_some_iff.mp found
  rw [Interface.heapRemove]
  split
  · rename_i last
    refine pop_of_last ?_ (.refl _) placed fun k positive k_inside => ordered k positive (by omega)
    rw [List.getLast?_eq_getElem?, ← found]
    exact congrArg (state.queue[·]?) last
  · rename_i earlier
    have earlier : place < state.queue.length - 1 := by
      have : state.queue.length - 1 ≠ place := earlier
      omega
    obtain ⟨state', ended, down_eq, rearranged, order, below, moved⟩ := down_after_swap ordered inside
    have settle_eq : (interface key).settle (state.queue.length - 1) place state =
        if place < ended then state' else (interface key).up place place state' := by
      simp only [Interface.settle, interface_swap, down_eq]
    suffices settled : Rearranged (state.queue.length - 1)
          (state.swap place (state.queue.length - 1))
          ((interface key).settle (state.queue.length - 1) place state) ∧
        Ordered key (state.queue.length - 1)
          ((interface key).settle (state.queue.length - 1) place state) from
      settled.1.pop placed found settled.2
    rw [settle_eq]
    rcases moved with rfl | ⟨further, above⟩
    -- `down` did not move it: the order can only fail above the place.
    · rw [if_neg (lt_irrefl _)]
      have bound : state.queue.length - 1 ≤ state'.queue.length := by
        rw [rearranged.length_eq, (state.swap_perm _ _).length_eq]
        omega
      exact ⟨rearranged.trans (rearranged_up key ended bound earlier),
        ordered_up ended bound earlier le_rfl order below⟩
    · rw [if_pos further]
      exact ⟨rearranged, order.ordered below fun _ => above⟩

end Indexed

/-! ## The elements in front -/

section Front

variable {ι K : Type*} [LinearOrder K]

/-- The elements of `front` are in order, and none of `rest` comes before one of them. -/
structure Front (key : ι → K) (front rest : List ι) : Prop where
  sorted : front.Pairwise fun first second => key first ≤ key second
  below : ∀ first ∈ front, ∀ second ∈ rest, key first ≤ key second

variable {key : ι → K} {front rest front' rest' : List ι}

theorem Front.cons {first : ι} (split : Front key front rest)
    (least : ∀ other ∈ front ++ rest, key first ≤ key other) : Front key (first :: front) rest where
  sorted := List.pairwise_cons.mpr ⟨fun other mem => least other (List.mem_append_left _ mem), split.sorted⟩
  below := by
    rintro other mem second second_mem
    rcases List.mem_cons.mp mem with rfl | later
    · exact least second (List.mem_append_right _ second_mem)
    · exact split.below other later second second_mem

theorem Front.tail {first : ι} (split : Front key (first :: front) rest) : Front key front rest where
  sorted := (List.pairwise_cons.mp split.sorted).2
  below other mem := split.below other (List.mem_cons_of_mem _ mem)

theorem Front.least {first : ι} (split : Front key (first :: front) rest) :
    ∀ other ∈ first :: front ++ rest, key first ≤ key other := by
  intro other mem
  rcases List.mem_append.mp mem with inside | behind
  · rcases List.mem_cons.mp inside with rfl | later
    · exact le_rfl
    · exact (List.pairwise_cons.mp split.sorted).1 other later
  · exact split.below first List.mem_cons_self other behind

theorem Front.eq (split : Front key front rest) (split' : Front key front' rest')
    (perm : (front ++ rest).Perm (front' ++ rest')) (length_eq : front.length = front'.length)
    (distinct : ∀ first ∈ front ++ rest, ∀ second ∈ front ++ rest,
      key first = key second → first = second) : front = front' := by
  induction front generalizing front' with
  | nil => exact (List.eq_nil_of_length_eq_zero length_eq.symm).symm
  | cons first front ih =>
      cases front' with
      | nil => cases length_eq
      | cons first' front' =>
          have own : first ∈ first :: front ++ rest := List.mem_cons_self
          have other : first' ∈ first :: front ++ rest := perm.mem_iff.mpr List.mem_cons_self
          have key_eq : key first = key first' :=
            le_antisymm (split.least first' other) (split'.least first (perm.mem_iff.mp own))
          obtain rfl := distinct first own first' other key_eq
          refine congrArg (first :: ·) (ih split.tail split'.tail perm.cons_inv
            (Nat.succ.inj length_eq) fun second second_mem third third_mem => ?_)
          exact distinct second (List.mem_cons_of_mem _ second_mem) third (List.mem_cons_of_mem _ third_mem)

/-- The first places of a list are its front where no later place comes before one of them. -/
theorem front_take_iff {elements : List ι} {count : ℕ} : Front key (elements.take count) (elements.drop count) ↔
      ∀ i j first second, i < count → i < j → elements[i]? = some first → elements[j]? = some second →
        key first ≤ key second := by
  constructor
  · intro split i j first second inside later first_eq second_eq
    have first_take : (elements.take count)[i]? = some first := by
      rw [List.getElem?_take_of_lt inside, first_eq]
    rcases lt_or_ge j count with j_inside | beyond
    · have second_take : (elements.take count)[j]? = some second := by
        rw [List.getElem?_take_of_lt j_inside, second_eq]
      obtain ⟨i_lt, rfl⟩ := List.getElem?_eq_some_iff.mp first_take
      obtain ⟨j_lt, rfl⟩ := List.getElem?_eq_some_iff.mp second_take
      exact List.pairwise_iff_getElem.mp split.sorted i j i_lt j_lt later
    · refine split.below first (List.mem_of_getElem? first_take) second (List.mem_of_getElem? (i := j - count) ?_)
      rw [List.getElem?_drop, Nat.add_sub_cancel' beyond, second_eq]
  · intro order
    refine ⟨List.pairwise_iff_getElem.mpr fun i j i_lt j_lt later => ?_, ?_⟩
    · rw [List.length_take] at i_lt j_lt
      rw [List.getElem_take, List.getElem_take]
      exact order i j _ _ (by omega) later (List.getElem?_eq_getElem _) (List.getElem?_eq_getElem _)
    · intro first first_mem second second_mem
      obtain ⟨i, i_lt, rfl⟩ := List.mem_iff_getElem.mp first_mem
      obtain ⟨j, j_lt, rfl⟩ := List.mem_iff_getElem.mp second_mem
      rw [List.length_take] at i_lt
      rw [List.getElem_take, List.getElem_drop]
      exact order i (count + j) _ _ (by omega) (by omega) (List.getElem?_eq_getElem _)
        (List.getElem?_eq_getElem _)

end Front

end SvpChain.Heap
