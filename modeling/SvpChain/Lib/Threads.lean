import SvpChain.Lib.Program

/-!
# Threads over a shared state

A thread is a program cut into atoms; between two atoms of a thread, other threads may run.  An atom updates the
shared state and carries a label by which assumptions can speak about it.  `Thread.run` runs a thread without
interruption, so that a thread can be compared with the program that it cuts.  `Thread.Keeps` says what every
atom of a thread does to an invariant of the shared state, and `Pool.keeps` carries it along every interleaving.
-/

namespace SvpChain

open Relation

/-- A thread, with labels, errors, a shared state and a value. -/
inductive Thread (ι ε σ α : Type) : Type where
  /-- The thread has a value. -/
  | done (value : α)
  /-- The thread has stopped early. -/
  | halted (halt : Halt ε)
  /-- The next atom; what follows depends on the state it meets. -/
  | atom (label : ι) (update : σ → σ) (next : σ → Thread ι ε σ α)

namespace Thread

variable {ι ε σ α β : Type}

/-- One thread after another. -/
def bind : Thread ι ε σ α → (α → Thread ι ε σ β) → Thread ι ε σ β
  | done value, rest => rest value
  | halted halt, _ => halted halt
  | atom label update next, rest => atom label update fun state => (next state).bind rest

instance : Monad (Thread ι ε σ) where
  pure := done
  bind := bind

/-- A thread that has ended. -/
def ofResult : Except (Halt ε) α → Thread ι ε σ α
  | .ok value => done value
  | .error halt => halted halt

/-- A program as one atom. -/
def lift (label : ι) (program : Program ε σ α) : Thread ι ε σ α :=
  atom label (fun state => (program state).2) fun state => ofResult (program state).1

/-- The thread has met a fault, which ends the process. -/
def faulted : Thread ι ε σ α → Bool
  | halted (.fault _) => true
  | _ => false

/-- How the thread has stopped early. -/
def halt? : Thread ι ε σ α → Option (Halt ε)
  | halted halt => some halt
  | _ => none

theorem eq_halted_of_halt? {thread : Thread ι ε σ α} {halt : Halt ε} (stopped : thread.halt? = some halt) :
    thread = halted halt := by
  cases thread with
  | halted other => exact congrArg halted (Option.some.inj stopped)
  | _ => cases stopped

/-! ## What the atoms of a thread keep -/

/-- From a state with the invariant that meets the guard of its label, every atom leads to one with the
invariant; the values and the halts of the thread are as given. -/
inductive Keeps (inv : σ → Prop) (guard : ι → σ → Prop) (post : α → Prop) (allowed : Halt ε → Prop) :
    Thread ι ε σ α → Prop where
  | done {value : α} (holds : post value) : Keeps inv guard post allowed (done value)
  | halted {halt : Halt ε} (holds : allowed halt) : Keeps inv guard post allowed (halted halt)
  | atom {label : ι} {update : σ → σ} {next : σ → Thread ι ε σ α}
      (kept : ∀ state, inv state → guard label state → inv (update state))
      (rest : ∀ state, inv state → guard label state → Keeps inv guard post allowed (next state)) :
      Keeps inv guard post allowed (atom label update next)

variable {inv : σ → Prop} {guard : ι → σ → Prop} {post : α → Prop} {allowed : Halt ε → Prop}

theorem Keeps.pure {value : α} (holds : post value) : Keeps inv guard post allowed (Pure.pure value : Thread ι ε σ α) :=
  .done holds

theorem Keeps.lift {label : ι} {program : Program ε σ α}
    (kept : ∀ state, inv state → guard label state → Program.wp program
      (fun value state' => inv state' ∧ post value) (fun halt state' => inv state' ∧ allowed halt) state) :
    Keeps inv guard post allowed (lift label program) := by
  refine .atom (fun state holds met => ?_) fun state holds met => ?_
  · rcases Program.ending_of_wp (kept state holds met) with ⟨_, -, holds', -⟩ | ⟨_, -, holds', -⟩
    · exact holds'
    · exact holds'
  · rcases Program.ending_of_wp (kept state holds met) with ⟨value, ended, -, holds'⟩ | ⟨halt, ended, -, holds'⟩
    · rw [ended]
      exact .done holds'
    · rw [ended]
      exact .halted holds'

theorem Keeps.bind {thread : Thread ι ε σ α} {rest : α → Thread ι ε σ β} {post' : β → Prop}
    (first : Keeps inv guard post allowed thread)
    (second : ∀ value, post value → Keeps inv guard post' allowed (rest value)) :
    Keeps inv guard post' allowed (thread >>= rest) := by
  induction first with
  | done holds => exact second _ holds
  | halted holds => exact .halted holds
  | atom kept _ ih => exact .atom kept ih

end Thread

/-! ## Pools of threads -/

/-- A shared state and threads over it. -/
structure Pool (κ ι ε σ : Type) where
  state : σ
  threads : κ → Thread ι ε σ Unit

namespace Pool

variable {κ ι ε σ : Type}

/-- No thread has ended the process. -/
def Alive (pool : Pool κ ι ε σ) : Prop := ∀ i, (pool.threads i).faulted = false

instance [Fintype κ] (pool : Pool κ ι ε σ) : Decidable pool.Alive :=
  inferInstanceAs (Decidable (∀ i, (pool.threads i).faulted = false))

variable [DecidableEq κ]

/-- One atom of one thread, which meets a guard. -/
inductive Step (guard : ι → σ → Prop) : Pool κ ι ε σ → Pool κ ι ε σ → Prop where
  | atom {pool : Pool κ ι ε σ} (alive : pool.Alive) (i : κ) {label : ι} {update : σ → σ}
      {next : σ → Thread ι ε σ Unit} (running : pool.threads i = .atom label update next)
      (met : guard label pool.state) :
      Step guard pool ⟨update pool.state, Function.update pool.threads i (next pool.state)⟩

variable {inv : σ → Prop} {guard : ι → σ → Prop} {allowed : Halt ε → Prop} {pool pool' : Pool κ ι ε σ}

theorem Step.keeps (step : Step guard pool pool') (holds : inv pool.state)
    (keeps : ∀ i, (pool.threads i).Keeps inv guard (fun _ => True) allowed) :
    inv pool'.state ∧ ∀ i, (pool'.threads i).Keeps inv guard (fun _ => True) allowed := by
  obtain ⟨-, i, running, met⟩ := step
  have own := keeps i
  rw [running] at own
  obtain ⟨kept, rest⟩ : inv _ ∧ _ := by
    cases own with
    | atom kept rest => exact ⟨kept _ holds met, rest _ holds met⟩
  refine ⟨kept, fun j => ?_⟩
  change (Function.update pool.threads i _ j).Keeps _ _ _ _
  by_cases same : j = i
  · subst same
    rw [Function.update_self]
    exact rest
  · rw [Function.update_of_ne same]
    exact keeps j

/-- The invariant holds along every interleaving, and no thread stops in a way that is not allowed. -/
theorem keeps (steps : ReflTransGen (Step guard) pool pool') (holds : inv pool.state)
    (keeps : ∀ i, (pool.threads i).Keeps inv guard (fun _ => True) allowed) :
    inv pool'.state ∧ ∀ i halt, pool'.threads i = .halted halt → allowed halt := by
  have reached : inv pool'.state ∧ ∀ i, (pool'.threads i).Keeps inv guard (fun _ => True) allowed := by
    induction steps with
    | refl => exact ⟨holds, keeps⟩
    | tail _ step ih => exact step.keeps ih.1 ih.2
  refine ⟨reached.1, fun i halt stopped => ?_⟩
  have own := reached.2 i
  rw [stopped] at own
  cases own with
  | halted holds => exact holds

/-! ## Schedules -/

variable [Fintype κ] [∀ label state, Decidable (guard label state)]

/-- The next atom of a thread, if there is one that meets the guard. -/
def advance (guard : ι → σ → Prop) [∀ label state, Decidable (guard label state)] (pool : Pool κ ι ε σ) (i : κ) :
    Option (Pool κ ι ε σ) :=
  match pool.threads i with
  | .atom label update next =>
      if pool.Alive ∧ guard label pool.state then
        some ⟨update pool.state, Function.update pool.threads i (next pool.state)⟩
      else none
  | _ => none

/-- The atoms of the threads in the order of a schedule. -/
def play (guard : ι → σ → Prop) [∀ label state, Decidable (guard label state)] (pool : Pool κ ι ε σ) :
    List κ → Option (Pool κ ι ε σ)
  | [] => some pool
  | i :: schedule => (pool.advance guard i).bind fun pool => pool.play guard schedule

theorem step_of_advance {i : κ} (advanced : pool.advance guard i = some pool') : Step guard pool pool' := by
  unfold advance at advanced
  split at advanced
  · next running =>
      split at advanced
      · next met =>
          obtain rfl := Option.some.inj advanced
          exact .atom met.1 i running met.2
      · cases advanced
  · cases advanced

theorem steps_of_play {schedule : List κ} (played : pool.play guard schedule = some pool') :
    ReflTransGen (Step guard) pool pool' := by
  induction schedule generalizing pool with
  | nil =>
      obtain rfl := Option.some.inj played
      exact .refl
  | cons i schedule ih =>
      obtain ⟨middle, advanced, played⟩ := Option.bind_eq_some_iff.mp played
      exact .head (step_of_advance advanced) (ih played)

theorem exists_of_play {schedule : List κ} {α : Type} {read : Pool κ ι ε σ → Option α} {value : α}
    (played : (pool.play guard schedule).bind read = some value) :
    ∃ pool', ReflTransGen (Step guard) pool pool' ∧ read pool' = some value := by
  obtain ⟨pool', played, found⟩ := Option.bind_eq_some_iff.mp played
  exact ⟨pool', steps_of_play played, found⟩

end Pool

end SvpChain
