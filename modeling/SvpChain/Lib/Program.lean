import Mathlib.Logic.Relation
import Mathlib.Tactic

/-!
# Stateful programs that may stop early

A program reads and writes a state and ends with a value, with an error handed to its caller, or
with a fault that ends the process.  The state reached so far survives all three.  `Program.wp` is
the weakest precondition of a pair of postconditions, and `Program.Runs` says that a program moves by
steps of a relation; the rules below take a program apart along its syntax, so that a proof about a
program never unfolds the programs it calls.
-/

namespace SvpChain

/-- A fault ends the process: a panic, a failed dereference or index, or a fatal log entry. -/
inductive Fault where
  | panic (message : String)
  | nilDereference
  | indexOutOfRange
  | fatal (message : String)
  | diverges
  deriving DecidableEq, Repr

/-- How a call stops before it has a value. -/
inductive Halt (ε : Type) where
  /-- An error value is returned to the caller. -/
  | error (reason : ε)
  /-- The process ends. -/
  | fault (fault : Fault)
  deriving DecidableEq, Repr

/-- A program over a state, with errors and faults. -/
def Program (ε σ α : Type) : Type :=
  σ → Except (Halt ε) α × σ

namespace Program

open Relation

variable {ε ε' σ τ α β : Type}

instance : Monad (Program ε σ) where
  pure value := fun state => (.ok value, state)
  bind program next := fun state =>
    match program state with
    | (.ok value, state') => next value state'
    | (.error halt, state') => (.error halt, state')

theorem bind_eq (program : Program ε σ α) (next : α → Program ε σ β) (state : σ) :
    (program >>= next) state = match program state with
      | (.ok value, state') => next value state'
      | (.error halt, state') => (.error halt, state') := rfl

instance : LawfulMonad (Program ε σ) := by
  refine LawfulMonad.mk' _ ?_ ?_ ?_
  · intro α program
    funext state
    change (program >>= pure) state = program state
    rw [bind_eq]
    rcases program state with ⟨_ | _, _⟩ <;> rfl
  · intro α β value next
    rfl
  · intro α β γ program next last
    funext state
    simp only [bind_eq]
    rcases program state with ⟨_ | _, _⟩ <;> rfl

/-- The current state. -/
def get : Program ε σ σ := fun state => (.ok state, state)

/-- A reading of the current state. -/
def gets (read : σ → α) : Program ε σ α := fun state => (.ok (read state), state)

/-- Update the state. -/
def modify (update : σ → σ) : Program ε σ Unit := fun state => (.ok (), update state)

/-- Stop with an error. -/
def throw (reason : ε) : Program ε σ α := fun state => (.error (.error reason), state)

/-- Stop with a fault. -/
def fault (reason : Fault) : Program ε σ α := fun state => (.error (.fault reason), state)

/-- Stop with an error if the condition holds. -/
def throwIf (condition : Prop) [Decidable condition] (reason : ε) : Program ε σ Unit :=
  if condition then throw reason else pure ()

/-- Run a program if the condition holds. -/
def when (condition : Prop) [Decidable condition] (program : Program ε σ Unit) : Program ε σ Unit :=
  if condition then program else pure ()

/-- A dereference, which faults on a nil pointer. -/
def deref : Option α → Program ε σ α
  | some value => pure value
  | none => fault .nilDereference

/-- Run a call whose error value the caller discards. -/
def discardError (program : Program ε σ Unit) : Program ε σ Unit := fun state =>
  match program state with
  | (.error (.error _), state') => (.ok (), state')
  | result => result

/-- Run a call whose error value the caller replaces by a default. -/
def orElse (program : Program ε σ α) (default : α) : Program ε σ α := fun state =>
  match program state with
  | (.error (.error _), state') => (.ok default, state')
  | result => result

/-- Run a program on a part of the state, with its errors embedded into the caller's. -/
def zoom (read : σ → τ) (write : τ → σ → σ) (embed : ε' → ε) (program : Program ε' τ α) :
    Program ε σ α := fun state =>
  match program (read state) with
  | (.ok value, part) => (.ok value, write part state)
  | (.error (.error reason), part) => (.error (.error (embed reason)), write part state)
  | (.error (.fault reason), part) => (.error (.fault reason), write part state)

/-- The state a program leaves behind, whichever way it ends. -/
def final (program : Program ε σ α) (state : σ) : σ := (program state).2

/-! ## Weakest preconditions -/

/-- From `state`, `program` ends in `post` when it has a value and in `stop` otherwise. -/
def wp (program : Program ε σ α) (post : α → σ → Prop) (stop : Halt ε → σ → Prop)
    (state : σ) : Prop :=
  match program state with
  | (.ok value, state') => post value state'
  | (.error halt, state') => stop halt state'

variable {post : α → σ → Prop} {stop : Halt ε → σ → Prop} {state : σ}

@[simp]
theorem wp_pure (value : α) : wp (pure value) post stop state ↔ post value state := Iff.rfl

@[simp]
theorem wp_bind (program : Program ε σ β) (next : β → Program ε σ α) : wp (program >>= next) post stop state ↔
      wp program (fun value => wp (next value) post stop) stop state := by
  simp only [wp, bind]
  cases program state with
  | mk result state' => cases result <;> rfl

@[simp]
theorem wp_get {post : σ → σ → Prop} : wp get post stop state ↔ post state state := Iff.rfl

@[simp]
theorem wp_gets (read : σ → α) : wp (gets read) post stop state ↔ post (read state) state :=
  Iff.rfl

@[simp]
theorem wp_modify (update : σ → σ) {post : Unit → σ → Prop} :
    wp (modify update) post stop state ↔ post () (update state) := Iff.rfl

@[simp]
theorem wp_throw (reason : ε) : wp (throw reason) post stop state ↔ stop (.error reason) state :=
  Iff.rfl

@[simp]
theorem wp_fault (reason : Fault) : wp (fault reason) post stop state ↔ stop (.fault reason) state := Iff.rfl

@[simp]
theorem wp_ite (condition : Prop) [Decidable condition] (yes no : Program ε σ α) :
    wp (if condition then yes else no) post stop state ↔
      (condition → wp yes post stop state) ∧ (¬ condition → wp no post stop state) := by
  by_cases holds : condition <;> simp [holds]

@[simp]
theorem wp_throwIf (condition : Prop) [Decidable condition] (reason : ε) {post : Unit → σ → Prop} :
    wp (throwIf condition reason) post stop state ↔
      (condition → stop (.error reason) state) ∧ (¬ condition → post () state) := by
  simp [throwIf]

theorem wp_throwIf_false (condition : Prop) [Decidable condition] (reason : ε) {post : Unit → σ → Prop} :
    wp (throwIf condition reason) post (fun _ _ => False) state ↔ ¬ condition ∧ post () state := by
  rw [wp_throwIf]
  exact ⟨fun ⟨passed, holds⟩ => ⟨passed, holds passed⟩, fun ⟨passed, holds⟩ => ⟨passed, fun _ => holds⟩⟩

@[simp]
theorem wp_deref (value : Option α) : wp (deref value) post stop state ↔
      (∀ target, value = some target → post target state) ∧ (value = none → stop (.fault .nilDereference) state) := by
  cases value <;> simp [deref]

variable {program : Program ε σ α}

theorem wp_mono {post' : α → σ → Prop} {stop' : Halt ε → σ → Prop} (holds : wp program post stop state)
    (post_imp : ∀ value state', post value state' → post' value state')
    (stop_imp : ∀ halt state', stop halt state' → stop' halt state') : wp program post' stop' state := by
  unfold wp at holds ⊢
  rcases ending : program state with ⟨result, state'⟩
  rw [ending] at holds
  cases result with
  | ok value => exact post_imp value state' holds
  | error halt => exact stop_imp halt state' holds

/-- The sequencing rule. -/
theorem wp_then {program : Program ε σ β} {next : β → Program ε σ α} {mid : β → σ → Prop}
    (first : wp program mid stop state) (rest : ∀ value state', mid value state' → wp (next value) post stop state') :
    wp (program >>= next) post stop state :=
  (wp_bind program next).mpr (wp_mono first rest fun _ _ stopped => stopped)

theorem wp_and {post' : α → σ → Prop} {stop' : Halt ε → σ → Prop}
    (left : wp program post stop state) (right : wp program post' stop' state) :
    wp program (fun value state' => post value state' ∧ post' value state')
      (fun halt state' => stop halt state' ∧ stop' halt state') state := by
  unfold wp at left right ⊢
  rcases ending : program state with ⟨result, state'⟩
  rw [ending] at left right
  cases result <;> exact ⟨left, right⟩

theorem eq_ok_iff_wp {program : Program ε σ Unit} :
    (program state).1 = .ok () ↔ wp program (fun _ _ => True) (fun _ _ => False) state := by
  unfold wp
  rcases program state with ⟨_ | _, _⟩ <;> simp

theorem wp_ending (program : Program ε σ α) : wp program (fun value state' => program state = (.ok value, state'))
      (fun halt state' => program state = (.error halt, state')) state := by
  unfold wp
  rcases program state with ⟨_ | _, _⟩ <;> rfl

theorem wp_trivial (program : Program ε σ α) : wp program (fun _ _ => True) (fun _ _ => True) state := by
  unfold wp
  rcases program state with ⟨_ | _, _⟩ <;> trivial

theorem wp_discardError {program : Program ε σ Unit} {post : Unit → σ → Prop} :
    wp (discardError program) post stop state ↔
      wp program post (fun halt state' =>
        match halt with
        | .error _ => post () state'
        | .fault _ => stop halt state') state := by
  simp only [wp, discardError]
  rcases program state with ⟨result, state'⟩
  rcases result with halt | value
  · cases halt <;> rfl
  · rfl

theorem wp_orElse {default : α} :
    wp (orElse program default) post stop state ↔
      wp program post (fun halt state' =>
        match halt with
        | .error _ => post default state'
        | .fault _ => stop halt state') state := by
  simp only [wp, orElse]
  rcases program state with ⟨result, state'⟩
  rcases result with halt | value
  · cases halt <;> rfl
  · rfl

theorem wp_zoom {read : σ → τ} {write : τ → σ → σ} {embed : ε' → ε} {program : Program ε' τ α} :
    wp (zoom read write embed program) post stop state ↔
      wp program (fun value part => post value (write part state))
        (fun halt part =>
          match halt with
          | .error reason => stop (.error (embed reason)) (write part state)
          | .fault reason => stop (.fault reason) (write part state)) (read state) := by
  simp only [wp, zoom]
  rcases program (read state) with ⟨result, part⟩
  rcases result with halt | value
  · cases halt <;> rfl
  · rfl

/-- A fact proved of every ending holds of the state left behind. -/
theorem final_of_wp {program : Program ε σ α} {holds : σ → Prop}
    (proof : wp program (fun _ => holds) (fun _ => holds) state) : holds (program.final state) := by
  unfold wp at proof
  unfold final
  rcases ending : program state with ⟨result, state'⟩
  rw [ending] at proof
  cases result <;> exact proof

theorem ending_of_wp (holds : wp program post stop state) :
    (∃ value, (program state).1 = .ok value ∧ post value (program.final state)) ∨
      ∃ halt, (program state).1 = .error halt ∧ stop halt (program.final state) := by
  unfold wp at holds
  unfold final
  rcases ending : program state with ⟨result, state'⟩
  rw [ending] at holds
  cases result with
  | ok value => exact Or.inl ⟨value, rfl, holds⟩
  | error halt => exact Or.inr ⟨halt, rfl, holds⟩

/-! ## Programs made of steps -/

/-- From `state`, however `program` ends, the state it leaves behind is reached by steps of a
relation, and `post` holds when it has a value. -/
def Runs (step : σ → σ → Prop) (program : Program ε σ α) (post : α → σ → Prop) (state : σ) : Prop :=
  wp program (fun value state' => ReflTransGen step state state' ∧ post value state')
    (fun _ state' => ReflTransGen step state state') state

namespace Runs

variable {step : σ → σ → Prop} {program : Program ε σ α} {state' : σ}

theorem reached (runs : Runs step program post state) : ReflTransGen step state (program.final state) :=
  final_of_wp (wp_mono runs (fun _ _ ended => ended.1) fun _ _ stopped => stopped)

theorem after {origin : σ} (steps : ReflTransGen step origin state) (runs : Runs step program post state) :
    wp program (fun value state' => ReflTransGen step origin state' ∧ post value state')
      (fun _ state' => ReflTransGen step origin state') state :=
  wp_mono runs (fun _ _ ended => ⟨steps.trans ended.1, ended.2⟩) fun _ _ stopped => steps.trans stopped

theorem pure {value : α} (holds : post value state) : Runs step (Pure.pure value : Program ε σ α) post state :=
  ⟨.refl, holds⟩

theorem gets {read : σ → α} (holds : post (read state) state) :
    Runs step (Program.gets read : Program ε σ α) post state :=
  ⟨.refl, holds⟩

variable {reason : ε} {next : β → Program ε σ α} {condition : Prop}

theorem throw : Runs step (Program.throw reason : Program ε σ α) post state :=
  ReflTransGen.refl

theorem fault {reason : Fault} : Runs step (Program.fault reason : Program ε σ α) post state :=
  ReflTransGen.refl

theorem modify {update : σ → σ} {post : Unit → σ → Prop} (moves : step state (update state))
    (holds : post () (update state)) : Runs step (Program.modify update : Program ε σ Unit) post state :=
  ⟨.single moves, holds⟩

theorem mono {post' : α → σ → Prop} (runs : Runs step program post state)
    (post_imp : ∀ value state', ReflTransGen step state state' → post value state' →
      post' value state') : Runs step program post' state :=
  wp_mono runs (fun value state' ended => ⟨ended.1, post_imp value state' ended.1 ended.2⟩)
    fun _ _ stopped => stopped

theorem bind {program : Program ε σ β} {mid : β → σ → Prop} (first : Runs step program mid state)
    (rest : ∀ value state', ReflTransGen step state state' → mid value state' →
      Runs step (next value) post state') : Runs step (program >>= next) post state := by
  rw [Runs, wp_bind]
  refine wp_mono first ?_ fun _ _ stopped => stopped
  intro value state' ⟨steps, holds⟩
  refine wp_mono (rest value state' steps holds) ?_ fun _ _ stopped => steps.trans stopped
  exact fun _ _ ended => ⟨steps.trans ended.1, ended.2⟩

theorem ite [Decidable condition] {yes no : Program ε σ α}
    (of_yes : condition → Runs step yes post state) (of_no : ¬ condition → Runs step no post state) :
    Runs step (if condition then yes else no) post state := by
  by_cases holds : condition
  · rw [if_pos holds]
    exact of_yes holds
  · rw [if_neg holds]
    exact of_no holds

theorem throwIf [Decidable condition] {post : Unit → σ → Prop} (holds : ¬ condition → post () state) :
    Runs step (Program.throwIf condition reason : Program ε σ Unit) post state :=
  ite (fun _ => throw) fun passed => pure (holds passed)

theorem when [Decidable condition] {program : Program ε σ Unit}
    {post : Unit → σ → Prop} (of_yes : condition → Runs step program post state)
    (of_no : ¬ condition → post () state) : Runs step (Program.when condition program) post state :=
  ite of_yes fun skipped => pure (of_no skipped)

theorem discardError {program : Program ε σ Unit} {post : Unit → σ → Prop}
    (runs : Runs step program (fun _ _ => True) state)
    (holds : ∀ state', ReflTransGen step state state' → post () state') :
    Runs step (Program.discardError program) post state := by
  rw [Runs, wp_discardError]
  refine wp_mono runs (fun _ state' ended => ⟨ended.1, holds state' ended.1⟩) ?_
  intro halt state' steps
  cases halt with
  | error reason => exact ⟨steps, holds state' steps⟩
  | fault reason => exact steps

/-! The first action of a program, where it leaves no choice of what holds after it. -/

theorem get_bind {next : σ → Program ε σ α} (rest : Runs step (next state) post state) :
    Runs step (Program.get >>= next) post state :=
  rest

theorem gets_bind {read : σ → β} (rest : Runs step (next (read state)) post state) :
    Runs step (Program.gets read >>= next) post state :=
  rest

theorem modify_bind {update : σ → σ} {next : Unit → Program ε σ α} (moves : step state (update state))
    (rest : Runs step (next ()) post (update state)) : Runs step (Program.modify update >>= next) post state :=
  wp_mono rest (fun _ _ ended => ⟨.head moves ended.1, ended.2⟩) fun _ _ stopped => .head moves stopped

theorem throwIf_bind [Decidable condition]
    {next : Unit → Program ε σ α} (rest : ¬ condition → Runs step (next ()) post state) :
    Runs step (Program.throwIf condition reason >>= next) post state := by
  by_cases holds : condition
  · rw [Program.throwIf, if_pos holds]
    exact throw
  · rw [Program.throwIf, if_neg holds]
    exact rest holds

theorem deref_bind {value : Option β} (rest : ∀ target, value = some target → Runs step (next target) post state) :
    Runs step (Program.deref value >>= next) post state := by
  cases value with
  | none => exact fault
  | some target => exact rest target rfl

/-- A program on a part of the state, when its changes of that part are steps. -/
theorem zoom {read : σ → τ} {write : τ → σ → σ} {embed : ε' → ε} {program : Program ε' τ α}
    (moves : wp program (fun value part => step state (write part state) ∧ post value (write part state))
      (fun _ part => step state (write part state)) (read state)) :
    Runs step (Program.zoom read write embed program) post state := by
  rw [Runs, wp_zoom]
  refine wp_mono moves (fun value part ended => ⟨.single ended.1, ended.2⟩) ?_
  intro halt part moved
  cases halt with
  | error reason => exact .single moved
  | fault reason => exact .single moved

end Runs

end Program

end SvpChain
