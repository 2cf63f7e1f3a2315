import SvpChain.Lib.Program

/-!
# Invariants between calls

A program may break an invariant on its way and restore it before it ends.  `Kept` asks for the invariant where
the program returns a value or an error; a fault ends the process, so nothing is asked of it.  `Leads` is the same
for a property that the program turns into another one.  `Maintains` asks for the invariant after a fault too, for
faults that a caller recovers from.  The rules follow the constructs of `Program`, so that a proof follows the
text of a program.
-/

namespace SvpChain.Program

variable {ε ε' σ τ α β : Type}

/-- Every call of the program from a state with the invariant ends in a fault or in a state with the
invariant. -/
def Kept (inv : σ → Prop) (program : Program ε σ α) : Prop :=
  ∀ state, inv state → wp program (fun _ => inv)
    (fun halt state' => (∃ reason, halt = .fault reason) ∨ inv state') state

theorem wp_discardError_of {holds : σ → Prop} {program : Program ε σ Unit} {state : σ}
    (ends : wp program (fun _ => holds) (fun halt state' => (∃ reason, halt = .fault reason) ∨ holds state') state) :
    wp (discardError program) (fun _ => holds)
      (fun halt state' => (∃ reason, halt = .fault reason) ∨ holds state') state := by
  refine wp_discardError.mpr (wp_mono ends (fun _ _ holds' => holds') ?_)
  intro halt state' stopped
  cases halt with
  | error reason =>
      rcases stopped with ⟨_, never⟩ | holds'
      · cases never
      · exact holds'
  | fault reason => exact Or.inl ⟨reason, rfl⟩

namespace Kept

variable {inv : σ → Prop} {program : Program ε σ α}

theorem pure {value : α} : Kept inv (Pure.pure value : Program ε σ α) := fun _ holds => holds

theorem get : Kept inv (Program.get : Program ε σ σ) := fun _ holds => holds

theorem gets {read : σ → α} : Kept inv (Program.gets read : Program ε σ α) := fun _ holds => holds

theorem modify {update : σ → σ} (kept : ∀ state, inv state → inv (update state)) :
    Kept inv (Program.modify update : Program ε σ Unit) := kept

theorem throw {reason : ε} : Kept inv (Program.throw reason : Program ε σ α) := fun _ holds => Or.inr holds

theorem fault {reason : Fault} : Kept inv (Program.fault reason : Program ε σ α) :=
  fun _ _ => Or.inl ⟨reason, rfl⟩

theorem deref {value : Option α} : Kept inv (Program.deref value : Program ε σ α) := by
  cases value with
  | none => exact fault
  | some target => exact pure

theorem bind {program : Program ε σ β} {next : β → Program ε σ α} (first : Kept inv program)
    (rest : ∀ value, Kept inv (next value)) : Kept inv (program >>= next) := by
  intro state holds
  rw [wp_bind]
  exact wp_mono (first state holds) (fun value state' holds' => rest value state' holds') fun _ _ stopped => stopped

theorem get_bind {next : σ → Program ε σ α} (rest : ∀ state, inv state → wp (next state) (fun _ => inv)
      (fun halt state' => (∃ reason, halt = .fault reason) ∨ inv state') state) :
    Kept inv (Program.get >>= next) := rest

theorem ite {condition : Prop} [Decidable condition] {yes no : Program ε σ α} (of_yes : Kept inv yes)
    (of_no : Kept inv no) : Kept inv (if condition then yes else no) := by
  split
  · exact of_yes
  · exact of_no

theorem throwIf {condition : Prop} [Decidable condition] {reason : ε} :
    Kept inv (Program.throwIf condition reason : Program ε σ Unit) := ite throw pure

theorem when {condition : Prop} [Decidable condition] {program : Program ε σ Unit} (kept : Kept inv program) :
    Kept inv (Program.when condition program) := ite kept pure

theorem discardError {program : Program ε σ Unit} (kept : Kept inv program) : Kept inv (Program.discardError program) :=
  fun state holds => wp_discardError_of (kept state holds)

theorem zoom {read : σ → τ} {write : τ → σ → σ} {embed : ε' → ε} {program : Program ε' τ α}
    (kept : ∀ state part, inv state → inv (write part state)) : Kept inv (Program.zoom read write embed program) := by
  intro state holds
  refine wp_zoom.mpr (wp_mono (wp_trivial program) (fun _ part _ => kept state part holds) ?_)
  intro halt part _
  cases halt with
  | error reason => exact Or.inr (kept state part holds)
  | fault reason => exact Or.inl ⟨reason, rfl⟩

end Kept

/-- Every call of the program from a state with the first property ends in a fault or in a state with the second
one. -/
def Leads (pre post : σ → Prop) (program : Program ε σ α) : Prop :=
  ∀ state, pre state → wp program (fun _ => post)
    (fun halt state' => (∃ reason, halt = .fault reason) ∨ post state') state

namespace Leads

variable {pre post : σ → Prop} {program : Program ε σ β} {next : β → Program ε σ α}

theorem bind (weaker : ∀ state, pre state → post state) (first : Kept pre program)
    (rest : ∀ value, Leads pre post (next value)) : Leads pre post (program >>= next) := by
  intro state holds
  rw [wp_bind]
  refine wp_mono (first state holds) (fun value state' holds' => rest value state' holds') ?_
  intro halt state' stopped
  exact stopped.imp_right (weaker state')

theorem bind_kept (first : Leads pre post program) (rest : ∀ value, Kept post (next value)) :
    Leads pre post (program >>= next) := by
  intro state holds
  rw [wp_bind]
  exact wp_mono (first state holds) (fun value state' holds' => rest value state' holds') fun _ _ stopped => stopped

end Leads

/-- Whichever way a call from a state with the invariant ends, the invariant holds, and what the call returns is as
promised. -/
def Maintains (inv : σ → Prop) (program : Program ε σ α) (returns : α → σ → Prop) : Prop :=
  ∀ state, inv state → wp program (fun value state' => inv state' ∧ returns value state') (fun _ state' => inv state')
    state

namespace Maintains

variable {inv : σ → Prop} {program : Program ε σ α} {returns : α → σ → Prop}

theorem pure {value : α} (as_promised : ∀ state, inv state → returns value state) :
    Maintains inv (Pure.pure value : Program ε σ α) returns :=
  fun state holds => ⟨holds, as_promised state holds⟩

theorem modify {update : σ → σ} (kept : ∀ state, inv state → inv (update state)) :
    Maintains inv (Program.modify update : Program ε σ Unit) fun _ _ => True :=
  fun state holds => ⟨kept state holds, trivial⟩

theorem fault {reason : Fault} : Maintains inv (Program.fault reason : Program ε σ α) returns := fun _ holds => holds

theorem throwIf {condition : Prop} [Decidable condition] {reason : ε} :
    Maintains inv (Program.throwIf condition reason : Program ε σ Unit) fun _ _ => ¬ condition := by
  intro state holds
  exact (wp_throwIf _ _).mpr ⟨fun _ => holds, fun passed => ⟨holds, passed⟩⟩

/-- The rest of a program may use what its first part promises. -/
theorem bind {program : Program ε σ β} {next : β → Program ε σ α} {mid : β → σ → Prop}
    (first : Maintains inv program mid) (rest : ∀ value state, inv state → mid value state →
      wp (next value) (fun value state' => inv state' ∧ returns value state') (fun _ state' => inv state') state) :
    Maintains inv (program >>= next) returns := by
  intro state holds
  rw [wp_bind]
  exact wp_mono (first state holds) (fun value state' ended => rest value state' ended.1 ended.2)
    fun _ _ stopped => stopped

theorem seq {program : Program ε σ β} {next : β → Program ε σ α} {mid : β → σ → Prop}
    (first : Maintains inv program mid) (rest : ∀ value, Maintains inv (next value) returns) :
    Maintains inv (program >>= next) returns :=
  bind first fun value state holds _ => rest value state holds

theorem get_bind {next : σ → Program ε σ α} (rest : ∀ state, inv state →
      wp (next state) (fun value state' => inv state' ∧ returns value state') (fun _ state' => inv state') state) :
    Maintains inv (Program.get >>= next) returns := rest

theorem discardError {program : Program ε σ Unit} (maintains : Maintains inv program fun _ _ => True) :
    Maintains inv (Program.discardError program) fun _ _ => True := by
  intro state holds
  refine wp_discardError.mpr (wp_mono (maintains state holds) (fun _ _ ended => ended) ?_)
  intro halt state' holds'
  cases halt with
  | error reason => exact ⟨holds', trivial⟩
  | fault reason => exact holds'

theorem orElse {program : Program ε σ α} {default : α} (maintains : Maintains inv program fun _ _ => True) :
    Maintains inv (Program.orElse program default) fun _ _ => True := by
  intro state holds
  refine wp_orElse.mpr (wp_mono (maintains state holds) (fun _ _ ended => ended) ?_)
  intro halt state' holds'
  cases halt with
  | error reason => exact ⟨holds', trivial⟩
  | fault reason => exact holds'

theorem trivial : Maintains (fun _ => True) program fun _ _ => True :=
  fun _ _ => wp_mono (wp_trivial program) (fun _ _ _ => ⟨True.intro, True.intro⟩) fun _ _ _ => True.intro

/-- A program on a part of the state, which keeps what the invariant says about the part. -/
theorem zoom {inner : τ → Prop} {read : σ → τ} {write : τ → σ → σ} {embed : ε' → ε} {program : Program ε' τ α}
    (maintains : Maintains inner program fun _ _ => True) (enters : ∀ state, inv state → inner (read state))
    (leaves : ∀ state part, inv state → inner part → inv (write part state)) :
    Maintains inv (Program.zoom read write embed program) fun _ _ => True := by
  intro state holds
  refine wp_zoom.mpr (wp_mono (maintains (read state) (enters state holds)) ?_ ?_)
  · intro value part ended
    exact ⟨leaves state part holds ended.1, True.intro⟩
  · intro halt part stopped
    cases halt <;> exact leaves state part holds stopped

theorem ite {condition : Prop} [Decidable condition] {yes no : Program ε σ α}
    (of_yes : Maintains inv yes returns)
    (of_no : Maintains inv no returns) : Maintains inv (if condition then yes else no) returns := by
  split
  · exact of_yes
  · exact of_no

end Maintains

end SvpChain.Program
