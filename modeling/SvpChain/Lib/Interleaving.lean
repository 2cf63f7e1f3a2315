import Mathlib.Data.Fintype.Basic
import Mathlib.Logic.Relation

/-!
# Systems of parts

A system is a family of parts.  A part makes steps of its own, and which steps it can make may depend
on the other parts.  When a step that is possible stays possible, the steps of the parts can be
carried out one part after another.
-/

namespace SvpChain.Interleaving

open Relation

variable {ι σ : Type*} {Step : (ι → σ) → σ → σ → Prop} {system system' : ι → σ}

/-- Every part stays as it is or makes a step. -/
def SystemStep (Step : (ι → σ) → σ → σ → Prop) (system system' : ι → σ) : Prop :=
  ∀ i, system' i = system i ∨ Step system (system i) (system' i)

/-- A step that a part can make stays possible. -/
def Persistent (Step : (ι → σ) → σ → σ → Prop) : Prop :=
  ∀ system system', SystemStep Step system system' →
    ∀ part part', Step system part part' → Step system' part part'

theorem Persistent.steps (persistent : Persistent Step)
    (run : ReflTransGen (SystemStep Step) system system') {part part' : σ}
    (step : Step system part part') : Step system' part part' := by
  induction run with
  | refl => exact step
  | tail _ next ih => exact persistent _ _ next _ _ ih

section

variable [DecidableEq ι]

theorem SystemStep.update {i : ι} {part : σ} (step : Step system (system i) part) :
    SystemStep Step system (Function.update system i part) := by
  intro j
  by_cases same : j = i
  · subst same
    rw [Function.update_self]
    exact Or.inr step
  · exact Or.inl (Function.update_of_ne same _ _)

theorem steps_update (persistent : Persistent Step) {i : ι} {part : σ}
    (steps : ReflTransGen (Step system) (system i) part) :
    ReflTransGen (SystemStep Step) system (Function.update system i part) := by
  induction steps with
  | refl => rw [Function.update_eq_self]
  | @tail before after _ step ih =>
      have possible : Step (Function.update system i before)
          (Function.update system i before i) after := by
        rw [Function.update_self]
        exact persistent.steps ih step
      have next := SystemStep.update possible
      rw [Function.update_idem] at next
      exact ih.tail next

theorem steps_all [Fintype ι] (persistent : Persistent Step)
    (steps : ∀ i, ReflTransGen (Step system) (system i) (system' i)) :
    ReflTransGen (SystemStep Step) system system' := by
  -- one part after the other has made its steps
  have some_moved : ∀ moved : Finset ι, ReflTransGen (SystemStep Step) system
      fun i => if i ∈ moved then system' i else system i := by
    intro moved
    induction moved using Finset.induction_on with
    | empty =>
        simp only [Finset.notMem_empty, if_false]
        exact .refl
    | @insert i moved not_moved ih =>
        have here : (if i ∈ moved then system' i else system i) = system i := if_neg not_moved
        have later : ReflTransGen (Step fun i => if i ∈ moved then system' i else system i)
            (if i ∈ moved then system' i else system i) (system' i) := by
          rw [here]
          exact ReflTransGen.mono (fun _ _ step => persistent.steps ih step) _ _ (steps i)
        have next := steps_update persistent later
        convert ih.trans next using 1
        funext j
        by_cases same : j = i
        · subst same
          rw [Function.update_self, if_pos (Finset.mem_insert_self _ _)]
        · rw [Function.update_of_ne same]
          simp only [Finset.mem_insert, same, false_or]
  have all_moved := some_moved Finset.univ
  simpa using all_moved

end

end SvpChain.Interleaving
