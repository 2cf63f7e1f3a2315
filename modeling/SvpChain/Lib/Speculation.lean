import Mathlib.Data.Set.Basic
import Mathlib.Logic.Function.Iterate
import Mathlib.Tactic

/-!
# Speculative execution over a growing shared state

A local execution reads a shared state that other executions extend meanwhile.  It records what it
read.  As long as nothing it recorded was changed, it is where an execution on the present shared
state alone would be.
-/

namespace SvpChain

/-- Local executions over shared states, with the keys they have read and the keys changed so far.
Only executions that keep a record are `Valid`. -/
structure Speculation (Shared Local Key : Type*) where
  step : Shared → Local → Local
  Valid : Local → Prop
  deps : Local → Set Key
  changed : Shared → Set Key
  valid_step : ∀ {shared exe}, Valid exe → Valid (step shared exe)
  deps_mono : ∀ {shared exe}, Valid exe → deps exe ⊆ deps (step shared exe)
  step_eq : ∀ {shared shared' exe}, Valid exe → changed shared ⊆ changed shared' →
    (∀ key ∈ deps (step shared exe), key ∉ changed shared') → step shared' exe = step shared exe

namespace Speculation

variable {Shared Local Key : Type*} (spec : Speculation Shared Local Key)

/-- No recorded key was changed. -/
def Clean (shared : Shared) (exe : Local) : Prop := ∀ key ∈ spec.deps exe, key ∉ spec.changed shared

/-- The execution is one on the present shared state, or its record shows that it may not be. -/
structure Tracks (shared : Shared) (origin exe : Local) : Prop where
  valid : spec.Valid exe
  current : spec.Clean shared exe → ∃ steps, exe = (spec.step shared)^[steps] origin

variable {spec} {shared shared' : Shared} {origin exe : Local}

theorem valid_iterate (valid : spec.Valid origin) (steps : ℕ) : spec.Valid ((spec.step shared)^[steps] origin) := by
  induction steps with
  | zero => exact valid
  | succ steps ih =>
      rw [Function.iterate_succ_apply']
      exact spec.valid_step ih

theorem iterate_eq (valid : spec.Valid origin) (grows : spec.changed shared ⊆ spec.changed shared') (steps : ℕ)
    (clean : spec.Clean shared' ((spec.step shared)^[steps] origin)) :
    (spec.step shared')^[steps] origin = (spec.step shared)^[steps] origin := by
  induction steps with
  | zero => rfl
  | succ steps ih =>
      have still_valid : spec.Valid ((spec.step shared)^[steps] origin) := valid_iterate valid steps
      rw [Function.iterate_succ_apply'] at clean
      rw [Function.iterate_succ_apply', Function.iterate_succ_apply',
        ih fun key key_mem => clean key (spec.deps_mono still_valid key_mem)]
      exact spec.step_eq still_valid grows clean

theorem Tracks.refl (valid : spec.Valid origin) : spec.Tracks shared origin origin :=
  ⟨valid, fun _ => ⟨0, rfl⟩⟩

theorem Tracks.step (tracks : spec.Tracks shared origin exe) : spec.Tracks shared origin (spec.step shared exe) := by
  refine ⟨spec.valid_step tracks.valid, fun clean => ?_⟩
  obtain ⟨steps, rfl⟩ := tracks.current fun key key_mem =>
    clean key (spec.deps_mono tracks.valid key_mem)
  exact ⟨steps + 1, (Function.iterate_succ_apply' _ _ _).symm⟩

theorem Tracks.grow (tracks : spec.Tracks shared origin exe) (valid : spec.Valid origin)
    (grows : spec.changed shared ⊆ spec.changed shared') : spec.Tracks shared' origin exe := by
  refine ⟨tracks.valid, fun clean => ?_⟩
  obtain ⟨steps, rfl⟩ := tracks.current fun key key_mem changed =>
    clean key key_mem (grows changed)
  exact ⟨steps, (iterate_eq valid grows steps clean).symm⟩

end Speculation
end SvpChain
