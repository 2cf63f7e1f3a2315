import Mathlib.Data.List.Nodup
import Mathlib.Logic.Function.Basic

/-!
# Effects in different orders

Numbered jobs have an effect on a shared state, and each gets a result.  Jobs may overtake others that
are close to them and no others.  If close jobs commute, the order does not matter.
-/

namespace SvpChain.Reorder

variable {ε σ : Type*} (effect : ℕ → σ → Option (ε × σ))

/-- The effect of a job, with its result recorded. There is none where the effect has no result. -/
def perform (state : (ℕ → Option ε) × σ) (job : ℕ) : Option ((ℕ → Option ε) × σ) :=
  (effect job state.2).map fun after => (Function.update state.1 job (some after.1), after.2)

/-- The effects of jobs, one after another. -/
def performAll (order : List ℕ) (state : (ℕ → Option ε) × σ) : Option ((ℕ → Option ε) × σ) :=
  order.foldlM (perform effect) state

/-- Two jobs have the same results and leave the same state in both orders. -/
def Commutes (left right : ℕ) : Prop :=
  ∀ state, ((effect left state).bind fun first =>
      (effect right first.2).map fun second => (first.1, second.1, second.2)) =
    (effect right state).bind fun first =>
      (effect left first.2).map fun second => (second.1, first.1, second.2)

variable {effect}

theorem performAll_cons (job : ℕ) (order : List ℕ) (state : (ℕ → Option ε) × σ) :
    performAll effect (job :: order) state = (perform effect state job).bind (performAll effect order) :=
  List.foldlM_cons

theorem performAll_append (left right : List ℕ) (state : (ℕ → Option ε) × σ) :
    performAll effect (left ++ right) state = (performAll effect left state).bind (performAll effect right) :=
  List.foldlM_append

theorem Commutes.symm {left right : ℕ} (commutes : Commutes effect left right) : Commutes effect right left := by
  intro state
  have swapped := congrArg (Option.map fun results : ε × ε × σ => (results.2.1, results.1, results.2.2))
    (commutes state)
  simp only [Option.map_bind, Function.comp_def, Option.map_map] at swapped
  exact swapped.symm

theorem Commutes.of_const {left right : ℕ} {result : ε}
    (const : ∀ state, effect left state = some (result, state)) : Commutes effect left right := by
  intro state
  cases after : effect right state <;> simp [const, after]

theorem Commutes.perform {left right : ℕ} (commutes : Commutes effect left right)
    (different : left ≠ right) (state : (ℕ → Option ε) × σ) :
    (perform effect state left).bind (fun state => perform effect state right) =
      (perform effect state right).bind fun state => perform effect state left := by
  have swapped := congrArg (Option.map fun results : ε × ε × σ =>
    (Function.update (Function.update state.1 left (some results.1)) right (some results.2.1), results.2.2))
    (commutes state.2)
  simp only [Option.map_bind, Function.comp_def, Option.map_map] at swapped
  simp only [Reorder.perform, Option.bind_map, Function.comp_def]
  rw [swapped]
  simp only [Function.update_comm different]

theorem performAll_move {before after : List ℕ} {job : ℕ}
    (commutes : ∀ other ∈ before, other ≠ job ∧ Commutes effect other job) (state : (ℕ → Option ε) × σ) :
    performAll effect (before ++ job :: after) state = performAll effect (job :: (before ++ after)) state := by
  induction before generalizing state with
  | nil => rfl
  | cons other before ih =>
      obtain ⟨⟨different, own⟩, rest⟩ := List.forall_mem_cons.mp commutes
      have tail : performAll effect (before ++ job :: after) =
          fun state => (perform effect state job).bind (performAll effect (before ++ after)) :=
        funext fun state => (ih rest state).trans (performAll_cons _ _ _)
      calc performAll effect (other :: (before ++ job :: after)) state
          = (perform effect state other).bind fun state =>
              (perform effect state job).bind (performAll effect (before ++ after)) := by
            rw [performAll_cons, tail]
        _ = ((perform effect state other).bind fun state => perform effect state job).bind
              (performAll effect (before ++ after)) := (Option.bind_assoc _ _ _).symm
        _ = ((perform effect state job).bind fun state => perform effect state other).bind
              (performAll effect (before ++ after)) := by rw [own.perform different]
        _ = (perform effect state job).bind fun state =>
              (perform effect state other).bind (performAll effect (before ++ after)) :=
            Option.bind_assoc _ _ _
        _ = performAll effect (job :: other :: (before ++ after)) state := by
            rw [performAll_cons]
            exact congrArg _ (funext fun state => (performAll_cons _ _ state).symm)

/-- No job is overtaken by one that is `width` or more after it. -/
def Near (width : ℕ) (order : List ℕ) : Prop := order.Pairwise fun first second => first < second + width

/-- The order of jobs does not matter, if those commute that may overtake each other. -/
theorem performAll_eq_of_perm {width : ℕ} {order order' : List ℕ} (perm : order.Perm order')
    (nodup : order.Nodup) (near : Near width order) (near' : Near width order')
    (commutes : ∀ left ∈ order, ∀ right ∈ order, left < right → right < left + width →
      Commutes effect left right) (state : (ℕ → Option ε) × σ) :
    performAll effect order state = performAll effect order' state := by
  induction order generalizing order' state with
  | nil => rw [List.nil_perm.mp perm]
  | cons job order ih =>
      obtain ⟨before, after, rfl⟩ := List.append_of_mem (perm.subset List.mem_cons_self)
      have rest : order.Perm (before ++ after) := (perm.trans List.perm_middle).cons_inv
      obtain ⟨job_notMem, rest_nodup⟩ := List.nodup_cons.mp nodup
      obtain ⟨job_near, rest_near⟩ := List.pairwise_cons.mp near
      have passed (other : ℕ) (mem : other ∈ before) : other ≠ job ∧ Commutes effect other job := by
        have other_mem : other ∈ order := rest.symm.subset (List.mem_append_left _ mem)
        have different : other ≠ job := by
          rintro rfl
          exact job_notMem other_mem
        have overtakes : other < job + width :=
          (List.pairwise_append.mp near').2.2 other mem job List.mem_cons_self
        refine ⟨different, ?_⟩
        rcases Nat.lt_or_gt_of_ne different with less | greater
        · exact commutes other (List.mem_cons_of_mem _ other_mem) job List.mem_cons_self less
            (job_near other other_mem)
        · exact (commutes job List.mem_cons_self other (List.mem_cons_of_mem _ other_mem) greater
            overtakes).symm
      have rest_near' : Near width (before ++ after) :=
        near'.sublist ((List.Sublist.refl before).append (List.sublist_cons_self job after))
      have tail : performAll effect order = performAll effect (before ++ after) :=
        funext (ih rest rest_nodup rest_near rest_near' fun left left_mem right right_mem =>
          commutes left (List.mem_cons_of_mem _ left_mem) right (List.mem_cons_of_mem _ right_mem))
      rw [performAll_move passed, performAll_cons, performAll_cons, tail]

end SvpChain.Reorder
