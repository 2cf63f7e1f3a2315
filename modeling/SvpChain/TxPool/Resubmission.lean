import SvpChain.Core.Binding
import SvpChain.TxPool.TxPool

/-!
# Submissions during a commit

`addNewTx` looks into the storage, verifies and inserts in three steps; the commit of a block writes the
storage and clears the pool in two.  Calls of `addNewTx` for a transaction of the block run beside the
commit in any order of these steps.  The transaction comes back to the pool by a call that looks before the
first step of the commit and inserts after the second.
-/

namespace SvpChain.TxPool

open Core

variable {κ : Type} [DecidableEq κ]

/-- What a call of `addNewTx` has behind it. -/
inductive AddPhase where
  | called
  | checked
  | verified
  | returned
  deriving DecidableEq

/-- What the commit of a block has behind it: its execution, `Storage.Commit`, or `RemoveTxs`. -/
inductive CommitPhase where
  | executed
  | stored
  | removed
  deriving DecidableEq

/-- The storage and the pool, with calls of `addNewTx` beside a commit. -/
structure Race (κ : Type) where
  stored : Bytes → Bool
  store : TxStore
  calls : κ → AddPhase
  commit : CommitPhase

/-- A step of a call of `addNewTx`, or of the commit. -/
inductive RaceEvent (κ : Type) where
  | check (call : κ)
  | verify (call : κ)
  | insert (call : κ)
  | commit
  | remove
  deriving DecidableEq

namespace Race

/-- A call gets to another phase. -/
def setCall (race : Race κ) (call : κ) (phase : AddPhase) : Race κ :=
  { race with calls := Function.update race.calls call phase }

theorem calls_setCall (race : Race κ) (call : κ) (phase : AddPhase) (other : κ) :
    (race.setCall call phase).calls other = if other = call then phase else race.calls other :=
  Function.update_apply ..

/-- `tx.Validate` and the check of the storage. -/
def checkPhase (services : Services) (tx : Transaction) (race : Race κ) : AddPhase :=
  match tx.validate services.crypto with
  | .error _ => .returned
  | .ok () => if race.stored tx.hash then .returned else .checked

/-- One step, where it is the next one of its call or of the commit. -/
def move (services : Services) (tx : Transaction) (transactions : List Bytes) (race : Race κ) :
    RaceEvent κ → Option (Race κ)
  | .check call =>
      if race.calls call = .called then some (race.setCall call (race.checkPhase services tx)) else none
  | .verify call =>
      if race.calls call = .checked then
        some (race.setCall call (if services.verifyTx tx then .verified else .returned))
      else none
  | .insert call =>
      if race.calls call = .verified then
        some ({ race with store := race.store.addNewTx tx services.now }.setCall call .returned)
      else none
  | .commit =>
      if race.commit = .executed then
        some { race with
          stored := fun hash => decide (hash ∈ transactions) || race.stored hash
          commit := .stored }
      else none
  | .remove =>
      if race.commit = .stored then
        some { race with store := race.store.removeTxs transactions, commit := .removed }
      else none

/-- The calls come, and the block is executed. -/
def start (stored : Bytes → Bool) (store : TxStore) : Race κ where
  stored := stored
  store := store
  calls _ := .called
  commit := .executed

/-- A run, with its steps, the latest first. -/
inductive Runs (services : Services) (tx : Transaction) (transactions : List Bytes) (initial : Race κ) :
    List (RaceEvent κ) → Race κ → Prop where
  | refl : Runs services tx transactions initial [] initial
  | step {history : List (RaceEvent κ)} {race race' : Race κ} {event : RaceEvent κ}
      (runs : Runs services tx transactions initial history race)
      (moved : race.move services tx transactions event = some race') :
      Runs services tx transactions initial (event :: history) race'

/-- All calls have returned, and the commit is done. -/
def Finished (race : Race κ) : Prop := (∀ call, race.calls call = .returned) ∧ race.commit = .removed

instance [Fintype κ] (race : Race κ) : Decidable race.Finished :=
  inferInstanceAs (Decidable ((∀ call, race.calls call = .returned) ∧ race.commit = .removed))

/-- Where a history leads, the latest step first. -/
def play (services : Services) (tx : Transaction) (transactions : List Bytes) (initial : Race κ) :
    List (RaceEvent κ) → Option (Race κ)
  | [] => some initial
  | event :: history =>
      (play services tx transactions initial history).bind fun race => race.move services tx transactions event

theorem runs_of_play {services : Services} {tx : Transaction} {transactions : List Bytes} {initial race : Race κ}
    {history : List (RaceEvent κ)} (played : initial.play services tx transactions history = some race) :
    Runs services tx transactions initial history race := by
  induction history generalizing race with
  | nil => exact Option.some.inj played ▸ .refl
  | cons event history ih =>
      obtain ⟨middle, earlier, moved⟩ := Option.bind_eq_some_iff.mp played
      exact .step (ih earlier) moved

theorem exists_runs {services : Services} {tx : Transaction} {transactions : List Bytes} {initial : Race κ}
    {history : List (RaceEvent κ)} {holds : Race κ → Prop} [DecidablePred holds]
    (played : ((initial.play services tx transactions history).any fun race => decide (holds race)) = true) :
    ∃ race, Runs services tx transactions initial history race ∧ holds race := by
  cases found : initial.play services tx transactions history with
  | none => simp [found] at played
  | some race => exact ⟨race, runs_of_play found, by simpa [found] using played⟩

/-! ## What a history tells -/

/-- The steps of the commit, the latest first. -/
def CommitPhase.events : CommitPhase → List (RaceEvent κ)
  | .executed => []
  | .stored => [.commit]
  | .removed => [.remove, .commit]

/-- A call looks into the storage, the commit takes its two steps, and the call inserts. -/
def Straddles (history : List (RaceEvent κ)) (call : κ) : Prop :=
  [.insert call, .remove, .commit, .check call].Sublist history

instance (history : List (RaceEvent κ)) (call : κ) : Decidable (Straddles history call) :=
  inferInstanceAs (Decidable (List.Sublist _ _))

/-- What the steps so far tell about the storage, the pool and the calls. -/
structure Tracked (tx : Transaction) (history : List (RaceEvent κ)) (race : Race κ) : Prop where
  stored : race.commit ≠ .executed → race.stored tx.hash = true
  pending : ∀ call, race.calls call = .checked ∨ race.calls call = .verified →
    (CommitPhase.events race.commit ++ [RaceEvent.check call]).Sublist history
  removed : .remove ∈ history → race.commit = .removed
  pooled : race.commit = .removed →
    ((race.store.getTx tx.hash).isSome = true ↔ ∃ call, Straddles history call)

section

omit [DecidableEq κ]

theorem straddles_cons_iff {event : RaceEvent κ} {history : List (RaceEvent κ)} {call : κ} :
    Straddles (event :: history) call ↔ Straddles history call ∨
      .insert call = event ∧ [RaceEvent.remove, .commit, .check call].Sublist history :=
  List.cons_sublist_cons'

theorem exists_straddles_cons_iff {event : RaceEvent κ} {history : List (RaceEvent κ)}
    (other : ∀ call, RaceEvent.insert call ≠ event) :
    (∃ call, Straddles (event :: history) call) ↔ ∃ call, Straddles history call :=
  exists_congr fun call => straddles_cons_iff.trans (or_iff_left fun both => other call both.1)

theorem not_straddles {history : List (RaceEvent κ)} (before : .remove ∉ history) (call : κ) :
    ¬Straddles history call := fun straddles => before (straddles.subset (by simp))

end

variable {services : Services} {tx : Transaction} {transactions : List Bytes} {history : List (RaceEvent κ)}
  {race race' : Race κ}

omit [DecidableEq κ] in
theorem tracked_start (stored : Bytes → Bool) (store : TxStore) : Tracked tx [] (start stored store : Race κ) where
  stored unequal := absurd rfl unequal
  pending _ phase := nomatch phase
  removed mem := absurd mem List.not_mem_nil
  pooled done := nomatch done

theorem between_setCall {holds : κ → Prop} {call : κ} {phase : AddPhase}
    (others : ∀ other, race.calls other = .checked ∨ race.calls other = .verified → holds other)
    (own : phase = .checked ∨ phase = .verified → holds call) (other : κ)
    (between : (race.setCall call phase).calls other = .checked ∨
      (race.setCall call phase).calls other = .verified) : holds other := by
  rw [calls_setCall] at between
  split at between
  · next same => exact same ▸ own between
  · exact others other between

omit [DecidableEq κ] in
theorem Tracked.commit_of_checked (tracked : Tracked tx history race)
    (passed : race.checkPhase services tx = .checked ∨ race.checkPhase services tx = .verified) :
    race.commit = .executed := by
  by_contra written
  rw [checkPhase, tracked.stored written] at passed
  split at passed <;> simp at passed

theorem Tracked.move (tracked : Tracked tx history race) (mem : tx.hash ∈ transactions)
    {event : RaceEvent κ} (moved : race.move services tx transactions event = some race') :
    Tracked tx (event :: history) race' := by
  obtain ⟨stored, pending, removed, pooled⟩ := id tracked
  have pending' (other : κ) (between : race.calls other = .checked ∨ race.calls other = .verified) :
      (CommitPhase.events race.commit ++ [RaceEvent.check other]).Sublist (event :: history) :=
    (pending other between).cons _
  cases event with
  | check call =>
      obtain ⟨called, same⟩ := Option.ite_none_right_eq_some.mp moved
      obtain rfl := Option.some.inj same
      refine ⟨stored, between_setCall pending' fun passed => ?_, fun later => removed (by simpa using later),
        fun done => (pooled done).trans (exists_straddles_cons_iff nofun).symm⟩
      rw [setCall, tracked.commit_of_checked passed]
      exact (List.nil_sublist history).cons_cons _
  | verify call =>
      obtain ⟨checked, same⟩ := Option.ite_none_right_eq_some.mp moved
      obtain rfl := Option.some.inj same
      refine ⟨stored, between_setCall pending' fun _ => pending' call (.inl checked),
        fun later => removed (by simpa using later),
        fun done => (pooled done).trans (exists_straddles_cons_iff nofun).symm⟩
  | insert call =>
      obtain ⟨verified, same⟩ := Option.ite_none_right_eq_some.mp moved
      obtain rfl := Option.some.inj same
      refine ⟨stored, between_setCall pending' nofun, fun later => removed (by simpa using later), fun done => ?_⟩
      have straddles : Straddles (.insert call :: history) call := by
        have earlier := pending call (.inr verified)
        rw [show race.commit = .removed from done] at earlier
        exact earlier.cons_cons _
      refine iff_of_true ?_ ⟨call, straddles⟩
      exact (TxStore.isSome_getTx_addNewTx ..).mpr (.inl rfl)
  | commit =>
      obtain ⟨executed, same⟩ := Option.ite_none_right_eq_some.mp moved
      obtain rfl := Option.some.inj same
      refine ⟨fun _ => by simp [mem], fun other between => ?_, fun later => ?_, nofun⟩
      · have earlier := pending other between
        rw [executed] at earlier
        exact earlier.cons_cons _
      · have done := removed (by simpa using later)
        simp [executed] at done
  | remove =>
      obtain ⟨written, same⟩ := Option.ite_none_right_eq_some.mp moved
      obtain rfl := Option.some.inj same
      have before : .remove ∉ history := fun earlier => by simpa [written] using removed earlier
      refine ⟨fun _ => stored (by simp [written]), fun other between => ?_, fun _ => rfl, fun _ => ?_⟩
      · have earlier := pending other between
        rw [written] at earlier
        exact earlier.cons_cons _
      · rw [TxStore.getTx_removeTxs, if_pos mem, exists_straddles_cons_iff nofun]
        exact iff_of_false Bool.false_ne_true fun ⟨call, straddles⟩ => not_straddles before call straddles

theorem Runs.tracked {stored : Bytes → Bool} {store : TxStore}
    (runs : Runs services tx transactions (start stored store) history race)
    (mem : tx.hash ∈ transactions) : Tracked tx history race := by
  induction runs with
  | refl => exact tracked_start stored store
  | step _ moved ih => exact ih.move mem moved

end Race

/-- Once the calls and the commit are finished, the transaction is not in the pool exactly where no call
looked into the storage before `Storage.Commit` and inserted after `RemoveTxs`. -/
theorem not_in_pool_iff {services : Services} {tx : Transaction} {transactions : List Bytes}
    (mem : tx.hash ∈ transactions) {stored : Bytes → Bool} {store : TxStore}
    {history : List (RaceEvent κ)} {race : Race κ}
    (runs : Race.Runs services tx transactions (Race.start stored store) history race)
    (finished : race.Finished) :
    race.store.getTx tx.hash = none ↔ ∀ call, ¬Race.Straddles history call := by
  have pooled := (runs.tracked mem).pooled finished.2
  rw [← not_exists, ← pooled, Bool.not_eq_true, Option.isSome_eq_false_iff, Option.isNone_iff_eq_none]

/-- The transaction is in the pool and submitted again while its block is committed. -/
def resubmission : Race Unit := .start (fun _ => false) (newTxStore.addNewTx (transparentTx [1] [2]) 0)

/-- Services that verify everything. -/
def verifyingServices : Services where
  crypto := transparentCrypto
  hasTx _ := false
  verifyTx _ := true
  now := 1

/-- A call that inserts before `RemoveTxs` leaves nothing in the pool. -/
theorem not_in_pool_early :
    ∃ race, Race.Runs verifyingServices (transparentTx [1] [2]) [(transparentTx [1] [2]).hash] resubmission
        [.remove, .insert (), .commit, .verify (), .check ()] race ∧ race.Finished ∧
      race.store.getTx (transparentTx [1] [2]).hash = none := by
  have played : ∃ race, Race.Runs verifyingServices (transparentTx [1] [2]) [(transparentTx [1] [2]).hash]
      resubmission [.remove, .insert (), .commit, .verify (), .check ()] race ∧ race.Finished :=
    Race.exists_runs (by decide +kernel)
  obtain ⟨race, runs, finished⟩ := played
  exact ⟨race, runs, finished, (not_in_pool_iff List.mem_cons_self runs finished).mpr (by decide)⟩

/-- A call that looks before `Storage.Commit` and inserts after `RemoveTxs` puts the committed
transaction back. -/
theorem committed_transaction_queued :
    ∃ race, Race.Runs verifyingServices (transparentTx [1] [2]) [(transparentTx [1] [2]).hash] resubmission
        [.insert (), .remove, .commit, .verify (), .check ()] race ∧ race.Finished ∧
      race.stored (transparentTx [1] [2]).hash = true ∧
      race.store.getTx (transparentTx [1] [2]).hash = some (transparentTx [1] [2]) ∧
      (race.store.popTxsFromQueue 1).1 = [(transparentTx [1] [2]).hash] :=
  Race.exists_runs (by decide +kernel)

end SvpChain.TxPool
