import Mathlib.Data.List.AList
import SvpChain.Core.Commit

/-!
# State trackers

`StateTracker` of package `execution/common`.  A tracker keeps the values set through it, reads the
rest from the getter below it, and records the keys it was asked for.
-/

namespace SvpChain.Execution

open Core

/-- `StateGetter`, over the state that a read may change. -/
abbrev StateGetter (σ : Type) := Bytes → σ → Option Bytes × σ

/-- `StateTracker`, without the getter below it. A nil value is `none`. -/
structure StateTracker where
  keyPrefix : Bytes
  trackDep : Bool
  /-- `getState` calls. -/
  dependencies : List Bytes
  /-- `setState` calls. -/
  changes : AList fun _ : Bytes => Option Bytes

/-- `NewStateTracker`. -/
def newStateTracker (keyPrefix : Bytes) : StateTracker := ⟨keyPrefix, false, [], ∅⟩

/-- `StateTracker.Spawn`. -/
def spawn (keyPrefix : Bytes) : StateTracker := { newStateTracker keyPrefix with trackDep := true }

namespace StateTracker

/-- `StateTracker.setDependency`. -/
def setDependency (trk : StateTracker) (key : Bytes) : StateTracker :=
  if trk.trackDep then { trk with dependencies := key :: trk.dependencies } else trk

/-- `StateTracker.setState`. -/
def setState (trk : StateTracker) (key : Bytes) (value : Option Bytes) : StateTracker :=
  { trk with changes := trk.changes.insert (trk.keyPrefix ++ key) value }

/-- `StateTracker.getState`. -/
def getState {σ : Type} (base : StateGetter σ) : StateGetter (StateTracker × σ) :=
  fun key (trk, below) =>
    let key := trk.keyPrefix ++ key
    let trk := trk.setDependency key
    match trk.changes.lookup key with
    | some value => (value, (trk, below))
    | none =>
        let (value, below) := base key below
        (value, (trk, below))

/-- `StateTracker.HasDependencyChanges`. -/
def hasDependencyChanges (trk child : StateTracker) : Bool :=
  child.dependencies.any fun key => (trk.changes.lookup (trk.keyPrefix ++ key)).isSome

/-- `StateTracker.Merge`. -/
def merge (trk child : StateTracker) : StateTracker :=
  child.changes.entries.foldl (fun trk change => trk.setState change.1 change.2) trk

/-- `StateTracker.GetStateChanges`. -/
def getStateChanges (trk : StateTracker) : List StateChange :=
  trk.changes.entries.map fun change => newStateChange change.1 (change.2.getD [])

@[simp]
theorem changes_setDependency (trk : StateTracker) (key : Bytes) : (trk.setDependency key).changes = trk.changes := by
  unfold setDependency
  split <;> rfl

@[simp]
theorem keyPrefix_setDependency (trk : StateTracker) (key : Bytes) :
    (trk.setDependency key).keyPrefix = trk.keyPrefix := by
  unfold setDependency
  split <;> rfl

theorem getState_of_lookup {σ : Type} (base : StateGetter σ) {trk : StateTracker} {key : Bytes}
    {value : Option Bytes} (found : trk.changes.lookup (trk.keyPrefix ++ key) = some value) (below : σ) :
    getState base key (trk, below) = (value, (trk.setDependency (trk.keyPrefix ++ key), below)) := by
  simp [getState, found]

theorem getState_of_missing {σ : Type} (base : StateGetter σ) {trk : StateTracker} {key : Bytes}
    (missing : trk.changes.lookup (trk.keyPrefix ++ key) = none) (below : σ) : getState base key (trk, below) =
      ((base (trk.keyPrefix ++ key) below).1,
        (trk.setDependency (trk.keyPrefix ++ key), (base (trk.keyPrefix ++ key) below).2)) := by
  simp [getState, missing]

theorem merge_spec (trk child : StateTracker) :
    (trk.merge child).keyPrefix = trk.keyPrefix ∧ (trk.merge child).trackDep = trk.trackDep ∧
      (trk.merge child).dependencies = trk.dependencies ∧
      ∀ key, (trk.changes.lookup key).isSome → ((trk.merge child).changes.lookup key).isSome := by
  unfold merge
  induction child.changes.entries generalizing trk with
  | nil => exact ⟨rfl, rfl, rfl, fun _ => id⟩
  | cons change changes ih =>
      obtain ⟨keyPrefix_eq, trackDep_eq, dependencies_eq, grows⟩ := ih (trk.setState change.1 change.2)
      refine ⟨keyPrefix_eq, trackDep_eq, dependencies_eq, fun key present => grows key ?_⟩
      by_cases same : key = trk.keyPrefix ++ change.1
      · subst same
        simp [setState]
      · rw [setState, AList.lookup_insert_ne same]
        exact present

end StateTracker

end SvpChain.Execution
