import Mathlib.Logic.Relation
import SvpChain.Execution.TxExecutor

/-!
# Parallel execution of a block

`blkExecutor` of package `execution`, with the `Emitter` it uses, as a step relation.  A step is one
atomic action of the main routine or of a worker: a channel operation, a load or increment of the
merge index, one action of a chaincode, one operation under a lock.  `Emit` holds the read lock of
the emitter while it offers the event to one subscription after another, and subscribing or
unsubscribing takes the write lock.
-/

namespace SvpChain.Execution

open Core

/-- `blkExecutor`, before it runs. -/
structure BlkEnv extends BlockEnv where
  txs : List Transaction
  concurrentLimit : ℕ

/-- The holder of a subscription. -/
inductive Subscriber where
  | main
  | worker (id : ℕ)
  deriving DecidableEq

/-- Where `executeTxAndMerge` is between the first execution and the check of its dependencies. -/
inductive Phase where
  /-- Before `Subscribe`. -/
  | executed
  /-- Before the load of the merge index. -/
  | subscribed
  /-- Receiving from the subscription. -/
  | waiting
  /-- Before `Unsubscribe`. -/
  | leaving
  /-- Before `HasDependencyChanges`. -/
  | checking
  deriving DecidableEq

/-- Where a worker is. -/
inductive Worker where
  | idle
  | executing (job : ℕ) (exe : TxExecutor)
  | ready (phase : Phase) (job : ℕ) (exe : TxExecutor)
  | reexecuting (job : ℕ) (exe : TxExecutor)
  /-- Before the error check and `Merge`. -/
  | settling (job : ℕ) (exe : TxExecutor)
  /-- Before `AddInt32`. -/
  | increasing (job : ℕ)
  /-- Before the lock of `Emit`. -/
  | increased (event : ℤ)
  /-- In `Emit`, with the subscriptions still to be offered the event. -/
  | emitting (event : ℤ) (left : List Subscriber)

/-- Where `executeConcurrent` is. -/
inductive Main where
  | sending (next : ℕ)
  | receiving
  | leaving
  | returned
  deriving DecidableEq

/-- The shared state of a block's execution. -/
structure BlkState where
  rootTrk : RootTracker
  txCommits : List (Option TxCommit)
  /-- An `int32`. -/
  mergeIdx : ℤ
  jobCh : List ℕ
  /-- The buffers of the present subscriptions. -/
  subs : Subscriber → Option (List ℤ)
  main : Main
  workers : ℕ → Worker

namespace BlkState

/-- The state when the workers are started and the main routine has subscribed. Without
transactions `executeConcurrent` returns at once. -/
def initial (env : BlkEnv) : BlkState where
  rootTrk := RootTracker.new
  txCommits := List.replicate env.txs.length none
  mergeIdx := 0
  jobCh := []
  subs subscriber := if subscriber = .main then some [] else none
  main := if env.txs.length = 0 then .returned else .sending 0
  workers _ := .idle

/-- Replace the state of a worker. -/
def setWorker (state : BlkState) (id : ℕ) (worker : Worker) : BlkState :=
  { state with workers := Function.update state.workers id worker }

/-- Replace a subscription. -/
def setSub (state : BlkState) (subscriber : Subscriber) (buffer : Option (List ℤ)) : BlkState :=
  { state with subs := Function.update state.subs subscriber buffer }

/-- Store the commit of a transaction. -/
def setTxCommit (state : BlkState) (job : ℕ) (commit : TxCommit) : BlkState :=
  { state with txCommits := state.txCommits.set job (some commit) }

/-- No routine holds the read lock of the emitter. -/
def Unlocked (env : BlkEnv) (state : BlkState) : Prop :=
  ∀ id < env.concurrentLimit, ∀ event left, state.workers id ≠ .emitting event left

end BlkState

/-- The buffer size a subscription was made with. -/
def bufferSize (env : BlkEnv) : Subscriber → ℕ
  | .main => env.txs.length
  | .worker _ => 20

/-- `Subscription.emit`: a full buffer drops the event. -/
def offer (size : ℕ) (event : ℤ) (buffer : List ℤ) : List ℤ :=
  if buffer.length < size then buffer ++ [event] else buffer

/-- `atomic.AddInt32(&bexe.mergeIdx, 1)`. -/
def addInt32 (mergeIdx : ℤ) : ℤ := Int.bmod (mergeIdx + 1) (2 ^ 32)

open BlkState in
/-- One atomic action. -/
inductive BlkStep (env : BlkEnv) (state : BlkState) : BlkState → Prop where
  | send {next : ℕ} (at_main : state.main = .sending next) (more : next < env.txs.length)
      (room : state.jobCh.length < env.concurrentLimit) :
      BlkStep env state { state with main := .sending (next + 1), jobCh := state.jobCh ++ [next] }
  | sent (at_main : state.main = .sending env.txs.length) :
      BlkStep env state { state with main := .receiving }
  | receive {event : ℤ} {buffer : List ℤ} (at_main : state.main = .receiving)
      (buffered : state.subs .main = some (event :: buffer)) :
      BlkStep env state { state.setSub .main (some buffer) with
        main := if event = env.txs.length then .leaving else .receiving }
  | unsubscribeMain (at_main : state.main = .leaving) (unlocked : state.Unlocked env) :
      BlkStep env state { state.setSub .main none with main := .returned }
  | take {id job : ℕ} {jobs : List ℕ} (id_lt : id < env.concurrentLimit)
      (at_worker : state.workers id = .idle) (queued : state.jobCh = job :: jobs) :
      BlkStep env state { state.setWorker id (.executing job newTxExecutor) with jobCh := jobs }
  | execute {id job : ℕ} {exe : TxExecutor} {tx : Transaction} (id_lt : id < env.concurrentLimit)
      (at_worker : state.workers id = .executing job exe) (job_tx : env.txs[job]? = some tx) :
      BlkStep env state (state.setWorker id
        (.executing job (exe.step env.toBlockEnv tx state.rootTrk.trk)))
  | commit {id job : ℕ} {txTrk : StateTracker} {error : String} {tx : Transaction}
      (id_lt : id < env.concurrentLimit)
      (at_worker : state.workers id = .executing job ⟨txTrk, .finished error⟩)
      (job_tx : env.txs[job]? = some tx) :
      BlkStep env state ((state.setTxCommit job (TxExecutor.txCommit env.toBlockEnv tx error)).setWorker
        id (.ready .executed job ⟨txTrk, .finished error⟩))
  | subscribe {id job : ℕ} {exe : TxExecutor} (id_lt : id < env.concurrentLimit)
      (at_worker : state.workers id = .ready .executed job exe) (unlocked : state.Unlocked env) :
      BlkStep env state ((state.setSub (.worker id) (some [])).setWorker id
        (.ready .subscribed job exe))
  | load {id job : ℕ} {exe : TxExecutor} (id_lt : id < env.concurrentLimit)
      (at_worker : state.workers id = .ready .subscribed job exe) :
      BlkStep env state (state.setWorker id
        (.ready (if state.mergeIdx = job then .leaving else .waiting) job exe))
  | event {id job : ℕ} {exe : TxExecutor} {event : ℤ} {buffer : List ℤ}
      (id_lt : id < env.concurrentLimit) (at_worker : state.workers id = .ready .waiting job exe)
      (buffered : state.subs (.worker id) = some (event :: buffer)) :
      BlkStep env state ((state.setSub (.worker id) (some buffer)).setWorker id
        (.ready (if event = job then .leaving else .waiting) job exe))
  | unsubscribe {id job : ℕ} {exe : TxExecutor} (id_lt : id < env.concurrentLimit)
      (at_worker : state.workers id = .ready .leaving job exe) (unlocked : state.Unlocked env) :
      BlkStep env state ((state.setSub (.worker id) none).setWorker id (.ready .checking job exe))
  | check {id job : ℕ} {exe : TxExecutor} (id_lt : id < env.concurrentLimit)
      (at_worker : state.workers id = .ready .checking job exe) :
      BlkStep env state (state.setWorker id
        (if state.rootTrk.trk.hasDependencyChanges exe.txTrk then .reexecuting job newTxExecutor
          else .settling job exe))
  | reexecute {id job : ℕ} {exe : TxExecutor} {tx : Transaction} (id_lt : id < env.concurrentLimit)
      (at_worker : state.workers id = .reexecuting job exe) (job_tx : env.txs[job]? = some tx) :
      BlkStep env state (state.setWorker id
        (.reexecuting job (exe.step env.toBlockEnv tx state.rootTrk.trk)))
  | recommit {id job : ℕ} {txTrk : StateTracker} {error : String} {tx : Transaction}
      (id_lt : id < env.concurrentLimit)
      (at_worker : state.workers id = .reexecuting job ⟨txTrk, .finished error⟩)
      (job_tx : env.txs[job]? = some tx) :
      BlkStep env state ((state.setTxCommit job (TxExecutor.txCommit env.toBlockEnv tx error)).setWorker
        id (.settling job ⟨txTrk, .finished error⟩))
  | merge {id job : ℕ} {exe : TxExecutor} {commit : TxCommit} (id_lt : id < env.concurrentLimit)
      (at_worker : state.workers id = .settling job exe)
      (stored : state.txCommits[job]? = some (some commit)) :
      BlkStep env state { state.setWorker id (.increasing job) with
        rootTrk := if commit.error = "" then state.rootTrk.merge exe.txTrk else state.rootTrk }
  | increase {id job : ℕ} (id_lt : id < env.concurrentLimit)
      (at_worker : state.workers id = .increasing job) :
      BlkStep env state { state.setWorker id (.increased (addInt32 state.mergeIdx)) with
        mergeIdx := addInt32 state.mergeIdx }
  | lock {id : ℕ} {event : ℤ} {left : List Subscriber} (id_lt : id < env.concurrentLimit)
      (at_worker : state.workers id = .increased event) (left_nodup : left.Nodup)
      (present : ∀ subscriber, subscriber ∈ left ↔ state.subs subscriber ≠ none) :
      BlkStep env state (state.setWorker id (.emitting event left))
  | emit {id : ℕ} {event : ℤ} {left : List Subscriber} {subscriber : Subscriber}
      (id_lt : id < env.concurrentLimit) (at_worker : state.workers id = .emitting event left)
      (subscriber_mem : subscriber ∈ left) :
      BlkStep env state ((state.setSub subscriber
        ((state.subs subscriber).map (offer (bufferSize env subscriber) event))).setWorker id
          (.emitting event (left.erase subscriber)))
  | unlock {id : ℕ} {event : ℤ} (id_lt : id < env.concurrentLimit)
      (at_worker : state.workers id = .emitting event []) :
      BlkStep env state (state.setWorker id .idle)

/-- Runs of `executeConcurrent`, for every schedule of its routines. -/
def BlkRun (env : BlkEnv) : BlkState → Prop :=
  Relation.ReflTransGen (BlkStep env) (BlkState.initial env)

/-! ## Execution in list order -/

/-- An execution of a transaction on an unchanging root tracker, to its end. -/
def Completes (env : BlockEnv) (tx : Transaction) (root : RootTracker) (exe : TxExecutor)
    (error : String) : Prop :=
  exe.stage = .finished error ∧
    ∃ steps, exe = (TxExecutor.step env tx root.trk)^[steps] newTxExecutor

/-- The root tracker after a transaction: only a successful one is merged. -/
def rootAfter (root : RootTracker) (exe : TxExecutor) (error : String) : RootTracker :=
  if error = "" then root.merge exe.txTrk else root

/-- Transactions one after another, each on the merged state of its predecessors, with the root
tracker and the commits at the end. -/
inductive Sequential (env : BlockEnv) :
    List Transaction → RootTracker → List TxCommit → Prop where
  | nil : Sequential env [] RootTracker.new []
  | snoc {txs : List Transaction} {root : RootTracker} {commits : List TxCommit}
      {tx : Transaction} {exe : TxExecutor} {error : String} :
      Sequential env txs root commits → Completes env tx root exe error →
        Sequential env (txs ++ [tx]) (rootAfter root exe error)
          (commits ++ [TxExecutor.txCommit env tx error])

theorem Completes.unique {env : BlockEnv} {tx : Transaction} {root : RootTracker}
    {exe exe' : TxExecutor} {error error' : String} (left : Completes env tx root exe error)
    (right : Completes env tx root exe' error') : exe = exe' ∧ error = error' := by
  obtain ⟨left_end, steps, rfl⟩ := left
  obtain ⟨right_end, steps', rfl⟩ := right
  -- a finished execution does not move, so the longer one ends where the shorter one does
  have stays : ∀ (exe : TxExecutor) (error : String), exe.stage = .finished error → ∀ more,
      (TxExecutor.step env tx root.trk)^[more] exe = exe := by
    intro exe error ended more
    have fixed : TxExecutor.step env tx root.trk exe = exe := by
      rw [TxExecutor.step, ended]
    exact Function.iterate_fixed fixed more
  have same : (TxExecutor.step env tx root.trk)^[steps] newTxExecutor =
      (TxExecutor.step env tx root.trk)^[steps'] newTxExecutor := by
    rcases Nat.le_total steps steps' with shorter | shorter
    · obtain ⟨more, rfl⟩ := Nat.exists_eq_add_of_le' shorter
      rw [Function.iterate_add_apply, stays _ _ left_end]
    · obtain ⟨more, rfl⟩ := Nat.exists_eq_add_of_le' shorter
      rw [Function.iterate_add_apply, stays _ _ right_end]
  refine ⟨same, ?_⟩
  rw [same, right_end] at left_end
  exact (Stage.finished.inj left_end).symm

theorem Sequential.unique {env : BlockEnv} {txs : List Transaction} {root root' : RootTracker}
    {commits commits' : List TxCommit} (left : Sequential env txs root commits)
    (right : Sequential env txs root' commits') : root = root' ∧ commits = commits' := by
  induction left generalizing root' commits' with
  | nil =>
      generalize empty : ([] : List Transaction) = txs at right
      cases right with
      | nil => exact ⟨rfl, rfl⟩
      | snoc => simp at empty
  | @snoc txs root commits tx exe error _ completes ih =>
      generalize extended : txs ++ [tx] = all at right
      cases right with
      | nil => simp at extended
      | snoc before' completes' =>
          obtain ⟨rfl, rfl⟩ := List.append_singleton_inj.mp extended
          obtain ⟨rfl, rfl⟩ := ih before'
          obtain ⟨rfl, rfl⟩ := completes.unique completes'
          exact ⟨rfl, rfl⟩

theorem Sequential.length {env : BlockEnv} {txs : List Transaction} {root : RootTracker}
    {commits : List TxCommit} (sequential : Sequential env txs root commits) : commits.length = txs.length := by
  induction sequential with
  | nil => rfl
  | snoc _ _ ih => simp [ih]

end SvpChain.Execution
