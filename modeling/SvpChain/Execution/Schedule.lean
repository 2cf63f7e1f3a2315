import SvpChain.Execution.BlkExecutor

/-!
# A schedule that returns

When every transaction in list order comes to an end, `executeConcurrent` can return: the first
worker takes one transaction after another, and the main routine sends the next one only when the
last one is merged.
-/

namespace SvpChain.Execution

open Core Relation

variable {env : BlkEnv} {state : BlkState}

/-! ## One worker at work -/

namespace BlkState

@[simp]
theorem setWorker_setWorker (state : BlkState) (id : ℕ) (old new : Worker) :
    (state.setWorker id old).setWorker id new = state.setWorker id new := by
  simp [setWorker]

@[simp]
theorem setWorker_workers (state : BlkState) (id : ℕ) (worker : Worker) :
    (state.setWorker id worker).workers id = worker :=
  Function.update_self _ _ _

theorem setWorker_workers_of_ne (state : BlkState) {id other : ℕ} (different : other ≠ id) (worker : Worker) :
    (state.setWorker id worker).workers other = state.workers other :=
  Function.update_of_ne different _ _

@[simp]
theorem setSub_setSub (state : BlkState) (subscriber : Subscriber) (old new : Option (List ℤ)) :
    (state.setSub subscriber old).setSub subscriber new = state.setSub subscriber new := by
  simp [setSub]

@[simp]
theorem setTxCommit_setTxCommit (state : BlkState) (job : ℕ) (old new : TxCommit) :
    (state.setTxCommit job old).setTxCommit job new = state.setTxCommit job new := by
  simp [setTxCommit]

theorem setTxCommit_setWorker (state : BlkState) (id job : ℕ) (worker : Worker) (commit : TxCommit) :
    (state.setWorker id worker).setTxCommit job commit = (state.setTxCommit job commit).setWorker id worker := rfl

theorem setSub_setWorker (state : BlkState) (id : ℕ) (subscriber : Subscriber) (worker : Worker)
    (buffer : Option (List ℤ)) : (state.setWorker id worker).setSub subscriber buffer =
      (state.setSub subscriber buffer).setWorker id worker := rfl

/-- No worker has a job or a subscription. -/
structure Quiet (state : BlkState) : Prop where
  idle : ∀ id, state.workers id = .idle
  unsubscribed : ∀ id, state.subs (.worker id) = none

theorem setWorker_eq_self {id : ℕ} {worker : Worker} (at_worker : state.workers id = worker) :
    state.setWorker id worker = state := by
  rw [setWorker, ← at_worker, Function.update_eq_self]

theorem setSub_eq_self {subscriber : Subscriber} {buffer : Option (List ℤ)}
    (present : state.subs subscriber = buffer) : state.setSub subscriber buffer = state := by
  rw [setSub, ← present, Function.update_eq_self]

theorem unlocked_setWorker (unlocked : state.Unlocked env) {id : ℕ} {worker : Worker}
    (calm : ∀ event left, worker ≠ .emitting event left) : (state.setWorker id worker).Unlocked env := by
  intro other other_lt event left
  by_cases same : other = id
  · subst same
    rw [setWorker_workers]
    exact calm event left
  · rw [setWorker_workers_of_ne _ same]
    exact unlocked other other_lt event left

theorem Quiet.unlocked (quiet : state.Quiet) : state.Unlocked env := by
  intro id _ event left
  simp [quiet.idle id]

theorem Quiet.setSub_main (quiet : state.Quiet) (buffer : Option (List ℤ)) : (state.setSub .main buffer).Quiet where
  idle := quiet.idle
  unsubscribed id := by simpa [setSub] using quiet.unsubscribed id

end BlkState

open BlkState

section Worker

variable {id job : ℕ} {tx : Transaction} (id_lt : id < env.concurrentLimit)
  (job_tx : env.txs[job]? = some tx)
include id_lt

theorem run_subscribe (unlocked : state.Unlocked env) (exe : TxExecutor) :
    ReflTransGen (BlkStep env) (state.setWorker id (.ready .executed job exe))
      ((state.setSub (.worker id) (some [])).setWorker id
        (.ready (if state.mergeIdx = job then .leaving else .waiting) job exe)) := by
  let subscribed := state.setSub (.worker id) (some [])
  have subscribe : BlkStep env (state.setWorker id (.ready .executed job exe))
      (subscribed.setWorker id (.ready .subscribed job exe)) := by
    have step := BlkStep.subscribe id_lt (state.setWorker_workers id (.ready .executed job exe))
      (unlocked_setWorker unlocked (by simp))
    rwa [setSub_setWorker, setWorker_setWorker] at step
  have load : BlkStep env (subscribed.setWorker id (.ready .subscribed job exe))
      (subscribed.setWorker id (.ready (if state.mergeIdx = job then .leaving else .waiting) job exe)) := by
    have step : BlkStep env _ _ := .load id_lt
      (subscribed.setWorker_workers id (.ready .subscribed job exe))
    rwa [setWorker_setWorker] at step
  exact (ReflTransGen.single subscribe).tail load

theorem run_wait (unlocked : state.Unlocked env) (unsubscribed : state.subs (.worker id) = none)
    (next : state.mergeIdx = job) (exe : TxExecutor) :
    ReflTransGen (BlkStep env) (state.setWorker id (.ready .executed job exe))
      (state.setWorker id (.ready .checking job exe)) := by
  let subscribed := state.setSub (.worker id) (some [])
  have loaded : ReflTransGen (BlkStep env) (state.setWorker id (.ready .executed job exe))
      (subscribed.setWorker id (.ready (if state.mergeIdx = job then .leaving else .waiting) job exe)) :=
    run_subscribe id_lt unlocked exe
  rw [if_pos next] at loaded
  have unsubscribe : BlkStep env (subscribed.setWorker id (.ready .leaving job exe))
      (state.setWorker id (.ready .checking job exe)) := by
    have step := BlkStep.unsubscribe id_lt
      (subscribed.setWorker_workers id (.ready .leaving job exe))
      (unlocked_setWorker unlocked (by simp))
    rwa [setSub_setWorker, setWorker_setWorker, setSub_setSub, setSub_eq_self unsubscribed] at step
  exact loaded.tail unsubscribe

omit id_lt in
theorem run_iterate (state : BlkState) (worker : TxExecutor → Worker) (next : TxExecutor → TxExecutor)
    (moves : ∀ exe, BlkStep env (state.setWorker id (worker exe))
      ((state.setWorker id (worker exe)).setWorker id (worker (next exe)))) (exe : TxExecutor) (steps : ℕ) :
    ReflTransGen (BlkStep env) (state.setWorker id (worker exe)) (state.setWorker id (worker (next^[steps] exe))) := by
  induction steps with
  | zero => exact .refl
  | succ steps ih =>
      have step := moves (next^[steps] exe)
      rw [setWorker_setWorker, ← Function.iterate_succ_apply' next] at step
      exact ih.tail step

include job_tx

theorem run_commit {exe : TxExecutor} {error : String}
    (completes : Completes env.toBlockEnv tx state.rootTrk exe error) :
    ReflTransGen (BlkStep env) (state.setWorker id (.executing job newTxExecutor))
      ((state.setTxCommit job (TxExecutor.txCommit env.toBlockEnv tx error)).setWorker id
        (.ready .executed job exe)) := by
  obtain ⟨txTrk, stage⟩ := exe
  obtain ⟨rfl, steps, exe_eq⟩ := completes
  have execute := run_iterate state (Worker.executing job) (TxExecutor.step env.toBlockEnv tx state.rootTrk.trk)
    (fun exe => .execute id_lt (state.setWorker_workers id (.executing job exe)) job_tx) newTxExecutor steps
  rw [← exe_eq] at execute
  have step := BlkStep.commit id_lt
    (state.setWorker_workers id (.executing job ⟨txTrk, .finished error⟩)) job_tx
  rw [setTxCommit_setWorker, setWorker_setWorker] at step
  exact execute.tail step

/-- `executeTxAndMerge` up to the check of the error, when the transaction is the next one. -/
theorem run_settle (unlocked : state.Unlocked env) (unsubscribed : state.subs (.worker id) = none)
    (next : state.mergeIdx = job) {exe : TxExecutor} {error : String}
    (completes : Completes env.toBlockEnv tx state.rootTrk exe error) :
    ReflTransGen (BlkStep env) (state.setWorker id (.executing job newTxExecutor))
      ((state.setTxCommit job (TxExecutor.txCommit env.toBlockEnv tx error)).setWorker id (.settling job exe)) := by
  let stored := state.setTxCommit job (TxExecutor.txCommit env.toBlockEnv tx error)
  have commit := run_commit id_lt job_tx completes
  have stored_unlocked : stored.Unlocked env := unlocked
  have waited := commit.trans (run_wait id_lt stored_unlocked unsubscribed next exe)
  have check : BlkStep env _ _ := .check id_lt
    (stored.setWorker_workers id (.ready .checking job exe))
  rw [setWorker_setWorker] at check
  split at check
  · -- an earlier transaction changed a dependency: the second execution ends as the first one
    obtain ⟨txTrk, stage⟩ := exe
    obtain ⟨rfl, steps, exe_eq⟩ := completes
    have reexecute := run_iterate stored (Worker.reexecuting job) (TxExecutor.step env.toBlockEnv tx stored.rootTrk.trk)
      (fun exe => .reexecute id_lt (stored.setWorker_workers id (.reexecuting job exe)) job_tx) newTxExecutor steps
    have exe_eq' : (TxExecutor.step env.toBlockEnv tx stored.rootTrk.trk)^[steps] newTxExecutor =
        ⟨txTrk, .finished error⟩ := exe_eq.symm
    rw [exe_eq'] at reexecute
    have recommit : BlkStep env (stored.setWorker id (.reexecuting job ⟨txTrk, .finished error⟩))
        (stored.setWorker id (.settling job ⟨txTrk, .finished error⟩)) := by
      have step := BlkStep.recommit id_lt
        (stored.setWorker_workers id (.reexecuting job ⟨txTrk, .finished error⟩)) job_tx
      rwa [setTxCommit_setWorker, setWorker_setWorker, setTxCommit_setTxCommit] at step
    exact ((waited.tail check).trans reexecute).tail recommit
  · exact waited.tail check

omit job_tx

theorem run_emit (event : ℤ) {left : List Subscriber} (nodup : left.Nodup) (state : BlkState) :
    ReflTransGen (BlkStep env) (state.setWorker id (.emitting event left))
      ({ state with subs := fun subscriber => if subscriber ∈ left then
          (state.subs subscriber).map (offer (bufferSize env subscriber) event)
        else state.subs subscriber }.setWorker id (.emitting event [])) := by
  induction left generalizing state with
  | nil =>
      simp only [List.not_mem_nil, if_false]
      exact .refl
  | cons first left ih =>
      obtain ⟨absent, nodup⟩ := List.nodup_cons.mp nodup
      have step : BlkStep env _ _ := .emit id_lt
        (state.setWorker_workers id (.emitting event (first :: left))) List.mem_cons_self
      rw [List.erase_cons_head, setSub_setWorker, setWorker_setWorker] at step
      have rest := ih nodup (state.setSub first ((state.subs first).map (offer (bufferSize env first) event)))
      have same : (fun subscriber => if subscriber ∈ left then
            ((state.setSub first ((state.subs first).map (offer (bufferSize env first) event))).subs
              subscriber).map (offer (bufferSize env subscriber) event)
          else (state.setSub first ((state.subs first).map (offer (bufferSize env first) event))).subs
            subscriber) =
          fun subscriber => if subscriber ∈ first :: left then
            (state.subs subscriber).map (offer (bufferSize env subscriber) event)
          else state.subs subscriber := by
        funext subscriber
        by_cases head : subscriber = first
        · subst head
          simp [absent, setSub]
        · simp [head, setSub]
      rw [same] at rest
      exact rest.head step

theorem run_merge {left : List Subscriber} (nodup : left.Nodup)
    (present : ∀ subscriber, subscriber ∈ left ↔ state.subs subscriber ≠ none) {commit : TxCommit}
    (stored : state.txCommits[job]? = some (some commit)) (exe : TxExecutor) :
    ReflTransGen (BlkStep env) (state.setWorker id (.settling job exe))
      ({ state with
        subs := fun subscriber => (state.subs subscriber).map
          (offer (bufferSize env subscriber) (addInt32 state.mergeIdx))
        rootTrk := rootAfter state.rootTrk exe commit.error
        mergeIdx := addInt32 state.mergeIdx }.setWorker id .idle) := by
  let event := addInt32 state.mergeIdx
  let merged := { state with rootTrk := rootAfter state.rootTrk exe commit.error }
  let counted := { merged with mergeIdx := event }
  have merge : BlkStep env (state.setWorker id (.settling job exe))
      (merged.setWorker id (.increasing job)) := by
    have step := BlkStep.merge id_lt (state.setWorker_workers id (.settling job exe)) stored
    rwa [setWorker_setWorker] at step
  have increase : BlkStep env (merged.setWorker id (.increasing job))
      (counted.setWorker id (.increased event)) := by
    have step : BlkStep env _ _ := .increase id_lt
      (merged.setWorker_workers id (.increasing job))
    rwa [setWorker_setWorker] at step
  have lock : BlkStep env (counted.setWorker id (.increased event))
      (counted.setWorker id (.emitting event left)) := by
    have step := BlkStep.lock id_lt (counted.setWorker_workers id (.increased event)) nodup present
    rwa [setWorker_setWorker] at step
  have emit := run_emit id_lt event nodup counted
  have told : (fun subscriber => if subscriber ∈ left then
        (counted.subs subscriber).map (offer (bufferSize env subscriber) event)
      else counted.subs subscriber) =
      fun subscriber => (state.subs subscriber).map (offer (bufferSize env subscriber) event) := by
    funext subscriber
    split
    · rfl
    · next absent =>
      have unsubscribed : state.subs subscriber = none := not_not.mp (absent ∘ (present subscriber).mpr)
      rw [unsubscribed]
      rfl
  rw [told] at emit
  let heard := { counted with subs := fun subscriber =>
    (state.subs subscriber).map (offer (bufferSize env subscriber) event) }
  have unlock : BlkStep env (heard.setWorker id (.emitting event [])) (heard.setWorker id .idle) := by
    have step : BlkStep env _ _ := .unlock id_lt (heard.setWorker_workers id (.emitting event []))
    rwa [setWorker_setWorker] at step
  exact ((((ReflTransGen.single merge).tail increase).tail lock).trans emit).tail unlock

end Worker

/-! ## One transaction after another -/

/-- Between two transactions. -/
structure AtRest (env : BlkEnv) (state : BlkState) (next : ℕ) : Prop extends state.Quiet where
  main_eq : state.main = .sending next
  jobCh_eq : state.jobCh = []
  mergeIdx_eq : state.mergeIdx = next
  length_eq : state.txCommits.length = env.txs.length
  events_eq : state.subs .main = some ((List.range' 1 next).map Nat.cast)

theorem atRest_initial (nonempty : env.txs.length ≠ 0) : AtRest env (BlkState.initial env) 0 where
  idle _ := rfl
  unsubscribed _ := rfl
  main_eq := if_neg nonempty
  jobCh_eq := rfl
  mergeIdx_eq := rfl
  length_eq := List.length_replicate
  events_eq := rfl

/-- The main routine sends the next transaction and the first worker merges it. -/
theorem AtRest.run {job : ℕ} (rest : AtRest env state job) (limit_pos : 0 < env.concurrentLimit)
    (small : env.txs.length < 2 ^ 31) {tx : Transaction} (job_tx : env.txs[job]? = some tx)
    {exe : TxExecutor} {error : String} (completes : Completes env.toBlockEnv tx state.rootTrk exe error) :
    ∃ state', ReflTransGen (BlkStep env) state state' ∧ AtRest env state' (job + 1) ∧
      state'.rootTrk = rootAfter state.rootTrk exe error := by
  have job_lt : job < env.txs.length := (List.getElem?_eq_some_iff.mp job_tx).1
  let sent := { state with main := .sending (job + 1), jobCh := [job] }
  let working := { sent with jobCh := [] }
  have send : BlkStep env state sent := by
    have step : BlkStep env _ _ := .send rest.main_eq job_lt (by rw [rest.jobCh_eq]; exact limit_pos)
    rwa [rest.jobCh_eq] at step
  have take : BlkStep env sent (working.setWorker 0 (.executing job newTxExecutor)) :=
    .take limit_pos (rest.idle 0) rfl
  have working_quiet : working.Quiet := ⟨rest.idle, rest.unsubscribed⟩
  have settle := run_settle limit_pos job_tx working_quiet.unlocked (rest.unsubscribed 0) rest.mergeIdx_eq
    completes
  let stored := working.setTxCommit job (TxExecutor.txCommit env.toBlockEnv tx error)
  have stored_commit : stored.txCommits[job]? =
      some (some (TxExecutor.txCommit env.toBlockEnv tx error)) :=
    List.getElem?_set_self (rest.length_eq ▸ job_lt)
  have present : ∀ subscriber, subscriber ∈ [Subscriber.main] ↔ stored.subs subscriber ≠ none := by
    have subs_eq : stored.subs = state.subs := rfl
    intro subscriber
    cases subscriber with
    | main => simp [subs_eq, rest.events_eq]
    | worker id => simp [subs_eq, rest.unsubscribed]
  have merge := run_merge limit_pos (List.nodup_singleton _) present stored_commit exe
  have counted : addInt32 state.mergeIdx = (job + 1 : ℕ) := by
    rw [rest.mergeIdx_eq, addInt32, Int.bmod_def]
    omega
  refine ⟨_, (((ReflTransGen.single send).tail take).trans settle).trans merge, ?_, rfl⟩
  exact {
    idle := fun id => by
      by_cases first : id = 0
      · simp [first]
      · exact (Function.update_of_ne first _ _).trans (rest.idle id)
    unsubscribed := fun id => congrArg (Option.map _) (rest.unsubscribed id)
    main_eq := rfl
    jobCh_eq := rfl
    mergeIdx_eq := counted
    length_eq := List.length_set.trans rest.length_eq
    events_eq := by
      refine (congrArg (Option.map _) rest.events_eq).trans ?_
      rw [Option.map_some, offer, if_pos (by simpa [bufferSize] using job_lt), List.range'_concat,
        List.map_append]
      exact congrArg (fun event : ℤ => some (_ ++ [event])) (counted.trans (by push_cast; ring)) }

theorem Sequential.run {txs : List Transaction} {root : RootTracker} {commits : List TxCommit}
    (sequential : Sequential env.toBlockEnv txs root commits) (first : txs <+: env.txs)
    (nonempty : env.txs.length ≠ 0) (limit_pos : 0 < env.concurrentLimit) (small : env.txs.length < 2 ^ 31) :
    ∃ state, BlkRun env state ∧ AtRest env state txs.length ∧ state.rootTrk = root := by
  induction sequential with
  | nil => exact ⟨BlkState.initial env, .refl, atRest_initial nonempty, rfl⟩
  | @snoc txs root commits tx exe error _ completes ih =>
      obtain ⟨state, run, rest, rfl⟩ := ih ((List.prefix_append txs [tx]).trans first)
      have job_tx : env.txs[txs.length]? = some tx := by
        obtain ⟨later, txs_eq⟩ := first
        simp [← txs_eq]
      obtain ⟨state', more, rest', root_eq⟩ := rest.run limit_pos small job_tx completes
      exact ⟨state', run.trans more, by simpa using rest', root_eq⟩

theorem run_receive (env : BlkEnv) (later first : ℕ) (last : first + later = env.txs.length)
    (state : BlkState) (quiet : state.Quiet) (at_main : state.main = .receiving)
    (events_eq : state.subs .main = some ((List.range' first (later + 1)).map Nat.cast)) :
    ∃ state', ReflTransGen (BlkStep env) state state' ∧ state'.Quiet ∧ state'.main = .leaving := by
  induction later generalizing first state with
  | zero =>
      have step : BlkStep env _ _ := .receive at_main events_eq
      have drained := quiet.setSub_main (some ((List.range' (first + 1) 0).map Nat.cast))
      exact ⟨_, .single step, ⟨drained.idle, drained.unsubscribed⟩, if_pos (by simp [← last])⟩
  | succ later ih =>
      let drained := state.setSub .main (some ((List.range' (first + 1) (later + 1)).map Nat.cast))
      have step : BlkStep env state { drained with main := .receiving } := by
        have step : BlkStep env _ _ := .receive at_main events_eq
        rwa [if_neg (by omega)] at step
      have drained_quiet : drained.Quiet := quiet.setSub_main _
      obtain ⟨state', run, ended⟩ := ih (first + 1) (by omega) { drained with main := .receiving }
        ⟨drained_quiet.idle, drained_quiet.unsubscribed⟩ rfl (by simp [drained, setSub])
      exact ⟨state', .head step run, ended⟩

theorem exists_returned (limit_pos : 0 < env.concurrentLimit) (small : env.txs.length < 2 ^ 31)
    {root : RootTracker} {commits : List TxCommit} (sequential : Sequential env.toBlockEnv env.txs root commits) :
    ∃ state, BlkRun env state ∧ state.main = .returned := by
  by_cases empty : env.txs.length = 0
  · exact ⟨BlkState.initial env, .refl, if_pos empty⟩
  · obtain ⟨state, run, rest, -⟩ :=
      sequential.run (List.prefix_refl _) empty limit_pos small
    have sent : BlkStep env state { state with main := .receiving } := .sent rest.main_eq
    obtain ⟨drained, receives, quiet, at_main⟩ := run_receive env (env.txs.length - 1) 1 (by omega)
      { state with main := .receiving } ⟨rest.idle, rest.unsubscribed⟩ rfl
      (by rw [Nat.sub_add_cancel (by omega)]; exact rest.events_eq)
    have unlocked : drained.Unlocked env := by
      intro id _ event left
      simp [quiet.idle id]
    exact ⟨_, ((run.tail sent).trans receives).tail (.unsubscribeMain at_main unlocked), rfl⟩

end SvpChain.Execution
