import SvpChain.Execution.Schedule

/-!
# Parallel execution is serializable

In every reachable state the root tracker and the first commits are those of executing a number of
transactions in list order.  A worker merges only when its transaction is the next one, and every
speculative execution that is still under way either is one on the present root tracker or has a
recorded dependency that the root tracker has changed.
-/

namespace SvpChain.Execution

open Core

/-! ## The invariant -/

namespace Worker

/-- The transaction that a worker still has to merge. -/
def job : Worker → Option ℕ
  | idle | increased _ | emitting _ _ => none
  | executing job _ | ready _ job _ | reexecuting job _ | settling job _ | increasing job => some job

/-- The worker has seen that its transaction is the next one. -/
def HasTurn : Worker → Prop
  | ready phase _ _ => phase = .leaving ∨ phase = .checking
  | reexecuting _ _ | settling _ _ | increasing _ => True
  | _ => False

end Worker

/-- An event that was emitted when at most `count` transactions were merged. -/
def EventOk (count : ℕ) (event : ℤ) : Prop := ∃ earlier ≤ count, event = Int.bmod earlier (2 ^ 32)

/-- What is known of the execution that a worker holds. -/
def WorkerOk (env : BlkEnv) (root : RootTracker) (txCommits : List (Option TxCommit)) (count : ℕ) :
    Worker → Prop
  | .idle | .increasing _ => True
  | .executing job exe => ∃ tx, env.txs[job]? = some tx ∧
      (TxExecutor.speculation env.toBlockEnv tx).Tracks root newTxExecutor exe
  | .ready _ job exe => ∃ tx error, env.txs[job]? = some tx ∧
      (TxExecutor.speculation env.toBlockEnv tx).Tracks root newTxExecutor exe ∧
      exe.stage = .finished error ∧
      txCommits[job]? = some (some (TxExecutor.txCommit env.toBlockEnv tx error))
  | .reexecuting job exe => ∃ tx, env.txs[job]? = some tx ∧
      ∃ steps, exe = (TxExecutor.step env.toBlockEnv tx root.trk)^[steps] newTxExecutor
  | .settling job exe => ∃ tx error, env.txs[job]? = some tx ∧
      Completes env.toBlockEnv tx root exe error ∧
      txCommits[job]? = some (some (TxExecutor.txCommit env.toBlockEnv tx error))
  | .increased event | .emitting event _ => EventOk count event

/-- The number of transactions sent to the workers. -/
def Main.sent (env : BlkEnv) : Main → ℕ
  | .sending next => next
  | _ => env.txs.length

/-- In a reachable state `merged` transactions are merged in list order, `count` of them counted by
the merge index, and `taken` of them taken by a worker. -/
structure BlkInv (env : BlkEnv) (state : BlkState) (count merged taken : ℕ)
    (commits : List TxCommit) : Prop where
  mergeIdx_eq : state.mergeIdx = Int.bmod count (2 ^ 32)
  count_le : count ≤ 2 ^ 31
  count_le_merged : count ≤ merged
  merged_le_succ : merged ≤ count + 1
  increasing_of_lt : count < merged → ∃ id, state.workers id = .increasing count
  merged_of_increasing : ∀ id job, state.workers id = .increasing job → merged = count + 1
  merged_le_taken : merged ≤ taken
  jobCh_eq : state.jobCh = List.range' taken (state.main.sent env - taken)
  taken_le : taken ≤ state.main.sent env
  sent_le : state.main.sent env ≤ env.txs.length
  held : ∀ id job, (state.workers id).job = some job → count ≤ job ∧ job < taken
  distinct : ∀ id id' job, (state.workers id).job = some job →
    (state.workers id').job = some job → id = id'
  turn : ∀ id, (state.workers id).HasTurn →
    (state.workers id).job = some count ∧ count < 2 ^ 31
  sequential : Sequential env.toBlockEnv (env.txs.take merged) state.rootTrk commits
  length_eq : state.txCommits.length = env.txs.length
  stored : state.txCommits.take merged = commits.map some
  workers_ok : ∀ id, WorkerOk env state.rootTrk state.txCommits count (state.workers id)
  events_ok : ∀ subscriber buffer, state.subs subscriber = some buffer →
    ∀ event ∈ buffer, EventOk count event
  ended : state.main = .leaving ∨ state.main = .returned → env.txs.length ≤ count

variable {env : BlkEnv} {state : BlkState} {count merged taken : ℕ} {commits : List TxCommit}

theorem BlkInv.initial (env : BlkEnv) : BlkInv env (BlkState.initial env) 0 0 0 [] where
  mergeIdx_eq := rfl
  count_le := by omega
  count_le_merged := le_rfl
  merged_le_succ := by omega
  increasing_of_lt absurd := by omega
  merged_of_increasing _ _ absurd := by cases absurd
  merged_le_taken := le_rfl
  jobCh_eq := by
    by_cases empty : env.txs.length = 0 <;> simp [BlkState.initial, Main.sent, empty]
  taken_le := Nat.zero_le _
  sent_le := by
    by_cases empty : env.txs.length = 0 <;> simp [BlkState.initial, Main.sent, empty]
  held _ _ absurd := by cases absurd
  distinct _ _ _ absurd := by cases absurd
  turn _ absurd := absurd.elim
  sequential := .nil
  length_eq := List.length_replicate
  stored := rfl
  workers_ok _ := trivial
  events_ok subscriber buffer present := by
    by_cases main : subscriber = .main
    · simp only [BlkState.initial, if_pos main, Option.some.injEq] at present
      simp [← present]
    · simp [BlkState.initial, main] at present
  ended at_main := by
    by_cases empty : env.txs.length = 0
    · omega
    · simp [BlkState.initial, empty] at at_main

/-- A merge index or an event tells the transaction that is next. -/
theorem eq_of_bmod_eq {count job : ℕ} (count_le : count ≤ 2 ^ 31)
    (equal : Int.bmod count (2 ^ 32) = job) : count = job ∧ count < 2 ^ 31 := by
  rw [Int.bmod_def] at equal
  split at equal <;> omega

theorem EventOk.mono {later : ℕ} {event : ℤ} (ok : EventOk count event) (later_ge : count ≤ later) :
    EventOk later event := by
  obtain ⟨earlier, earlier_le, event_eq⟩ := ok
  exact ⟨earlier, earlier_le.trans later_ge, event_eq⟩

/-! ## Steps of one worker -/

theorem BlkInv.merged_le_job (inv : BlkInv env state count merged taken commits) {id job : ℕ}
    (has_job : (state.workers id).job = some job)
    (unmerged : ∀ job, state.workers id ≠ .increasing job) : merged ≤ job := by
  have count_le_job := (inv.held id job has_job).1
  by_contra job_lt
  have same_count : job = count := by
    have := inv.merged_le_succ
    omega
  subst same_count
  obtain ⟨other, other_eq⟩ := inv.increasing_of_lt (by omega)
  have same : other = id := inv.distinct other id job (by rw [other_eq]; rfl) has_job
  exact unmerged job (same ▸ other_eq)

theorem job_update {id : ℕ} {worker old : Worker} (at_worker : state.workers id = old)
    (same : worker.job = old.job) (other : ℕ) :
    (Function.update state.workers id worker other).job = (state.workers other).job := by
  by_cases own : other = id
  · subst own
    rw [Function.update_self, same, at_worker]
  · rw [Function.update_of_ne own]

theorem BlkInv.ok_at (inv : BlkInv env state count merged taken commits) {id : ℕ} {worker : Worker}
    (at_worker : state.workers id = worker) : WorkerOk env state.rootTrk state.txCommits count worker :=
  at_worker ▸ inv.workers_ok id

/-- A worker moves on without touching the root tracker, the commits or the merge index. -/
theorem BlkInv.move (inv : BlkInv env state count merged taken commits) {id : ℕ} {old : Worker}
    (at_worker : state.workers id = old) (worker : Worker) (job_eq : worker.job = old.job)
    (calm : ∀ job, old ≠ .increasing job ∧ worker ≠ .increasing job)
    (turn : worker.HasTurn → worker.job = some count ∧ count < 2 ^ 31)
    (ok : WorkerOk env state.rootTrk state.txCommits count worker)
    {subs : Subscriber → Option (List ℤ)}
    (events_ok : ∀ subscriber buffer, subs subscriber = some buffer →
      ∀ event ∈ buffer, EventOk count event) :
    BlkInv env { state with workers := Function.update state.workers id worker, subs := subs }
      count merged taken commits := by
  have job_at := job_update at_worker job_eq
  exact { inv with
    increasing_of_lt := fun lt => by
      obtain ⟨other, other_eq⟩ := inv.increasing_of_lt lt
      have different : other ≠ id := by
        rintro rfl
        exact (calm _).1 (at_worker.symm.trans other_eq)
      exact ⟨other, (Function.update_of_ne different _ _).trans other_eq⟩
    merged_of_increasing := (Function.forall_update_iff _ fun _ (worker : Worker) =>
      ∀ job, worker = .increasing job → merged = count + 1).mpr
        ⟨fun job increasing => absurd increasing (calm job).2, fun other _ => inv.merged_of_increasing other⟩
    held := fun other job has_job => inv.held other job (job_at other ▸ has_job)
    distinct := fun left right job left_eq right_eq =>
      inv.distinct left right job (job_at left ▸ left_eq) (job_at right ▸ right_eq)
    turn := (Function.forall_update_iff _ fun _ (worker : Worker) =>
      worker.HasTurn → worker.job = some count ∧ count < 2 ^ 31).mpr ⟨turn, fun other _ => inv.turn other⟩
    workers_ok := (Function.forall_update_iff _ fun _ => WorkerOk env state.rootTrk state.txCommits count).mpr
      ⟨ok, fun other _ => inv.workers_ok other⟩
    events_ok := events_ok }

theorem BlkInv.setTxCommit (inv : BlkInv env state count merged taken commits) {id job : ℕ}
    (commit : TxCommit) (has_job : (state.workers id).job = some job)
    (unmerged : ∀ job, state.workers id ≠ .increasing job)
    (ok : WorkerOk env state.rootTrk (state.txCommits.set job (some commit)) count (state.workers id)) :
    BlkInv env (state.setTxCommit job commit) count merged taken commits :=
  { inv with
    length_eq := by
      rw [BlkState.setTxCommit, List.length_set]
      exact inv.length_eq
    stored := by
      rw [BlkState.setTxCommit, List.take_set_of_le (inv.merged_le_job has_job unmerged)]
      exact inv.stored
    workers_ok := fun other => by
      by_cases same : other = id
      · subst same
        exact ok
      · have other_ok := inv.workers_ok other
        have kept : ∀ otherJob, (state.workers other).job = some otherJob →
            (state.txCommits.set job (some commit))[otherJob]? = state.txCommits[otherJob]? := by
          intro otherJob other_job
          apply List.getElem?_set_ne
          rintro rfl
          exact same (inv.distinct other id _ other_job has_job)
        simp only [BlkState.setTxCommit]
        cases worker_eq : state.workers other with
        | ready phase otherJob exe =>
            rw [worker_eq] at other_ok kept
            simp only [WorkerOk, kept otherJob rfl]
            exact other_ok
        | settling otherJob exe =>
            rw [worker_eq] at other_ok kept
            simp only [WorkerOk, kept otherJob rfl]
            exact other_ok
        | _ =>
            rw [worker_eq] at other_ok
            exact other_ok }

theorem WorkerOk.grow {root root' : RootTracker} {txCommits : List (Option TxCommit)}
    {worker : Worker} (ok : WorkerOk env root txCommits count worker)
    (grows : root.changed ⊆ root'.changed) (waits : ¬ worker.HasTurn) : WorkerOk env root' txCommits count worker := by
  cases worker with
  | executing job exe =>
      obtain ⟨tx, job_tx, tracks⟩ := ok
      exact ⟨tx, job_tx, tracks.grow TxExecutor.recording_new grows⟩
  | ready phase job exe =>
      obtain ⟨tx, error, job_tx, tracks, rest⟩ := ok
      exact ⟨tx, error, job_tx, tracks.grow TxExecutor.recording_new grows, rest⟩
  | reexecuting job exe => exact absurd trivial waits
  | settling job exe => exact absurd trivial waits
  | _ => exact ok

theorem WorkerOk.count_mono {root : RootTracker} {txCommits : List (Option TxCommit)}
    {worker : Worker} (ok : WorkerOk env root txCommits count worker) {later : ℕ}
    (later_ge : count ≤ later) : WorkerOk env root txCommits later worker := by
  cases worker with
  | increased event => exact EventOk.mono ok later_ge
  | emitting event left => exact EventOk.mono ok later_ge
  | _ => exact ok

theorem BlkInv.merge (inv : BlkInv env state count merged taken commits) {id job : ℕ}
    {exe : TxExecutor} {commit : TxCommit} (at_worker : state.workers id = .settling job exe)
    (stored : state.txCommits[job]? = some (some commit)) :
    BlkInv env { state.setWorker id (.increasing job) with
        rootTrk := if commit.error = "" then state.rootTrk.merge exe.txTrk else state.rootTrk }
      count (count + 1) taken (commits ++ [commit]) := by
  obtain ⟨tx, error, job_tx, completes, own_commit⟩ := inv.ok_at at_worker
  have commit_eq : commit = TxExecutor.txCommit env.toBlockEnv tx error := by
    rw [stored] at own_commit
    simpa using own_commit
  have has_job : (state.workers id).job = some job := by rw [at_worker]; rfl
  obtain ⟨turn_job, count_lt⟩ := inv.turn id (by rw [at_worker]; trivial)
  obtain rfl : job = count := Option.some.inj (has_job.symm.trans turn_job)
  have merged_eq : merged = job := by
    have := inv.merged_le_job has_job (by rw [at_worker]; simp)
    have := inv.count_le_merged
    omega
  subst merged_eq
  have only : ∀ other, (state.workers other).HasTurn → other = id := fun other has_turn =>
    inv.distinct other id merged (inv.turn other has_turn).1 has_job
  have grows : state.rootTrk.changed ⊆
      (if commit.error = "" then state.rootTrk.merge exe.txTrk else state.rootTrk).changed := by
    split
    · exact RootTracker.changed_merge _ _
    · exact fun _ changed => changed
  have job_at := @job_update state id (.increasing merged) _ at_worker rfl
  exact { inv with
    count_le_merged := by omega
    merged_le_succ := le_rfl
    increasing_of_lt := fun _ => ⟨id, Function.update_self _ _ _⟩
    merged_of_increasing := fun _ _ _ => rfl
    merged_le_taken := (inv.held id merged has_job).2
    held := fun other otherJob other_job => inv.held other otherJob (job_at other ▸ other_job)
    distinct := fun left right otherJob left_eq right_eq =>
      inv.distinct left right otherJob (job_at left ▸ left_eq) (job_at right ▸ right_eq)
    turn := fun other has_turn => by
      have same : other = id := by
        by_contra different
        apply different
        apply only
        simpa [BlkState.setWorker, Function.update_of_ne different] using has_turn
      subst same
      simp only [BlkState.setWorker, Function.update_self]
      exact ⟨rfl, count_lt⟩
    sequential := by
      have error_eq : commit.error = error := by rw [commit_eq]; rfl
      have taken_eq : env.txs.take (merged + 1) = env.txs.take merged ++ [tx] := by
        rw [List.take_add_one, job_tx]
        rfl
      rw [taken_eq, commit_eq]
      exact inv.sequential.snoc completes
    stored := by
      simp only [BlkState.setWorker]
      rw [List.take_add_one, stored, inv.stored, List.map_append]
      rfl
    workers_ok := (Function.forall_update_iff _ fun _ => WorkerOk env _ state.txCommits merged).mpr
      ⟨trivial, fun other different =>
        (inv.workers_ok other).grow grows fun has_turn => different (only other has_turn)⟩ }

theorem addInt32_bmod (count : ℕ) : addInt32 (Int.bmod count (2 ^ 32)) = Int.bmod (count + 1 : ℕ) (2 ^ 32) := by
  rw [addInt32, Int.bmod_add_bmod, Nat.cast_add_one]

theorem BlkInv.increase (inv : BlkInv env state count merged taken commits) {id job : ℕ}
    (at_worker : state.workers id = .increasing job) :
    BlkInv env { state.setWorker id (.increased (addInt32 state.mergeIdx)) with
        mergeIdx := addInt32 state.mergeIdx } (count + 1) merged taken commits := by
  have has_job : (state.workers id).job = some job := by rw [at_worker]; rfl
  obtain ⟨turn_job, count_lt⟩ := inv.turn id (by rw [at_worker]; trivial)
  obtain rfl : job = count := Option.some.inj (has_job.symm.trans turn_job)
  have merged_eq := inv.merged_of_increasing id job at_worker
  have event_eq : addInt32 state.mergeIdx = Int.bmod (job + 1 : ℕ) (2 ^ 32) := by
    rw [inv.mergeIdx_eq, addInt32_bmod]
  have only : ∀ other, (state.workers other).HasTurn → other = id := fun other has_turn =>
    inv.distinct other id job (inv.turn other has_turn).1 has_job
  have job_of : ∀ other otherJob, (Function.update state.workers id
      (.increased (addInt32 state.mergeIdx)) other).job = some otherJob →
        other ≠ id ∧ (state.workers other).job = some otherJob := by
    intro other otherJob other_job
    by_cases same : other = id
    · subst same
      rw [Function.update_self] at other_job
      cases other_job
    · rw [Function.update_of_ne same] at other_job
      exact ⟨same, other_job⟩
  have turn_of : ∀ other, ¬ (Function.update state.workers id
      (.increased (addInt32 state.mergeIdx)) other).HasTurn :=
    (Function.forall_update_iff _ fun _ (worker : Worker) => ¬ worker.HasTurn).mpr
      ⟨not_false, fun other different has_turn => different (only other has_turn)⟩
  exact { inv with
    mergeIdx_eq := event_eq
    count_le := count_lt
    count_le_merged := by omega
    merged_le_succ := by omega
    increasing_of_lt := fun lt => by omega
    merged_of_increasing := fun other otherJob other_eq => by
      simp only [BlkState.setWorker] at other_eq
      exact absurd (show Worker.HasTurn _ by rw [other_eq]; trivial) (turn_of other)
    held := fun other otherJob other_job => by
      obtain ⟨different, was_job⟩ := job_of other otherJob other_job
      obtain ⟨job_le, lt_taken⟩ := inv.held other otherJob was_job
      have other_ne : otherJob ≠ job := by
        rintro rfl
        exact different (inv.distinct other id _ was_job has_job)
      omega
    distinct := fun left right otherJob left_eq right_eq =>
      inv.distinct left right otherJob (job_of left otherJob left_eq).2
        (job_of right otherJob right_eq).2
    turn := fun other has_turn => absurd has_turn (turn_of other)
    workers_ok := (Function.forall_update_iff _ fun _ => WorkerOk env state.rootTrk state.txCommits (job + 1)).mpr
      ⟨⟨job + 1, le_rfl, event_eq⟩, fun other _ => (inv.workers_ok other).count_mono (Nat.le_succ job)⟩
    events_ok := fun subscriber buffer present event event_mem =>
      (inv.events_ok subscriber buffer present event event_mem).mono (Nat.le_succ job)
    ended := fun at_main => (inv.ended at_main).trans (Nat.le_succ job) }

theorem BlkInv.take (inv : BlkInv env state count merged taken commits) {id job : ℕ}
    {jobs : List ℕ} (at_worker : state.workers id = .idle) (queued : state.jobCh = job :: jobs) :
    BlkInv env { state.setWorker id (.executing job newTxExecutor) with jobCh := jobs }
      count merged (taken + 1) commits := by
  have more : taken < state.main.sent env := by
    by_contra none_left
    rw [inv.jobCh_eq, Nat.sub_eq_zero_of_le (not_lt.mp none_left)] at queued
    cases queued
  have split : List.range' taken (state.main.sent env - taken) =
      taken :: List.range' (taken + 1) (state.main.sent env - (taken + 1)) := by
    rw [show state.main.sent env - taken = state.main.sent env - (taken + 1) + 1 by omega]
    rfl
  obtain ⟨rfl, rfl⟩ : taken = job ∧ List.range' (taken + 1) (state.main.sent env - (taken + 1)) = jobs := by
    rw [inv.jobCh_eq, split] at queued
    exact List.cons.inj queued
  have sent_le := inv.sent_le
  have job_of : ∀ other otherJob, (Function.update state.workers id
      (.executing taken newTxExecutor) other).job = some otherJob →
        other = id ∧ otherJob = taken ∨ other ≠ id ∧ (state.workers other).job = some otherJob := by
    intro other otherJob other_job
    by_cases same : other = id
    · subst same
      rw [Function.update_self] at other_job
      exact Or.inl ⟨rfl, (Option.some.inj other_job).symm⟩
    · rw [Function.update_of_ne same] at other_job
      exact Or.inr ⟨same, other_job⟩
  exact { inv with
    increasing_of_lt := fun lt => by
      obtain ⟨other, other_eq⟩ := inv.increasing_of_lt lt
      have different : other ≠ id := by
        rintro rfl
        rw [at_worker] at other_eq
        cases other_eq
      exact ⟨other, (Function.update_of_ne different _ _).trans other_eq⟩
    merged_of_increasing := (Function.forall_update_iff _ fun _ (worker : Worker) =>
      ∀ job, worker = .increasing job → merged = count + 1).mpr
        ⟨fun _ increasing => (by cases increasing), fun other _ => inv.merged_of_increasing other⟩
    merged_le_taken := inv.merged_le_taken.trans (Nat.le_succ taken)
    jobCh_eq := rfl
    taken_le := more
    held := fun other otherJob other_job => by
      rcases job_of other otherJob other_job with ⟨-, rfl⟩ | ⟨-, was_job⟩
      · have := inv.count_le_merged
        have := inv.merged_le_taken
        omega
      · have := inv.held other otherJob was_job
        omega
    distinct := fun left right otherJob left_eq right_eq => by
      rcases job_of left otherJob left_eq with ⟨left_id, left_job⟩ | ⟨-, left_job⟩ <;>
        rcases job_of right otherJob right_eq with ⟨right_id, right_job⟩ | ⟨-, right_job⟩
      · exact left_id.trans right_id.symm
      · have := inv.held right _ right_job
        omega
      · have := inv.held left _ left_job
        omega
      · exact inv.distinct left right otherJob left_job right_job
    turn := (Function.forall_update_iff _ fun _ (worker : Worker) =>
      worker.HasTurn → worker.job = some count ∧ count < 2 ^ 31).mpr ⟨False.elim, fun other _ => inv.turn other⟩
    workers_ok := (Function.forall_update_iff _ fun _ => WorkerOk env state.rootTrk state.txCommits count).mpr
      ⟨⟨_, List.getElem?_eq_getElem (by omega), .refl TxExecutor.recording_new⟩, fun other _ => inv.workers_ok other⟩ }

theorem BlkInv.setMain (inv : BlkInv env state count merged taken commits) {main : Main}
    (sent_eq : main.sent env = state.main.sent env)
    (ended : main = .leaving ∨ main = .returned → env.txs.length ≤ count)
    {subs : Subscriber → Option (List ℤ)}
    (events_ok : ∀ subscriber buffer, subs subscriber = some buffer →
      ∀ event ∈ buffer, EventOk count event) :
    BlkInv env { state with main := main, subs := subs } count merged taken commits :=
  { inv with
    jobCh_eq := by
      rw [sent_eq]
      exact inv.jobCh_eq
    taken_le := sent_eq ▸ inv.taken_le
    sent_le := sent_eq ▸ inv.sent_le
    events_ok := events_ok
    ended := ended }

theorem BlkInv.events_ok_update (inv : BlkInv env state count merged taken commits)
    {subscriber : Subscriber} {value : Option (List ℤ)}
    (value_ok : ∀ buffer, value = some buffer → ∀ event ∈ buffer, EventOk count event) :
    ∀ other buffer, Function.update state.subs subscriber value other = some buffer →
      ∀ event ∈ buffer, EventOk count event := by
  intro other buffer present
  by_cases same : other = subscriber
  · subst same
    rw [Function.update_self] at present
    exact value_ok buffer present
  · rw [Function.update_of_ne same] at present
    exact inv.events_ok other buffer present

theorem BlkInv.step (inv : BlkInv env state count merged taken commits) {state' : BlkState}
    (step : BlkStep env state state') :
    ∃ count' merged' taken' commits', BlkInv env state' count' merged' taken' commits' := by
  cases step with
  | @send next at_main more room =>
      have sent_eq : state.main.sent env = next := by rw [at_main]; rfl
      have taken_le := inv.taken_le
      refine ⟨_, _, _, _, { inv with
        jobCh_eq := ?_
        taken_le := ?_
        sent_le := more
        ended := fun at_end => by simp at at_end }⟩
      · have extended : List.range' taken (next + 1 - taken) =
            List.range' taken (next - taken) ++ [next] := by
          rw [show next + 1 - taken = next - taken + 1 by omega, List.range'_concat]
          simp only [Nat.one_mul, List.append_cancel_left_eq, List.cons.injEq, and_true]
          omega
        simp only [Main.sent]
        rw [extended, inv.jobCh_eq, sent_eq]
      · simp only [Main.sent]
        omega
  | sent at_main =>
      refine ⟨_, _, _, _, inv.setMain ?_ (by simp) inv.events_ok⟩
      rw [at_main]
      rfl
  | @receive event buffer at_main buffered =>
      have event_ok := inv.events_ok .main _ buffered event List.mem_cons_self
      refine ⟨_, _, _, _, inv.setMain ?_ ?_ (inv.events_ok_update ?_)⟩
      · rw [at_main]
        split <;> rfl
      · intro at_end
        by_cases last : event = env.txs.length
        · obtain ⟨earlier, earlier_le, event_eq⟩ := event_ok
          rw [event_eq] at last
          have := (eq_of_bmod_eq (earlier_le.trans inv.count_le) last).1
          omega
        · simp [last] at at_end
      · intro rest rest_eq other other_mem
        obtain rfl := Option.some.inj rest_eq
        exact inv.events_ok .main _ buffered other (List.mem_cons_of_mem _ other_mem)
  | unsubscribeMain at_main unlocked =>
      refine ⟨_, _, _, _, inv.setMain ?_ ?_ (inv.events_ok_update ?_)⟩
      · rw [at_main]
        rfl
      · exact fun _ => inv.ended (Or.inl at_main)
      · exact fun _ absurd => by cases absurd
  | take id_lt at_worker queued => exact ⟨count, merged, taken + 1, commits, inv.take at_worker queued⟩
  | @execute id job exe tx id_lt at_worker job_tx =>
      obtain ⟨tx', job_tx', tracks⟩ := inv.ok_at at_worker
      obtain rfl := Option.some.inj (job_tx.symm.trans job_tx')
      exact ⟨_, _, _, _,
        inv.move at_worker (.executing job (exe.step env.toBlockEnv tx state.rootTrk.trk)) rfl
          (by simp) False.elim ⟨tx, job_tx, tracks.step⟩ inv.events_ok⟩
  | @commit id job txTrk error tx id_lt at_worker job_tx =>
      obtain ⟨tx', job_tx', tracks⟩ := inv.ok_at at_worker
      obtain rfl := Option.some.inj (job_tx.symm.trans job_tx')
      have job_lt : job < state.txCommits.length := by
        rw [inv.length_eq]
        exact (List.getElem?_eq_some_iff.mp job_tx).1
      have stored := inv.setTxCommit (TxExecutor.txCommit env.toBlockEnv tx error)
        (by rw [at_worker]; rfl) (by simp [at_worker]) (by rw [at_worker]; exact ⟨tx, job_tx, tracks⟩)
      exact ⟨_, _, _, _,
        stored.move at_worker (.ready .executed job ⟨txTrk, .finished error⟩) rfl (by simp)
          (by simp [Worker.HasTurn])
          ⟨tx, error, job_tx, tracks, rfl, List.getElem?_set_self job_lt⟩ stored.events_ok⟩
  | @subscribe id job exe id_lt at_worker unlocked =>
      have own_ok := inv.ok_at at_worker
      refine ⟨_, _, _, _,
        inv.move at_worker (.ready .subscribed job exe) rfl (by simp)
          (by simp [Worker.HasTurn]) own_ok (inv.events_ok_update ?_)⟩
      intro buffer buffer_eq event event_mem
      obtain rfl := Option.some.inj buffer_eq
      exact absurd event_mem List.not_mem_nil
  | @load id job exe id_lt at_worker =>
      have own_ok := inv.ok_at at_worker
      refine ⟨_, _, _, _,
        inv.move at_worker (.ready (if state.mergeIdx = job then .leaving else .waiting) job exe) rfl
          (by simp) ?_ own_ok inv.events_ok⟩
      intro has_turn
      by_cases next : state.mergeIdx = job
      · rw [inv.mergeIdx_eq] at next
        obtain ⟨rfl, count_lt⟩ := eq_of_bmod_eq inv.count_le next
        exact ⟨rfl, count_lt⟩
      · simp [Worker.HasTurn, next] at has_turn
  | @event id job exe event buffer id_lt at_worker buffered =>
      have own_ok := inv.ok_at at_worker
      have event_ok := inv.events_ok _ _ buffered event List.mem_cons_self
      refine ⟨_, _, _, _,
        inv.move at_worker (.ready (if event = job then .leaving else .waiting) job exe) rfl
          (by simp) ?_ own_ok (inv.events_ok_update ?_)⟩
      · intro has_turn
        by_cases next : event = job
        · obtain ⟨earlier, earlier_le, event_eq⟩ := event_ok
          rw [event_eq] at next
          obtain ⟨rfl, earlier_lt⟩ := eq_of_bmod_eq (earlier_le.trans inv.count_le) next
          have count_le := (inv.held id earlier (by rw [at_worker]; rfl)).1
          obtain rfl : earlier = count := by omega
          exact ⟨rfl, earlier_lt⟩
        · simp [Worker.HasTurn, next] at has_turn
      · intro rest rest_eq other other_mem
        obtain rfl := Option.some.inj rest_eq
        exact inv.events_ok _ _ buffered other (List.mem_cons_of_mem _ other_mem)
  | @unsubscribe id job exe id_lt at_worker unlocked =>
      have own_ok := inv.ok_at at_worker
      have own_turn := inv.turn id (by rw [at_worker]; exact Or.inl rfl)
      rw [at_worker] at own_turn
      exact ⟨_, _, _, _,
        inv.move at_worker (.ready .checking job exe) rfl (by simp) (fun _ => own_turn)
          own_ok (inv.events_ok_update fun _ absurd => by cases absurd)⟩
  | @check id job exe id_lt at_worker =>
      have own_ok := inv.ok_at at_worker
      have own_turn := inv.turn id (by rw [at_worker]; exact Or.inr rfl)
      rw [at_worker] at own_turn
      obtain ⟨tx, error, job_tx, tracks, ended, stored⟩ := own_ok
      cases dirty : state.rootTrk.trk.hasDependencyChanges exe.txTrk with
      | true =>
          exact ⟨_, _, _, _,
            inv.move at_worker (.reexecuting job newTxExecutor) rfl (by simp)
              (fun _ => own_turn) ⟨tx, job_tx, 0, rfl⟩ inv.events_ok⟩
      | false =>
          rw [TxExecutor.hasDependencyChanges_eq_false_iff env.toBlockEnv tx] at dirty
          exact ⟨_, _, _, _,
            inv.move at_worker (.settling job exe) rfl (by simp) (fun _ => own_turn)
              ⟨tx, error, job_tx, ⟨ended, tracks.current dirty⟩, stored⟩ inv.events_ok⟩
  | @reexecute id job exe tx id_lt at_worker job_tx =>
      have own_ok := inv.ok_at at_worker
      have own_turn := inv.turn id (by rw [at_worker]; trivial)
      rw [at_worker] at own_turn
      obtain ⟨tx', job_tx', steps, exe_eq⟩ := own_ok
      obtain rfl := Option.some.inj (job_tx.symm.trans job_tx')
      refine ⟨_, _, _, _,
        inv.move at_worker (.reexecuting job (exe.step env.toBlockEnv tx state.rootTrk.trk)) rfl
          (by simp) (fun _ => own_turn) ⟨tx, job_tx, steps + 1, ?_⟩ inv.events_ok⟩
      rw [Function.iterate_succ_apply', exe_eq]
  | @recommit id job txTrk error tx id_lt at_worker job_tx =>
      have own_ok := inv.ok_at at_worker
      have own_turn := inv.turn id (by rw [at_worker]; trivial)
      rw [at_worker] at own_turn
      obtain ⟨tx', job_tx', completed⟩ := own_ok
      obtain rfl := Option.some.inj (job_tx.symm.trans job_tx')
      have job_lt : job < state.txCommits.length := by
        rw [inv.length_eq]
        exact (List.getElem?_eq_some_iff.mp job_tx).1
      have stored := inv.setTxCommit (TxExecutor.txCommit env.toBlockEnv tx error)
        (by rw [at_worker]; rfl) (by simp [at_worker])
        (by rw [at_worker]; exact ⟨tx, job_tx, completed⟩)
      exact ⟨_, _, _, _,
        stored.move at_worker (.settling job ⟨txTrk, .finished error⟩) rfl (by simp)
          (fun _ => own_turn)
          ⟨tx, error, job_tx, ⟨rfl, completed⟩, List.getElem?_set_self job_lt⟩ stored.events_ok⟩
  | merge id_lt at_worker stored => exact ⟨_, _, _, _, inv.merge at_worker stored⟩
  | increase id_lt at_worker => exact ⟨_, _, _, _, inv.increase at_worker⟩
  | @lock id event left id_lt at_worker left_nodup present =>
      have own_ok := inv.ok_at at_worker
      exact ⟨_, _, _, _,
        inv.move at_worker (.emitting event left) rfl (by simp) False.elim own_ok
          inv.events_ok⟩
  | @emit id event left subscriber id_lt at_worker subscriber_mem =>
      have own_ok := inv.ok_at at_worker
      refine ⟨_, _, _, _,
        inv.move at_worker (.emitting event (left.erase subscriber)) rfl (by simp)
          False.elim own_ok (inv.events_ok_update ?_)⟩
      intro buffer buffer_eq other other_mem
      obtain ⟨old, present, rfl⟩ := Option.map_eq_some_iff.mp buffer_eq
      rw [offer] at other_mem
      split at other_mem
      · rcases List.mem_append.mp other_mem with old_mem | new_mem
        · exact inv.events_ok _ _ present other old_mem
        · rw [List.mem_singleton.mp new_mem]
          exact own_ok
      · exact inv.events_ok _ _ present other other_mem
  | @unlock id event id_lt at_worker =>
      exact ⟨_, _, _, _,
        inv.move at_worker .idle rfl (by simp) False.elim trivial inv.events_ok⟩

/-- Every reachable state has the results of some transactions in list order. -/
theorem BlkRun.inv (run : BlkRun env state) :
    ∃ count merged taken commits, BlkInv env state count merged taken commits := by
  induction run with
  | refl => exact ⟨0, 0, 0, [], .initial env⟩
  | tail _ step ih =>
      obtain ⟨_, _, _, _, inv⟩ := ih
      exact inv.step step

/-- A run that has returned has the results of all transactions. -/
theorem BlkRun.sequential (run : BlkRun env state) (returned : state.main = .returned) :
    ∃ commits, Sequential env.toBlockEnv env.txs state.rootTrk commits ∧ state.txCommits = commits.map some := by
  obtain ⟨count, merged, taken, commits, inv⟩ := run.inv
  have all : env.txs.length ≤ merged :=
    (inv.ended (Or.inr returned)).trans inv.count_le_merged
  have sequential := inv.sequential
  have stored := inv.stored
  rw [List.take_of_length_le all] at sequential
  rw [List.take_of_length_le (inv.length_eq ▸ all)] at stored
  exact ⟨commits, sequential, stored⟩

/-- Executing a block in parallel gives the root tracker and the commits of executing its
transactions in list order, whatever the schedule, and some schedule returns when all of these
executions come to an end. -/
theorem execute_serializable (env : BlkEnv) (limit_pos : 1 ≤ env.concurrentLimit) :
    (∀ state, BlkRun env state → state.main = .returned →
      ∃ commits, Sequential env.toBlockEnv env.txs state.rootTrk commits ∧
        state.txCommits = commits.map some) ∧
    ∀ root commits, Sequential env.toBlockEnv env.txs root commits →
      (∀ state, BlkRun env state → state.main = .returned →
        state.rootTrk = root ∧ state.txCommits = commits.map some) ∧
      (env.txs.length < 2 ^ 31 → ∃ state, BlkRun env state ∧ state.main = .returned) := by
  refine ⟨fun state run returned => run.sequential returned, fun root commits sequential => ?_⟩
  refine ⟨fun state run returned => ?_, fun small => exists_returned limit_pos small sequential⟩
  obtain ⟨commits', sequential', stored⟩ := run.sequential returned
  obtain ⟨rfl, rfl⟩ := sequential'.unique sequential
  exact ⟨rfl, stored⟩

/-! ## Two transactions that depend on each other -/

/-- A chaincode that appends a byte to the value of its only key. -/
def appendCall : ChaincodeCall
  | [] => .getState [0]
  | [value] => .setState [0] (some (value.getD [] ++ [1]))
  | _ => .finish none

/-- A block with two invocations of that chaincode and two workers. -/
def appendEnv : BlkEnv where
  codeRegistry := {
    driver := fun _ => some fun _ => .ok ⟨fun _ => appendCall, fun _ => appendCall⟩
    unmarshalInput := fun _ => .error "no deployment"
    unmarshalCodeInfo := fun _ => .ok ⟨0, []⟩
    marshalCodeInfo := fun _ => none }
  state := fun _ => none
  blk := ⟨⟨[], 0, 1, [], 0, [], 0, [[8], [9]], none, none⟩, none, ⟨⟨[], []⟩, ⟨List.replicate 32 1, length_ones⟩⟩⟩
  txs := [appendTx [8], appendTx [9]]
  concurrentLimit := 2
where
  /-- An invocation of the chaincode at the address `[5]`. -/
  appendTx (hash : Bytes) : Transaction :=
    ⟨⟨hash, [], 0, List.replicate 32 1, [5], [], 0⟩, ⟨List.replicate 32 1, length_ones⟩⟩

theorem completes_append (hash : Bytes) (root : RootTracker) :
    Completes appendEnv.toBlockEnv (appendEnv.appendTx hash) root
      ((TxExecutor.step appendEnv.toBlockEnv (appendEnv.appendTx hash) root.trk)^[4] newTxExecutor) "" :=
  ⟨rfl, 4, rfl⟩

/-- Two workers that append to one value lose no byte. -/
theorem execute_serializable_append :
    1 ≤ appendEnv.concurrentLimit ∧ (∃ state, BlkRun appendEnv state ∧ state.main = .returned) ∧
      ∀ state, BlkRun appendEnv state → state.main = .returned →
        state.rootTrk.trk.changes.lookup [5, 0] = some (some [1, 1]) ∧
          state.txCommits = [some ⟨[8], [], 1, ""⟩, some ⟨[9], [], 1, ""⟩] := by
  have sequential := (Sequential.nil.snoc (completes_append [8] _)).snoc (completes_append [9] _)
  have serializable := execute_serializable appendEnv (by decide)
  obtain ⟨same, returns⟩ := serializable.2 _ _ sequential
  refine ⟨by decide, returns (by decide), fun state run returned => ?_⟩
  obtain ⟨root_eq, commits_eq⟩ := same state run returned
  rw [root_eq, commits_eq]
  exact ⟨by decide, rfl⟩

end SvpChain.Execution
