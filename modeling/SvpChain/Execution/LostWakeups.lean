import SvpChain.Execution.Wakeups

/-!
# A lost wake-up

Twenty-two workers take the first transactions.  The last of them subscribes at once and is slow to read
its events: the one that tells its turn is dropped.
-/

namespace SvpChain.Execution

open Core Relation BlkState

variable {env : BlkEnv} {state : BlkState}

/-- The first transactions are taken, each by the worker of its number. -/
structure AllTaken (env : BlkEnv) (state : BlkState) (jobs : ℕ) : Prop where
  executing : ∀ id < jobs, state.workers id = .executing id newTxExecutor
  idle : ∀ id, jobs ≤ id → state.workers id = .idle
  main_eq : state.main = .sending jobs
  jobCh_eq : state.jobCh = []
  mergeIdx_eq : state.mergeIdx = 0
  main_subs : state.subs .main ≠ none
  unsubscribed : ∀ id, state.subs (.worker id) = none
  length_eq : state.txCommits.length = env.txs.length

theorem exists_taken (limit : 22 ≤ env.concurrentLimit) (many : 22 ≤ env.txs.length) {jobs : ℕ}
    (few : jobs ≤ 22) : ∃ state, BlkRun env state ∧ AllTaken env state jobs := by
  induction jobs with
  | zero =>
      exact ⟨_, .refl, nofun, fun _ _ => rfl, if_neg (by omega), rfl, rfl, by simp [BlkState.initial], fun _ => rfl,
        List.length_replicate⟩
  | succ job ih =>
      obtain ⟨state, run, sent⟩ := ih (by omega)
      have send : BlkStep env state { state with main := .sending (job + 1), jobCh := [job] } := by
        have room : state.jobCh.length < env.concurrentLimit := by
          rw [sent.jobCh_eq, List.length_nil]
          omega
        have step : BlkStep env _ _ := .send sent.main_eq (by omega) room
        rwa [sent.jobCh_eq] at step
      have take : BlkStep env { state with main := .sending (job + 1), jobCh := [job] } _ :=
        .take (by omega) (sent.idle job le_rfl) rfl
      refine ⟨_, (run.tail send).tail take, fun id id_lt => ?_, fun id id_ge => ?_, rfl, rfl, sent.mergeIdx_eq,
        sent.main_subs, sent.unsubscribed, sent.length_eq⟩
      · by_cases last : id = job
        · subst last
          exact setWorker_workers _ _ _
        · exact (setWorker_workers_of_ne _ last _).trans (sent.executing id (by omega))
      · exact (setWorker_workers_of_ne _ (by omega) _).trans (sent.idle id (by omega))

/-- The last of 22 workers waits while the others merge one transaction after another. -/
structure Crowd (env : BlkEnv) (state : BlkState) (job : ℕ) : Prop where
  waiting : ∃ exe, state.workers 21 = .ready .waiting 21 exe
  executing : ∀ id, job ≤ id → id < 21 → state.workers id = .executing id newTxExecutor
  idle : ∀ id, id < job ∨ 21 < id → state.workers id = .idle
  mergeIdx_eq : state.mergeIdx = job
  main_subs : state.subs .main ≠ none
  waiter_subs : state.subs (.worker 21) = some ((List.range' 1 (min job 20)).map Nat.cast)
  unsubscribed : ∀ id, id ≠ 21 → state.subs (.worker id) = none
  length_eq : state.txCommits.length = env.txs.length

theorem Crowd.cases {job : ℕ} (crowd : Crowd env state job) (id : ℕ) :
    state.workers id = .idle ∨ state.workers id = .executing id newTxExecutor ∨
      ∃ exe, state.workers id = .ready .waiting 21 exe := by
  rcases lt_or_ge id job with merged | unmerged
  · exact .inl (crowd.idle id (.inl merged))
  · rcases lt_trichotomy id 21 with before | rfl | after
    · exact .inr (.inl (crowd.executing id unmerged before))
    · exact .inr (.inr crowd.waiting)
    · exact .inl (crowd.idle id (.inr after))

theorem Crowd.unlocked {job : ℕ} (crowd : Crowd env state job) : state.Unlocked env := by
  intro id _ event left
  rcases crowd.cases id with at_worker | at_worker | ⟨exe, at_worker⟩ <;> simp [at_worker]

theorem AllTaken.crowd (taken : AllTaken env state 22) (limit : 22 ≤ env.concurrentLimit) {tx : Transaction}
    (job_tx : env.txs[21]? = some tx) {exe : TxExecutor} {error : String}
    (completes : Completes env.toBlockEnv tx state.rootTrk exe error) :
    ∃ state', ReflTransGen (BlkStep env) state state' ∧ Crowd env state' 0 := by
  have id_lt : 21 < env.concurrentLimit := by omega
  have commit := run_commit id_lt job_tx completes
  rw [setWorker_eq_self (taken.executing 21 (by omega))] at commit
  have unlocked : (state.setTxCommit 21 (TxExecutor.txCommit env.toBlockEnv tx error)).Unlocked env := by
    intro id _ event left
    change state.workers id ≠ _
    rcases lt_or_ge id 22 with first | later
    · simp [taken.executing id first]
    · simp [taken.idle id later]
  have subscribe := @run_subscribe _ _ _ 21 id_lt unlocked exe
  have behind : (state.setTxCommit 21 (TxExecutor.txCommit env.toBlockEnv tx error)).mergeIdx ≠ (21 : ℕ) :=
    taken.mergeIdx_eq.trans_ne (by decide)
  rw [if_neg behind] at subscribe
  refine ⟨_, commit.trans subscribe, ⟨exe, setWorker_workers _ _ _⟩, fun id _ id_lt => ?_, fun id later => ?_,
    taken.mergeIdx_eq, ?_, ?_, fun id other => ?_, List.length_set.trans taken.length_eq⟩
  · exact (setWorker_workers_of_ne _ (by omega) _).trans (taken.executing id (by omega))
  · exact (setWorker_workers_of_ne _ (by omega) _).trans (taken.idle id (by omega))
  · simpa [BlkState.setWorker, BlkState.setSub, BlkState.setTxCommit] using taken.main_subs
  · simp [BlkState.setWorker, BlkState.setSub]
  · exact (setSub_subs_of_ne (by simpa using other) _).trans (taken.unsubscribed id)

theorem Crowd.merge {job : ℕ} (crowd : Crowd env state job) (job_lt : job < 21) (limit : 22 ≤ env.concurrentLimit)
    (many : 22 ≤ env.txs.length) {tx : Transaction} (job_tx : env.txs[job]? = some tx) {exe : TxExecutor}
    {error : String} (completes : Completes env.toBlockEnv tx state.rootTrk exe error) :
    ∃ state', ReflTransGen (BlkStep env) state state' ∧ Crowd env state' (job + 1) := by
  have id_lt : job < env.concurrentLimit := by omega
  have settle := run_settle id_lt job_tx crowd.unlocked (crowd.unsubscribed job (by omega)) crowd.mergeIdx_eq
    completes
  rw [setWorker_eq_self (crowd.executing job le_rfl job_lt)] at settle
  let stored := state.setTxCommit job (TxExecutor.txCommit env.toBlockEnv tx error)
  have stored_commit : stored.txCommits[job]? = some (some (TxExecutor.txCommit env.toBlockEnv tx error)) :=
    List.getElem?_set_self (by rw [crowd.length_eq]; omega)
  have present : ∀ subscriber, subscriber ∈ [.main, .worker 21] ↔ stored.subs subscriber ≠ none := by
    have subs_eq : stored.subs = state.subs := rfl
    intro subscriber
    cases subscriber with
    | main => simp [subs_eq, crowd.main_subs]
    | worker id =>
        by_cases last : id = 21
        · simp [subs_eq, last, crowd.waiter_subs]
        · simp [subs_eq, last, crowd.unsubscribed id last]
  have merge := run_merge id_lt (by simp) present stored_commit exe
  have counted : addInt32 state.mergeIdx = (job + 1 : ℕ) := by
    rw [crowd.mergeIdx_eq, addInt32, Int.bmod_def]
    omega
  refine ⟨_, settle.trans merge, ?_, fun id id_ge id_lt => ?_, fun id id_lt => ?_, counted, ?_, ?_, fun id last => ?_,
    List.length_set.trans crowd.length_eq⟩
  · obtain ⟨exe, waiting⟩ := crowd.waiting
    exact ⟨exe, (setWorker_workers_of_ne _ (by omega) _).trans waiting⟩
  · exact (setWorker_workers_of_ne _ (by omega) _).trans (crowd.executing id (by omega) id_lt)
  · by_cases own : id = job
    · subst own
      exact setWorker_workers _ _ _
    · exact (setWorker_workers_of_ne _ own _).trans (crowd.idle id (by omega))
  · simpa [stored, BlkState.setTxCommit, BlkState.setWorker] using crowd.main_subs
  · refine (congrArg (Option.map _) crowd.waiter_subs).trans ?_
    have event_eq : addInt32 stored.mergeIdx = (job + 1 : ℕ) := counted
    rw [Option.map_some, offer, bufferSize, List.length_map, List.length_range', event_eq]
    rcases lt_or_ge job 20 with room | full
    · rw [if_pos (by omega), Nat.min_eq_left room.le, Nat.min_eq_left room, List.range'_concat, List.map_append]
      simp [Nat.add_comm]
    · rw [if_neg (by omega), Nat.min_eq_right full, Nat.min_eq_right (by omega)]
  · exact congrArg (Option.map _) (crowd.unsubscribed id last)

theorem Crowd.missed (crowd : Crowd env state 21) : ¬ state.OnItsWay env (.worker 21) (21 : ℕ) := by
  rintro (⟨buffer, present, mem⟩ | ⟨id, -, borne⟩)
  · obtain rfl := Option.some.inj (crowd.waiter_subs.symm.trans present)
    revert mem
    decide
  · rcases crowd.cases id with at_worker | at_worker | ⟨exe, at_worker⟩ <;> rw [at_worker] at borne <;> cases borne

/-- With 22 workers and transactions some schedule loses a wake-up, when every execution comes to an end. -/
theorem exists_lost (limit : 22 ≤ env.concurrentLimit) (many : 22 ≤ env.txs.length)
    (complete : ∀ tx ∈ env.txs, ∀ root, ∃ exe error, Completes env.toBlockEnv tx root exe error) :
    ∃ state, BlkRun env state ∧ Crowd env state 21 := by
  have tx_at {job : ℕ} (job_lt : job < 22) (root : RootTracker) :
      ∃ tx, env.txs[job]? = some tx ∧ ∃ exe error, Completes env.toBlockEnv tx root exe error :=
    have in_range : job < env.txs.length := by omega
    ⟨_, List.getElem?_eq_getElem in_range, complete _ (List.getElem_mem in_range) root⟩
  have crowded : ∀ job ≤ 21, ∃ state, BlkRun env state ∧ Crowd env state job := by
    intro job job_le
    induction job with
    | zero =>
        obtain ⟨state, run, taken⟩ := exists_taken limit many le_rfl
        obtain ⟨tx, job_tx, exe, error, completes⟩ := tx_at (by omega : 21 < 22) state.rootTrk
        obtain ⟨state', more, crowd⟩ := taken.crowd limit job_tx completes
        exact ⟨state', run.trans more, crowd⟩
    | succ job ih =>
        obtain ⟨state, run, crowd⟩ := ih (by omega)
        obtain ⟨tx, job_tx, exe, error, completes⟩ := tx_at (by omega : job < 22) state.rootTrk
        obtain ⟨state', more, crowd⟩ := crowd.merge (by omega) limit many job_tx completes
        exact ⟨state', run.trans more, crowd⟩
  exact crowded 21 le_rfl

/-- The event that the merge index has reached is never lost to the main routine, nor to a worker among at
most 21 workers or transactions.  With more of both, and executions that come to an end, it can be lost. -/
theorem no_lost_wakeup_iff (env : BlkEnv) :
    (∀ state, BlkRun env state → ∀ event, state.Awaits env .main event → event ≤ state.mergeIdx →
      state.OnItsWay env .main event) ∧
    (env.concurrentLimit ≤ 21 ∨ env.txs.length ≤ 21 → ∀ state, BlkRun env state → state.NoLostWakeup env) ∧
    ((∀ tx ∈ env.txs, ∀ root, ∃ exe error, Completes env.toBlockEnv tx root exe error) →
      (∀ state, BlkRun env state → state.NoLostWakeup env) →
        env.concurrentLimit ≤ 21 ∨ env.txs.length ≤ 21) := by
  refine ⟨fun state run event => run.onItsWay (.inl rfl), fun few state run subscriber event =>
    run.onItsWay (.inr few), fun complete kept => ?_⟩
  by_contra many
  obtain ⟨state, run, crowd⟩ := exists_lost (by omega) (by omega) complete
  exact crowd.missed (kept state run (.worker 21) 21 crowd.waiting crowd.mergeIdx_eq.ge)

/-- A block of 22 transactions and as many workers. -/
def crowdedEnv : BlkEnv :=
  { appendEnv with
    txs := (List.range 22).map fun job => appendEnv.appendTx [UInt8.ofNat job]
    concurrentLimit := 22 }

/-- The worker of transaction 21 waits, the merge index is 21, its buffer holds the events 1 to 20, and no
worker is to offer it another one. -/
theorem wakeup_lost :
    ∃ state, BlkRun crowdedEnv state ∧ (∃ exe, state.workers 21 = .ready .waiting 21 exe) ∧ state.mergeIdx = 21 ∧
      state.subs (.worker 21) = some ((List.range' 1 20).map Nat.cast) ∧
      ¬ state.OnItsWay crowdedEnv (.worker 21) 21 := by
  obtain ⟨state, run, crowd⟩ := @exists_lost crowdedEnv le_rfl le_rfl fun tx mem root => by
    obtain ⟨job, -, rfl⟩ := List.mem_map.mp mem
    exact ⟨_, _, completes_append [UInt8.ofNat job] root⟩
  exact ⟨state, run, crowd.waiting, crowd.mergeIdx_eq, crowd.waiter_subs, crowd.missed⟩

end SvpChain.Execution
