import Mathlib.Algebra.BigOperators.Group.Finset.Piecewise
import SvpChain.Execution.Serializable

/-!
# The events of the merge order

A worker that waits to merge hears of the merge index only through its subscription, whose buffer has
room for 20 events; `Emit` drops what does not fit.  Each of the other workers has at most one event
to offer before the turn of the waiting one, so the buffer suffices for up to 21 workers or transactions.
With more of both, the event that a waiting worker needs can be dropped, and its block never ends.
-/

namespace SvpChain.Execution

open Core Relation

/-! ## What a subscription is to get -/

namespace Worker

/-- The number of events the worker is still to offer to a subscription. -/
def owes (subscriber : Subscriber) : Worker → ℕ
  | increased _ => 1
  | emitting _ left => left.count subscriber
  | _ => 0

/-- The worker is still to offer this event. -/
def Bears (event : ℤ) (subscriber : Subscriber) : Worker → Prop
  | increased own => own = event
  | emitting own left => own = event ∧ subscriber ∈ left
  | _ => False

/-- One when the worker holds a transaction before another one. -/
def precedes (later : ℕ) (worker : Worker) : ℕ :=
  match worker.job with
  | some job => if job < later then 1 else 0
  | none => 0

end Worker

namespace BlkState

variable (env : BlkEnv) (state : BlkState)

/-- A sum over the workers. -/
def tally (measure : Worker → ℕ) : ℕ :=
  ∑ id ∈ Finset.range env.concurrentLimit, measure (state.workers id)

/-- The events a subscription holds and those it is to be offered. -/
def load (subscriber : Subscriber) : ℕ :=
  ((state.subs subscriber).getD []).length + tally env state (Worker.owes subscriber)

/-- The event is in the buffer of the subscription, or is still to be offered to it. -/
def OnItsWay (subscriber : Subscriber) (event : ℤ) : Prop :=
  (∃ buffer, state.subs subscriber = some buffer ∧ event ∈ buffer) ∨
    ∃ id < env.concurrentLimit, (state.workers id).Bears event subscriber

/-- The holder of a subscription waits for an event, in `waitToMerge` or `executeConcurrent`. -/
def Awaits : Subscriber → ℕ → Prop
  | .worker id, job => ∃ exe, state.workers id = .ready .waiting job exe
  | .main, event => ((∃ next, state.main = .sending next) ∨ state.main = .receiving) ∧ event = env.txs.length

/-- The holder of a subscription waits for an event or is about to. -/
def Listens : Subscriber → ℕ → Prop
  | .worker id, job => ∃ phase exe, state.workers id = .ready phase job exe ∧
      (phase = .subscribed ∨ phase = .waiting)
  | .main, _ => state.main ≠ .returned

/-- Nobody waits for an event that has been lost. -/
def NoLostWakeup : Prop :=
  ∀ subscriber event, Awaits env state subscriber event → event ≤ state.mergeIdx →
    OnItsWay env state subscriber event

variable {env state}

variable {id : ℕ} {subscriber : Subscriber}

theorem tally_update (measure : Worker → ℕ) (id_lt : id < env.concurrentLimit) {state' : BlkState}
    {new : Worker} (workers_eq : state'.workers = Function.update state.workers id new) :
    state'.tally env measure + measure (state.workers id) = state.tally env measure + measure new := by
  have mem := Finset.mem_range.mpr id_lt
  have others : ∑ other ∈ (Finset.range env.concurrentLimit).erase id, measure (state'.workers other) =
      ∑ other ∈ (Finset.range env.concurrentLimit).erase id, measure (state.workers other) := by
    refine Finset.sum_congr rfl fun other other_mem => ?_
    rw [workers_eq, Function.update_of_ne (Finset.ne_of_mem_erase other_mem)]
  rw [tally, tally, ← Finset.add_sum_erase _ _ mem, others, ← Finset.add_sum_erase _ _ mem, workers_eq,
    Function.update_self]
  omega

theorem le_tally (measure : Worker → ℕ) (id_lt : id < env.concurrentLimit) :
    measure (state.workers id) ≤ state.tally env measure :=
  Finset.single_le_sum (f := fun id => measure (state.workers id)) (fun _ _ => Nat.zero_le _)
    (Finset.mem_range.mpr id_lt)

theorem tally_lt_limit (unlocked : state.Unlocked env) (id_lt : id < env.concurrentLimit) {later : ℕ}
    (without : (state.workers id).owes subscriber + (state.workers id).precedes later = 0) :
    state.tally env (Worker.owes subscriber) + state.tally env (Worker.precedes later) < env.concurrentLimit := by
  have mem := Finset.mem_range.mpr id_lt
  have others : ∑ other ∈ (Finset.range env.concurrentLimit).erase id,
      ((state.workers other).owes subscriber + (state.workers other).precedes later) ≤
        ((Finset.range env.concurrentLimit).erase id).card • 1 := by
    refine Finset.sum_le_card_nsmul _ _ _ fun other other_mem => ?_
    have calm := unlocked other (Finset.mem_range.mp (Finset.mem_of_mem_erase other_mem))
    cases at_other : state.workers other with
    | idle => exact Nat.zero_le _
    | increased event => exact le_rfl
    | emitting event left => exact absurd at_other (calm event left)
    | _ =>
        simp only [Worker.owes, Worker.precedes, Worker.job, zero_add]
        split <;> omega
  rw [Finset.card_erase_of_mem mem, Finset.card_range, smul_eq_mul, mul_one] at others
  rw [tally, tally, ← Finset.sum_add_distrib, ← Finset.add_sum_erase _ _ mem, without]
  omega

theorem Awaits.listens {event : ℕ} (awaits : Awaits env state subscriber event) : Listens state subscriber event := by
  cases subscriber with
  | main =>
      rintro returned
      simp [Awaits, returned] at awaits
  | worker id =>
      obtain ⟨exe, waiting⟩ := awaits
      exact ⟨_, exe, waiting, .inr rfl⟩

theorem Listens.of_update {new : Worker} {state' : BlkState}
    (workers_eq : state'.workers = Function.update state.workers id new)
    (main_eq : state'.main = state.main) {event : ℕ} (now : state'.Listens subscriber event) :
    state.Listens subscriber event ∨ subscriber = .worker id ∧
      ∃ phase exe, new = .ready phase event exe ∧ (phase = .subscribed ∨ phase = .waiting) := by
  cases subscriber with
  | main => exact .inl fun returned => now (main_eq.trans returned)
  | worker other =>
      obtain ⟨phase, exe, at_other, listening⟩ := now
      by_cases same : other = id
      · rw [workers_eq, same, Function.update_self] at at_other
        exact .inr ⟨congrArg _ same, phase, exe, at_other, listening⟩
      · rw [workers_eq, Function.update_of_ne same] at at_other
        exact .inl ⟨phase, exe, at_other, listening⟩

/-- Only one worker goes on, and no subscription changes. -/
structure Goes (state state' : BlkState) (id : ℕ) (new : Worker) : Prop where
  workers_eq : state'.workers = Function.update state.workers id new
  subs_eq : state'.subs = state.subs
  mergeIdx_eq : state'.mergeIdx = state.mergeIdx
  main_eq : state'.main = state.main

theorem job_of_listens {job : ℕ} (listens : Listens state (.worker id) job) : (state.workers id).job = some job := by
  obtain ⟨phase, exe, at_worker, -⟩ := listens
  rw [at_worker]
  rfl

theorem setSub_subs_of_ne {other : Subscriber} (different : other ≠ subscriber)
    (buffer : Option (List ℤ)) : (state.setSub subscriber buffer).subs other = state.subs other :=
  Function.update_of_ne different _ _

theorem setSub_subs_self (subscriber : Subscriber) (buffer : Option (List ℤ)) :
    (state.setSub subscriber buffer).subs subscriber = buffer := Function.update_self _ _ _

end BlkState

variable {size : ℕ} {event : ℤ} {buffer : List ℤ}

theorem length_offer_le : (offer size event buffer).length ≤ buffer.length + 1 := by
  rw [offer]
  split <;> simp

theorem mem_offer_of_mem {other : ℤ} (mem : other ∈ buffer) : other ∈ offer size event buffer := by
  rw [offer]
  split
  · exact List.mem_append_left _ mem
  · exact mem

theorem mem_offer (room : buffer.length < size) : event ∈ offer size event buffer := by
  rw [offer, if_pos room]
  exact List.mem_concat_self

/-! ## The invariant -/

open BlkState

variable {env : BlkEnv} {state state' : BlkState} {count merged taken : ℕ} {commits : List TxCommit}

/-- What the subscriptions hold and are still to get, when `count` transactions are counted. -/
structure Listening (env : BlkEnv) (state : BlkState) (count : ℕ) : Prop where
  load_le : ∀ subscriber, state.load env subscriber ≤ count
  window : ∀ id job, state.Listens (.worker id) job →
    state.load env (.worker id) + state.tally env (Worker.precedes job) < env.concurrentLimit
  present : ∀ subscriber event, state.Listens subscriber event → state.subs subscriber ≠ none
  told : ∀ subscriber event, subscriber = .main ∨ env.concurrentLimit ≤ 21 ∨ env.txs.length ≤ 21 →
    state.Awaits env subscriber event → state.mergeIdx = event → state.OnItsWay env subscriber event

theorem Listening.initial (env : BlkEnv) : Listening env (BlkState.initial env) 0 where
  load_le subscriber := by
    have nothing_owed : (BlkState.initial env).tally env (Worker.owes subscriber) = 0 :=
      Finset.sum_eq_zero fun _ _ => rfl
    rw [load, nothing_owed]
    by_cases main : subscriber = .main <;> simp [BlkState.initial, main]
  window _ _ := by
    rintro ⟨_, _, absurd, -⟩
    cases absurd
  present subscriber _ listens := by
    cases subscriber with
    | main => simp [BlkState.initial]
    | worker id =>
        obtain ⟨_, _, absurd, -⟩ := listens
        cases absurd
  told subscriber event _ awaits reached := by
    cases subscriber with
    | main =>
        obtain ⟨at_main, rfl⟩ := awaits
        have empty : (0 : ℤ) = env.txs.length := reached
        simp [BlkState.initial, Nat.cast_eq_zero.mp empty.symm] at at_main
    | worker id =>
        obtain ⟨_, absurd⟩ := awaits
        cases absurd

section Steps

variable (listening : Listening env state count)
include listening

theorem Listening.move (load : ∀ subscriber, state'.load env subscriber ≤ state.load env subscriber)
    (passed : ∀ id job, state.Listens (.worker id) job →
      state'.tally env (Worker.precedes job) ≤ state.tally env (Worker.precedes job))
    (mergeIdx_eq : state'.mergeIdx = state.mergeIdx) (listens : ∀ subscriber event, state'.Listens subscriber event →
      state.Listens subscriber event ∧ (state.subs subscriber ≠ none → state'.subs subscriber ≠ none) ∨
        state'.subs subscriber ≠ none ∧
          state'.load env subscriber + state'.tally env (Worker.precedes event) < env.concurrentLimit)
    (awaits : ∀ subscriber event, state'.Awaits env subscriber event → state.mergeIdx = event →
      state.Awaits env subscriber event) (kept : ∀ subscriber (event : ℕ), state'.Awaits env subscriber event →
      subscriber = .main ∨ env.concurrentLimit ≤ 21 ∨ env.txs.length ≤ 21 →
      state.OnItsWay env subscriber event → state'.OnItsWay env subscriber event) : Listening env state' count where
  load_le subscriber := (load subscriber).trans (listening.load_le subscriber)
  window id job now := by
    rcases listens _ _ now with ⟨before, -⟩ | new
    · have := listening.window id job before
      have := load (.worker id)
      have := passed id job before
      omega
    · exact new.2
  present subscriber event now := by
    rcases listens _ _ now with ⟨before, present⟩ | new
    · exact present (listening.present subscriber event before)
    · exact new.1
  told subscriber event room now reached := by
    rw [mergeIdx_eq] at reached
    exact kept subscriber event now room
      (listening.told subscriber event room (awaits _ _ now reached) reached)

theorem Listening.work {id : ℕ} (id_lt : id < env.concurrentLimit) {old new : Worker}
    (at_worker : state.workers id = old) (goes : Goes state state' id new)
    (owes : ∀ subscriber, new.owes subscriber ≤ old.owes subscriber)
    (bears : ∀ event subscriber, state.subs subscriber ≠ none → old.Bears event subscriber → new.Bears event subscriber)
    (precedes : ∀ other job, state.Listens (.worker other) job → new.precedes job ≤ old.precedes job)
    (listens : ∀ phase job exe, new = .ready phase job exe → phase = .subscribed ∨ phase = .waiting →
      state.Listens (.worker id) job ∨ state.subs (.worker id) ≠ none ∧
        state'.load env (.worker id) + state'.tally env (Worker.precedes job) < env.concurrentLimit)
    (awaits : ∀ job exe, new = .ready .waiting job exe → state.mergeIdx ≠ job) : Listening env state' count := by
  subst at_worker
  obtain ⟨workers_eq, subs_eq, mergeIdx_eq, main_eq⟩ := goes
  have listens_before {subscriber : Subscriber} {event : ℕ} (now : state'.Listens subscriber event) :
      state.Listens subscriber event ∨ state.subs subscriber ≠ none ∧
        state'.load env subscriber + state'.tally env (Worker.precedes event) < env.concurrentLimit := by
    rcases now.of_update workers_eq main_eq with before | ⟨rfl, phase, exe, at_worker, listening⟩
    · exact .inl before
    · exact listens phase event exe at_worker listening
  refine listening.move (fun subscriber => ?_) (fun other job before => ?_) mergeIdx_eq
    (fun subscriber event now => ?_)
    (fun subscriber event now reached => ?_) fun subscriber event now _ before => ?_
  · have moved := tally_update (Worker.owes subscriber) id_lt workers_eq
    have := owes subscriber
    rw [load, load, subs_eq]
    omega
  · have moved := tally_update (Worker.precedes job) id_lt workers_eq
    have := precedes other job before
    omega
  · rw [subs_eq]
    exact (listens_before now).imp_left fun before => ⟨before, fun present => present⟩
  · cases subscriber with
    | main => exact ⟨main_eq ▸ now.1, now.2⟩
    | worker other =>
        obtain ⟨exe, waiting⟩ := now
        by_cases same : other = id
        · rw [workers_eq, same, Function.update_self] at waiting
          exact absurd reached (awaits event exe waiting)
        · rw [workers_eq, Function.update_of_ne same] at waiting
          exact ⟨exe, waiting⟩
  · rcases before with buffered | ⟨other, other_lt, borne⟩
    · exact .inl (subs_eq ▸ buffered)
    · refine .inr ⟨other, other_lt, ?_⟩
      by_cases same : other = id
      · subst same
        rw [workers_eq, Function.update_self]
        exact bears event subscriber ((listens_before now.listens).elim (listening.present _ _) And.left) borne
      · rwa [workers_eq, Function.update_of_ne same]

theorem Listening.rest {id : ℕ} (id_lt : id < env.concurrentLimit) {old new : Worker}
    (at_worker : state.workers id = old) (goes : Goes state state' id new) (job_eq : new.job = old.job)
    (calm : ∀ subscriber, new.owes subscriber = 0) (calm' : ∀ event subscriber, ¬ old.Bears event subscriber)
    (silent : ∀ phase job exe, new = .ready phase job exe → ¬ (phase = .subscribed ∨ phase = .waiting)) :
    Listening env state' count :=
  listening.work id_lt at_worker goes (fun subscriber => (calm subscriber).trans_le (Nat.zero_le _))
    (fun event subscriber _ borne => absurd borne (calm' event subscriber))
    (fun _ _ _ => by rw [Worker.precedes, job_eq, Worker.precedes])
    (fun phase job exe now listens => absurd listens (silent phase job exe now))
    fun job exe now => absurd (.inr rfl) (silent _ job exe now)

theorem Listening.setSub {subscriber : Subscriber} {buffer : Option (List ℤ)}
    (workers_eq : state'.workers = state.workers) (subs_eq : state'.subs = Function.update state.subs subscriber buffer)
    (mergeIdx_eq : state'.mergeIdx = state.mergeIdx) (running : state'.main ≠ .returned → state.main ≠ .returned)
    (waiting : (∃ next, state'.main = .sending next) ∨ state'.main = .receiving →
      (∃ next, state.main = .sending next) ∨ state.main = .receiving)
    (fewer : (buffer.getD []).length ≤ ((state.subs subscriber).getD []).length)
    (kept : ∀ event : ℕ, state'.Awaits env subscriber event → ∀ held, state.subs subscriber = some held →
      (event : ℤ) ∈ held → ∃ rest, buffer = some rest ∧ (event : ℤ) ∈ rest)
    (present : ∀ event, state'.Listens subscriber event → state.subs subscriber ≠ none → buffer ≠ none) :
    Listening env state' count := by
  have own_subs : state'.subs subscriber = buffer := by rw [subs_eq, Function.update_self]
  have other_subs {other : Subscriber} (different : other ≠ subscriber) : state'.subs other = state.subs other := by
    rw [subs_eq, Function.update_of_ne different]
  have tally_eq (measure : Worker → ℕ) : state'.tally env measure = state.tally env measure := by
    rw [tally, workers_eq, tally]
  refine listening.move (fun other => ?_) (fun _ _ _ => (tally_eq _).le) mergeIdx_eq
    (fun other event now => .inl ⟨?_, fun before => ?_⟩) (fun other event now _ => ?_)
    fun other event now _ before => ?_
  · rw [load, load, tally_eq]
    by_cases same : other = subscriber
    · subst same
      rw [own_subs]
      exact Nat.add_le_add_right fewer _
    · rw [other_subs same]
  · cases other with
    | main => exact running now
    | worker id => rwa [Listens, workers_eq] at now
  · by_cases same : other = subscriber
    · subst same
      rw [own_subs]
      exact present event now before
    · rwa [other_subs same]
  · cases other with
    | main => exact ⟨waiting now.1, now.2⟩
    | worker id => rwa [Awaits, workers_eq] at now
  · rcases before with ⟨held, held_eq, mem⟩ | borne
    · by_cases same : other = subscriber
      · subst same
        obtain ⟨rest, rest_eq, mem⟩ := kept event now held held_eq mem
        exact .inl ⟨rest, own_subs.trans rest_eq, mem⟩
      · exact .inl ⟨held, (other_subs same).trans held_eq, mem⟩
    · exact .inr (workers_eq ▸ borne)

/-- A subscription begins empty, while no worker emits: each of the others has one event at most. -/
theorem Listening.subscribe {id job : ℕ} {exe : TxExecutor} (id_lt : id < env.concurrentLimit)
    (at_worker : state.workers id = .ready .executed job exe) (unlocked : state.Unlocked env) :
    Listening env ((state.setSub (.worker id) (some [])).setWorker id (.ready .subscribed job exe)) count := by
  have entered : Listening env (state.setSub (.worker id) (some [])) count := by
    refine listening.setSub rfl rfl rfl (fun running => running) (fun waiting => waiting) (Nat.zero_le _)
      (fun event awaits => ?_) (by simp)
    obtain ⟨exe, waiting⟩ := awaits
    cases at_worker.symm.trans waiting
  refine entered.work id_lt at_worker ⟨rfl, rfl, rfl, rfl⟩ (fun _ => le_rfl)
    (fun _ _ _ borne => borne) (fun _ _ _ => le_rfl) ?_ nofun
  rintro _ _ _ ⟨⟩ -
  refine .inr ⟨(setSub_subs_self _ _).trans_ne (by simp), ?_⟩
  have few := tally_lt_limit (unlocked_setWorker unlocked (by simp)) id_lt
    (show Worker.owes (.worker id) ((state.setWorker id (.ready .subscribed job exe)).workers id) +
      Worker.precedes job ((state.setWorker id (.ready .subscribed job exe)).workers id) = 0 by
        simp [Worker.owes, Worker.precedes, Worker.job])
  have empty : (state.setSub (.worker id) (some [])).subs (.worker id) = some [] := setSub_subs_self _ _
  change ((Option.getD ((state.setSub (.worker id) (some [])).subs (.worker id)) []).length + _) + _ < _
  rw [empty, Option.getD_some, List.length_nil, zero_add]
  exact few

theorem Listening.increase (inv : BlkInv env state count merged taken commits) {id job : ℕ}
    (id_lt : id < env.concurrentLimit) (at_worker : state.workers id = .increasing job) :
    Listening env { state.setWorker id (.increased (addInt32 state.mergeIdx)) with
      mergeIdx := addInt32 state.mergeIdx } (count + 1) := by
  set state' := { state.setWorker id (.increased (addInt32 state.mergeIdx)) with
    mergeIdx := addInt32 state.mergeIdx }
  have workers_eq : state'.workers =
      Function.update state.workers id (.increased (addInt32 state.mergeIdx)) := rfl
  have load_eq (subscriber : Subscriber) : state'.load env subscriber = state.load env subscriber + 1 := by
    have moved := tally_update (Worker.owes subscriber) id_lt workers_eq
    simp only [at_worker, Worker.owes] at moved
    rw [load, load, Nat.add_assoc, ← moved]
    rfl
  have listens_before {subscriber : Subscriber} {event : ℕ} (now : state'.Listens subscriber event) :
      state.Listens subscriber event :=
    (now.of_update workers_eq rfl).resolve_right (by simp)
  exact {
    load_le := fun subscriber => by
      have := listening.load_le subscriber
      rw [load_eq]
      omega
    window := fun other later now => by
      -- the merged transaction is the first one, and the worker no longer precedes the listener
      have before := listens_before now
      have held := inv.held other later (job_of_listens before)
      have turn := (inv.turn id (by rw [at_worker]; trivial)).1
      rw [at_worker] at turn
      have own_job : job = count := Option.some.inj turn
      have different : later ≠ job := by
        rintro rfl
        have same := inv.distinct other id later (job_of_listens before) (by rw [at_worker]; rfl)
        obtain ⟨_, _, at_other, -⟩ := before
        rw [same, at_worker] at at_other
        cases at_other
      have earlier : job < later := by omega
      have passed := tally_update (Worker.precedes later) id_lt workers_eq
      have := listening.window other later before
      simp only [at_worker, Worker.precedes, Worker.job, if_pos earlier] at passed
      rw [load_eq]
      omega
    present := fun subscriber event now => listening.present subscriber event (listens_before now)
    told := fun subscriber event _ _ reached => by
      refine .inr ⟨id, id_lt, ?_⟩
      rw [workers_eq, Function.update_self]
      exact reached }

/-- An event is offered to one subscription; it has room for what somebody waits for. -/
theorem Listening.emit (inv : BlkInv env state count merged taken commits) {id : ℕ} {event : ℤ}
    {left : List Subscriber} {subscriber : Subscriber} (id_lt : id < env.concurrentLimit)
    (at_worker : state.workers id = .emitting event left) (mem : subscriber ∈ left) :
    Listening env ((state.setSub subscriber ((state.subs subscriber).map
      (offer (bufferSize env subscriber) event))).setWorker id (.emitting event (left.erase subscriber))) count := by
  set state' := (state.setSub subscriber ((state.subs subscriber).map
    (offer (bufferSize env subscriber) event))).setWorker id (.emitting event (left.erase subscriber))
  have workers_eq : state'.workers =
      Function.update state.workers id (.emitting event (left.erase subscriber)) := rfl
  have own_subs : state'.subs subscriber = (state.subs subscriber).map (offer (bufferSize env subscriber) event) :=
    setSub_subs_self _ _
  have other_subs {other : Subscriber} (different : other ≠ subscriber) : state'.subs other = state.subs other :=
    setSub_subs_of_ne different _
  have owed_eq (other : Subscriber) := tally_update (Worker.owes other) id_lt workers_eq
  simp only [at_worker, Worker.owes] at owed_eq
  have owed_pos : 1 ≤ state.tally env (Worker.owes subscriber) := by
    refine le_trans ?_ (le_tally _ id_lt)
    rw [at_worker]
    exact List.one_le_count_iff.mpr mem
  have listens_before {other : Subscriber} {later : ℕ} (now : state'.Listens other later) :
      state.Listens other later :=
    (now.of_update workers_eq rfl).resolve_right (by simp)
  refine listening.move (fun other => ?_) (fun _ later _ => ?_) rfl
    (fun other later now => .inl ⟨listens_before now, fun present => ?_⟩) (fun other later now _ => ?_)
    fun other later now room before => ?_
  · -- what an offer adds to a buffer, the worker no longer owes
    have moved := owed_eq other
    rw [load, load]
    by_cases same : other = subscriber
    · subst same
      rw [List.count_erase_self] at moved
      have counted := List.one_le_count_iff.mpr mem
      have longer : ((state'.subs other).getD []).length ≤ ((state.subs other).getD []).length + 1 := by
        rw [own_subs]
        cases state.subs other with
        | none => exact Nat.zero_le _
        | some held => exact length_offer_le
      omega
    · rw [List.count_erase_of_ne same] at moved
      rw [other_subs same]
      omega
  · have passed := tally_update (Worker.precedes later) id_lt workers_eq
    simp only [at_worker, Worker.precedes, Worker.job] at passed
    exact passed.le
  · by_cases same : other = subscriber
    · subst same
      simpa [own_subs] using present
    · rwa [other_subs same]
  · cases other with
    | main => exact now
    | worker worker =>
        obtain ⟨exe, waiting⟩ := now
        by_cases same : worker = id
        · rw [workers_eq, same, Function.update_self] at waiting
          cases waiting
        · rw [workers_eq, Function.update_of_ne same] at waiting
          exact ⟨exe, waiting⟩
  · have listens := listens_before now.listens
    obtain ⟨held, held_eq⟩ := Option.ne_none_iff_exists'.mp (listening.present _ _ listens)
    rcases before with ⟨buffer, buffer_eq, event_mem⟩ | ⟨worker, worker_lt, borne⟩
    · obtain rfl := Option.some.inj (held_eq.symm.trans buffer_eq)
      by_cases same : other = subscriber
      · subst same
        exact .inl ⟨_, own_subs.trans (congrArg _ held_eq), mem_offer_of_mem event_mem⟩
      · exact .inl ⟨held, (other_subs same).trans held_eq, event_mem⟩
    · by_cases mine : worker = id ∧ other = subscriber
      · obtain ⟨rfl, rfl⟩ := mine
        rw [at_worker] at borne
        refine .inl ⟨_, own_subs.trans (congrArg _ held_eq), borne.1 ▸ mem_offer ?_⟩
        have load_le := listening.load_le other
        rw [load, held_eq, Option.getD_some] at load_le
        cases other with
        | main =>
            have count_le := inv.count_le_merged.trans (inv.merged_le_taken.trans (inv.taken_le.trans inv.sent_le))
            rw [bufferSize]
            omega
        | worker waiter =>
            have window := listening.window waiter later listens
            rw [load, held_eq, Option.getD_some] at window
            have job_held := inv.held waiter later (job_of_listens listens)
            have taken_le := inv.taken_le.trans inv.sent_le
            have few := room.resolve_left Subscriber.noConfusion
            rw [bufferSize]
            omega
      · refine .inr ⟨worker, worker_lt, ?_⟩
        by_cases same : worker = id
        · rw [same, at_worker] at borne
          rw [workers_eq, same, Function.update_self]
          exact ⟨borne.1, (List.mem_erase_of_ne fun equal => mine ⟨same, equal⟩).mpr borne.2⟩
        · rwa [workers_eq, Function.update_of_ne same]

end Steps

/-- The merge index tells how many transactions are counted. -/
theorem BlkInv.count_eq (inv : BlkInv env state count merged taken commits) {counted : ℕ} (small : counted ≤ 2 ^ 31)
    (mergeIdx_eq : state.mergeIdx = Int.bmod counted (2 ^ 32)) : count = counted := by
  have same := inv.mergeIdx_eq.symm.trans mergeIdx_eq
  have small' := inv.count_le
  rw [Int.bmod_def, Int.bmod_def] at same
  split at same <;> split at same <;> omega

theorem BlkInv.job_eq_taken (inv : BlkInv env state count merged taken commits) {job : ℕ} {jobs : List ℕ}
    (queued : state.jobCh = job :: jobs) : job = taken := by
  have jobCh_eq := inv.jobCh_eq.symm.trans queued
  cases more : state.main.sent env - taken with
  | zero =>
      rw [more] at jobCh_eq
      cases jobCh_eq
  | succ later =>
      rw [more, List.range'_succ] at jobCh_eq
      exact (List.cons.inj jobCh_eq).1.symm

theorem Listening.step (listening : Listening env state count)
    (inv : BlkInv env state count merged taken commits) {count' merged' taken' : ℕ}
    {commits' : List TxCommit} (inv' : BlkInv env state' count' merged' taken' commits')
    (step : BlkStep env state state') : Listening env state' count' := by
  have uncounted (same : state'.mergeIdx = state.mergeIdx) : count' = count :=
    inv'.count_eq inv.count_le (same.trans inv.mergeIdx_eq)
  cases step with
  | @send next at_main more room =>
      obtain rfl := uncounted rfl
      exact listening.setSub rfl (Function.update_eq_self .main _).symm rfl (by simp [at_main])
        (fun _ => .inl ⟨next, at_main⟩) le_rfl (fun _ _ held held_eq mem => ⟨held, held_eq, mem⟩)
        fun _ _ present => present
  | sent at_main =>
      obtain rfl := uncounted rfl
      exact listening.setSub rfl (Function.update_eq_self .main _).symm rfl (by simp [at_main])
        (fun _ => .inl ⟨_, at_main⟩) le_rfl (fun _ _ held held_eq mem => ⟨held, held_eq, mem⟩)
        fun _ _ present => present
  | @receive event buffer at_main buffered =>
      obtain rfl := uncounted rfl
      refine listening.setSub rfl rfl rfl (by simp [at_main]) (fun _ => .inr at_main) (by simp [buffered])
        (fun later now held held_eq mem => ⟨buffer, rfl, ?_⟩) (by simp)
      obtain rfl := Option.some.inj (held_eq.symm.trans buffered)
      refine (List.mem_cons.mp mem).resolve_left ?_
      rintro rfl
      obtain ⟨at_main, rfl⟩ := now
      simp at at_main
  | unsubscribeMain at_main unlocked =>
      obtain rfl := uncounted rfl
      refine listening.setSub rfl rfl rfl (by simp) (by simp) (Nat.zero_le _) (fun _ now => ?_) (by simp [Listens])
      simp [Awaits] at now
  | @take id job jobs id_lt at_worker queued =>
      obtain rfl := uncounted rfl
      refine listening.work id_lt at_worker ⟨rfl, rfl, rfl, rfl⟩ (fun _ => le_rfl) (fun _ _ _ => False.elim)
        (fun other later listens => ?_) (by rintro _ _ _ ⟨⟩) (by rintro _ _ ⟨⟩)
      -- every listener has taken its transaction before
      have job_eq := inv.job_eq_taken queued
      have held := inv.held other later (job_of_listens listens)
      simp only [Worker.precedes, Worker.job]
      rw [if_neg (by omega)]
  | execute id_lt at_worker | reexecute id_lt at_worker | recommit id_lt at_worker | merge id_lt at_worker =>
      obtain rfl := uncounted rfl
      exact listening.rest id_lt at_worker ⟨rfl, rfl, rfl, rfl⟩ rfl (fun _ => rfl) (fun _ _ => not_false)
        (by rintro _ _ _ ⟨⟩)
  | commit id_lt at_worker =>
      obtain rfl := uncounted rfl
      exact listening.rest id_lt at_worker ⟨rfl, rfl, rfl, rfl⟩ rfl (fun _ => rfl) (fun _ _ => not_false)
        (by rintro _ _ _ ⟨⟩; simp)
  | subscribe id_lt at_worker unlocked =>
      obtain rfl := uncounted rfl
      exact listening.subscribe id_lt at_worker unlocked
  | @load id job exe id_lt at_worker =>
      obtain rfl := uncounted rfl
      refine listening.work id_lt at_worker ⟨rfl, rfl, rfl, rfl⟩ (fun _ => le_rfl) (fun _ _ _ => False.elim)
        (fun _ _ _ => le_rfl) ?_ ?_
      · rintro _ _ _ ⟨⟩ -
        exact .inl ⟨_, exe, at_worker, .inl rfl⟩
      · intro later exe' now reached
        obtain ⟨phase_eq, rfl, -⟩ := Worker.ready.inj now
        rw [if_pos reached] at phase_eq
        cases phase_eq
  | @event id job exe event buffer id_lt at_worker buffered =>
      obtain rfl := uncounted rfl
      by_cases next : event = job
      · have leaving : Listening env (state.setWorker id (.ready .leaving job exe)) count' :=
          listening.rest id_lt at_worker ⟨rfl, rfl, rfl, rfl⟩ rfl (fun _ => rfl) (fun _ _ => not_false)
            (by rintro _ _ _ ⟨⟩; simp)
        rw [if_pos next]
        refine leaving.setSub rfl rfl rfl (fun running => running) (fun waiting => waiting)
          (by simp [BlkState.setWorker, buffered]) (fun later now => ?_) (by simp)
        obtain ⟨exe, waiting⟩ := now
        cases (setWorker_workers _ _ _).symm.trans waiting
      · rw [if_neg next]
        refine listening.setSub ?_ rfl rfl (fun running => running) (fun waiting => waiting) (by simp [buffered])
          (fun later now held held_eq mem => ⟨buffer, rfl, ?_⟩) (by simp)
        · rw [BlkState.setWorker, ← at_worker]
          exact Function.update_eq_self _ _
        · obtain rfl := Option.some.inj (held_eq.symm.trans buffered)
          obtain ⟨exe', waiting⟩ := now
          cases (setWorker_workers _ _ _).symm.trans waiting
          exact (List.mem_cons.mp mem).resolve_left fun same => next same.symm
  | @unsubscribe id job exe id_lt at_worker unlocked =>
      obtain rfl := uncounted rfl
      have checking : Listening env (state.setWorker id (.ready .checking job exe)) count' :=
        listening.rest id_lt at_worker ⟨rfl, rfl, rfl, rfl⟩ rfl (fun _ => rfl) (fun _ _ => not_false)
          (by rintro _ _ _ ⟨⟩; simp)
      refine checking.setSub rfl rfl rfl (fun running => running) (fun waiting => waiting) (Nat.zero_le _)
        (fun later now => ?_) fun later now => ?_
      · obtain ⟨exe, waiting⟩ := now
        cases (setWorker_workers _ _ _).symm.trans waiting
      · obtain ⟨phase, exe, at_worker, listening⟩ := now
        cases (setWorker_workers _ _ _).symm.trans at_worker
        simp at listening
  | check id_lt at_worker =>
      obtain rfl := uncounted rfl
      refine listening.rest id_lt at_worker ⟨rfl, rfl, rfl, rfl⟩ ?_ (fun _ => ?_) (fun _ _ => not_false)
        fun _ _ _ now => ?_
      · split <;> rfl
      · split <;> rfl
      · split at now <;> cases now
  | @increase id job id_lt at_worker =>
      have turn := (inv.turn id (by rw [at_worker]; trivial)).2
      have counted : count' = count + 1 := by
        refine inv'.count_eq (by omega) ?_
        rw [← addInt32_bmod, ← inv.mergeIdx_eq]
      rw [counted]
      exact listening.increase inv id_lt at_worker
  | lock id_lt at_worker left_nodup present =>
      obtain rfl := uncounted rfl
      exact listening.work id_lt at_worker ⟨rfl, rfl, rfl, rfl⟩
        (fun subscriber => List.nodup_iff_count_le_one.mp left_nodup subscriber)
        (fun _ subscriber subscribed borne => ⟨borne, (present subscriber).mpr subscribed⟩)
        (fun _ _ _ => le_rfl) (by rintro _ _ _ ⟨⟩) (by rintro _ _ ⟨⟩)
  | emit id_lt at_worker subscriber_mem =>
      obtain rfl := uncounted rfl
      exact listening.emit inv id_lt at_worker subscriber_mem
  | unlock id_lt at_worker =>
      obtain rfl := uncounted rfl
      exact listening.rest id_lt at_worker ⟨rfl, rfl, rfl, rfl⟩ rfl (fun _ => rfl)
        (fun _ _ borne => absurd borne.2 List.not_mem_nil) (by rintro _ _ _ ⟨⟩)

theorem BlkRun.listening (run : BlkRun env state) :
    ∃ count merged taken commits, BlkInv env state count merged taken commits ∧ Listening env state count := by
  induction run with
  | refl => exact ⟨0, 0, 0, [], .initial env, .initial env⟩
  | tail _ step ih =>
      obtain ⟨count, merged, taken, commits, inv, listening⟩ := ih
      obtain ⟨count', merged', taken', commits', inv'⟩ := inv.step step
      exact ⟨count', merged', taken', commits', inv', listening.step inv inv' step⟩

theorem BlkInv.reached (inv : BlkInv env state count merged taken commits) {event : ℕ} (least : count ≤ event)
    (reached : (event : ℤ) ≤ state.mergeIdx) : count = event ∧ state.mergeIdx = event := by
  have count_le := inv.count_le
  have mergeIdx_eq := inv.mergeIdx_eq
  rw [Int.bmod_def] at mergeIdx_eq
  split at mergeIdx_eq <;> omega

theorem BlkInv.count_le_awaited (inv : BlkInv env state count merged taken commits) {subscriber : Subscriber}
    {event : ℕ} (awaits : state.Awaits env subscriber event) : count ≤ event := by
  cases subscriber with
  | main =>
      rw [awaits.2]
      exact inv.count_le_merged.trans (inv.merged_le_taken.trans (inv.taken_le.trans inv.sent_le))
  | worker id => exact (inv.held id event (job_of_listens awaits.listens)).1

/-- The main routine misses no event, nor does a worker among few workers or transactions. -/
theorem BlkRun.onItsWay (run : BlkRun env state) {subscriber : Subscriber} {event : ℕ}
    (room : subscriber = .main ∨ env.concurrentLimit ≤ 21 ∨ env.txs.length ≤ 21)
    (awaits : state.Awaits env subscriber event) (reached : (event : ℤ) ≤ state.mergeIdx) :
    state.OnItsWay env subscriber event := by
  obtain ⟨count, merged, taken, commits, inv, listening⟩ := run.listening
  exact listening.told subscriber event room awaits (inv.reached (inv.count_le_awaited awaits) reached).2

end SvpChain.Execution
