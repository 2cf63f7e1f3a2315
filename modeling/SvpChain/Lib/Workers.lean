import Mathlib.Algebra.BigOperators.Group.Finset.Piecewise
import Mathlib.Logic.Relation
import Mathlib.Tactic

/-!
# Workers between two channels

A collector feeds a list of jobs into a channel, from which workers take them, and receives one report
for each job from a second channel; both channels have room for all jobs.  It returns at the first error
or when it has all reports, and closes the channels on its way out.  A worker that then still reports
sends on a closed channel.  Every job is at every time in one place, which tells when this can happen.
-/

namespace SvpChain.Workers

open Relation

variable {κ σ α ε : Type}

/-- A worker waits for a job, works on it, and reports it. -/
inductive Worker (α : Type) where
  | waiting
  | working (job : α)
  | reporting (job : α)
  | exited

/-- What a job does to the shared state, and the error that is reported for it. -/
structure Task (σ α ε : Type) where
  effect : α → σ → σ
  error : α → Option ε

/-- The collector, its workers and the channels between them.  A report is given by its job. -/
structure Crew (κ σ α ε : Type) where
  state : σ
  total : ℕ
  unfed : List α
  queue : List α
  workers : κ → Worker α
  out : List α
  received : List α
  /-- What the collector returns, once it does. -/
  result : Option (Option ε)
  outClosed : Bool
  queueClosed : Bool
  /-- A worker has sent on the closed channel. -/
  panicked : Bool

/-- Nothing has been fed yet. -/
def start (jobs : List α) (state : σ) : Crew κ σ α ε where
  state := state
  total := jobs.length
  unfed := jobs
  queue := []
  workers _ := .waiting
  out := []
  received := []
  result := none
  outClosed := false
  queueClosed := false
  panicked := false

/-- What the caller gets, once both channels are closed. -/
def Crew.returned (crew : Crew κ σ α ε) : Option (Option ε) :=
  if crew.queueClosed then crew.result else none

/-- A worker changes. -/
abbrev Crew.setWorker [DecidableEq κ] (crew : Crew κ σ α ε) (w : κ) (worker : Worker α) : Crew κ σ α ε :=
  { crew with workers := Function.update crew.workers w worker }

variable [DecidableEq κ]

/-- The moves of the collector and of the workers. -/
inductive Move (task : Task σ α ε) : Crew κ σ α ε → Crew κ σ α ε → Prop where
  | feed {crew : Crew κ σ α ε} {job : α} {rest : List α} (next : crew.unfed = job :: rest) :
      Move task crew { crew with unfed := rest, queue := crew.queue ++ [job] }
  | collect {crew : Crew κ σ α ε} {job : α} {rest : List α} (fed : crew.unfed = [])
      (running : crew.result = none) (more : crew.received.length < crew.total)
      (next : crew.out = job :: rest) :
      Move task crew { crew with
        out := rest
        received := crew.received ++ [job]
        result := (task.error job).map some }
  | finish {crew : Crew κ σ α ε} (fed : crew.unfed = []) (running : crew.result = none)
      (all : crew.received.length = crew.total) : Move task crew { crew with result := some none }
  | closeOut {crew : Crew κ σ α ε} {result : Option ε} (returns : crew.result = some result)
      (opened : crew.outClosed = false) : Move task crew { crew with outClosed := true }
  | closeQueue {crew : Crew κ σ α ε} (closed : crew.outClosed = true)
      (opened : crew.queueClosed = false) : Move task crew { crew with queueClosed := true }
  | take {crew : Crew κ σ α ε} {job : α} {rest : List α} (w : κ) (idle : crew.workers w = .waiting)
      (next : crew.queue = job :: rest) :
      Move task crew ({ crew with queue := rest }.setWorker w (.working job))
  | leave {crew : Crew κ σ α ε} (w : κ) (idle : crew.workers w = .waiting) (empty : crew.queue = [])
      (closed : crew.queueClosed = true) : Move task crew (crew.setWorker w .exited)
  | work {crew : Crew κ σ α ε} {job : α} (w : κ) (busy : crew.workers w = .working job) :
      Move task crew
        ({ crew with state := task.effect job crew.state }.setWorker w (.reporting job))
  | send {crew : Crew κ σ α ε} {job : α} (w : κ) (ready : crew.workers w = .reporting job)
      (opened : crew.outClosed = false) :
      Move task crew ({ crew with out := crew.out ++ [job] }.setWorker w .waiting)
  | panic {crew : Crew κ σ α ε} {job : α} (w : κ) (ready : crew.workers w = .reporting job)
      (closed : crew.outClosed = true) : Move task crew { crew with panicked := true }

/-- A move of a process that has not panicked. -/
def Step (task : Task σ α ε) (crew crew' : Crew κ σ α ε) : Prop :=
  crew.panicked = false ∧ Move task crew crew'

/-- The crew gets there in some order of the moves. -/
def Reaches (task : Task σ α ε) : Crew κ σ α ε → Crew κ σ α ε → Prop := ReflTransGen (Step task)

/-! ## Where the jobs are -/

/-- The job a worker has taken and not reported. -/
def Worker.held : Worker α → Multiset α
  | .working job => {job}
  | .reporting job => {job}
  | _ => 0

/-- The job a worker is done with and has not reported. -/
def Worker.worked : Worker α → Multiset α
  | .reporting job => {job}
  | _ => 0

/-- The effects of jobs, in order. -/
def Task.effects (task : Task σ α ε) (jobs : List α) (state : σ) : σ :=
  jobs.foldl (fun state job => task.effect job state) state

theorem Task.effects_concat (task : Task σ α ε) (jobs : List α) (job : α) (state : σ) :
    task.effects (jobs ++ [job]) state = task.effect job (task.effects jobs state) :=
  List.foldl_concat ..

variable [Fintype κ]

/-- The jobs that workers have taken and not reported. -/
def Crew.held (crew : Crew κ σ α ε) : Multiset α := ∑ w, (crew.workers w).held

/-- The jobs that workers are done with and have not reported. -/
def Crew.worked (crew : Crew κ σ α ε) : Multiset α := ∑ w, (crew.workers w).worked

theorem sum_update (measure : Worker α → Multiset α) {workers : κ → Worker α} {w : κ} {before : Worker α}
    (was : workers w = before) (after : Worker α) :
    ∑ i, measure (Function.update workers w after i) + measure before = ∑ i, measure (workers i) + measure after := by
  have others : ∑ i ∈ Finset.univ.erase w, measure (Function.update workers w after i) =
      ∑ i ∈ Finset.univ.erase w, measure (workers i) :=
    Finset.sum_congr rfl fun i mem => by rw [Function.update_of_ne (Finset.ne_of_mem_erase mem)]
  rw [← Finset.sum_erase_add _ _ (Finset.mem_univ w), others,
    ← Finset.sum_erase_add _ (fun i => measure (workers i)) (Finset.mem_univ w), Function.update_self, was]
  exact add_right_comm _ _ _

section

variable {crew : Crew κ σ α ε} {w : κ} {job : α}

theorem held_take (idle : crew.workers w = .waiting) : (crew.setWorker w (.working job)).held = {job} + crew.held := by
  have changed := sum_update Worker.held idle (.working job)
  exact ((add_zero _).symm.trans changed).trans (add_comm _ _)

theorem worked_take (idle : crew.workers w = .waiting) : (crew.setWorker w (.working job)).worked = crew.worked :=
  add_right_cancel (sum_update Worker.worked idle (.working job))

theorem held_leave (idle : crew.workers w = .waiting) : (crew.setWorker w .exited).held = crew.held :=
  add_right_cancel (sum_update Worker.held idle .exited)

theorem worked_leave (idle : crew.workers w = .waiting) : (crew.setWorker w .exited).worked = crew.worked :=
  add_right_cancel (sum_update Worker.worked idle .exited)

theorem held_work (busy : crew.workers w = .working job) : (crew.setWorker w (.reporting job)).held = crew.held :=
  add_right_cancel (sum_update Worker.held busy (.reporting job))

theorem worked_work (busy : crew.workers w = .working job) :
    (crew.setWorker w (.reporting job)).worked = {job} + crew.worked := by
  have changed := sum_update Worker.worked busy (.reporting job)
  exact ((add_zero _).symm.trans changed).trans (add_comm _ _)

theorem held_send (ready : crew.workers w = .reporting job) : crew.held = {job} + (crew.setWorker w .waiting).held := by
  have changed := sum_update Worker.held ready .waiting
  exact ((add_zero _).symm.trans changed.symm).trans (add_comm _ _)

theorem worked_send (ready : crew.workers w = .reporting job) :
    crew.worked = {job} + (crew.setWorker w .waiting).worked := by
  have changed := sum_update Worker.worked ready .waiting
  exact ((add_zero _).symm.trans changed.symm).trans (add_comm _ _)

end

/-- Every job is in one place, and the state shows the jobs that were worked on. -/
structure Accounted (task : Task σ α ε) (jobs : List α) (state : σ) (crew : Crew κ σ α ε) : Prop where
  total_eq : crew.total = jobs.length
  jobs_eq : (crew.unfed : Multiset α) + crew.queue + crew.held + crew.out + crew.received = jobs
  state_eq : ∃ order : List α, crew.state = task.effects order state ∧
    (order : Multiset α) = crew.worked + crew.out + crew.received

variable {task : Task σ α ε} {jobs : List α} {state : σ} {crew crew' : Crew κ σ α ε}

omit [DecidableEq κ] in
theorem accounted_start : Accounted task jobs state (start jobs state : Crew κ σ α ε) where
  total_eq := rfl
  jobs_eq := by simp [start, Crew.held, Worker.held]
  state_eq := ⟨[], rfl, by simp [start, Crew.worked, Worker.worked]⟩

theorem Accounted.move (accounted : Accounted task jobs state crew) (move : Move task crew crew') :
    Accounted task jobs state crew' := by
  obtain ⟨total_eq, jobs_eq, order, state_eq, order_eq⟩ := accounted
  cases move with
  | @feed job rest next =>
      rw [next, ← Multiset.cons_coe, ← Multiset.singleton_add] at jobs_eq
      refine ⟨total_eq, ?_, order, state_eq, order_eq⟩
      rw [← jobs_eq, ← Multiset.coe_add]
      change _ + (_ + {job}) + crew.held + _ + _ = _
      abel
  | @collect job rest fed running more next =>
      rw [next, ← Multiset.cons_coe, ← Multiset.singleton_add] at jobs_eq order_eq
      refine ⟨total_eq, ?_, order, state_eq, ?_⟩
      · rw [← jobs_eq, ← Multiset.coe_add]
        change _ + _ + crew.held + _ + (_ + {job}) = _
        abel
      · rw [order_eq, ← Multiset.coe_add]
        change _ = crew.worked + _ + (_ + {job})
        abel
  | finish | closeOut | closeQueue | panic => exact ⟨total_eq, jobs_eq, order, state_eq, order_eq⟩
  | @take job rest w idle next =>
      rw [next, ← Multiset.cons_coe, ← Multiset.singleton_add] at jobs_eq
      refine ⟨total_eq, ?_, order, state_eq, ?_⟩
      · change _ + _ + (crew.setWorker w (.working job)).held + _ + _ = _
        rw [← jobs_eq, held_take idle]
        abel
      · rw [order_eq, ← worked_take idle]
        rfl
  | leave w idle empty queueClosed =>
      rw [← held_leave idle] at jobs_eq
      rw [← worked_leave idle] at order_eq
      exact ⟨total_eq, jobs_eq, order, state_eq, order_eq⟩
  | @work job w busy =>
      rw [← held_work busy] at jobs_eq
      refine ⟨total_eq, jobs_eq, order ++ [job], ?_, ?_⟩
      · rw [task.effects_concat, ← state_eq]
      · change _ = (crew.setWorker w (.reporting job)).worked + _ + _
        rw [← Multiset.coe_add, order_eq, worked_work busy]
        change _ + {job} = {job} + crew.worked + _ + _
        abel
  | @send job w ready opened =>
      rw [held_send ready] at jobs_eq
      rw [worked_send ready] at order_eq
      refine ⟨total_eq, ?_, order, state_eq, ?_⟩
      · rw [← jobs_eq, ← Multiset.coe_add]
        change _ + _ + (crew.setWorker w .waiting).held + (_ + {job}) + _ = _
        abel
      · rw [order_eq, ← Multiset.coe_add]
        change _ = (crew.setWorker w .waiting).worked + (_ + {job}) + _
        abel

/-! ## What the collector has received -/

/-- The collector returns for one of its two reasons, and closes its channel after that. -/
structure Collected (task : Task σ α ε) (crew : Crew κ σ α ε) : Prop where
  clean : (∀ reason, crew.result ≠ some (some reason)) → ∀ job ∈ crew.received, task.error job = none
  all_received : crew.result = some none → crew.received.length = crew.total
  failed : ∀ reason, crew.result = some (some reason) → ∃ job ∈ crew.received, task.error job = some reason
  closed : crew.outClosed = true → crew.result.isSome = true

omit [DecidableEq κ] [Fintype κ] in
theorem collected_start : Collected task (start jobs state : Crew κ σ α ε) where
  clean _ _ mem := absurd mem List.not_mem_nil
  all_received returned := nomatch returned
  failed _ returned := nomatch returned
  closed closed := nomatch closed

omit [Fintype κ] in
theorem Collected.move (collected : Collected task crew) (move : Move task crew crew') : Collected task crew' := by
  obtain ⟨clean, all_received, failed, closed⟩ := collected
  cases move with
  | @collect job rest fed running more next =>
      have opened : crew.outClosed ≠ true := fun open_ => by simpa [running] using closed open_
      have before : ∀ other ∈ crew.received, task.error other = none := clean (by simp [running])
      refine ⟨fun unfailed other mem => ?_, fun returned => ?_, fun reason returned => ?_,
        fun open_ => absurd open_ opened⟩
      · rcases List.mem_append.mp mem with earlier | own
        · exact before other earlier
        · obtain rfl := List.mem_singleton.mp own
          cases error_eq : task.error other with
          | none => rfl
          | some reason => exact absurd (by simp [error_eq]) (unfailed reason)
      · simp at returned
      · obtain ⟨_, error_eq, same⟩ := Option.map_eq_some_iff.mp returned
        obtain rfl := Option.some.inj same
        exact ⟨job, List.mem_append_right _ (List.mem_singleton_self job), error_eq⟩
  | finish fed running all => exact ⟨fun _ => clean (by simp [running]), fun _ => all, nofun, fun _ => rfl⟩
  | closeOut returns opened => exact ⟨clean, all_received, failed, fun _ => by simp [returns]⟩
  | feed | closeQueue | take | leave | work | send | panic => exact ⟨clean, all_received, failed, closed⟩

theorem invariants_of_reaches (reaches : Reaches task (start jobs state) crew) :
    Accounted task jobs state crew ∧ Collected task crew := by
  induction reaches with
  | refl => exact ⟨accounted_start, collected_start⟩
  | tail _ step ih => exact ⟨ih.1.move step.2, ih.2.move step.2⟩

omit [DecidableEq κ] in
theorem Accounted.mem_of_received (accounted : Accounted task jobs state crew) {job : α}
    (mem : job ∈ crew.received) : job ∈ jobs := by
  rw [← Multiset.mem_coe, ← accounted.jobs_eq]
  exact Multiset.mem_add.mpr (.inr (Multiset.mem_coe.mpr mem))

omit [DecidableEq κ] in
theorem Accounted.card_eq (accounted : Accounted task jobs state crew) :
    crew.unfed.length + crew.queue.length + crew.held.card + crew.out.length + crew.received.length = jobs.length := by
  have card_eq := congrArg Multiset.card accounted.jobs_eq
  simpa only [Multiset.card_add, Multiset.coe_card] using card_eq

theorem Accounted.not_reporting (accounted : Accounted task jobs state crew)
    (all : crew.received.length = jobs.length) {w : κ} {job : α} : crew.workers w ≠ .reporting job := by
  intro ready
  have card_eq := accounted.card_eq
  rw [held_send ready, Multiset.card_add, Multiset.card_singleton] at card_eq
  omega

omit [DecidableEq κ] in
/-- A collector that returns has all reports, where there is one job or no job fails. -/
theorem Accounted.all_received (accounted : Accounted task jobs state crew) (collected : Collected task crew)
    (safe : jobs.length ≤ 1 ∨ ∀ job ∈ jobs, task.error job = none) (returned : crew.result.isSome = true) :
    crew.received.length = jobs.length := by
  obtain ⟨result, result_eq⟩ := Option.isSome_iff_exists.mp returned
  cases result with
  | none => exact (collected.all_received result_eq).trans accounted.total_eq
  | some reason =>
      obtain ⟨job, mem, error_eq⟩ := collected.failed reason result_eq
      have positive : 0 < crew.received.length := List.length_pos_of_mem mem
      have card_eq := accounted.card_eq
      rcases safe with short | clean
      · omega
      · simp [clean job (accounted.mem_of_received mem)] at error_eq

/-- No worker sends on a closed channel, where there is one job or no job fails. -/
theorem not_panicked (safe : jobs.length ≤ 1 ∨ ∀ job ∈ jobs, task.error job = none)
    (reaches : Reaches task (start jobs state) crew) : crew.panicked = false := by
  induction reaches with
  | refl => rfl
  | tail earlier step ih =>
      obtain ⟨alive, move⟩ := step
      obtain ⟨accounted, collected⟩ := invariants_of_reaches earlier
      cases move with
      | panic w ready closed =>
          exact absurd ready (accounted.not_reporting (accounted.all_received collected safe (collected.closed closed)))
      | _ => exact alive

/-! ## Runs -/

section

omit [Fintype κ]

theorem reaches_feed (crew : Crew κ σ α ε) (alive : crew.panicked = false) :
    Reaches task crew { crew with unfed := [], queue := crew.queue ++ crew.unfed } := by
  generalize unfed_eq : crew.unfed = unfed
  induction unfed generalizing crew with
  | nil =>
      rw [List.append_nil, ← unfed_eq]
      exact .refl
  | cons job rest ih =>
      refine .head ⟨alive, .feed unfed_eq⟩ ?_
      have later := ih { crew with unfed := rest, queue := crew.queue ++ [job] } alive rfl
      rwa [List.append_assoc] at later

/-- What a worker leaves behind that has done jobs and waits again. -/
def Crew.served (crew : Crew κ σ α ε) (task : Task σ α ε) (jobs rest : List α) : Crew κ σ α ε :=
  { crew with state := task.effects jobs crew.state, queue := rest, out := crew.out ++ jobs }

variable {rest : List α} {bad : α}

theorem reaches_serve_one (alive : crew.panicked = false)
    (opened : crew.outClosed = false) {w : κ} (idle : crew.workers w = .waiting) {job : α}
    (next : crew.queue = job :: rest) : Reaches task crew (crew.served task [job] rest) := by
  refine .head ⟨alive, .take w idle next⟩ (.head ⟨alive, .work w (Function.update_self ..)⟩
    (.head ⟨alive, .send w (Function.update_self ..) opened⟩ ?_))
  -- The worker waits again, so the workers are what they were.
  have workers_eq : Function.update (Function.update (Function.update crew.workers w (.working job)) w
      (.reporting job)) w .waiting = crew.workers := by
    rw [Function.update_idem, Function.update_idem, ← idle, Function.update_eq_self]
  have arrived : Reaches task { crew.served task [job] rest with
      workers := Function.update (Function.update (Function.update crew.workers w (.working job)) w
        (.reporting job)) w .waiting } (crew.served task [job] rest) := by
    rw [workers_eq]
    exact .refl
  exact arrived

theorem reaches_serve (alive : crew.panicked = false)
    (opened : crew.outClosed = false) {w : κ} (idle : crew.workers w = .waiting) {front : List α}
    (next : crew.queue = front ++ rest) : Reaches task crew (crew.served task front rest) := by
  induction front generalizing crew with
  | nil =>
      rw [Crew.served, List.append_nil, ← show crew.queue = rest from next]
      exact .refl
  | cons job front ih =>
      have first : Reaches task crew (crew.served task [job] (front ++ rest)) :=
        reaches_serve_one alive opened idle next
      have later : Reaches task (crew.served task [job] (front ++ rest))
          ((crew.served task [job] (front ++ rest)).served task front rest) :=
        ih alive opened idle rfl
      rw [Crew.served, Crew.served, List.append_assoc] at later
      exact first.trans later

theorem reaches_collect (alive : crew.panicked = false) (fed : crew.unfed = [])
    (running : crew.result = none) {front : List α} (next : crew.out = front ++ rest)
    (enough : crew.received.length + front.length ≤ crew.total)
    (clean : ∀ job ∈ front, task.error job = none) :
    Reaches task crew { crew with out := rest, received := crew.received ++ front } := by
  induction front generalizing crew with
  | nil =>
      rw [List.append_nil, ← show crew.out = rest from next]
      exact .refl
  | cons job front ih =>
      rw [List.forall_mem_cons] at clean
      rw [List.length_cons] at enough
      have first : Step task crew { crew with
          out := front ++ rest
          received := crew.received ++ [job]
          result := (task.error job).map some } := ⟨alive, .collect fed running (by omega) next⟩
      rw [clean.1, Option.map_none, ← running] at first
      have enough' : (crew.received ++ [job]).length + front.length ≤ crew.total := by
        simp only [List.length_append, List.length_singleton]
        omega
      have later : Reaches task
          { crew with out := front ++ rest, received := crew.received ++ [job] }
          { crew with out := rest, received := crew.received ++ [job] ++ front } :=
        ih alive fed running rfl enough' clean.2
      rw [List.append_assoc] at later
      exact .head first later

theorem exists_reaches_failed (alive : crew.panicked = false) (fed : crew.unfed = [])
    (running : crew.result = none) (enough : crew.received.length + crew.out.length ≤ crew.total)
    (reported : bad ∈ crew.out) (fails : task.error bad ≠ none) :
    ∃ rest received reason, Reaches task crew
      { crew with out := rest, received := received, result := some (some reason) } := by
  have found : (crew.out.find? fun job => (task.error job).isSome).isSome :=
    List.find?_isSome.mpr ⟨bad, reported, Option.isSome_iff_ne_none.mpr fails⟩
  obtain ⟨first, first_eq⟩ := Option.isSome_iff_exists.mp found
  obtain ⟨fails', front, rest, split, clean⟩ := List.find?_eq_some_iff_append.mp first_eq
  obtain ⟨reason, error_eq⟩ := Option.isSome_iff_exists.mp fails'
  rw [split, List.length_append, List.length_cons] at enough
  have collected : Reaches task crew { crew with out := first :: rest, received := crew.received ++ front } :=
    reaches_collect alive fed running split (by omega) fun job mem => by simpa using clean job mem
  have last : Move task { crew with out := first :: rest, received := crew.received ++ front }
      { crew with
        out := rest
        received := crew.received ++ front ++ [first]
        result := (task.error first).map some } := by
    refine .collect fed running ?_ rfl
    change (crew.received ++ front).length < crew.total
    rw [List.length_append]
    omega
  rw [error_eq] at last
  exact ⟨rest, _, reason, collected.tail ⟨alive, last⟩⟩

theorem exists_other (mem : bad ∈ jobs) (many : 2 ≤ jobs.length) :
    ∃ front other back, jobs = front ++ other :: back ∧ bad ∈ front ++ back := by
  obtain ⟨front, back, rfl⟩ := List.append_of_mem mem
  cases front with
  | nil =>
      cases back with
      | nil => simp at many
      | cons other back => exact ⟨[bad], other, back, rfl, List.mem_cons_self⟩
  | cons other front => exact ⟨[], other, front ++ bad :: back, rfl, by simp⟩

/-- Where a job fails beside another one, a worker that is slow with the other one panics. -/
theorem exists_panicked {a b : κ} (different : a ≠ b) (many : 2 ≤ jobs.length)
    (mem : bad ∈ jobs) (fails : task.error bad ≠ none) :
    ∃ crew : Crew κ σ α ε, Reaches task (start jobs state) crew ∧ crew.panicked = true := by
  obtain ⟨front, other, back, rfl, reported⟩ := exists_other mem many
  let fed : Crew κ σ α ε :=
    { start (front ++ other :: back) state with unfed := [], queue := front ++ other :: back }
  have to_fed : Reaches task (start (front ++ other :: back) state) fed := reaches_feed _ rfl
  -- Worker `a` does all jobs but one, which `b` takes and holds.
  let ahead := fed.served task front (other :: back)
  have to_ahead : Reaches task fed ahead := reaches_serve (w := a) rfl rfl rfl rfl
  let apart := { ahead with queue := back }.setWorker b (.working other)
  have to_apart : Step task ahead apart := ⟨rfl, .take b rfl rfl⟩
  let waits := apart.served task back []
  have to_waits : Reaches task apart waits :=
    reaches_serve (w := a) rfl rfl (Function.update_of_ne different _ _) (List.append_nil back).symm
  have enough : waits.received.length + waits.out.length ≤ waits.total := by
    change 0 + ([] ++ front ++ back).length ≤ (front ++ other :: back).length
    simp only [List.length_append, List.length_nil, List.length_cons]
    omega
  have waiting : bad ∈ waits.out := show bad ∈ [] ++ front ++ back from reported
  obtain ⟨rest, received, reason, to_failed⟩ := exists_reaches_failed rfl rfl rfl enough waiting fails
  -- The collector closes its channel before `b` is done.
  let closed : Crew κ σ α ε :=
    { waits with out := rest, received := received, result := some (some reason), outClosed := true }
  have to_closed : Reaches task (start (front ++ other :: back) state) closed :=
    ((((to_fed.trans to_ahead).tail to_apart).trans to_waits).trans to_failed).tail ⟨rfl, .closeOut rfl rfl⟩
  have works : Step task closed _ := ⟨rfl, .work b (Function.update_self ..)⟩
  exact ⟨_, (to_closed.tail works).tail ⟨rfl, .panic b (Function.update_self ..) rfl⟩, rfl⟩

theorem exists_returned (w : κ) (clean : ∀ job ∈ jobs, task.error job = none) :
    ∃ crew : Crew κ σ α ε, Reaches task (start jobs state) crew ∧ crew.returned = some none ∧
      crew.state = task.effects jobs state := by
  let fed : Crew κ σ α ε := { start jobs state with unfed := [], queue := jobs }
  have to_fed : Reaches task (start jobs state) fed := reaches_feed _ rfl
  let done := fed.served task jobs []
  have to_done : Reaches task fed done :=
    reaches_serve (w := w) rfl rfl rfl (List.append_nil jobs).symm
  let told : Crew κ σ α ε := { done with out := [], received := jobs }
  have to_told : Reaches task done told :=
    reaches_collect rfl rfl rfl (List.append_nil jobs).symm (Nat.zero_add jobs.length).le clean
  have finishes : Step task told _ := ⟨rfl, .finish rfl rfl rfl⟩
  have closes : Step task { told with result := some none } _ := ⟨rfl, .closeOut rfl rfl⟩
  have closes' : Step task { told with result := some none, outClosed := true } _ :=
    ⟨rfl, .closeQueue rfl rfl⟩
  exact ⟨_, ((((to_fed.trans to_done).trans to_told).tail finishes).tail closes).tail closes', rfl, rfl⟩

end

/-! ## What a return tells -/

omit [DecidableEq κ] in
theorem worked_le_held (crew : Crew κ σ α ε) : crew.worked ≤ crew.held := by
  refine Finset.sum_le_sum fun w _ => ?_
  cases crew.workers w <;> simp [Worker.worked, Worker.held]

/-- A collector that returns without an error has seen every job done, in some order. -/
theorem effects_of_returned (reaches : Reaches task (start jobs state) crew) (returned : crew.returned = some none) :
    (∀ job ∈ jobs, task.error job = none) ∧
      ∃ order : List α, order.Perm jobs ∧ crew.state = task.effects order state := by
  obtain ⟨accounted, collected⟩ := invariants_of_reaches reaches
  have result_eq : crew.result = some none := by
    rw [Crew.returned] at returned
    split at returned
    · exact returned
    · cases returned
  have all := (collected.all_received result_eq).trans accounted.total_eq
  have card_eq := accounted.card_eq
  have unheld : crew.held = 0 := Multiset.card_eq_zero.mp (by omega)
  have unworked : crew.worked = 0 := nonpos_iff_eq_zero.mp (unheld ▸ worked_le_held crew)
  have received_eq : (crew.received : Multiset α) = jobs := by
    rw [← accounted.jobs_eq, unheld, List.eq_nil_of_length_eq_zero (show crew.unfed.length = 0 by omega),
      List.eq_nil_of_length_eq_zero (show crew.queue.length = 0 by omega),
      List.eq_nil_of_length_eq_zero (show crew.out.length = 0 by omega)]
    simp
  obtain ⟨order, state_eq, order_eq⟩ := accounted.state_eq
  refine ⟨fun job mem => ?_, order, ?_, state_eq⟩
  · refine collected.clean (by simp [result_eq]) job ?_
    rw [← Multiset.mem_coe, received_eq]
    exact mem
  · rw [← Multiset.coe_eq_coe, order_eq, unworked, received_eq,
      List.eq_nil_of_length_eq_zero (show crew.out.length = 0 by omega)]
    simp

end SvpChain.Workers
