import SvpChain.Execution.Isolation
import SvpChain.Lib.Reorder
import SvpChain.Node.Deletions

/-!
# Changes of the validator set

`SRole` of package `native/srole`, in a block that is executed in parallel.  It does nothing through its
call context: it changes the role store at the moment its `Invoke` runs, in a first execution that may
come before those of earlier transactions.  A wrong address may end the process.
-/

namespace SvpChain.Execution

open Core Roles Reorder

/-! ## The chaincode -/

/-- `Input` of package `srole`. -/
structure SRoleInput where
  method : String
  addr : Bytes
  quota : UInt64
  point : String
  topic : String

/-- A block with the addresses that `SRole` was deployed at, which its `Init` allows in the genesis block
alone, and the formats that it uses. -/
structure RoleEnv extends BlkEnv where
  sroleAddrs : List Bytes
  /-- `json.Unmarshal`. -/
  unmarshal : Bytes → Except String SRoleInput
  formats : Formats
  /-- `hex.EncodeToString`. -/
  encodeHex : Bytes → String

namespace RoleEnv

variable (env : RoleEnv)

/-- `AddressToString`. -/
def addressToString (addr : Bytes) : String :=
  if addr.length = 20 then env.encodeHex addr
  else if addr.length = 32 then env.formats.encodeToString addr
  else ""

/-- A call of the role store. -/
def onTable (program : Program RoleError Table Unit) : Program String Table Unit :=
  Program.zoom id (fun table _ => table) RoleError.message program

/-- `SRole.Invoke`. -/
def invoke (input : Bytes) : Program String Table Unit :=
  match env.unmarshal input with
  | .error reason => Program.throw ("failed to parse input: " ++ reason)
  | .ok input =>
      if input.addr.length ≠ 20 ∧ input.addr.length ≠ 32 then Program.throw "unexpected address length"
      else if input.method = "delete" then
        onTable (Table.deleteValidator env.formats (env.addressToString input.addr))
      else if input.method = "add" then
        onTable (Table.addValidator env.formats (env.addressToString input.addr) input.point input.topic
          input.quota)
      else Program.throw "method not found"

/-- The error that `executeChaincode` makes of a panic. `none` is the end of the process. -/
def recovered : Fault → Option String
  | .panic message => some ("recovered from panic: " ++ message)
  | .nilDereference =>
      some "recovered from panic: runtime error: invalid memory address or nil pointer dereference"
  | .indexOutOfRange => some "recovered from panic: runtime error: index out of range"
  | .fatal _ | .diverges => none

/-- `Invoke` in `executeChaincode`, with the text of its error, which is empty for nil. -/
def execute (input : Bytes) (table : Table) : Option (String × Table) :=
  match env.invoke input table with
  | (.ok _, table') => some ("", table')
  | (.error (.error reason), table') => some (reason, table')
  | (.error (.fault reason), table') => (recovered reason).map fun text => (text, table')

/-- The effect of a transaction on the role store. -/
def effect (job : ℕ) (table : Table) : Option (String × Table) :=
  (env.txs[job]?).bind fun tx => env.execute tx.input table

/-- A transaction of the block that invokes `SRole`. -/
def IsSRole (job : ℕ) : Prop := ∃ tx, env.txs[job]? = some tx ∧ tx.codeAddr ∈ env.sroleAddrs

end RoleEnv

/-! ## Parallel execution -/

/-- The execution of a block with the role store. -/
structure RoleState where
  blk : BlkState
  roles : Table
  /-- The error texts of the calls of `Invoke`. A call that failed leaves the tracker of its transaction
  as one that succeeded does. -/
  results : ℕ → Option String
  /-- The transactions whose `Invoke` was called, in this order. -/
  calls : List ℕ

/-- A worker is about to call `Invoke`. -/
def Calls (env : RoleEnv) (blk : BlkState) (id job : ℕ) : Prop :=
  env.IsSRole job ∧ ∃ exe regTrk trk call answers, exe.stage = .running regTrk trk call answers ∧
    (blk.workers id = .executing job exe ∨ blk.workers id = .reexecuting job exe)

/-- One atomic action. The calls of the role store are taken as atomic, although it has no lock. -/
inductive RoleStep (env : RoleEnv) (state : RoleState) : RoleState → Prop where
  | other {blk : BlkState} (step : BlkStep env.toBlkEnv state.blk blk)
      (no_call : ∀ id job, Calls env state.blk id job → blk.workers id = state.blk.workers id) :
      RoleStep env state { state with blk := blk }
  | call {blk : BlkState} {id job : ℕ} {error : String} {roles : Table}
      (step : BlkStep env.toBlkEnv state.blk blk) (calls : Calls env state.blk id job)
      (moves : blk.workers id ≠ state.blk.workers id)
      (returns : env.effect job state.roles = some (error, roles)) :
      RoleStep env state
        ⟨blk, roles, Function.update state.results job (some error), state.calls ++ [job]⟩

/-- Runs of `executeConcurrent` that no fatal error ends, for every schedule. -/
def RoleRun (env : RoleEnv) (roles : Table) : RoleState → Prop :=
  Relation.ReflTransGen (RoleStep env) ⟨BlkState.initial env.toBlkEnv, roles, fun _ => none, []⟩

/-- The error text of the commit of a transaction. -/
def RoleState.txError (state : RoleState) (job : ℕ) : Option String :=
  (state.results job).or ((state.blk.txCommits[job]?.join).map TxCommit.error)

/-! ## Workers hold the transactions that are not merged -/

section

variable {env : BlkEnv} {blk blk' : BlkState} {count merged taken : ℕ} {commits : List TxCommit}

/-- A transaction was sent and taken from the channel. -/
def Taken (env : BlkEnv) (blk : BlkState) (job : ℕ) : Prop := job < blk.main.sent env ∧ job ∉ blk.jobCh

theorem BlkInv.taken_iff (inv : BlkInv env blk count merged taken commits) (job : ℕ) :
    Taken env blk job ↔ job < taken := by
  have taken_le := inv.taken_le
  rw [Taken, inv.jobCh_eq, List.mem_range'_1]
  omega

variable {id : ℕ} {worker : Worker} {exe : TxExecutor}

/-- What a step does to the jobs of the workers and to the merge index. -/
inductive Control (env : BlkEnv) (blk blk' : BlkState) : Prop where
  | same (jobs : ∀ id, (blk'.workers id).job = (blk.workers id).job) (idx : blk'.mergeIdx = blk.mergeIdx)
      (taken : ∀ job, Taken env blk' job ↔ Taken env blk job)
  | take {id job : ℕ} (id_lt : id < env.concurrentLimit) (idle : (blk.workers id).job = none)
      (worker_eq : blk'.workers id = .executing job newTxExecutor)
      (others : ∀ other, other ≠ id → blk'.workers other = blk.workers other)
      (idx : blk'.mergeIdx = blk.mergeIdx) (queued : ¬ Taken env blk job)
      (taken : ∀ other, other ≠ job → (Taken env blk' other ↔ Taken env blk other))
  | increase {id job : ℕ} (increasing : blk.workers id = .increasing job)
      (others : ∀ other, other ≠ id → blk'.workers other = blk.workers other)
      (idx : blk'.mergeIdx = addInt32 blk.mergeIdx) (taken : ∀ job, Taken env blk' job ↔ Taken env blk job)

theorem BlkStep.control (step : BlkStep env blk blk') : Control env blk blk' := by
  cases step with
  | send at_main _ _ =>
      refine .same (fun _ => rfl) rfl fun job => ?_
      simp only [Taken, at_main, Main.sent, List.mem_append, List.mem_singleton]
      grind
  | sent at_main => exact .same (fun _ => rfl) rfl fun job => by simp only [Taken, at_main, Main.sent]
  | receive at_main _ =>
      refine .same (fun _ => rfl) rfl fun job => ?_
      simp only [Taken, at_main, BlkState.setSub]
      split <;> rfl
  | unsubscribeMain at_main _ =>
      exact .same (fun _ => rfl) rfl fun job => by simp only [Taken, at_main, Main.sent, BlkState.setSub]
  | @take id job jobs id_lt at_worker queued =>
      refine .take id_lt (by rw [at_worker]; rfl) (Function.update_self _ _ _)
        (fun other different => Function.update_of_ne different _ _) rfl ?_ fun other different => ?_
      · exact fun sent => sent.2 (queued ▸ List.mem_cons_self)
      · have same_queue : other ∈ job :: jobs ↔ other ∈ jobs := by simp [different]
        simp only [Taken, queued, same_queue]
        rfl
  | execute _ at_worker _ | commit _ at_worker _ | subscribe _ at_worker _ | load _ at_worker
  | event _ at_worker _ | unsubscribe _ at_worker _ | reexecute _ at_worker _ | recommit _ at_worker _
  | merge _ at_worker _ | lock _ at_worker _ _ | emit _ at_worker _ | unlock _ at_worker =>
      exact .same (job_update at_worker rfl) rfl fun _ => Iff.rfl
  | check _ at_worker =>
      refine .same (job_update at_worker ?_) rfl fun _ => Iff.rfl
      split <;> rfl
  | increase _ at_worker =>
      exact .increase at_worker (fun other different => Function.update_of_ne different _ _) rfl fun _ => Iff.rfl

theorem BlkInv.count_unique {count' : ℕ} (inv : BlkInv env blk count merged taken commits)
    (idx : Int.bmod count' (2 ^ 32) = blk.mergeIdx) (count_le' : count' ≤ 2 ^ 31) : count = count' := by
  have equal := inv.mergeIdx_eq.symm.trans idx.symm
  have count_le := inv.count_le
  rw [Int.bmod_def, Int.bmod_def] at equal
  split at equal <;> split at equal <;> omega

/-- Every transaction that is taken and not counted as merged is held by a worker. -/
def Covered (env : BlkEnv) (blk : BlkState) : Prop :=
  ∀ count merged taken commits, BlkInv env blk count merged taken commits →
    ∀ job, count ≤ job → job < taken →
      ∃ id < env.concurrentLimit, (blk.workers id).job = some job

theorem BlkRun.covered (run : BlkRun env blk) : Covered env blk := by
  induction run with
  | refl =>
      intro count merged taken commits inv job _ job_lt
      have none_taken : ¬ Taken env (BlkState.initial env) job := by
        by_cases empty : env.txs.length = 0 <;> simp [Taken, BlkState.initial, Main.sent, empty]
      exact absurd ((inv.taken_iff job).mpr job_lt) none_taken
  | @tail blk blk' before step ih =>
      intro count' merged' taken' commits' inv' job ge lt
      obtain ⟨count, merged, taken, commits, inv⟩ := BlkRun.inv before
      have covered (taken_job : Taken env blk job) (ge : count ≤ job) :=
        ih count merged taken commits inv job ge ((inv.taken_iff job).mp taken_job)
      have taken_job := (inv'.taken_iff job).mpr lt
      cases step.control with
      | same jobs idx taken_iff =>
          obtain rfl := inv.count_unique (inv'.mergeIdx_eq.symm.trans idx) inv'.count_le
          obtain ⟨id, id_lt, held⟩ := covered ((taken_iff job).mp taken_job) ge
          exact ⟨id, id_lt, (jobs id).trans held⟩
      | @take id new_job id_lt idle worker_eq others idx _ taken_iff =>
          obtain rfl := inv.count_unique (inv'.mergeIdx_eq.symm.trans idx) inv'.count_le
          by_cases new : job = new_job
          · exact ⟨id, id_lt, by rw [worker_eq, new]; rfl⟩
          · obtain ⟨other, other_lt, held⟩ := covered ((taken_iff job new).mp taken_job) ge
            refine ⟨other, other_lt, ?_⟩
            rw [others other]
            · exact held
            · rintro rfl
              rw [idle] at held
              cases held
      | @increase id own_job increasing others idx taken_iff =>
          have own := inv.turn id (by rw [increasing]; trivial)
          rw [increasing] at own
          have count_eq : count' = count + 1 := by
            refine inv'.count_unique ?_ own.2
            rw [idx, inv.mergeIdx_eq, addInt32_bmod]
          obtain ⟨other, other_lt, held⟩ := covered ((taken_iff job).mp taken_job) (by omega)
          refine ⟨other, other_lt, ?_⟩
          rw [others other]
          · exact held
          · rintro rfl
            rw [increasing] at held
            have same := Option.some.inj (held.symm.trans own.1)
            omega

/-- No transaction is taken while one that is `concurrentLimit` or more before it is held. -/
theorem BlkRun.taken_lt (run : BlkRun env blk) {job other : ℕ} (held : (blk.workers id).job = some job)
    (taken_other : Taken env blk other) : other < job + env.concurrentLimit := by
  obtain ⟨count, merged, taken, commits, inv⟩ := BlkRun.inv run
  have covered := run.covered count merged taken commits inv
  have count_le := (inv.held id job held).1
  have other_lt := (inv.taken_iff other).mp taken_other
  by_contra far
  -- more transactions than workers are held
  have holder (offset : ℕ) (inside : offset < env.concurrentLimit + 1) :
      ∃ id < env.concurrentLimit, (blk.workers id).job = some (job + offset) :=
    covered (job + offset) (by omega) (by omega)
  choose! worker worker_lt worker_job using holder
  obtain ⟨left, left_mem, right, right_mem, different, same⟩ :=
    Finset.exists_ne_map_eq_of_card_lt_of_maps_to (s := Finset.range (env.concurrentLimit + 1))
      (t := Finset.range env.concurrentLimit) (f := worker) (by simp)
      fun offset mem => by simpa using worker_lt offset (by simpa using mem)
  have left_job := worker_job left (by simpa using left_mem)
  rw [same, worker_job right (by simpa using right_mem)] at left_job
  have := Option.some.inj left_job
  omega

/-! ## Executions of the chaincode -/

/-- The execution has not returned. -/
def Unfinished (exe : TxExecutor) : Prop := ∀ error, exe.stage ≠ .finished error

/-- A worker is in the first execution of a transaction. -/
def Worker.Runs : Worker → ℕ → Prop
  | .executing own exe, job => own = job ∧ Unfinished exe
  | _, _ => False

/-- A transaction has not run to the end of its first execution. -/
def Waiting (env : BlkEnv) (blk : BlkState) (job : ℕ) : Prop :=
  ¬ Taken env blk job ∨ ∃ id, (blk.workers id).Runs job

/-- A worker ends the first execution of a transaction. -/
def Ends (env : BlkEnv) (blk blk' : BlkState) (id job : ℕ) : Prop :=
  ∃ exe tx, blk.workers id = .executing job exe ∧ Unfinished exe ∧ env.txs[job]? = some tx ∧
    blk'.workers id = .executing job (exe.step env.toBlockEnv tx blk.rootTrk.trk) ∧
    ¬ Unfinished (exe.step env.toBlockEnv tx blk.rootTrk.trk)

theorem step_of_finished (finished : ¬ Unfinished exe) (env : BlockEnv) (tx : Transaction)
    (root : StateTracker) : exe.step env tx root = exe := by
  obtain ⟨error, stage_eq⟩ := not_forall_not.mp finished
  rw [TxExecutor.step, stage_eq]

theorem Worker.Runs.job {job : ℕ} (runs : worker.Runs job) : worker.job = some job := by
  cases worker with
  | executing => exact congrArg some runs.1
  | _ => exact runs.elim

theorem runs_update_iff {old : Worker} (at_worker : blk.workers id = old) {job : ℕ}
    (idle : ¬ old.Runs job) (idle' : ¬ worker.Runs job) (other : ℕ) :
    (Function.update blk.workers id worker other).Runs job ↔ (blk.workers other).Runs job := by
  by_cases own : other = id
  · subst own
    rw [Function.update_self, at_worker]
    exact iff_of_false idle' idle
  · rw [Function.update_of_ne own]

theorem BlkStep.runs (step : BlkStep env blk blk') (job : ℕ) :
    (∀ id, (blk'.workers id).Runs job ↔ (blk.workers id).Runs job) ∨
      (¬ Taken env blk job ∧ ∃ id, blk'.workers id = .executing job newTxExecutor) ∨
        ∃ id, Ends env blk blk' id job := by
  cases step with
  | send | sent | receive | unsubscribeMain => exact Or.inl fun _ => Iff.rfl
  | @take id new_job jobs id_lt at_worker queued =>
      by_cases own : new_job = job
      · subst own
        refine Or.inr (Or.inl ⟨fun ⟨_, absent⟩ => absent ?_, id, Function.update_self _ _ _⟩)
        exact queued ▸ List.mem_cons_self
      · exact Or.inl (runs_update_iff at_worker not_false fun runs => own runs.1)
  | @execute id own_job exe tx id_lt at_worker job_tx =>
      by_cases ends : own_job = job ∧ Unfinished exe ∧ ¬ Unfinished (exe.step env.toBlockEnv tx blk.rootTrk.trk)
      · obtain ⟨rfl, unfinished, finished⟩ := ends
        exact Or.inr (Or.inr ⟨id, exe, tx, at_worker, unfinished, job_tx, Function.update_self _ _ _, finished⟩)
      · refine Or.inl fun other => ?_
        change (Function.update blk.workers id _ other).Runs job ↔ _
        by_cases own : other = id
        · subst own
          rw [Function.update_self, at_worker]
          refine and_congr_right fun same => ⟨fun unfinished => ?_, fun unfinished => ?_⟩
          · by_contra finished
            exact finished (step_of_finished finished env.toBlockEnv tx _ ▸ unfinished)
          · by_contra finished
            exact ends ⟨same, unfinished, finished⟩
        · rw [Function.update_of_ne own]
  | @commit id own_job txTrk error tx id_lt at_worker job_tx =>
      exact Or.inl (runs_update_iff at_worker (fun runs => runs.2 error rfl) not_false)
  | subscribe _ at_worker _ | load _ at_worker | event _ at_worker _ | unsubscribe _ at_worker _
  | reexecute _ at_worker _ | recommit _ at_worker _ | merge _ at_worker _ | lock _ at_worker _ _
  | emit _ at_worker _ | unlock _ at_worker | increase _ at_worker =>
      exact Or.inl (runs_update_iff at_worker not_false not_false)
  | check _ at_worker =>
      refine Or.inl (runs_update_iff at_worker not_false ?_)
      split <;> exact not_false

theorem BlkStep.workers_eq (step : BlkStep env blk blk') :
    ∃ id, ∀ other, other ≠ id → blk'.workers other = blk.workers other := by
  cases step with
  | send | sent | receive | unsubscribeMain => exact ⟨0, fun _ _ => rfl⟩
  | @take id | @execute id | @commit id | @subscribe id | @load id | @event id | @unsubscribe id
  | @check id | @reexecute id | @recommit id | @merge id | @increase id | @lock id | @emit id
  | @unlock id => exact ⟨id, fun _ different => Function.update_of_ne different _ _⟩

theorem BlkStep.waiting_iff (step : BlkStep env blk blk') {job : ℕ}
    (no_end : ∀ id, ¬ Ends env blk blk' id job) : Waiting env blk' job ↔ Waiting env blk job := by
  rcases step.runs job with same | ⟨queued, id, new⟩ | ⟨id, ends⟩
  · have taken_iff : Taken env blk' job ↔ Taken env blk job := by
      cases step.control with
      | same _ _ taken_iff | increase _ _ _ taken_iff => exact taken_iff job
      | @take id new_job _ idle worker_eq _ _ _ taken_iff =>
          refine taken_iff job ?_
          rintro rfl
          have runs : (blk'.workers id).Runs job := by
            rw [worker_eq]
            exact ⟨rfl, fun _ => nofun⟩
          cases idle.symm.trans ((same id).mp runs).job
    exact or_congr (not_congr taken_iff) (exists_congr same)
  · refine iff_of_true (Or.inr ⟨id, ?_⟩) (Or.inl queued)
    rw [new]
    exact ⟨rfl, fun _ => nofun⟩
  · exact absurd ends (no_end id)

theorem Ends.not_waiting {job : ℕ} (run' : BlkRun env blk') (ends : Ends env blk blk' id job) :
    ¬ Waiting env blk' job := by
  obtain ⟨exe, tx, -, -, -, worker_eq, finished⟩ := ends
  obtain ⟨count, merged, taken, commits, inv⟩ := run'.inv
  have held : (blk'.workers id).job = some job := by
    rw [worker_eq]
    rfl
  rintro (queued | ⟨other, runs⟩)
  · exact queued ((inv.taken_iff job).mpr (inv.held id job held).2)
  · obtain rfl := inv.distinct id other job held runs.job
    rw [worker_eq] at runs
    exact finished runs.2

theorem Ends.waiting_iff {job other : ℕ} (step : BlkStep env blk blk') (ends : Ends env blk blk' id job)
    (different : other ≠ job) : Waiting env blk' other ↔ Waiting env blk other := by
  obtain ⟨moved, others_eq⟩ := step.workers_eq
  have moves {id job : ℕ} (ends : Ends env blk blk' id job) : id = moved := by
    by_contra other
    obtain ⟨exe, tx, at_worker, unfinished, -, worker_eq, finished⟩ := ends
    rw [others_eq id other, at_worker] at worker_eq
    have same := (Worker.executing.inj worker_eq).2
    exact finished (same ▸ unfinished)
  refine step.waiting_iff fun id' ends' => different ?_
  obtain rfl := (moves ends').trans (moves ends).symm
  obtain ⟨_, _, at_worker, _⟩ := ends
  obtain ⟨_, _, at_worker', _⟩ := ends'
  exact (Worker.executing.inj (at_worker'.symm.trans at_worker)).1

theorem BlkStep.executing (step : BlkStep env blk blk') {job : ℕ}
    (at_worker : blk.workers id = .executing job exe) (unfinished : Unfinished exe)
    (moves : blk'.workers id ≠ blk.workers id) : ∃ tx, env.txs[job]? = some tx ∧
      blk'.workers id = .executing job (exe.step env.toBlockEnv tx blk.rootTrk.trk) := by
  have own {moved : ℕ} {worker : Worker} (changed : Function.update blk.workers moved worker id ≠ blk.workers id) :
      id = moved := by
    by_contra other
    exact changed (Function.update_of_ne other _ _)
  cases step with
  | send | sent | receive | unsubscribeMain => exact absurd rfl moves
  | execute _ at_own job_tx =>
      obtain rfl := own moves
      obtain ⟨rfl, rfl⟩ := Worker.executing.inj (at_worker.symm.trans at_own)
      exact ⟨_, job_tx, Function.update_self _ _ _⟩
  | commit _ at_own _ =>
      obtain rfl := own moves
      obtain ⟨-, rfl⟩ := Worker.executing.inj (at_worker.symm.trans at_own)
      exact absurd rfl (unfinished _)
  | take _ at_own _ | subscribe _ at_own _ | load _ at_own | event _ at_own _ | unsubscribe _ at_own _
  | check _ at_own | reexecute _ at_own _ | recommit _ at_own _ | merge _ at_own _ | lock _ at_own _ _
  | emit _ at_own _ | unlock _ at_own | increase _ at_own =>
      obtain rfl := own moves
      cases at_worker.symm.trans at_own

theorem BlkStep.reexecuting (step : BlkStep env blk blk') {job : ℕ}
    (at_worker : blk'.workers id = .reexecuting job exe) : (∃ exe', blk.workers id = .reexecuting job exe') ∨
      ∃ exe', blk.workers id = .ready .checking job exe' ∧ blk.rootTrk.trk.hasDependencyChanges exe'.txTrk = true := by
  have own {moved : ℕ} {worker : Worker} (moved_worker : Function.update blk.workers moved worker id =
      .reexecuting job exe) : (id = moved ∧ worker = .reexecuting job exe) ∨
        blk.workers id = .reexecuting job exe := by
    by_cases same : id = moved
    · subst same
      exact Or.inl ⟨rfl, (Function.update_self _ _ _).symm.trans moved_worker⟩
    · exact Or.inr ((Function.update_of_ne same _ _).symm.trans moved_worker)
  cases step with
  | send | sent | receive | unsubscribeMain => exact Or.inl ⟨exe, at_worker⟩
  | reexecute _ at_own _ =>
      rcases own at_worker with ⟨rfl, new⟩ | old
      · obtain ⟨rfl, -⟩ := Worker.reexecuting.inj new
        exact Or.inl ⟨_, at_own⟩
      · exact Or.inl ⟨exe, old⟩
  | check _ at_own =>
      rcases own at_worker with ⟨rfl, new⟩ | old
      · split at new
        · next dirty =>
            obtain ⟨rfl, -⟩ := Worker.reexecuting.inj new
            exact Or.inr ⟨_, at_own, dirty⟩
        · cases new
      · exact Or.inl ⟨exe, old⟩
  | take _ at_own _ | execute _ at_own _ | commit _ at_own _ | subscribe _ at_own _ | load _ at_own
  | event _ at_own _ | unsubscribe _ at_own _ | recommit _ at_own _ | merge _ at_own _ | lock _ at_own _ _
  | emit _ at_own _ | unlock _ at_own | increase _ at_own =>
      rcases own at_worker with ⟨_, new⟩ | old
      · cases new
      · exact Or.inl ⟨exe, old⟩

end

/-! ## Invocations of the chaincode leave the state of the block -/

/-- `SRole` is deployed before the block at the addresses that are invoked, and not again in it. -/
structure Deployed (env : RoleEnv) : Prop where
  instance_eq : ∀ addr ∈ env.sroleAddrs, ∃ cc,
    env.codeRegistry.getInstance (env.state (codeRegistryAddr ++ addr)) = .ok cc ∧
      ∀ ctx answers, cc.invoke ctx answers = .finish none
  nonempty : ∀ addr ∈ env.sroleAddrs, addr.length ≠ 0
  once : ∀ tx ∈ env.txs, tx.codeAddr.length = 0 → tx.hash ∉ env.sroleAddrs

/-- The execution of an invocation of `SRole`: it reads the registry entry and writes nothing. -/
structure Harmless (addr : Bytes) (exe : TxExecutor) : Prop where
  keyPrefix_eq : exe.txTrk.keyPrefix = []
  changes_eq : exe.txTrk.changes = ∅
  dependencies : ∀ dep ∈ exe.txTrk.dependencies, dep = codeRegistryAddr ++ addr
  running : ∀ regTrk trk call answers, exe.stage = .running regTrk trk call answers →
    regTrk = none ∧ trk.changes = ∅ ∧ call answers = .finish none

namespace Harmless

theorem new (addr : Bytes) : Harmless addr newTxExecutor where
  keyPrefix_eq := rfl
  changes_eq := rfl
  dependencies _ absurd := by cases absurd
  running _ _ _ _ absurd := by cases absurd

theorem merge_eq {txTrk child : StateTracker} (empty : child.changes = ∅) : txTrk.merge child = txTrk := by
  rw [StateTracker.merge, empty]
  rfl

variable {env : RoleEnv} {addr : Bytes} {exe : TxExecutor} {tx : Transaction} {root : RootTracker}

theorem step_start (deployed : Deployed env) (harmless : Harmless tx.codeAddr exe)
    (invokes : tx.codeAddr ∈ env.sroleAddrs) (stage_eq : exe.stage = .start)
    (unchanged : codeRegistryAddr ++ tx.codeAddr ∉ root.trk.changes) :
    ∃ cc : Chaincode, (∀ ctx answers, cc.invoke ctx answers = .finish none) ∧ exe.step env.toBlockEnv tx root.trk =
        ⟨exe.txTrk.setDependency (codeRegistryAddr ++ tx.codeAddr), .running none (spawn tx.codeAddr)
          (cc.invoke (makeCallContext env.toBlockEnv tx tx.input)) []⟩ := by
  obtain ⟨cc, instance_eq, finishes⟩ := deployed.instance_eq _ invokes
  have read : (rootGetState env.toBlockEnv root.trk (codeRegistryAddr ++ tx.codeAddr) ()).1 =
      env.state (codeRegistryAddr ++ tx.codeAddr) := by
    have value_eq := readRoot_eq env.toBlockEnv root (codeRegistryAddr ++ tx.codeAddr)
    rw [AList.lookup_eq_none.mpr unchanged] at value_eq
    exact value_eq
  obtain ⟨text_eq, txTrk_eq⟩ := childGetState_spawn env.toBlockEnv root.trk harmless.keyPrefix_eq
    harmless.changes_eq codeRegistryAddr tx.codeAddr
  refine ⟨cc, finishes, ?_⟩
  rw [TxExecutor.step, stage_eq]
  simp only [if_neg (deployed.nonempty _ invokes), TxExecutor.startInvoke]
  rw [text_eq, read, instance_eq, txTrk_eq]

theorem step_running (harmless : Harmless addr exe) {regTrk : Option StateTracker} {trk : StateTracker}
    {call : ChaincodeCall} {answers : List (Option Bytes)} (stage_eq : exe.stage = .running regTrk trk call answers) :
    exe.step env.toBlockEnv tx root.trk = ⟨exe.txTrk, .finished ""⟩ := by
  obtain ⟨rfl, empty, finishes⟩ := harmless.running _ _ _ _ stage_eq
  rw [TxExecutor.step, stage_eq]
  simp only [finishes, TxExecutor.act]
  rw [merge_eq empty]

theorem step (deployed : Deployed env) (harmless : Harmless tx.codeAddr exe) (invokes : tx.codeAddr ∈ env.sroleAddrs)
    (unchanged : codeRegistryAddr ++ tx.codeAddr ∉ root.trk.changes) :
    Harmless tx.codeAddr (exe.step env.toBlockEnv tx root.trk) := by
  cases stage_eq : exe.stage with
  | start =>
      obtain ⟨cc, finishes, step_eq⟩ := harmless.step_start deployed invokes stage_eq unchanged
      rw [step_eq]
      refine ⟨?_, ?_, fun dep mem => ?_, ?_⟩
      · exact (StateTracker.keyPrefix_setDependency _ _).trans harmless.keyPrefix_eq
      · exact (StateTracker.changes_setDependency _ _).trans harmless.changes_eq
      · unfold StateTracker.setDependency at mem
        split at mem
        · rcases List.mem_cons.mp mem with rfl | old
          · rfl
          · exact harmless.dependencies dep old
        · exact harmless.dependencies dep mem
      · rintro regTrk trk call answers ⟨⟩
        exact ⟨rfl, rfl, finishes _ _⟩
  | running regTrk trk call answers =>
      rw [harmless.step_running stage_eq]
      exact ⟨harmless.keyPrefix_eq, harmless.changes_eq, harmless.dependencies, fun _ _ _ _ absurd => by cases absurd⟩
  | finished error =>
      rw [step_of_finished fun unfinished => unfinished error stage_eq]
      exact harmless

theorem hasDependencyChanges (harmless : Harmless addr exe)
    (unchanged : codeRegistryAddr ++ addr ∉ root.trk.changes) : root.trk.hasDependencyChanges exe.txTrk = false := by
  rw [StateTracker.hasDependencyChanges, List.any_eq_false]
  intro dep mem
  rw [harmless.dependencies dep mem, root.keyPrefix_eq, List.nil_append, AList.lookup_eq_none.mpr unchanged]
  exact Bool.false_ne_true

end Harmless

/-! ## Runs with the role store -/

/-- What holds while a block is executed, from a role store on. -/
structure RoleInv (env : RoleEnv) (roles : Table) (state : RoleState) : Prop where
  run : BlkRun env.toBlkEnv state.blk
  performed : performAll env.effect state.calls (fun _ => none, roles) = some (state.results, state.roles)
  nodup : state.calls.Nodup
  near : Near env.concurrentLimit state.calls
  called_iff : ∀ job, job ∈ state.calls ↔ env.IsSRole job ∧ ¬ Waiting env.toBlkEnv state.blk job
  harmless : ∀ id job exe tx, (state.blk.workers id).execution = some (job, exe) →
    env.txs[job]? = some tx → tx.codeAddr ∈ env.sroleAddrs → Harmless tx.codeAddr exe
  once : ∀ id job exe, state.blk.workers id = .reexecuting job exe → ¬ env.IsSRole job

section

variable {env : RoleEnv} {roles : Table} {state state' : RoleState} {blk : BlkState}

theorem RoleInv.initial (env : RoleEnv) (roles : Table) :
    RoleInv env roles ⟨BlkState.initial env.toBlkEnv, roles, fun _ => none, []⟩ where
  run := .refl
  performed := rfl
  nodup := List.nodup_nil
  near := List.Pairwise.nil
  called_iff job := by
    have queued : ¬ Taken env.toBlkEnv (BlkState.initial env.toBlkEnv) job := by
      by_cases empty : env.txs.length = 0 <;> simp [Taken, BlkState.initial, Main.sent, empty]
    exact iff_of_false List.not_mem_nil fun called => called.2 (Or.inl queued)
  harmless _ _ _ _ absurd := by cases absurd
  once _ _ _ absurd := by cases absurd

variable {deployments_before : List Bytes} (nil_fails : NilFails env.codeRegistry)
  (ledger : Ledger env.codeRegistry env.state deployments_before)
  (hashed : ∀ tx ∈ env.txs, ContractHash tx.hash) (deployed : Deployed env)

include nil_fails ledger hashed deployed in
/-- No transaction of the block changes the registry entry of `SRole`. -/
theorem BlkRun.entry_unchanged (run : BlkRun env.toBlkEnv blk) {addr : Bytes} (addr_mem : addr ∈ env.sroleAddrs) :
    codeRegistryAddr ++ addr ∉ blk.rootTrk.trk.changes := by
  intro changed
  obtain ⟨count, merged, taken, commits, inv⟩ := run.inv
  obtain ⟨stored, deployed_ok⟩ := ledger.entries nil_fails
  have here := inv.sequential.entry_of_changed nil_fails stored deployed_ok
    (fun tx mem => hashed tx (List.mem_of_mem_take mem)) changed
  obtain ⟨tx, tx_mem, deploys, rfl⟩ := deployment_of_mem here
  exact deployed.once tx (List.mem_of_mem_take tx_mem) deploys addr_mem

variable {id : ℕ}

include nil_fails ledger hashed deployed in
theorem RoleInv.harmless_step (inv : RoleInv env roles state) (step : BlkStep env.toBlkEnv state.blk blk)
    {job : ℕ} {exe : TxExecutor} {tx : Transaction} (holds : (blk.workers id).execution = some (job, exe))
    (job_tx : env.txs[job]? = some tx) (invokes : tx.codeAddr ∈ env.sroleAddrs) : Harmless tx.codeAddr exe := by
  rcases step.execution holds with kept | rfl | ⟨before, tx', held, job_tx', rfl⟩
  · exact inv.harmless id job exe tx kept job_tx invokes
  · exact .new _
  · obtain rfl := Option.some.inj (job_tx'.symm.trans job_tx)
    exact (inv.harmless id job before tx' held job_tx invokes).step deployed invokes
      (BlkRun.entry_unchanged nil_fails ledger hashed deployed inv.run invokes)

include nil_fails ledger hashed deployed in
theorem RoleInv.once_step (inv : RoleInv env roles state) (step : BlkStep env.toBlkEnv state.blk blk)
    {job : ℕ} {exe : TxExecutor} (at_worker : blk.workers id = .reexecuting job exe) : ¬ env.IsSRole job := by
  rcases step.reexecuting at_worker with ⟨exe', before⟩ | ⟨exe', checks, dirty⟩
  · exact inv.once id job exe' before
  · rintro ⟨tx, job_tx, invokes⟩
    have harmless := inv.harmless id job exe' tx (by rw [checks]; rfl) job_tx invokes
    have clean := harmless.hasDependencyChanges
      (BlkRun.entry_unchanged nil_fails ledger hashed deployed inv.run invokes)
    exact Bool.false_ne_true (clean.symm.trans dirty)

include nil_fails ledger hashed deployed in
theorem RoleInv.calls_of_ends (inv : RoleInv env roles state) {job : ℕ} (is_srole : env.IsSRole job)
    (ends : Ends env.toBlkEnv state.blk blk id job) :
    Calls env state.blk id job ∧ blk.workers id ≠ state.blk.workers id := by
  obtain ⟨exe, tx, at_worker, unfinished, job_tx, worker_eq, finished⟩ := ends
  obtain ⟨tx', job_tx', invokes⟩ := is_srole
  obtain rfl := Option.some.inj (job_tx'.symm.trans job_tx)
  have harmless := inv.harmless id job exe tx' (by rw [at_worker]; rfl) job_tx invokes
  cases stage_eq : exe.stage with
  | start =>
      obtain ⟨cc, -, step_eq⟩ := harmless.step_start deployed invokes stage_eq
        (BlkRun.entry_unchanged nil_fails ledger hashed deployed inv.run invokes)
      refine absurd (fun error => ?_) finished
      rw [step_eq]
      nofun
  | running regTrk trk call answers =>
      refine ⟨⟨⟨tx', job_tx, invokes⟩, exe, regTrk, trk, call, answers, stage_eq, Or.inl at_worker⟩, ?_⟩
      intro stays
      rw [worker_eq, at_worker] at stays
      have same := (Worker.executing.inj stays).2
      exact finished (same.symm ▸ unfinished)
  | finished error => exact absurd stage_eq (unfinished error)

theorem RoleInv.ends_of_calls (inv : RoleInv env roles state) {job : ℕ}
    (step : BlkStep env.toBlkEnv state.blk blk) (calls : Calls env state.blk id job)
    (moves : blk.workers id ≠ state.blk.workers id) : Ends env.toBlkEnv state.blk blk id job := by
  obtain ⟨is_srole, exe, regTrk, trk, call, answers, stage_eq, at_worker | again⟩ := calls
  · have unfinished : Unfinished exe := fun error absurd => by
      rw [stage_eq] at absurd
      cases absurd
    obtain ⟨tx, job_tx, worker_eq⟩ := step.executing at_worker unfinished moves
    obtain ⟨tx', job_tx', invokes⟩ := is_srole
    obtain rfl := Option.some.inj (job_tx'.symm.trans job_tx)
    have harmless := inv.harmless id job exe tx' (by rw [at_worker]; rfl) job_tx invokes
    refine ⟨exe, tx', at_worker, unfinished, job_tx, worker_eq, fun still => still "" ?_⟩
    rw [harmless.step_running stage_eq]
  · exact absurd is_srole (inv.once id job exe again)

include nil_fails ledger hashed deployed in
theorem RoleInv.step (inv : RoleInv env roles state) (step : RoleStep env state state') : RoleInv env roles state' := by
  cases step with
  | @other blk step no_call =>
      refine ⟨inv.run.tail step, inv.performed, inv.nodup, inv.near, fun job => ?_, ?_, ?_⟩
      · refine (inv.called_iff job).trans (and_congr_right fun is_srole => not_congr ?_)
        refine (step.waiting_iff fun id ends => ?_).symm
        obtain ⟨calls, moves⟩ := inv.calls_of_ends nil_fails ledger hashed deployed is_srole ends
        exact moves (no_call id job calls)
      · exact fun _ _ _ _ => inv.harmless_step nil_fails ledger hashed deployed step
      · exact fun _ _ _ => inv.once_step nil_fails ledger hashed deployed step
  | @call blk id job error roles' step calls moves returns =>
      have ends := inv.ends_of_calls step calls moves
      have ⟨exe, tx, at_worker, unfinished, _⟩ := ends
      have is_srole := calls.1
      have new : job ∉ state.calls := fun called => by
        refine ((inv.called_iff job).mp called).2 (Or.inr ⟨id, ?_⟩)
        rw [at_worker]
        exact ⟨rfl, unfinished⟩
      have run' := inv.run.tail step
      refine ⟨run', ?_, ?_, ?_, fun other => ?_, ?_, ?_⟩
      · rw [performAll_append, inv.performed]
        simp [performAll, perform, returns]
      · rw [← List.concat_eq_append]
        exact inv.nodup.concat new
      · refine List.pairwise_append.mpr ⟨inv.near, List.pairwise_singleton _ _, fun first called last own => ?_⟩
        obtain rfl := List.mem_singleton.mp own
        have held : (state.blk.workers id).job = some last := by
          rw [at_worker]
          rfl
        refine inv.run.taken_lt held ?_
        by_contra queued
        exact ((inv.called_iff first).mp called).2 (Or.inl queued)
      · rw [List.mem_append, List.mem_singleton]
        by_cases own : other = job
        · subst own
          exact iff_of_true (Or.inr rfl) ⟨is_srole, ends.not_waiting run'⟩
        · rw [or_iff_left own, inv.called_iff other, ends.waiting_iff step own]
      · exact fun _ _ _ _ => inv.harmless_step nil_fails ledger hashed deployed step
      · exact fun _ _ _ => inv.once_step nil_fails ledger hashed deployed step

include nil_fails ledger hashed deployed in
theorem RoleRun.inv (run : RoleRun env roles state) : RoleInv env roles state := by
  induction run with
  | refl => exact .initial env roles
  | tail _ step ih => exact ih.step nil_fails ledger hashed deployed step

theorem RoleInv.called (inv : RoleInv env roles state) (returned : state.blk.main = .returned) (job : ℕ) :
    job ∈ state.calls ↔ env.IsSRole job := by
  refine (inv.called_iff job).trans (and_iff_left_of_imp fun ⟨tx, job_tx, _⟩ => ?_)
  obtain ⟨count, merged, taken, commits, blk_inv⟩ := inv.run.inv
  have all := blk_inv.ended (Or.inr returned)
  have job_lt : job < env.txs.length := (List.getElem?_eq_some_iff.mp job_tx).1
  have job_merged := blk_inv.count_le_merged
  have merged_taken := blk_inv.merged_le_taken
  rintro (queued | ⟨id, runs⟩)
  · exact queued ((blk_inv.taken_iff job).mpr (by omega))
  · have held : (state.blk.workers id).job = some job := runs.job
    have := (blk_inv.held id job held).1
    omega

end

/-! ## Inputs that do not interfere -/

namespace RoleEnv

variable {env : RoleEnv} {input input' : Bytes}

variable (env) in
/-- `Invoke` ends before it comes to the role store. -/
def Refuses (input : Bytes) : Prop :=
  match env.unmarshal input with
  | .error _ => True
  | .ok request => (request.addr.length ≠ 20 ∧ request.addr.length ≠ 32) ∨
      (request.method ≠ "delete" ∧ request.method ≠ "add")

variable (env) in
/-- `Invoke` deletes a key. -/
def Deletes (input : Bytes) (keyStr : String) : Prop :=
  ∃ request, env.unmarshal input = .ok request ∧
    (request.addr.length = 20 ∨ request.addr.length = 32) ∧ request.method = "delete" ∧
      env.addressToString request.addr = keyStr

variable (env) in
/-- One of two inputs is refused, or they delete different keys. -/
def Independent (input input' : Bytes) : Prop :=
  env.Refuses input ∨ env.Refuses input' ∨
    ∃ keyStr keyStr', env.Deletes input keyStr ∧ env.Deletes input' keyStr' ∧ keyStr ≠ keyStr'

theorem execute_of_refuses (refuses : env.Refuses input) :
    ∃ reason, ∀ table, env.execute input table = some (reason, table) := by
  unfold Refuses at refuses
  cases parsed : env.unmarshal input with
  | error reason =>
      refine ⟨"failed to parse input: " ++ reason, fun table => ?_⟩
      simp [execute, invoke, parsed, Program.throw]
  | ok request =>
      simp only [parsed] at refuses
      rcases refuses with bad_length | ⟨not_delete, not_add⟩
      · refine ⟨"unexpected address length", fun table => ?_⟩
        simp [execute, invoke, parsed, bad_length, Program.throw]
      · by_cases bad_length : request.addr.length ≠ 20 ∧ request.addr.length ≠ 32
        · refine ⟨"unexpected address length", fun table => ?_⟩
          simp [execute, invoke, parsed, bad_length, Program.throw]
        · refine ⟨"method not found", fun table => ?_⟩
          simp only [execute, invoke, parsed, if_neg bad_length, if_neg not_delete, if_neg not_add,
            Program.throw]

/-- The text that is left of an outcome of the role store. -/
def text : Except (Halt RoleError) Unit → Option String
  | .ok _ => some ""
  | .error (.error reason) => some reason.message
  | .error (.fault reason) => recovered reason

theorem execute_of_deletes {keyStr : String} (deletes : env.Deletes input keyStr) (table : Table) :
    env.execute input table = (text (Table.deleteValidator env.formats keyStr table).1).map
      fun error => (error, (Table.deleteValidator env.formats keyStr table).2) := by
  obtain ⟨request, parsed, good_length, deletes, rfl⟩ := deletes
  have not_bad : ¬ (request.addr.length ≠ 20 ∧ request.addr.length ≠ 32) := by omega
  simp only [execute, invoke, parsed, if_neg not_bad, if_pos deletes, onTable, Program.zoom, id]
  obtain ⟨outcome, after⟩ := Table.deleteValidator env.formats (env.addressToString request.addr) table
  rcases outcome with (reason | reason) | _ <;> rfl

theorem commutes_of_refuses {left right : ℕ} {tx : Transaction} (left_tx : env.txs[left]? = some tx)
    (refuses : env.Refuses tx.input) : Commutes env.effect left right := by
  obtain ⟨reason, const⟩ := execute_of_refuses refuses
  have effect_eq (table : Table) : env.effect left table = some (reason, table) := by
    rw [effect, left_tx]
    exact const table
  exact .of_const effect_eq

theorem commutes_of_independent {left right : ℕ} {tx tx' : Transaction} (left_tx : env.txs[left]? = some tx)
    (right_tx : env.txs[right]? = some tx') (independent : env.Independent tx.input tx'.input) :
    Commutes env.effect left right := by
  rcases independent with refuses | refuses | ⟨keyStr, keyStr', deletes, deletes', different⟩
  · exact commutes_of_refuses left_tx refuses
  · exact (commutes_of_refuses right_tx refuses).symm
  · intro table
    obtain ⟨right_same, left_same, table_eq⟩ := deleteValidator_comm env.formats different table
    simp only [effect, left_tx, right_tx, Option.bind_some, execute_of_deletes deletes,
      execute_of_deletes deletes', Option.bind_map, Function.comp_def, right_same, left_same, table_eq,
      Option.map_map]
    cases text (Table.deleteValidator env.formats keyStr table).1 <;>
      cases text (Table.deleteValidator env.formats keyStr' table).1 <;> rfl

end RoleEnv

/-! ## Two schedules -/

section

variable {env : RoleEnv} {roles : Table} {state state' : RoleState}

/-- The role store and the results, if close invocations commute. -/
theorem RoleInv.roles_eq (inv : RoleInv env roles state) (inv' : RoleInv env roles state')
    (returned : state.blk.main = .returned) (returned' : state'.blk.main = .returned)
    (commutes : ∀ left right, env.IsSRole left → env.IsSRole right → left < right →
      right < left + env.concurrentLimit → Commutes env.effect left right) :
    state.results = state'.results ∧ state.roles = state'.roles := by
  have perm : state.calls.Perm state'.calls := by
    refine (List.perm_ext_iff_of_nodup inv.nodup inv'.nodup).mpr fun job => ?_
    rw [inv.called returned, inv'.called returned']
  have same := performAll_eq_of_perm perm inv.nodup inv.near inv'.near
    (fun left left_mem right right_mem => commutes left right ((inv.called returned left).mp left_mem)
      ((inv.called returned right).mp right_mem)) (fun _ => none, roles)
  rw [inv.performed, inv'.performed] at same
  exact Prod.mk.inj (Option.some.inj same)

end

/-! ## Schedules of two invocations -/

section

variable {env : RoleEnv} {roles roles' : Table} {state : RoleState} {blk : BlkState}

theorem RoleRun.other (run : RoleRun env roles state) (step : BlkStep env.toBlkEnv state.blk blk) {moved : ℕ}
    (others : ∀ id, id ≠ moved → blk.workers id = state.blk.workers id)
    (quiet : ∀ job, ¬ Calls env state.blk moved job) : RoleRun env roles { state with blk := blk } := by
  refine run.tail (.other step fun id job calls => others id ?_)
  rintro rfl
  exact quiet job calls

theorem RoleRun.invoke (run : RoleRun env roles state) (deployed : Deployed env) (id : ℕ) {job : ℕ} {tx : Transaction}
    {error : String} (id_lt : id < env.concurrentLimit) (job_tx : env.txs[job]? = some tx)
    (invokes : tx.codeAddr ∈ env.sroleAddrs)
    (unchanged : codeRegistryAddr ++ tx.codeAddr ∉ state.blk.rootTrk.trk.changes)
    (at_worker : state.blk.workers id = .executing job newTxExecutor)
    (returns : env.effect job state.roles = some (error, roles')) : RoleRun env roles
      ⟨state.blk.setWorker id (.executing job
          ⟨(spawn []).setDependency (codeRegistryAddr ++ tx.codeAddr), .finished ""⟩),
        roles', Function.update state.results job (some error), state.calls ++ [job]⟩ := by
  obtain ⟨cc, -, running_eq⟩ := (Harmless.new tx.codeAddr).step_start deployed invokes rfl unchanged
  let running := newTxExecutor.step env.toBlockEnv tx state.blk.rootTrk.trk
  have stage_eq := congrArg TxExecutor.stage running_eq
  have started : RoleRun env roles { state with blk := state.blk.setWorker id (.executing job running) } := by
    refine run.other (.execute id_lt at_worker job_tx)
      (fun _ different => Function.update_of_ne different _ _) ?_
    rintro job' ⟨-, exe, regTrk, trk, call, answers, runs, here | here⟩
    · obtain ⟨-, rfl⟩ := Worker.executing.inj (at_worker.symm.trans here)
      cases runs
    · cases at_worker.symm.trans here
  have harmless : Harmless tx.codeAddr running := (Harmless.new tx.codeAddr).step deployed invokes unchanged
  have finish := BlkStep.execute id_lt (BlkState.setWorker_workers state.blk id (.executing job running)) job_tx
  rw [BlkState.setWorker_setWorker, harmless.step_running stage_eq,
    congrArg TxExecutor.txTrk running_eq] at finish
  have calls : Calls env (state.blk.setWorker id (.executing job running)) id job :=
    ⟨⟨tx, job_tx, invokes⟩, running, _, _, _, _, stage_eq, Or.inl (BlkState.setWorker_workers _ _ _)⟩
  refine started.tail (.call finish calls ?_ returns)
  simp only [BlkState.setWorker_workers]
  intro same
  cases (congrArg TxExecutor.stage (Worker.executing.inj same).2).trans stage_eq

variable {deployments_before : List Bytes} (nil_fails : NilFails env.codeRegistry)
  (ledger : Ledger env.codeRegistry env.state deployments_before)
  (hashed : ∀ tx ∈ env.txs, ContractHash tx.hash) (deployed : Deployed env)

include nil_fails ledger hashed deployed in
theorem RoleRun.finish (run : RoleRun env roles state) (called : ∀ job, env.IsSRole job → job ∈ state.calls)
    (steps : Relation.ReflTransGen (BlkStep env.toBlkEnv) state.blk blk) :
    RoleRun env roles { state with blk := blk } := by
  induction steps with
  | refl => exact run
  | @tail blk blk' _ step before =>
      refine before.tail (.other step fun id job calls => ?_)
      have inv := RoleRun.inv nil_fails ledger hashed deployed before
      obtain ⟨is_srole, exe, _, _, _, _, stage_eq, here | again⟩ := calls
      · refine absurd (Or.inr ⟨id, ?_⟩) ((inv.called_iff job).mp (called job is_srole)).2
        rw [here]
        refine ⟨rfl, fun error finished => ?_⟩
        cases stage_eq.symm.trans finished
      · exact absurd is_srole (inv.once id job exe again)

end

/-- `SRole` as the executor of transactions sees it. -/
def sroleRegistry : CodeRegistry where
  driver _ := some fun _ => .ok ⟨init, fun _ _ => .finish none⟩
  unmarshalInput _ := .ok ⟨⟨0, []⟩, []⟩
  unmarshalCodeInfo
    | none => .error "unexpected end of JSON input"
    | some _ => .ok ⟨0, []⟩
  marshalCodeInfo _ := some [123]
where
  init (ctx : CallContext) : ChaincodeCall := fun _ =>
    .finish (if ctx.blockHeight = 0 then none else some "srole chaincode must init at genesis")

/-- A genesis block that deploys it. -/
def sroleGenesis : BlkEnv where
  codeRegistry := sroleRegistry
  state _ := none
  blk := ⟨⟨[], 0, 0, [], 0, [], 0, [setterAddr], none, none⟩, none, ⟨⟨[], []⟩, ⟨List.replicate 32 1, length_ones⟩⟩⟩
  txs := [setterTx setterAddr []]
  concurrentLimit := 1

def sroleDeployed : TxExecutor :=
  (TxExecutor.step sroleGenesis.toBlockEnv (setterTx setterAddr []) RootTracker.new.trk)^[2] newTxExecutor

/-- The store after the genesis block. -/
def sroleState : Bytes → Option Bytes :=
  storeChanges (RootTracker.new.merge sroleDeployed.txTrk).trk.getStateChanges fun _ => none

theorem srole_ledger : Ledger sroleRegistry sroleState [setterAddr] := by
  have completes : Completes sroleGenesis.toBlockEnv (setterTx setterAddr []) RootTracker.new sroleDeployed
      "" := ⟨rfl, 2, rfl⟩
  have hashed : ContractHash setterAddr := contractHash_replicate (by decide)
  exact .deploy completes rfl rfl Nat.one_pos hashed rfl

def roleTx (byte : UInt8) (input : Bytes) : Transaction :=
  ⟨⟨List.replicate 32 byte, [], 0, List.replicate 32 1, setterAddr, input, 0⟩, ⟨List.replicate 32 1, length_ones⟩⟩

/-- A block with two invocations and two workers. -/
def roleEnv (first second : Bytes) : RoleEnv where
  codeRegistry := sroleRegistry
  state := sroleState
  blk := appendEnv.blk
  txs := [roleTx 2 first, roleTx 3 second]
  concurrentLimit := 2
  sroleAddrs := [setterAddr]
  unmarshal
    | [kind, letter] =>
        .ok ⟨if kind = 0 then "add" else "delete", List.replicate 32 letter, 7, "point", "topic"⟩
    | _ => .error "unexpected end of JSON input"
  formats := letterFormats
  encodeHex _ := ""

section

variable (first second : Bytes)

theorem roleEnv_hashed : ∀ tx ∈ (roleEnv first second).txs, ContractHash tx.hash := by
  intro tx mem
  rcases List.mem_pair.mp mem with rfl | rfl <;> exact contractHash_replicate (by decide)

theorem roleEnv_deployed : Deployed (roleEnv first second) where
  instance_eq addr mem := by
    obtain rfl := List.mem_singleton.mp mem
    exact ⟨_, rfl, fun _ _ => rfl⟩
  nonempty addr mem := by
    obtain rfl := List.mem_singleton.mp mem
    nofun
  once tx mem := by
    rcases List.mem_pair.mp mem with rfl | rfl <;> nofun

/-- Both workers have taken an invocation. -/
def takenBlk : BlkState :=
  { BlkState.initial (roleEnv first second).toBlkEnv with
    main := .sending 2
    workers := Function.update (Function.update (fun _ => .idle) 0 (.executing 0 newTxExecutor)) 1
      (.executing 1 newTxExecutor) }

theorem takenBlk_run (roles : Table) :
    RoleRun (roleEnv first second) roles ⟨takenBlk first second, roles, fun _ => none, []⟩ := by
  have quiet {blk : BlkState} {id : ℕ} (idle : blk.workers id = .idle) (job : ℕ) :
      ¬ Calls (roleEnv first second) blk id job := by
    rintro ⟨-, _, _, _, _, _, -, here | here⟩ <;> cases idle.symm.trans here
  have run : RoleRun (roleEnv first second) roles _ := .refl
  have run := run.tail (.other (.send rfl Nat.two_pos Nat.two_pos) fun _ _ _ => rfl)
  have run := run.tail (.other (.send rfl Nat.one_lt_two Nat.one_lt_two) fun _ _ _ => rfl)
  have run := RoleRun.other run (.take Nat.two_pos rfl rfl)
    (fun _ different => Function.update_of_ne different _ _) (quiet rfl)
  exact RoleRun.other run (.take Nat.one_lt_two rfl rfl)
    (fun _ different => Function.update_of_ne different _ _) (quiet rfl)

/-- An execution that has called `Invoke`. -/
def invoked : TxExecutor := ⟨(spawn []).setDependency (codeRegistryAddr ++ setterAddr), .finished ""⟩

/-- Both workers have called `Invoke`. -/
def calledBlk : BlkState :=
  ((takenBlk first second).setWorker 0 (.executing 0 invoked)).setWorker 1 (.executing 1 invoked)

theorem unlocked_of_two {env : BlkEnv} {blk : BlkState} (limit : env.concurrentLimit = 2)
    (zero : ∀ event left, blk.workers 0 ≠ .emitting event left)
    (one : ∀ event left, blk.workers 1 ≠ .emitting event left) : blk.Unlocked env := by
  intro id id_lt event left
  rw [limit] at id_lt
  interval_cases id
  · exact zero event left
  · exact one event left

theorem only_main {blk : BlkState} {events : List ℤ} (main : blk.subs .main = some events)
    (workers : ∀ id, blk.subs (.worker id) = none) (subscriber : Subscriber) :
    subscriber ∈ [Subscriber.main] ↔ blk.subs subscriber ≠ none := by
  cases subscriber with
  | main => simp [main]
  | worker id => simp [workers id]

theorem calledBlk_returns :
    ∃ blk, Relation.ReflTransGen (BlkStep (roleEnv first second).toBlkEnv) (calledBlk first second) blk ∧
      blk.main = .returned := by
  have zero_lt : 0 < (roleEnv first second).concurrentLimit := Nat.two_pos
  have one_lt : 1 < (roleEnv first second).concurrentLimit := Nat.one_lt_two
  have run : Relation.ReflTransGen (BlkStep (roleEnv first second).toBlkEnv) (calledBlk first second) _ :=
    .single (.sent rfl)
  -- the first worker merges
  have run := run.tail (.commit zero_lt rfl rfl)
  have run := run.tail (.subscribe zero_lt rfl (unlocked_of_two rfl (by rintro _ _ ⟨⟩) (by rintro _ _ ⟨⟩)))
  have run := run.tail (.load zero_lt rfl)
  have run := run.tail (.unsubscribe zero_lt rfl (unlocked_of_two rfl (by rintro _ _ ⟨⟩) (by rintro _ _ ⟨⟩)))
  have run := run.tail (.check zero_lt rfl)
  have run := run.tail (.merge zero_lt rfl rfl)
  have run := run.tail (.increase zero_lt rfl)
  have run := run.tail (.lock zero_lt rfl (List.nodup_singleton .main) (only_main rfl fun id => by
    by_cases own : id = 0 <;>
      simp [BlkState.setSub, BlkState.setWorker, BlkState.setTxCommit, calledBlk, takenBlk, BlkState.initial, own]))
  have run := run.tail (.emit zero_lt rfl List.mem_cons_self)
  have run := run.tail (.unlock zero_lt rfl)
  -- the second worker merges
  have run := run.tail (.commit one_lt rfl rfl)
  have run := run.tail (.subscribe one_lt rfl (unlocked_of_two rfl (by rintro _ _ ⟨⟩) (by rintro _ _ ⟨⟩)))
  have run := run.tail (.load one_lt rfl)
  have run := run.tail (.unsubscribe one_lt rfl (unlocked_of_two rfl (by rintro _ _ ⟨⟩) (by rintro _ _ ⟨⟩)))
  have run := run.tail (.check one_lt rfl)
  have run := run.tail (.merge one_lt rfl rfl)
  have run := run.tail (.increase one_lt rfl)
  have run := run.tail (.lock one_lt rfl (List.nodup_singleton .main) (only_main rfl fun id => by
    by_cases own : id = 0 <;> by_cases other : id = 1 <;>
      simp [BlkState.setSub, BlkState.setWorker, BlkState.setTxCommit, calledBlk, takenBlk, BlkState.initial, own,
        other]))
  have run := run.tail (.emit one_lt rfl List.mem_cons_self)
  have run := run.tail (.unlock one_lt rfl)
  -- the main routine receives both events
  have run := run.tail (.receive rfl rfl)
  have run := run.tail (.receive rfl rfl)
  have run := run.tail (.unsubscribeMain rfl (unlocked_of_two rfl (by rintro _ _ ⟨⟩) (by rintro _ _ ⟨⟩)))
  exact ⟨_, run, rfl⟩

variable {first second} {roles final : Table} {error : String}

theorem called_of_two {calls : List ℕ} (zero : 0 ∈ calls) (one : 1 ∈ calls) (job : ℕ)
    (is_srole : (roleEnv first second).IsSRole job) : job ∈ calls := by
  obtain ⟨tx, job_tx, -⟩ := is_srole
  have job_lt : job < 2 := (List.getElem?_eq_some_iff.mp job_tx).1
  interval_cases job
  · exact zero
  · exact one

theorem roleEnv_in_order (returns : (((roleEnv first second).effect 0 roles).bind fun after =>
      (roleEnv first second).effect 1 after.2) = some (error, final)) :
    ∃ state, RoleRun (roleEnv first second) roles state ∧ state.blk.main = .returned ∧ state.roles = final := by
  obtain ⟨⟨error, middle⟩, returns, returns'⟩ := Option.bind_eq_some_iff.mp returns
  have deployed := roleEnv_deployed first second
  have run := (takenBlk_run first second roles).invoke deployed 0 Nat.two_pos rfl
    List.mem_cons_self (AList.notMem_empty _) rfl returns
  have run := RoleRun.invoke run deployed 1 Nat.one_lt_two rfl List.mem_cons_self
    (AList.notMem_empty _) rfl returns'
  obtain ⟨blk, steps, returned⟩ := calledBlk_returns first second
  exact ⟨_, RoleRun.finish ⟨_, rfl⟩ srole_ledger (roleEnv_hashed _ _) deployed run
    (called_of_two (by simp) (by simp)) steps, returned, rfl⟩

theorem roleEnv_out_of_order (returns : (((roleEnv first second).effect 1 roles).bind fun after =>
      (roleEnv first second).effect 0 after.2) = some (error, final)) :
    ∃ state, RoleRun (roleEnv first second) roles state ∧ state.blk.main = .returned ∧ state.roles = final := by
  obtain ⟨⟨error, middle⟩, returns, returns'⟩ := Option.bind_eq_some_iff.mp returns
  have deployed := roleEnv_deployed first second
  have run := (takenBlk_run first second roles).invoke deployed 1 Nat.one_lt_two rfl
    List.mem_cons_self (AList.notMem_empty _) rfl returns
  have run := RoleRun.invoke run deployed 0 Nat.two_pos rfl List.mem_cons_self
    (AList.notMem_empty _) rfl returns'
  obtain ⟨blk, steps, returned⟩ := calledBlk_returns first second
  have called_eq : calledBlk first second =
      ((takenBlk first second).setWorker 1 (.executing 1 invoked)).setWorker 0 (.executing 0 invoked) := by
    simp only [calledBlk, BlkState.setWorker, Function.update_comm Nat.zero_ne_one]
  rw [called_eq] at steps
  exact ⟨_, RoleRun.finish ⟨_, rfl⟩ srole_ledger (roleEnv_hashed _ _) deployed run
    (called_of_two (by simp) (by simp)) steps, returned, rfl⟩

end

theorem findPeer_error {formats : Formats} {keyStr : String} {peers : List (Option Peer)} {reason : Fault}
    (stops : Table.findPeer formats keyStr peers = .error reason) : reason = .nilDereference := by
  induction peers with
  | nil => cases stops
  | cons peer peers ih =>
      cases peer with
      | none => exact (Except.error.inj stops).symm
      | some peer =>
          rw [Table.findPeer] at stops
          split at stops
          · cases stops
          · cases rest : Table.findPeer formats keyStr peers with
            | error other =>
                rw [rest] at stops
                exact ih (rest.trans stops)
            | ok place =>
                rw [rest] at stops
                cases stops

theorem recovered_deleteValidator {formats : Formats} {keyStr : String} {table : Table} {reason : Fault}
    (stops : (Table.deleteValidator formats keyStr table).1 = .error (.fault reason)) : RoleEnv.recovered reason ≠ none := by
  have peer {table : Table} (stops : (Table.deletePeer formats keyStr table).1 = .error (.fault reason)) :
      RoleEnv.recovered reason ≠ none := by
    rw [deletePeer_eq] at stops
    split at stops
    · next found =>
        obtain rfl := Halt.fault.inj (Except.error.inj stops)
        rw [findPeer_error found]
        exact Option.some_ne_none _
    · cases stops
    · cases stops
  rw [deleteValidator_eq] at stops
  split at stops
  · cases stops
  · exact peer stops
  · split at stops
    · obtain rfl := Halt.fault.inj (Except.error.inj stops)
      exact Option.some_ne_none _
    · exact peer stops

namespace RoleEnv

variable (env : RoleEnv) (input : Bytes) (table : Table)

/-- An addition of a short address, whose text is taken for that of a public key. -/
def AddsUnreadable : Prop :=
  ∃ request, env.unmarshal input = .ok request ∧ request.method = "add" ∧ request.addr.length = 20 ∧
    table.validatorMap.lookup (env.encodeHex request.addr) = none ∧
      (env.formats.decodeString (env.encodeHex request.addr)).length ≠ 32

theorem execute_eq_none_iff : env.execute input table = none ↔
    ∃ reason, (env.invoke input table).1 = .error (.fault reason) ∧ recovered reason = none := by
  unfold execute
  rcases env.invoke input table with ⟨(_ | reason) | _, _⟩ <;> simp

theorem onTable_fault_iff {program : Program RoleError Table Unit} {reason : Fault} :
    (onTable program table).1 = .error (.fault reason) ↔ (program table).1 = .error (.fault reason) := by
  unfold onTable Program.zoom
  simp only [id_eq]
  rcases program table with ⟨(_ | _) | _, _⟩ <;> simp

theorem addValidator_fatal_iff (keyStr point topic : String) (quota : UInt64) :
    (∃ reason, (Table.addValidator env.formats keyStr point topic quota table).1 = .error (.fault reason) ∧
      recovered reason = none) ↔
      table.validatorMap.lookup keyStr = none ∧ (env.formats.decodeString keyStr).length ≠ 32 := by
  rw [addValidator_eq, stringToPubKey, newPublicKey]
  cases table.validatorMap.lookup keyStr with
  | some position => simp
  | none =>
      by_cases size : (env.formats.decodeString keyStr).length = 32
      · rw [dif_pos size]
        cases env.formats.addrError point <;> cases env.formats.addrError topic <;> simp [size]
      · simp [size, recovered]

end RoleEnv

/-- The formats of `letterFormats` with hexadecimal texts of short addresses. -/
def hexEnv : RoleEnv :=
  { roleEnv [] [] with
    unmarshal := fun addr => .ok ⟨"add", addr, 7, "point", "topic"⟩
    encodeHex := fun addr => String.ofList (addr.flatMap fun byte =>
      [Nat.digitChar (byte.toNat / 16), Nat.digitChar (byte.toNat % 16)]) }

end SvpChain.Execution
