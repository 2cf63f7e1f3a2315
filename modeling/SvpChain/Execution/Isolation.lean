import SvpChain.Execution.Serializable

/-!
# Contracts are isolated

Every contract writes under its address, and the registry keeps its entries under 32 zero bytes in the
same space of keys.  There is no separator and no check of the length of a code address.  What keeps
contracts apart is that an address without an entry gets nothing from the registry, and that entries are
hashes of deployments.
-/

namespace SvpChain.Execution

open Core

/-! ## Keys of trackers -/

namespace StateTracker

variable {trk child : StateTracker} {key : Bytes}

theorem mem_changes_setState {changed : Bytes} {value : Option Bytes} : key ∈ (trk.setState changed value).changes ↔
      key = trk.keyPrefix ++ changed ∨ key ∈ trk.changes :=
  AList.mem_insert trk.changes

theorem mem_changes_merge (mem : key ∈ (trk.merge child).changes) :
    key ∈ trk.changes ∨ ∃ changed ∈ child.changes, key = trk.keyPrefix ++ changed := by
  have entries (changes : List (Sigma fun _ : Bytes => Option Bytes)) (trk : StateTracker)
      (mem : key ∈ (changes.foldl (fun trk change => trk.setState change.1 change.2) trk).changes) :
      key ∈ trk.changes ∨ ∃ change ∈ changes, key = trk.keyPrefix ++ change.1 := by
    induction changes generalizing trk with
    | nil => exact Or.inl mem
    | cons change changes ih =>
        rcases ih _ mem with before | ⟨later, later_mem, key_eq⟩
        · rcases mem_changes_setState.mp before with own | old
          · exact Or.inr ⟨change, List.mem_cons_self, own⟩
          · exact Or.inl old
        · exact Or.inr ⟨later, List.mem_cons_of_mem _ later_mem, key_eq⟩
  rcases entries child.changes.entries trk mem with old | ⟨change, change_mem, key_eq⟩
  · exact Or.inl old
  · exact Or.inr ⟨change.1, List.mem_keys_of_mem change_mem, key_eq⟩

theorem lookup_merge_of_notMem (keyPrefix_eq : trk.keyPrefix = []) (key_notMem : key ∉ child.changes) :
    (trk.merge child).changes.lookup key = trk.changes.lookup key := by
  have entries (changes : List (Sigma fun _ : Bytes => Option Bytes)) (trk : StateTracker)
      (keyPrefix_eq : trk.keyPrefix = []) (other : ∀ change ∈ changes, change.1 ≠ key) :
      (changes.foldl (fun trk change => trk.setState change.1 change.2) trk).changes.lookup key =
        trk.changes.lookup key := by
    induction changes generalizing trk with
    | nil => rfl
    | cons change changes ih =>
        obtain ⟨own, rest⟩ := List.forall_mem_cons.mp other
        rw [List.foldl_cons, ih (trk.setState change.1 change.2) keyPrefix_eq rest, setState,
          keyPrefix_eq, List.nil_append, AList.lookup_insert_ne own.symm]
  refine entries child.changes.entries trk keyPrefix_eq fun change change_mem same => key_notMem ?_
  exact same ▸ List.mem_keys_of_mem change_mem

theorem lookup_of_merge {value : Option Bytes}
    (keyPrefix_eq : trk.keyPrefix = []) (merged : (trk.merge child).changes.lookup key = some value) :
    child.changes.lookup key = some value ∨ trk.changes.lookup key = some value := by
  have entries (changes : List (Sigma fun _ : Bytes => Option Bytes)) (trk : StateTracker)
      (keyPrefix_eq : trk.keyPrefix = [])
      (merged : (changes.foldl (fun trk change => trk.setState change.1 change.2) trk).changes.lookup key =
        some value) :
      ⟨key, value⟩ ∈ changes ∨ trk.changes.lookup key = some value := by
    induction changes generalizing trk with
    | nil => exact Or.inr merged
    | cons change changes ih =>
        rcases ih (trk.setState change.1 change.2) keyPrefix_eq merged with later | before
        · exact Or.inl (List.mem_cons_of_mem _ later)
        · rw [setState, keyPrefix_eq, List.nil_append] at before
          by_cases same : key = change.1
          · subst same
            rw [AList.lookup_insert] at before
            obtain rfl := Option.some.inj before
            exact Or.inl List.mem_cons_self
          · rw [AList.lookup_insert_ne same] at before
            exact Or.inr before
  exact (entries child.changes.entries trk keyPrefix_eq merged).imp_left AList.mem_lookup_iff.mpr

theorem getState_fst {σ : Type} (base : StateGetter σ) (key : Bytes) (trk : StateTracker) (below : σ) :
    (getState base key (trk, below)).2.1 = trk.setDependency (trk.keyPrefix ++ key) := by
  simp only [getState]
  split <;> rfl

end StateTracker

theorem childGetState_changes (env : BlockEnv) (root trk txTrk : StateTracker) (key : Bytes) :
    ((childGetState env root trk txTrk key).2.1.keyPrefix = trk.keyPrefix ∧
      (childGetState env root trk txTrk key).2.1.changes = trk.changes) ∧
    (childGetState env root trk txTrk key).2.2.keyPrefix = txTrk.keyPrefix ∧
      (childGetState env root trk txTrk key).2.2.changes = txTrk.changes := by
  have trk_eq : (childGetState env root trk txTrk key).2.1 = trk.setDependency (trk.keyPrefix ++ key) :=
    StateTracker.getState_fst (StateTracker.getState (rootGetState env root)) key trk (txTrk, ())
  rw [trk_eq]
  refine ⟨by simp, ?_⟩
  cases own : trk.changes.lookup (trk.keyPrefix ++ key) with
  | some value =>
      rw [childGetState, StateTracker.getState_of_lookup _ own]
      exact ⟨rfl, rfl⟩
  | none =>
      rw [childGetState, StateTracker.getState_of_missing _ own]
      have below := StateTracker.getState_fst (rootGetState env root) (trk.keyPrefix ++ key) txTrk ()
      simp only [below]
      exact ⟨StateTracker.keyPrefix_setDependency _ _, StateTracker.changes_setDependency _ _⟩

theorem childGetState_spawn (env : BlockEnv) (root : StateTracker) {txTrk : StateTracker}
    (keyPrefix_eq : txTrk.keyPrefix = []) (empty : txTrk.changes = ∅) (addr key : Bytes) :
    (childGetState env root (spawn addr) txTrk key).1 = (rootGetState env root (addr ++ key) ()).1 ∧
      (childGetState env root (spawn addr) txTrk key).2.2 = txTrk.setDependency (addr ++ key) := by
  have own : (spawn addr).changes.lookup ((spawn addr).keyPrefix ++ key) = none := rfl
  have below : txTrk.changes.lookup (txTrk.keyPrefix ++ (addr ++ key)) = none := by
    rw [empty]
    rfl
  rw [childGetState, StateTracker.getState_of_missing _ own]
  have full : StateTracker.getState (rootGetState env root) ((spawn addr).keyPrefix ++ key) (txTrk, ()) = _ :=
    StateTracker.getState_of_missing _ below ()
  rw [full, keyPrefix_eq]
  exact ⟨rfl, rfl⟩

variable {key : Bytes} {tx : Transaction} {exe : TxExecutor}

theorem mem_changes_deploy {reg : CodeRegistry} {codeAddr : Bytes} {input : DeploymentInput}
    {cc : Chaincode} {regTrk : StateTracker}
    (deployed : reg.deploy codeAddr input (spawn codeRegistryAddr) = .ok (cc, regTrk))
    (mem : key ∈ regTrk.changes) : key = codeRegistryAddr ++ codeAddr := by
  have regTrk_eq : regTrk = reg.setCodeInfo codeAddr input.codeInfo (spawn codeRegistryAddr) := by
    rw [CodeRegistry.deploy] at deployed
    cases driver_eq : reg.getDriver input.codeInfo.driverType with
    | error reason => simp [driver_eq, bind, Except.bind] at deployed
    | ok driver =>
        cases instance_eq : driver input.codeInfo.codeID with
        | error reason => simp [driver_eq, instance_eq, bind, Except.bind] at deployed
        | ok cc' =>
            simp only [driver_eq, instance_eq, bind, Except.bind, pure, Except.pure, Except.ok.injEq,
              Prod.mk.injEq] at deployed
            exact deployed.2.symm
  rw [regTrk_eq, CodeRegistry.setCodeInfo] at mem
  split at mem
  · rcases StateTracker.mem_changes_setState.mp mem with own | old
    · exact own
    · exact absurd old (AList.notMem_empty _)
  · exact absurd mem (AList.notMem_empty _)

/-! ## What a transaction writes -/

/-- The contract that a transaction is about. -/
def contractAddr (tx : Transaction) : Bytes := if tx.codeAddr.length = 0 then tx.hash else tx.codeAddr

/-- A key under the contract, or the entry of a deployment in the registry. -/
def MayWrite (tx : Transaction) (key : Bytes) : Prop :=
  if tx.codeAddr.length = 0 then tx.hash <+: key ∨ key = codeRegistryAddr ++ tx.hash
  else tx.codeAddr <+: key

theorem mayWrite_of_contractAddr (under : contractAddr tx <+: key) : MayWrite tx key := by
  unfold contractAddr at under
  unfold MayWrite
  split
  · next deploys => exact Or.inl (by rwa [if_pos deploys] at under)
  · next invokes => rwa [if_neg invokes] at under

/-- The trackers of an execution hold no other keys. -/
structure Confined (tx : Transaction) (exe : TxExecutor) : Prop where
  keyPrefix_eq : exe.txTrk.keyPrefix = []
  start : exe.stage = .start → exe.txTrk.changes = ∅
  merged : ∀ key ∈ exe.txTrk.changes, MayWrite tx key
  running : ∀ regTrk trk call answers, exe.stage = .running regTrk trk call answers →
    trk.keyPrefix = contractAddr tx ∧ (∀ key ∈ trk.changes, contractAddr tx <+: key) ∧
      ∀ reg, regTrk = some reg → tx.codeAddr.length = 0 ∧
        ∀ key ∈ reg.changes, key = codeRegistryAddr ++ tx.hash

namespace Confined

variable {tx : Transaction} {exe : TxExecutor}

theorem new (tx : Transaction) : Confined tx newTxExecutor where
  keyPrefix_eq := rfl
  start _ := rfl
  merged _ mem := absurd mem (AList.notMem_empty _)
  running _ _ _ _ absurd := nomatch absurd

theorem stop (confined : Confined tx exe) {txTrk : StateTracker}
    (keyPrefix_eq : txTrk.keyPrefix = exe.txTrk.keyPrefix) (changes_eq : txTrk.changes = exe.txTrk.changes)
    (error : String) : Confined tx ⟨txTrk, .finished error⟩ where
  keyPrefix_eq := keyPrefix_eq.trans confined.keyPrefix_eq
  start absurd := nomatch absurd
  merged key mem := confined.merged key (changes_eq ▸ mem)
  running _ _ _ _ absurd := nomatch absurd

theorem run (confined : Confined tx exe) {txTrk trk : StateTracker} {regTrk : Option StateTracker}
    (keyPrefix_eq : txTrk.keyPrefix = exe.txTrk.keyPrefix) (changes_eq : txTrk.changes = exe.txTrk.changes)
    (addr_eq : trk.keyPrefix = contractAddr tx) (under : ∀ key ∈ trk.changes, contractAddr tx <+: key)
    (entry : ∀ reg, regTrk = some reg → tx.codeAddr.length = 0 ∧
      ∀ key ∈ reg.changes, key = codeRegistryAddr ++ tx.hash) (call : ChaincodeCall) (answers : List (Option Bytes)) :
    Confined tx ⟨txTrk, .running regTrk trk call answers⟩ where
  keyPrefix_eq := keyPrefix_eq.trans confined.keyPrefix_eq
  start absurd := nomatch absurd
  merged key mem := confined.merged key (changes_eq ▸ mem)
  running _ _ _ _ same := by
    obtain ⟨rfl, rfl, rfl, rfl⟩ := Stage.running.inj same
    exact ⟨addr_eq, under, entry⟩

theorem startDeployment (confined : Confined tx exe) (env : BlockEnv) (deploys : tx.codeAddr.length = 0) :
    Confined tx (exe.startDeployment env tx) := by
  have addr_eq : contractAddr tx = tx.hash := if_pos deploys
  unfold TxExecutor.startDeployment
  split
  · exact confined.stop rfl rfl _
  · next input _ =>
      split
      · exact confined.stop rfl rfl _
      · next cc regTrk deployed =>
          refine confined.run rfl rfl addr_eq.symm (fun _ mem => absurd mem (AList.notMem_empty _)) ?_ _ _
          rintro _ ⟨⟩
          exact ⟨deploys, fun key mem => mem_changes_deploy deployed mem⟩

theorem startInvoke (confined : Confined tx exe) (env : BlockEnv) (root : StateTracker)
    (invokes : tx.codeAddr.length ≠ 0) : Confined tx (exe.startInvoke env tx root) := by
  have addr_eq : contractAddr tx = tx.codeAddr := if_neg invokes
  obtain ⟨-, keyPrefix_eq, changes_eq⟩ :=
    childGetState_changes env root (spawn codeRegistryAddr) exe.txTrk tx.codeAddr
  simp only [TxExecutor.startInvoke]
  split
  · exact confined.stop keyPrefix_eq changes_eq _
  · refine confined.run keyPrefix_eq changes_eq addr_eq.symm ?_ ?_ _ _
    · exact fun _ mem => absurd mem (AList.notMem_empty _)
    · exact fun _ absurd => by cases absurd

theorem merge (confined : Confined tx exe) {child : StateTracker}
    (own : ∀ key ∈ child.changes, MayWrite tx key) (error : String) :
    Confined tx ⟨exe.txTrk.merge child, .finished error⟩ where
  keyPrefix_eq := (StateTracker.merge_spec exe.txTrk child).1.trans confined.keyPrefix_eq
  start absurd := nomatch absurd
  merged key mem := by
    rcases StateTracker.mem_changes_merge mem with old | ⟨changed, changed_mem, rfl⟩
    · exact confined.merged key old
    · rw [confined.keyPrefix_eq]
      exact own changed changed_mem
  running _ _ _ _ absurd := nomatch absurd

theorem step (confined : Confined tx exe) (env : BlockEnv) (root : StateTracker) :
    Confined tx (exe.step env tx root) := by
  rcases exe with ⟨txTrk, stage⟩
  cases stage with
  | start =>
      simp only [TxExecutor.step]
      split
      · next deploys => exact confined.startDeployment env deploys
      · next invokes => exact confined.startInvoke env root invokes
  | running regTrk trk call answers =>
      obtain ⟨addr_eq, under, entry⟩ := confined.running _ _ _ _ rfl
      simp only [TxExecutor.step]
      cases call answers with
      | getState key =>
          obtain ⟨⟨trk_addr, trk_changes⟩, keyPrefix_eq, changes_eq⟩ :=
            childGetState_changes env root trk txTrk key
          exact confined.run keyPrefix_eq changes_eq (trk_addr.trans addr_eq)
            (fun key mem => under key (trk_changes ▸ mem)) entry _ _
      | setState key value =>
          have still_addr : (trk.setState key value).keyPrefix = contractAddr tx := addr_eq
          refine confined.run rfl rfl still_addr (fun changed mem => ?_) entry _ _
          rcases StateTracker.mem_changes_setState.mp mem with rfl | old
          · exact addr_eq ▸ List.prefix_append _ _
          · exact under changed old
      | finish error =>
          cases error with
          | some reason => exact confined.stop rfl rfl _
          | none =>
              have own (key : Bytes) (mem : key ∈ trk.changes) : MayWrite tx key :=
                mayWrite_of_contractAddr (under key mem)
              cases regTrk with
              | none => exact confined.merge own ""
              | some reg =>
                  obtain ⟨deploys, entry⟩ := entry reg rfl
                  have registered : Confined tx ⟨txTrk.merge reg, .finished ""⟩ := by
                    refine confined.merge (fun key mem => ?_) ""
                    rw [MayWrite, if_pos deploys]
                    exact Or.inr (entry key mem)
                  exact registered.merge own ""
      | panic reason => exact confined.stop rfl rfl _
  | finished error => exact confined

end Confined

/-! ## The registry -/

/-- An invocation runs or has written something only if its address is one of the entries. -/
def PastRegistry (entries : Set Bytes) (tx : Transaction) (exe : TxExecutor) : Prop :=
  tx.codeAddr.length ≠ 0 →
    ((∃ regTrk trk call answers, exe.stage = .running regTrk trk call answers) ∨
      ∃ key, key ∈ exe.txTrk.changes) → tx.codeAddr ∈ entries

/-- Whatever is under the address of the registry is an entry. -/
def RegistryOk (env : BlockEnv) (entries : Set Bytes) (root : RootTracker) : Prop :=
  ∀ hash, (codeRegistryAddr ++ hash ∈ root.trk.changes ∨ env.state (codeRegistryAddr ++ hash) ≠ none) →
    hash ∈ entries

/-- The JSON decoder refuses nil. -/
def NilFails (reg : CodeRegistry) : Prop := ∃ reason, reg.unmarshalCodeInfo none = .error reason

section

variable {env : BlockEnv} {tx : Transaction} {exe : TxExecutor} {entries : Set Bytes} {root : RootTracker}

theorem rootGetState_of_not_entry (registry : RegistryOk env entries root) {addr : Bytes}
    (not_entry : addr ∉ entries) : (rootGetState env root.trk (codeRegistryAddr ++ addr) ()).1 = none := by
  have missing : ¬ (codeRegistryAddr ++ addr ∈ root.trk.changes ∨
      env.state (codeRegistryAddr ++ addr) ≠ none) := fun present => not_entry (registry addr present)
  obtain ⟨unchanged, empty⟩ := not_or.mp missing
  have key_notMem : codeRegistryAddr ++ addr ∉ root.changed := fun changed =>
    unchanged (AList.lookup_isSome.mp changed)
  rw [RootTracker.getState_of_notMem env key_notMem]
  exact not_not.mp empty

theorem startInvoke_of_not_entry (nil_fails : NilFails env.codeRegistry) (confined : Confined tx exe)
    (at_start : exe.stage = .start) (registry : RegistryOk env entries root) (not_entry : tx.codeAddr ∉ entries) :
    ∃ reason txTrk, txTrk.changes = ∅ ∧ exe.startInvoke env tx root.trk = ⟨txTrk, .finished reason⟩ := by
  obtain ⟨reason, fails⟩ := nil_fails
  have empty := confined.start at_start
  have text_eq :=
    (childGetState_spawn env root.trk confined.keyPrefix_eq empty codeRegistryAddr tx.codeAddr).1
  rw [rootGetState_of_not_entry registry not_entry] at text_eq
  obtain ⟨-, -, changes_eq⟩ :=
    childGetState_changes env root.trk (spawn codeRegistryAddr) exe.txTrk tx.codeAddr
  have refused : env.codeRegistry.getInstance none = .error reason := by
    simp [CodeRegistry.getInstance, fails, bind, Except.bind]
  refine ⟨reason, _, changes_eq.trans empty, ?_⟩
  simp only [TxExecutor.startInvoke, text_eq, refused]

theorem PastRegistry.new (entries : Set Bytes) (tx : Transaction) : PastRegistry entries tx newTxExecutor := by
  rintro - (⟨_, _, _, _, absurd⟩ | ⟨key, mem⟩)
  · cases absurd
  · exact absurd mem (AList.notMem_empty _)

theorem PastRegistry.step (past : PastRegistry entries tx exe) (nil_fails : NilFails env.codeRegistry)
    (confined : Confined tx exe) (registry : RegistryOk env entries root) :
    PastRegistry entries tx (exe.step env tx root.trk) := by
  intro invokes active
  rcases exe with ⟨txTrk, stage⟩
  cases stage with
  | start =>
      by_contra not_entry
      obtain ⟨reason, txTrk', empty, stopped⟩ :=
        startInvoke_of_not_entry nil_fails confined rfl registry not_entry
      simp only [TxExecutor.step, if_neg invokes, stopped] at active
      rcases active with ⟨_, _, _, _, absurd⟩ | ⟨key, mem⟩
      · cases absurd
      · rw [empty] at mem
        exact absurd mem (AList.notMem_empty _)
  | running regTrk trk call answers => exact past invokes (Or.inl ⟨_, _, _, _, rfl⟩)
  | finished error => exact past invokes active

end

/-! ## Deployments -/

/-- Hashes of transactions have 32 bytes and are not zero. -/
structure ContractHash (hash : Bytes) : Prop where
  length_eq : hash.length = 32
  nonzero : hash ≠ codeRegistryAddr

theorem eq_of_starts {left right : Bytes} (left_length : left.length = 32)
    (right_length : right.length = 32) (left_under : left <+: key) (right_under : right <+: key) : left = right := by
  have shorter := List.prefix_of_prefix_length_le left_under right_under (left_length.trans right_length.symm).le
  exact shorter.eq_of_length (left_length.trans right_length.symm)

theorem entry_of_mayWrite (contract : ContractHash (contractAddr tx)) {hash : Bytes}
    (writes : MayWrite tx (codeRegistryAddr ++ hash)) : tx.codeAddr.length = 0 ∧ hash = tx.hash := by
  have not_under (under : contractAddr tx <+: codeRegistryAddr ++ hash) : False :=
    contract.nonzero (eq_of_starts contract.length_eq List.length_replicate under (List.prefix_append _ _))
  unfold MayWrite at writes
  unfold contractAddr at not_under
  split at writes
  · next deploys =>
      rw [if_pos deploys] at not_under
      rcases writes with under | same
      · exact (not_under under).elim
      · exact ⟨deploys, List.append_cancel_left same⟩
  · next invokes =>
      rw [if_neg invokes] at not_under
      exact (not_under writes).elim

/-- The hashes of the deployments that succeeded. -/
def deployments (txs : List Transaction) (commits : List TxCommit) : List Bytes :=
  ((txs.zip commits).filter fun pair => pair.1.codeAddr.length = 0 ∧ pair.2.error = "").map
    fun pair => pair.1.hash

theorem deployments_snoc {txs : List Transaction} {commits : List TxCommit}
    (length_eq : commits.length = txs.length) (tx : Transaction) (commit : TxCommit) :
    deployments (txs ++ [tx]) (commits ++ [commit]) = deployments txs commits ++
      if tx.codeAddr.length = 0 ∧ commit.error = "" then [tx.hash] else [] := by
  rw [deployments, List.zip_append length_eq.symm, List.filter_append, List.map_append, deployments,
    List.zip_cons_cons, List.zip_nil_left, List.filter_singleton]
  by_cases succeeded : tx.codeAddr.length = 0 ∧ commit.error = ""
  · rw [if_pos succeeded, decide_eq_true succeeded]
    rfl
  · rw [if_neg succeeded, decide_eq_false succeeded]
    rfl

theorem deployment_of_mem {txs : List Transaction} {commits : List TxCommit} {hash : Bytes}
    (mem : hash ∈ deployments txs commits) : ∃ tx ∈ txs, tx.codeAddr.length = 0 ∧ tx.hash = hash := by
  obtain ⟨⟨tx, commit⟩, pair_mem, rfl⟩ := List.mem_map.mp mem
  obtain ⟨zipped, succeeded⟩ := List.mem_filter.mp pair_mem
  exact ⟨tx, (List.of_mem_zip zipped).1, (of_decide_eq_true succeeded).1, rfl⟩

section

variable {env : BlockEnv} {deployed : List Bytes} (nil_fails : NilFails env.codeRegistry)
  (stored : ∀ hash, env.state (codeRegistryAddr ++ hash) ≠ none → hash ∈ deployed)
  (deployed_ok : ∀ hash ∈ deployed, ContractHash hash)

variable {root : RootTracker}

include nil_fails in
theorem Completes.confined {tx : Transaction} {exe : TxExecutor} {error : String}
    (completes : Completes env tx root exe error) {entries : Set Bytes}
    (registry : RegistryOk env entries root) : Confined tx exe ∧ PastRegistry entries tx exe := by
  obtain ⟨-, steps, rfl⟩ := completes
  induction steps with
  | zero => exact ⟨.new tx, .new entries tx⟩
  | succ steps ih =>
      rw [Function.iterate_succ_apply']
      exact ⟨ih.1.step env root.trk, ih.2.step nil_fails ih.1 registry⟩

include nil_fails stored deployed_ok in
/-- Whatever is executed in order on a state, the registry gets the entries of deployments alone. -/
theorem Sequential.entry_of_changed {txs : List Transaction} {commits : List TxCommit}
    (sequential : Sequential env txs root commits) (hashed : ∀ tx ∈ txs, ContractHash tx.hash)
    {hash : Bytes} (changed : codeRegistryAddr ++ hash ∈ root.trk.changes) : hash ∈ deployments txs commits := by
  induction sequential generalizing hash with
  | nil => exact absurd changed (AList.notMem_empty _)
  | @snoc txs root commits tx exe error before completes ih =>
      have hashed_before (other : Transaction) (mem : other ∈ txs) : ContractHash other.hash :=
        hashed other (List.mem_append_left _ mem)
      have registry : RegistryOk env {hash | hash ∈ deployed ∨ hash ∈ deployments txs commits} root :=
        fun hash present => present.symm.imp (stored hash) (ih hashed_before)
      obtain ⟨confined, past⟩ := completes.confined nil_fails registry
      rw [deployments_snoc before.length]
      unfold rootAfter at changed
      split at changed
      · next success =>
          rcases StateTracker.mem_changes_merge changed with old | ⟨key, key_mem, key_eq⟩
          · exact List.mem_append_left _ (ih hashed_before old)
          · rw [root.keyPrefix_eq, List.nil_append] at key_eq
            subst key_eq
            have contract : ContractHash (contractAddr tx) := by
              unfold contractAddr
              split
              · exact hashed tx (List.mem_append_right _ List.mem_cons_self)
              · next invokes =>
                  rcases past invokes (Or.inr ⟨_, key_mem⟩) with earlier | here
                  · exact deployed_ok _ earlier
                  · obtain ⟨other, other_mem, -, hash_eq⟩ := deployment_of_mem here
                    exact hash_eq ▸ hashed_before other other_mem
            obtain ⟨deploys, rfl⟩ := entry_of_mayWrite contract (confined.merged _ key_mem)
            rw [if_pos ⟨deploys, success⟩]
            exact List.mem_append_right _ List.mem_cons_self
      · exact List.mem_append_left _ (ih hashed_before changed)

include nil_fails stored deployed_ok in
theorem Sequential.registryOk {txs : List Transaction} {commits : List TxCommit}
    (sequential : Sequential env txs root commits) (hashed : ∀ tx ∈ txs, ContractHash tx.hash) :
    RegistryOk env {hash | hash ∈ deployed ∨ hash ∈ deployments txs commits} root :=
  fun hash present => present.symm.imp (stored hash)
    (sequential.entry_of_changed nil_fails stored deployed_ok hashed)

end

/-- The store after `commitStateChange` of every change. -/
def storeChanges (changes : List StateChange) (state : Bytes → Option Bytes) : Bytes → Option Bytes :=
  changes.foldl (fun state change => Function.update state change.key (some change.value)) state

theorem storeChanges_ne_none {changes : List StateChange} {state : Bytes → Option Bytes}
    (present : storeChanges changes state key ≠ none) : state key ≠ none ∨ ∃ change ∈ changes, change.key = key := by
  induction changes generalizing state with
  | nil => exact Or.inl present
  | cons change changes ih =>
      rcases ih present with before | ⟨later, later_mem, key_eq⟩
      · by_cases same : change.key = key
        · exact Or.inr ⟨change, List.mem_cons_self, same⟩
        · have unchanged : Function.update state change.key (some change.value) key = state key :=
            Function.update_of_ne (Ne.symm same) _ _
          exact Or.inl (unchanged ▸ before)
      · exact Or.inr ⟨later, List.mem_cons_of_mem _ later_mem, key_eq⟩

/-- The states that blocks reach from the empty state, with the deployments that succeeded. -/
inductive Ledger (registry : CodeRegistry) : (Bytes → Option Bytes) → List Bytes → Prop where
  | empty : Ledger registry (fun _ => none) []
  | execute {env : BlkEnv} {final : BlkState} {deployed : List Bytes} {commits : List TxCommit}
      (before : Ledger registry env.state deployed) (registry_eq : env.codeRegistry = registry)
      (hashed : ∀ tx ∈ env.txs, ContractHash tx.hash) (run : BlkRun env final)
      (returned : final.main = .returned) (commits_eq : final.txCommits = commits.map some) :
      Ledger registry (storeChanges final.rootTrk.trk.getStateChanges env.state)
        (deployed ++ deployments env.txs commits)

theorem Ledger.entries {registry : CodeRegistry} (nil_fails : NilFails registry)
    {state : Bytes → Option Bytes} {deployed : List Bytes} (ledger : Ledger registry state deployed) :
    (∀ hash, state (codeRegistryAddr ++ hash) ≠ none → hash ∈ deployed) ∧ ∀ hash ∈ deployed, ContractHash hash := by
  induction ledger with
  | empty => exact ⟨fun _ present => absurd rfl present, fun _ mem => absurd mem List.not_mem_nil⟩
  | @execute env final deployed commits _ registry_eq hashed run returned commits_eq ih =>
      obtain ⟨stored, deployed_ok⟩ := ih
      obtain ⟨commits', sequential, commits_eq'⟩ := run.sequential returned
      have same_commits : commits = commits' :=
        List.map_injective_iff.mpr (Option.some_injective _) (commits_eq.symm.trans commits_eq')
      have registry_ok := Sequential.registryOk (registry_eq ▸ nil_fails) stored deployed_ok sequential hashed
      rw [← same_commits] at registry_ok
      refine ⟨fun hash present => List.mem_append.mpr (registry_ok hash ?_), fun hash mem => ?_⟩
      · rcases storeChanges_ne_none present with before | ⟨change, change_mem, key_eq⟩
        · exact Or.inr before
        · obtain ⟨entry, entry_mem, rfl⟩ := List.mem_map.mp change_mem
          exact Or.inl (key_eq ▸ List.mem_keys_of_mem entry_mem)
      · rcases List.mem_append.mp mem with earlier | here
        · exact deployed_ok hash earlier
        · obtain ⟨tx, tx_mem, -, rfl⟩ := deployment_of_mem here
          exact hashed tx tx_mem

/-! ## Workers -/

/-- The execution that a worker holds. -/
def Worker.execution : Worker → Option (ℕ × TxExecutor)
  | executing job exe | ready _ job exe | reexecuting job exe | settling job exe => some (job, exe)
  | idle | increasing _ | increased _ | emitting _ _ => none

theorem Worker.job_of_execution {worker : Worker} {job : ℕ} (holds : worker.execution = some (job, exe)) :
    worker.job = some job ∧ ∀ other, worker ≠ .increasing other := by
  cases worker with
  | idle | increasing | increased | emitting => cases holds
  | executing | ready | reexecuting | settling =>
      obtain ⟨rfl, rfl⟩ := Prod.mk.inj (Option.some.inj holds)
      exact ⟨rfl, fun _ absurd => nomatch absurd⟩

variable {env : BlkEnv} {state state' : BlkState}

theorem execution_setWorker {id other : ℕ} {worker : Worker} {held : ℕ × TxExecutor}
    (holds : ((state.setWorker other worker).workers id).execution = some held) :
    (id = other ∧ worker.execution = some held) ∨ (state.workers id).execution = some held := by
  have updated : (Function.update state.workers other worker id).execution = some held := holds
  by_cases same : id = other
  · subst same
    rw [Function.update_self] at updated
    exact Or.inl ⟨rfl, updated⟩
  · rw [Function.update_of_ne same] at updated
    exact Or.inr updated

theorem BlkStep.execution (step : BlkStep env state state') {id job : ℕ}
    (holds : (state'.workers id).execution = some (job, exe)) :
    (state.workers id).execution = some (job, exe) ∨ exe = newTxExecutor ∨
      ∃ before tx, (state.workers id).execution = some (job, before) ∧ env.txs[job]? = some tx ∧
        exe = before.step env.toBlockEnv tx state.rootTrk.trk := by
  cases step with
  | send | sent | receive | unsubscribeMain => exact Or.inl holds
  | take _ at_worker _ =>
      rcases execution_setWorker holds with ⟨rfl, own⟩ | old
      · exact Or.inr (Or.inl (Prod.mk.inj (Option.some.inj own)).2.symm)
      · exact Or.inl old
  | execute _ at_worker job_tx | reexecute _ at_worker job_tx =>
      rcases execution_setWorker holds with ⟨rfl, own⟩ | old
      · obtain ⟨rfl, rfl⟩ := Prod.mk.inj (Option.some.inj own)
        exact Or.inr (Or.inr ⟨_, _, by rw [at_worker]; rfl, job_tx, rfl⟩)
      · exact Or.inl old
  | check _ at_worker =>
      rcases execution_setWorker holds with ⟨rfl, own⟩ | old
      · rw [at_worker]
        split at own
        · exact Or.inr (Or.inl (Prod.mk.inj (Option.some.inj own)).2.symm)
        · exact Or.inl own
      · exact Or.inl old
  | commit _ at_worker | subscribe _ at_worker | load _ at_worker | event _ at_worker
  | unsubscribe _ at_worker | recommit _ at_worker =>
      rcases execution_setWorker holds with ⟨rfl, own⟩ | old
      · rw [at_worker]
        exact Or.inl own
      · exact Or.inl old
  | merge | increase | lock | emit | unlock =>
      rcases execution_setWorker holds with ⟨_, own⟩ | old
      · cases own
      · exact Or.inl old

/-- Deployments before a transaction, in earlier blocks or before it in its own. -/
def deployedBefore (env : BlkEnv) (deployed : List Bytes) (job : ℕ) : Set Bytes :=
  {hash | hash ∈ deployed ∨ ∃ earlier ≤ job, ∃ root commits,
    Sequential env.toBlockEnv (env.txs.take earlier) root commits ∧
      hash ∈ deployments (env.txs.take earlier) commits}

section

variable {deployed : List Bytes} (nil_fails : NilFails env.codeRegistry)
  (ledger : Ledger env.codeRegistry env.state deployed) (hashed : ∀ tx ∈ env.txs, ContractHash tx.hash)
include nil_fails ledger hashed

variable {job : ℕ}

theorem BlkRun.registryOk (run : BlkRun env state) {id : ℕ} {exe : TxExecutor}
    (holds : (state.workers id).execution = some (job, exe)) :
    RegistryOk env.toBlockEnv (deployedBefore env deployed job) state.rootTrk := by
  obtain ⟨count, merged, taken, commits, inv⟩ := run.inv
  obtain ⟨stored, deployed_ok⟩ := ledger.entries nil_fails
  obtain ⟨has_job, unmerged⟩ := Worker.job_of_execution holds
  have merged_le := inv.merged_le_job has_job unmerged
  have registry := Sequential.registryOk nil_fails stored deployed_ok inv.sequential
    fun tx mem => hashed tx (List.mem_of_mem_take mem)
  intro hash present
  exact (registry hash present).imp_right fun here => ⟨merged, merged_le, _, _, inv.sequential, here⟩

theorem BlkRun.confined (run : BlkRun env state) {id : ℕ} {exe : TxExecutor} {tx : Transaction}
    (holds : (state.workers id).execution = some (job, exe)) (job_tx : env.txs[job]? = some tx) :
    Confined tx exe ∧ PastRegistry (deployedBefore env deployed job) tx exe := by
  induction run generalizing exe with
  | refl => cases holds
  | @tail state state' before step ih =>
      rcases step.execution holds with kept | rfl | ⟨previous, tx', held, job_tx', rfl⟩
      · exact ih kept
      · exact ⟨.new tx, .new _ tx⟩
      · obtain rfl := Option.some.inj (job_tx'.symm.trans job_tx)
        obtain ⟨confined, past⟩ := ih held
        have registry := BlkRun.registryOk nil_fails ledger hashed before held
        exact ⟨confined.step _ _, past.step nil_fails confined registry⟩

theorem contractHash_of_deployedBefore {hash : Bytes}
    (mem : hash ∈ deployedBefore env deployed job) : ContractHash hash := by
  rcases mem with earlier | ⟨_, _, _, _, _, here⟩
  · exact (ledger.entries nil_fails).2 hash earlier
  · obtain ⟨tx, tx_mem, -, rfl⟩ := deployment_of_mem here
    exact hashed tx (List.mem_of_mem_take tx_mem)

end

/-- The value of a key below the transactions of a block. -/
def readRoot (env : BlockEnv) (root : RootTracker) (key : Bytes) : Option Bytes :=
  (rootGetState env root.trk key ()).1

theorem readRoot_eq (env : BlockEnv) (root : RootTracker) (key : Bytes) :
    readRoot env root key = (root.trk.changes.lookup key).getD (env.state key) := by
  have full_eq : root.trk.keyPrefix ++ key = key := by rw [root.keyPrefix_eq, List.nil_append]
  unfold readRoot rootGetState
  cases found : root.trk.changes.lookup key with
  | some value =>
      rw [← full_eq] at found
      rw [StateTracker.getState_of_lookup _ found]
      rfl
  | none =>
      rw [← full_eq] at found
      rw [StateTracker.getState_of_missing _ found, full_eq]
      rfl

/-- A key under another contract, or an entry of the registry that is not the transaction's own. -/
def Foreign (tx : Transaction) (key : Bytes) : Prop :=
  (∃ contract, ContractHash contract ∧ contract ≠ contractAddr tx ∧ contract <+: key) ∨
    ∃ hash, key = codeRegistryAddr ++ hash ∧ ¬ (tx.codeAddr.length = 0 ∧ hash = tx.hash)

theorem Foreign.not_mayWrite (foreign : Foreign tx key) (own : ContractHash (contractAddr tx)) : ¬ MayWrite tx key := by
  intro writes
  rcases foreign with ⟨contract, is_contract, other, under⟩ | ⟨hash, rfl, not_own⟩
  · have not_under (own_under : contractAddr tx <+: key) : False :=
      other (eq_of_starts is_contract.length_eq own.length_eq under own_under)
    unfold MayWrite at writes
    unfold contractAddr at not_under
    split at writes
    · next deploys =>
        rw [if_pos deploys] at not_under
        rcases writes with own_under | rfl
        · exact not_under own_under
        · have registry_under : codeRegistryAddr <+: codeRegistryAddr ++ tx.hash := List.prefix_append _ _
          exact is_contract.nonzero
            (eq_of_starts is_contract.length_eq List.length_replicate under registry_under)
    · next invokes =>
        rw [if_neg invokes] at not_under
        exact not_under writes
  · exact not_own (entry_of_mayWrite own writes)

/-- The keys that an execution has set, merged or not. -/
def TxExecutor.Writes (exe : TxExecutor) (key : Bytes) : Prop :=
  key ∈ exe.txTrk.changes ∨ ∃ regTrk trk call answers, exe.stage = .running regTrk trk call answers ∧
    (key ∈ trk.changes ∨ ∃ reg, regTrk = some reg ∧ key ∈ reg.changes)

theorem Confined.mayWrite_of_writes (confined : Confined tx exe) (writes : exe.Writes key) : MayWrite tx key := by
  rcases writes with merged | ⟨regTrk, trk, call, answers, running, own | ⟨reg, is_reg, entry⟩⟩
  · exact confined.merged key merged
  · obtain ⟨-, under, -⟩ := confined.running _ _ _ _ running
    exact mayWrite_of_contractAddr (under key own)
  · obtain ⟨-, -, entries⟩ := confined.running _ _ _ _ running
    obtain ⟨deploys, is_entry⟩ := entries reg is_reg
    rw [MayWrite, if_pos deploys]
    exact Or.inr (is_entry key entry)

/-- In every state that executions reach from the empty one, an invocation runs only at the hash of an
earlier deployment that succeeded, a transaction writes under its contract or its own entry in the
registry, and merging it leaves all keys of other contracts and all other entries as they are. -/
theorem contracts_isolated {deployed : List Bytes} (nil_fails : NilFails env.codeRegistry)
    (ledger : Ledger env.codeRegistry env.state deployed) (hashed : ∀ tx ∈ env.txs, ContractHash tx.hash)
    (run : BlkRun env state) {id job : ℕ} {exe : TxExecutor} {tx : Transaction}
    (holds : (state.workers id).execution = some (job, exe)) (job_tx : env.txs[job]? = some tx) :
    (tx.codeAddr.length ≠ 0 →
      (∃ regTrk trk call answers, exe.stage = .running regTrk trk call answers) →
        ContractHash tx.codeAddr ∧ tx.codeAddr ∈ deployedBefore env deployed job) ∧
    (∀ key, exe.Writes key → MayWrite tx key) ∧
    ∀ root key, Foreign tx key →
      readRoot env.toBlockEnv (root.merge exe.txTrk) key = readRoot env.toBlockEnv root key := by
  obtain ⟨confined, past⟩ := BlkRun.confined nil_fails ledger hashed run holds job_tx
  have tx_hash : ContractHash tx.hash := hashed tx (List.mem_of_getElem? job_tx)
  have is_contract : tx.codeAddr ∈ deployedBefore env deployed job → ContractHash tx.codeAddr :=
    contractHash_of_deployedBefore nil_fails ledger hashed
  refine ⟨fun invokes running => ?_, fun key => confined.mayWrite_of_writes, fun root key foreign => ?_⟩
  · have registered := past invokes (Or.inl running)
    exact ⟨is_contract registered, registered⟩
  · have key_notMem : key ∉ exe.txTrk.changes := by
      intro mem
      have own : ContractHash (contractAddr tx) := by
        unfold contractAddr
        split
        · exact tx_hash
        · next invokes => exact is_contract (past invokes (Or.inr ⟨key, mem⟩))
      exact foreign.not_mayWrite own (confined.merged key mem)
    rw [readRoot_eq, readRoot_eq]
    exact congrArg (fun value => value.getD (env.state key))
      (StateTracker.lookup_merge_of_notMem root.keyPrefix_eq key_notMem)

/-! ## A deployment and an invocation -/

/-- A registry with one chaincode, which sets a key of its own. -/
def setterRegistry : CodeRegistry where
  driver _ := some fun _ => .ok ⟨fun _ => call, fun _ => call⟩
  unmarshalInput _ := .ok ⟨⟨0, []⟩, []⟩
  unmarshalCodeInfo
    | none => .error "unexpected end of JSON input"
    | some _ => .ok ⟨0, []⟩
  marshalCodeInfo _ := some [123]
where
  call : ChaincodeCall
    | [] => .setState [0] (some [1])
    | _ => .finish none

def setterAddr : Bytes := List.replicate 32 1

def setterTx (hash codeAddr : Bytes) : Transaction :=
  ⟨⟨hash, [], 0, List.replicate 32 1, codeAddr, [], 0⟩, ⟨List.replicate 32 1, length_ones⟩⟩

/-- A block with one transaction. -/
def setterEnv (state : Bytes → Option Bytes) (tx : Transaction) : BlkEnv where
  codeRegistry := setterRegistry
  state := state
  blk := appendEnv.blk
  txs := [tx]
  concurrentLimit := 1

/-- The deployment of the chaincode, and an invocation of it. -/
def deployEnv : BlkEnv := setterEnv (fun _ => none) (setterTx setterAddr [])

/-- The executor at the end of the deployment. -/
def setterDeployed : TxExecutor :=
  (TxExecutor.step deployEnv.toBlockEnv (setterTx setterAddr []) RootTracker.new.trk)^[3] newTxExecutor

/-- The store after the deployment. -/
def setterState : Bytes → Option Bytes :=
  storeChanges (RootTracker.new.merge setterDeployed.txTrk).trk.getStateChanges fun _ => none

/-- An invocation in the next block. -/
def invokeEnv : BlkEnv := setterEnv setterState (setterTx (List.replicate 32 2) setterAddr)

theorem contractHash_replicate {byte : UInt8} (nonzero : byte ≠ 0) : ContractHash (List.replicate 32 byte) where
  length_eq := List.length_replicate
  nonzero same := nonzero (List.replicate_right_injective (n := 32) (by decide) same)

theorem invokeEnv_hashed : ∀ tx ∈ invokeEnv.txs, ContractHash tx.hash := by
  intro tx mem
  obtain rfl := List.mem_singleton.mp mem
  exact contractHash_replicate (by decide)

theorem Ledger.deploy
    (completes : Completes env.toBlockEnv tx RootTracker.new exe "") (empty : env.state = fun _ => none)
    (txs_eq : env.txs = [tx]) (limit_pos : 0 < env.concurrentLimit) (hashed : ContractHash tx.hash)
    (deploys : tx.codeAddr.length = 0) : Ledger env.codeRegistry
      (storeChanges (RootTracker.new.merge exe.txTrk).trk.getStateChanges fun _ => none) [tx.hash] := by
  have sequential : Sequential env.toBlockEnv env.txs _ _ := txs_eq ▸ Sequential.nil.snoc completes
  obtain ⟨final, run, returned⟩ := exists_returned limit_pos (by simp [txs_eq]) sequential
  obtain ⟨commits, sequential', commits_eq⟩ := run.sequential returned
  obtain ⟨root_eq, rfl⟩ := sequential'.unique sequential
  have all_hashed : ∀ tx ∈ env.txs, ContractHash tx.hash := by
    rw [txs_eq]
    exact List.forall_mem_singleton.mpr hashed
  have before : Ledger env.codeRegistry env.state [] := empty ▸ .empty
  have ledger := before.execute rfl all_hashed run returned commits_eq
  rw [root_eq, empty] at ledger
  have here : deployments ([] ++ [tx]) ([] ++ [TxExecutor.txCommit env.toBlockEnv tx ""]) = [tx.hash] := by
    rw [deployments_snoc rfl, if_pos ⟨deploys, rfl⟩]
    rfl
  rw [txs_eq] at ledger
  exact here ▸ ledger

theorem setter_ledger : Ledger setterRegistry setterState [setterAddr] := by
  have completes : Completes deployEnv.toBlockEnv (setterTx setterAddr []) RootTracker.new setterDeployed
      "" := ⟨rfl, 3, rfl⟩
  have hashed : ContractHash setterAddr := contractHash_replicate (by decide)
  exact .deploy completes rfl rfl Nat.one_pos hashed rfl

/-- The executor of the invocation after the registry. -/
def setterInvoked : TxExecutor :=
  newTxExecutor.step invokeEnv.toBlockEnv (setterTx (List.replicate 32 2) setterAddr) RootTracker.new.trk

theorem invokeEnv_run : ∃ state, BlkRun invokeEnv state ∧ (state.workers 0).execution = some (0, setterInvoked) := by
  have sent : BlkRun invokeEnv _ := .tail .refl (.send rfl (by decide) (by decide))
  have taken : BlkRun invokeEnv _ := .tail sent (.take Nat.one_pos rfl rfl)
  have executed : BlkRun invokeEnv _ := .tail taken (.execute Nat.one_pos rfl rfl)
  exact ⟨_, executed, rfl⟩

/-- The invocation runs in the next block, at the hash of the deployment. -/
theorem contracts_isolated_setter :
    (∃ regTrk trk call answers, setterInvoked.stage = .running regTrk trk call answers) ∧
      setterAddr ∈ deployedBefore invokeEnv [setterAddr] 0 := by
  have running : ∃ regTrk trk call answers,
      setterInvoked.stage = .running regTrk trk call answers := ⟨_, _, _, _, rfl⟩
  have job_tx : invokeEnv.txs[0]? = some (setterTx (List.replicate 32 2) setterAddr) := rfl
  obtain ⟨state, run, holds⟩ := invokeEnv_run
  have isolated := contracts_isolated ⟨_, rfl⟩ setter_ledger invokeEnv_hashed run holds job_tx
  exact ⟨running, (isolated.1 (by decide) running).2⟩

end SvpChain.Execution
