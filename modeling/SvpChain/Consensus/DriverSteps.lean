import SvpChain.Consensus.Steps

/-!
# The driver moves by steps

One lemma for each function of the driver: whichever way the call ends, the node it leaves behind is
reached by steps, and what the caller relies on holds when it returns.
-/

namespace SvpChain.Consensus

open Core TxPool Relation Program

variable {params : Params} {env : Env} {inbox : Inbox} {node node' : Node} {step : Node → Node → Prop}

/-! ## Validations and the pool -/

/-- A validation that passed. -/
def Passed {α : Type} (program : Program CoreError RoleStore α) : Prop :=
  ∃ store value store', program store = (.ok value, store')

/-- What the surroundings of a call hand over is in the inbox. -/
structure Answers (params : Params) (env : Env) (inbox : Inbox) : Prop where
  requestBlock : ∀ number peer hash blk, env.requestBlock number peer hash = some blk →
    Passed (blk.validate params.crypto) → inbox.Block blk
  requestBlockByHeight : ∀ number peer height blk,
    env.requestBlockByHeight number peer height = some blk →
      Passed (blk.validate params.crypto) → inbox.Block blk ∧ inbox.Height blk
  execute : ∀ roleStore storage blk txs,
    inbox.Roles roleStore (env.execute roleStore storage blk txs).roleStore

/-- Role stores that differ in the grace height. -/
def SameRoles (store store' : RoleStore) : Prop :=
  ∃ graceHeight, store' = { store with graceHeight := graceHeight }

theorem sameRoles_of_steps {store store' : RoleStore} (steps : ReflTransGen SameRoles store store') :
    SameRoles store store' := by
  induction steps with
  | refl => exact ⟨store.graceHeight, rfl⟩
  | tail _ step ih =>
      obtain ⟨_, rfl⟩ := ih
      obtain ⟨graceHeight, rfl⟩ := step
      exact ⟨graceHeight, rfl⟩

variable {α : Type}

theorem runs_ofExcept (result : Except CoreError α) (store : RoleStore) :
    Runs SameRoles (ofExcept result) (fun _ _ => True) store := by
  cases result with
  | ok value => exact Runs.pure trivial
  | error reason => exact Runs.throw

theorem runs_validateSigs (crypto : Crypto) (data : PbQuorumCert) (sigs : List Signature)
    (quotas : List UInt64) (seen : List Bytes) (store : RoleStore) :
    Runs SameRoles (QuorumCert.validateSigs crypto data sigs quotas seen) (fun _ _ => True) store := by
  induction sigs generalizing quotas seen with
  | nil => exact Runs.pure trivial
  | cons sig sigs ih =>
      refine Runs.throwIf_bind fun _ => Runs.get_bind (Runs.throwIf_bind fun _ => ?_)
      cases quotas with
      | nil => exact Runs.fault
      | cons quota quotas => exact Runs.throwIf_bind fun _ => ih quotas _

theorem runs_decAndGetGrace (store : RoleStore) :
    Runs SameRoles (RoleStore.decAndGetGrace : Program CoreError RoleStore ℕ) (fun _ _ => True) store :=
  Runs.modify_bind ⟨_, rfl⟩ (Runs.gets trivial)

theorem runs_validateQC (crypto : Crypto) (qc : QuorumCert) (store : RoleStore) :
    Runs SameRoles (qc.validate crypto) (fun _ _ => True) store := by
  refine Runs.bind (runs_decAndGetGrace store) fun _ store _ _ => ?_
  refine Runs.get_bind (Runs.throwIf_bind fun _ => ?_)
  refine Runs.bind (runs_validateSigs _ _ _ _ _ store) fun _ store _ _ => ?_
  refine Runs.bind (runs_ofExcept _ store) fun _ store _ _ => ?_
  exact Runs.throwIf_bind fun _ => Runs.throwIf fun _ => trivial

theorem runs_validateBlock (crypto : Crypto) (blk : Block) (store : RoleStore) :
    Runs SameRoles (blk.validate crypto) (fun _ _ => True) store := by
  have checkSignature : ∀ store, Runs SameRoles (do
      let sig ← ofExcept (newSignature blk.data.signature)
      let store ← Program.get
      Program.throwIf (store.isValidator sig.pubKey = false) CoreError.invalidValidator
      Program.throwIf (sig.verify crypto blk.data.hash = false) CoreError.invalidSig)
      (fun _ _ => True) store := by
    intro store
    refine Runs.bind (runs_ofExcept _ store) fun _ store _ _ => ?_
    exact Runs.get_bind (Runs.throwIf_bind fun _ => Runs.throwIf fun _ => trivial)
  refine Runs.throwIf_bind fun _ => ?_
  cases blk.quorumCert with
  | none => exact checkSignature store
  | some qc => exact Runs.bind (runs_validateQC crypto qc store) fun _ store _ _ => checkSignature store

theorem runs_validateVote (crypto : Crypto) (vote : Vote) (store : RoleStore) :
    Runs SameRoles (vote.validate crypto) (fun _ _ => True) store := by
  refine Runs.bind (runs_ofExcept _ store) fun _ store _ _ => ?_
  exact Runs.get_bind (Runs.throwIf_bind fun _ => Runs.throwIf fun _ => trivial)

theorem runs_onRoleStore {program : Program CoreError RoleStore α}
    (keeps : ∀ store, Runs SameRoles program (fun _ _ => True) store) :
    Runs (NodeStep params inbox) (onRoleStore program) (fun _ _ => Passed program) node := by
  have result : wp program (fun _ _ => Passed program) (fun _ _ => True) node.roleStore := by
    unfold wp
    rcases ending : program node.roleStore with ⟨_ | value, store'⟩
    · trivial
    · exact ⟨node.roleStore, value, store', ending⟩
  refine Runs.zoom (wp_mono (wp_and (keeps node.roleStore) result) ?_ ?_)
  · rintro value store' ⟨⟨steps, -⟩, passed⟩
    obtain ⟨graceHeight, rfl⟩ := sameRoles_of_steps steps
    exact ⟨.chain (.grace graceHeight), passed⟩
  · rintro halt store' ⟨steps, -⟩
    obtain ⟨graceHeight, rfl⟩ := sameRoles_of_steps steps
    exact .chain (.grace graceHeight)

theorem runs_onTxPool {program : Program TxPoolError TxStore α} {holds : α → Prop}
    (result : wp program (fun value _ => holds value) (fun _ _ => True) node.txPool) :
    Runs (NodeStep params inbox) (onTxPool program)
      (fun value node' => holds value ∧ ∃ txPool, node' = { node with txPool := txPool }) node := by
  refine Runs.zoom (wp_mono result ?_ ?_)
  · exact fun value txPool held => ⟨.chain (.aside txPool _ _), held, txPool, rfl⟩
  · exact fun halt txPool _ => .chain (.aside txPool _ _)

theorem runs_nextRequest : Runs (NodeStep params inbox) nextRequest (fun _ _ => True) node :=
  Runs.gets_bind (Runs.modify_bind (.chain (.aside _ _ _)) (Runs.pure trivial))

theorem runs_syncTxs (peer : PublicKey) (hashes : List Bytes) :
    Runs (NodeStep params inbox) (syncTxs params env peer hashes) (fun _ _ => True) node := by
  refine Runs.bind runs_nextRequest fun number node _ _ => Runs.get_bind ?_
  exact Runs.mono (runs_onTxPool (wp_trivial _)) fun _ _ _ _ => trivial

theorem runs_ofFault (result : Except Fault α) : Runs step (ofFault result)
      (fun value node' => result = .ok value ∧ node' = node) node := by
  cases result with
  | ok value => exact Runs.pure ⟨rfl, rfl⟩
  | error reason => exact Runs.fault

/-! ## Blocks and priorities -/

theorem loads_setBlock {hash : Bytes} {blk : Block} (not_in_memory : findBlock node.state.blocks hash = none)
    (in_storage : findBlock node.storage.blocks hash = some blk) : Loads node (node.setBlock blk) := by
  refine ⟨putBlock node.state.blocks blk, rfl, fun other_hash other found => ?_, fun other mem => ?_⟩
  · have different : blk.hash ≠ other_hash := by
      rintro rfl
      rw [(mem_of_findBlock in_storage).2, not_in_memory] at found
      cases found
    rwa [findBlock_putBlock_of_ne different]
  · rcases mem_putBlock mem with rfl | old
    · exact Or.inr (mem_of_findBlock in_storage).1
    · exact Or.inl old

theorem runs_getBlockByHash (hash : Bytes) : Runs (NodeStep params inbox) (getBlockByHash hash)
      (fun found node' => Loads node node' ∧
        ∀ blk, found = some blk → findBlock node'.state.blocks hash = some blk) node := by
  refine Runs.get_bind ?_
  cases in_memory : findBlock node.state.blocks hash with
  | some blk => exact Runs.pure ⟨.refl node, fun _ same => in_memory.trans same⟩
  | none =>
      cases in_storage : findBlock node.storage.blocks hash with
      | none => exact Runs.pure ⟨.refl node, fun _ same => nomatch same⟩
      | some blk =>
          have loads := loads_setBlock in_memory in_storage
          refine Runs.modify_bind (.chain (.load loads)) (Runs.pure ⟨loads, fun _ same => ?_⟩)
          rw [← same, ← (mem_of_findBlock in_storage).2]
          exact findBlock_putBlock_self _ _

theorem runs_qcRefHeight (qc : QuorumCert) : Runs (NodeStep params inbox) (qcRefHeight qc)
      (fun height node' => Loads node node' ∧ ∃ blk,
        findBlock node'.state.blocks qc.blockHash = some blk ∧ height = blk.height) node := by
  refine Runs.bind (runs_getBlockByHash qc.blockHash) fun found node' _ ⟨loads, is_found⟩ => ?_
  exact Runs.deref_bind fun blk same => Runs.pure ⟨loads, blk, is_found blk same, rfl⟩

theorem runs_cmpQCPriority (left right : Option QuorumCert) : Runs (NodeStep params inbox) (cmpQCPriority left right)
      (fun order node' => Loads node node' ∧ ∃ qc1 qc2, left = some qc1 ∧ right = some qc2 ∧
        QCOrder node' qc1 qc2 order) node := by
  rcases left with _ | qc1
  · exact Runs.fault
  rcases right with _ | qc2
  · exact Runs.fault
  refine Runs.ite (fun less => Runs.pure ⟨.refl node, qc1, qc2, rfl, rfl, Or.inl ⟨less, rfl⟩⟩) ?_
  intro not_less
  refine Runs.ite
    (fun less => Runs.pure ⟨.refl node, qc1, qc2, rfl, rfl, Or.inr (Or.inl ⟨less, rfl⟩)⟩) ?_
  intro not_greater
  have same_view : qc1.view = qc2.view := UInt32.le_antisymm (UInt32.not_lt.mp not_less)
    (UInt32.not_lt.mp not_greater)
  refine Runs.bind (runs_qcRefHeight qc1) fun height1 node1 _ ⟨loads1, blk1, found1, height1_eq⟩ => ?_
  refine Runs.bind (runs_qcRefHeight qc2) fun height2 node2 _ ⟨loads2, blk2, found2, height2_eq⟩ => ?_
  refine Runs.pure ⟨loads1.trans loads2, qc1, qc2, rfl, rfl, Or.inr (Or.inr ⟨same_view, blk1, blk2,
    loads2.find found1, found2, ?_⟩)⟩
  rw [height1_eq, height2_eq]

theorem runs_cmpBlockHeight (left right : Option Block) : Runs step (cmpBlockHeight left right)
      (fun order node' => node' = node ∧ ∃ b1 b2, left = some b1 ∧ right = some b2 ∧
        order = compare b1.height b2.height) node := by
  rcases left with _ | b1
  · exact Runs.fault
  rcases right with _ | b2
  · exact Runs.fault
  exact Runs.pure ⟨rfl, b1, b2, rfl, rfl, rfl⟩

/-! ## Missing blocks -/

/-- Steps that the synchronisation with a peer consists of. Blocks that are given for a height are committed where
the node is good. -/
structure SyncSteps (params : Params) (env : Env) (step : Node → Node → Prop) (good : Node → Prop)
    (given : Node → Block → Prop) : Prop where
  keeps_good : ∀ {node node'}, ReflTransGen step node node' → good node → good node'
  keeps_given : ∀ {node node' blk}, ReflTransGen step node node' → given node blk → given node' blk
  getBlockByHash : ∀ node hash, Runs step (getBlockByHash hash) (fun _ _ => True) node
  requestBlock : ∀ node peer hash, Runs step (requestBlock params env peer hash) (fun _ _ => True) node
  requestBlockByHeight : ∀ node peer height,
    Runs step (requestBlockByHeight params env peer height) (fun blk node' => given node' blk) node
  syncTxs : ∀ node peer hashes, Runs step (syncTxs params env peer hashes) (fun _ _ => True) node
  commitRecursive : ∀ {node blk}, good node → given node blk →
    Runs step (commitRecursive params env blk) (fun _ _ => True) node

namespace SyncSteps

variable {good : Node → Prop} {given : Node → Block → Prop} (sync : SyncSteps params env step good given)
include sync

theorem getOrRequestBlock (peer : PublicKey) (hash : Bytes) :
    Runs step (Consensus.getOrRequestBlock params env peer hash) (fun _ _ => True) node := by
  refine Runs.bind (sync.getBlockByHash _ hash) fun found node1 _ _ => ?_
  cases found with
  | some blk => exact Runs.pure trivial
  | none => exact sync.requestBlock node1 peer hash

theorem syncForwardCommittedBlocks (peer : PublicKey) (count : ℕ) (height : UInt64) (is_good : good node) :
    Runs step (Consensus.syncForwardCommittedBlocks params env peer count height) (fun _ _ => True) node := by
  induction count generalizing height node with
  | zero => exact Runs.pure trivial
  | succ count ih =>
      refine Runs.bind (sync.requestBlockByHeight _ peer height) fun blk node1 steps1 is_given => ?_
      refine Runs.bind (sync.getBlockByHash _ _) fun found node2 steps2 _ => ?_
      cases found with
      | none => exact Runs.throw
      | some parent =>
          have commits : Runs step (verifyParentAndCommitRecursive params env peer blk parent)
              (fun _ _ => True) node2 := by
            refine Runs.throwIf_bind fun _ => ?_
            refine Runs.bind (Runs.when (fun _ => sync.syncTxs _ peer _) fun _ => trivial) ?_
            intro _ node3 steps3 _
            exact sync.commitRecursive (sync.keeps_good ((steps1.trans steps2).trans steps3) is_good)
              (sync.keeps_given (steps2.trans steps3) is_given)
          refine Runs.bind commits fun _ node3 steps3 _ => ?_
          exact ih _ (sync.keeps_good ((steps1.trans steps2).trans steps3) is_good)

theorem syncMissingParentRecursive (peer : PublicKey) (fuel : ℕ) (blk : Block) :
    Runs step (Consensus.syncMissingParentRecursive params env peer fuel blk) (fun _ _ => True) node := by
  induction fuel using Nat.strong_induction_on generalizing node blk with
  | _ fuel ih =>
      rw [Consensus.syncMissingParentRecursive]
      refine Runs.bind (sync.getOrRequestBlock _ _) fun parent node1 _ _ => ?_
      refine Runs.gets_bind (Runs.ite (fun _ => Runs.pure trivial) fun _ => ?_)
      refine Runs.throwIf_bind fun _ => ?_
      refine Runs.bind (Runs.when (fun _ => sync.syncTxs _ peer _) fun _ => trivial) ?_
      intro _ node2 _ _
      cases fuel with
      | zero => exact Runs.fault
      | succ fuel =>
          exact Runs.bind (ih fuel fuel.lt_succ_self parent) fun _ _ _ _ => Runs.pure trivial

theorem syncMissingCommittedBlocks (blk : Block) (is_good : good node) :
    Runs step (Consensus.syncMissingCommittedBlocks params env blk) (fun _ _ => True) node := by
  refine Runs.gets_bind (Runs.ite (fun _ => Runs.pure trivial) fun _ => Runs.throwIf_bind fun _ => ?_)
  refine Runs.bind (sync.getOrRequestBlock _ _) fun qcRef node1 steps1 _ => ?_
  exact Runs.throwIf_bind fun _ => sync.syncForwardCommittedBlocks _ _ _ (sync.keeps_good steps1 is_good)

theorem syncParentBlock (blk : Block) (is_good : good node) :
    Runs step (Consensus.syncParentBlock params env blk) (fun _ _ => True) node := by
  refine Runs.ite (fun _ => Runs.pure trivial) fun _ => ?_
  refine Runs.bind (sync.getBlockByHash _ _) fun found node1 steps1 _ => ?_
  cases found with
  | some parent => exact Runs.pure trivial
  | none =>
      refine Runs.bind (sync.syncMissingCommittedBlocks blk (sync.keeps_good steps1 is_good)) fun _ node2 _ _ => ?_
      refine Runs.gets_bind (Runs.bind (sync.syncMissingParentRecursive _ _ _) ?_)
      exact fun _ _ _ _ => Runs.pure trivial

end SyncSteps

/-! ## Commits -/

/-- Entries were only removed from the maps in memory. -/
def Shrinks (state state' : State) : Prop :=
  state'.blocks ⊆ state.blocks ∧ state'.qcs ⊆ state.qcs

theorem Shrinks.trans {state state' state'' : State} (first : Shrinks state state')
    (second : Shrinks state' state'') : Shrinks state state'' :=
  ⟨List.Subset.trans second.1 first.1, List.Subset.trans second.2 first.2⟩

theorem shrinks_foldl {delete : State → Block → State}
    (shrinks : ∀ state blk, Shrinks state (delete state blk)) (blks : List Block) (state : State) :
    Shrinks state (blks.foldl delete state) := by
  induction blks generalizing state with
  | nil => exact ⟨List.Subset.refl _, List.Subset.refl _⟩
  | cons blk blks ih => exact (shrinks state blk).trans (ih _)

theorem step_finishCommit (blk : Block) (txCount : ℕ) :
    NodeStep params inbox node (finishCommit params env blk txCount node) := by
  have shrinks : Shrinks node.state (finishCommit params env blk txCount node).state := by
    simp only [finishCommit, cleanStateOnCommitted]
    have cleared : Shrinks node.state ({ node.state with
        committedTxCount := node.state.committedTxCount + UInt64.ofNat txCount }.deleteQC
          blk.hash |>.setCommittedBlock blk) := ⟨List.Subset.refl _, List.filter_subset_self _⟩
    split
    · refine cleared.trans (shrinks_foldl ?_ _ _)
      exact fun _ _ => ⟨List.filter_subset_self _, List.filter_subset_self _⟩
    · refine (cleared.trans (shrinks_foldl ?_ _ _)).trans (shrinks_foldl ?_ _ _)
      · exact fun _ _ => ⟨List.filter_subset_self _, List.filter_subset_self _⟩
      · exact fun _ _ => ⟨List.filter_subset_self _, List.Subset.refl _⟩
  exact .chain (.clean _ shrinks.1 shrinks.2)

section

variable (answers : Answers params env inbox)
include answers

variable {blk : Block}

theorem runs_commit {target : Block} (reason : CommitReason inbox node target)
    (ancestor : Ancestor (Seen inbox node) target blk) (higher : node.status.bExec.height < blk.height) :
    Runs (NodeStep params inbox) (commit params env blk)
      (fun _ node' => node'.status = node.status ∧ .commit blk ∈ node'.trace) node := by
  have committed : .commit blk ∈ (node.record (.commit blk)).trace := List.mem_cons_self
  have seen : Seen inbox (node.record (.commit blk)) blk := ancestor.seen.mono (List.suffix_cons _ _)
  refine Runs.modify_bind (.chain (.commit reason ancestor higher)) (Runs.get_bind ?_)
  refine Runs.ite (fun _ => Runs.modify (step_finishCommit _ _) ⟨rfl, committed⟩) fun _ => ?_
  refine Runs.ite (fun _ => ?_) fun mock => ?_
  · refine Runs.bind (runs_onTxPool (wp_getTxsToExecute _ _ _)) ?_
    rintro ⟨txs, _⟩ _ _ ⟨txs_eq, txPool, rfl⟩
    refine Runs.modify_bind (.chain (.execute _ _ committed seen txs_eq (answers.execute _ _ _ _))) ?_
    exact Runs.modify (step_finishCommit _ _) ⟨rfl, List.mem_cons_of_mem _ committed⟩
  · refine Runs.modify_bind (.chain (.mockExecute (by simpa using mock) committed seen)) ?_
    exact Runs.modify (step_finishCommit _ _) ⟨rfl, committed⟩

theorem runs_onCommit {target : Block} (fuel : ℕ) (found : Option Block) (closed : Closed inbox node)
    (reason : CommitReason inbox node target)
    (ancestor : ∀ blk, found = some blk → Ancestor (Seen inbox node) target blk) :
    Runs (NodeStep params inbox) (onCommit params env fuel found)
      (fun _ node' => node'.status = node.status ∧ ∀ blk, found = some blk →
        .commit blk ∈ node'.trace ∨ node.status.bExec.hash = blk.hash) node := by
  induction fuel using Nat.strong_induction_on generalizing node found with
  | _ fuel ih =>
      rw [onCommit]
      refine Runs.gets_bind (Runs.bind (runs_cmpBlockHeight _ _) ?_)
      rintro order _ _ ⟨rfl, blk, bExec, rfl, same_exec, order_eq⟩
      obtain rfl := Option.some.inj same_exec
      refine Runs.deref_bind fun _ same => ?_
      obtain rfl := Option.some.inj same
      refine Runs.ite (fun greater => ?_) fun _ => ?_
      · have higher := Std.compare_eq_gt.mp (order_eq.symm.trans greater)
        have not_genesis : blk.height ≠ 0 := fun zero => UInt64.not_lt_zero (zero ▸ higher)
        cases fuel with
        | zero => exact Runs.fault
        | succ fuel =>
            refine Runs.bind (runs_getBlockByHash _) fun found node1 steps1 ⟨loads, is_found⟩ => ?_
            have same1 := loads.status_eq
            have grows1 := Steps.trace_suffix steps1
            refine Runs.bind (ih fuel fuel.lt_succ_self found (closed.steps steps1)
              (reason.mono same1 grows1) ?_)
              fun _ node2 steps2 ⟨same2, _⟩ => ?_
            · intro parent is_parent
              obtain ⟨mem, hash_eq⟩ := mem_of_findBlock (is_found parent is_parent)
              exact .parent ((ancestor blk rfl).mono fun _ seen => seen.mono grows1) not_genesis
                ((closed.steps steps1).blocks parent mem) hash_eq
            · have grows := grows1.trans (Steps.trace_suffix steps2)
              have same := same2.trans same1
              refine Runs.mono (runs_commit answers (reason.mono same grows)
                ((ancestor blk rfl).mono fun _ seen => seen.mono grows) (same ▸ higher)) ?_
              rintro _ node3 _ ⟨same3, committed⟩
              exact ⟨same3.trans same, fun _ is_blk => Or.inl (Option.some.inj is_blk ▸ committed)⟩
      · refine Runs.ite (fun _ => Runs.fault) fun executed => Runs.pure ⟨rfl, fun _ is_blk => ?_⟩
        exact Or.inr (Option.some.inj is_blk ▸ not_not.mp executed)

theorem runs_commitRecursive (closed : Closed inbox node)
    (reason : CommitReason inbox node blk) (seen : Seen inbox node blk) :
    Runs (NodeStep params inbox) (commitRecursive params env blk)
      (fun _ node' => node'.status = { node.status with bExec := blk }) node := by
  refine Runs.get_bind (Runs.bind (runs_onCommit answers _ _ closed reason ?_) ?_)
  · intro _ same
    exact Option.some.inj same ▸ .self seen
  · rintro _ node1 _ ⟨same, committed⟩
    have was_committed := committed blk rfl
    rw [← same] at was_committed ⊢
    exact Runs.modify (.chain (.setBExec was_committed)) rfl

/-! ## Synchronisation -/

theorem runs_requestBlock (peer : PublicKey) (hash : Bytes) :
    Runs (NodeStep params inbox) (requestBlock params env peer hash) (fun _ _ => True) node := by
  refine Runs.bind runs_nextRequest fun number node1 _ _ => ?_
  cases answer : env.requestBlock number peer hash with
  | none => exact Runs.throw
  | some blk =>
      refine Runs.bind (runs_onRoleStore (runs_validateBlock _ _)) fun _ node2 _ passed => ?_
      exact Runs.modify_bind (.chain (.receive (answers.requestBlock _ _ _ _ answer passed)))
        (Runs.pure trivial)

theorem runs_requestBlockByHeight (peer : PublicKey) (height : UInt64) :
    Runs (NodeStep params inbox) (requestBlockByHeight params env peer height)
      (fun blk node' => Seen inbox node' blk ∧ inbox.Height blk ∧ .receivedByHeight blk ∈ node'.trace) node := by
  refine Runs.bind runs_nextRequest fun number node1 _ _ => ?_
  cases answer : env.requestBlockByHeight number peer height with
  | none => exact Runs.throw
  | some blk =>
      refine Runs.bind (runs_onRoleStore (runs_validateBlock _ _)) fun _ node2 _ passed => ?_
      have received := answers.requestBlockByHeight _ _ _ _ answer passed
      refine Runs.modify_bind (.chain (.receive received.1)) ?_
      refine Runs.modify_bind (.chain (.answer received.2)) (Runs.pure ⟨?_, received.2, ?_⟩)
      · exact Or.inr (Or.inl (List.mem_cons_of_mem _ List.mem_cons_self))
      · exact List.mem_cons_self

theorem syncSteps : SyncSteps params env (NodeStep params inbox) (Closed inbox)
    (fun node blk => Seen inbox node blk ∧ inbox.Height blk ∧ .receivedByHeight blk ∈ node.trace) where
  keeps_good steps closed := closed.steps steps
  keeps_given steps given :=
    ⟨given.1.mono (Steps.trace_suffix steps), given.2.1, (Steps.trace_suffix steps).subset given.2.2⟩
  getBlockByHash _ hash := Runs.mono (runs_getBlockByHash hash) fun _ _ _ _ => trivial
  requestBlock _ := runs_requestBlock answers
  requestBlockByHeight _ := runs_requestBlockByHeight answers
  syncTxs _ := runs_syncTxs
  commitRecursive closed given :=
    Runs.mono (runs_commitRecursive answers closed (Or.inr given.2) given.1) fun _ _ _ _ => trivial

/-! ## The highest certificate -/

omit answers in
theorem runs_updateWindow (qc : QuorumCert) (blk1 : Block) :
    Runs (NodeStep params inbox) (updateWindow qc blk1)
      (fun _ node' => ∃ window, node' = node.setStatus { node.status with window := window }) node := by
  refine Runs.get_bind ?_
  cases qc.findVote node.signer with
  | none => exact Runs.fault
  | some vote =>
      refine Runs.bind (runs_ofFault _) ?_
      rintro window _ _ ⟨updated, rfl⟩
      exact Runs.modify (.chain (.window fun summed => summed.update updated)) ⟨window, rfl⟩

omit answers in
theorem Loads.of_setStatus {before : Node} {status : Status} (loads : Loads (before.setStatus status) node) :
    ∃ before', Loads before before' ∧ node = before'.setStatus status := by
  obtain ⟨blocks, rfl, kept, origin⟩ := loads
  exact ⟨_, ⟨blocks, rfl, kept, origin⟩, rfl⟩

/-- After `updateQCHigh` the certificate is the highest one or was not higher. -/
def Updated (node node' : Node) (qc : QuorumCert) : Prop :=
  node'.status.view = node.status.view ∧ (node'.status.qcHigh = qc ∨
    Loads node node' ∧ ∃ order, order ≠ .gt ∧ QCOrder node' qc node.status.qcHigh order)

/-- The call from a node whose status was replaced just before. The steps are counted from the node
before the replacement, since a certificate built from votes becomes the highest one together with
the end of the proposal. -/
theorem wp_updateQCHigh {before : Node} {status : Status} {qc : Option QuorumCert}
    (closed : Closed inbox before) (skip : Steps params inbox before (before.setStatus status))
    (adopts : ∀ before' target blk1, qc = some target → Loads before before' →
      findBlock before'.state.blocks target.blockHash = some blk1 → QCOrder before' target status.qcHigh .gt →
        NodeStep params inbox before' (setHigh target blk1 (before'.setStatus status))) :
    wp (updateQCHigh params env qc) (fun _ node' => Steps params inbox before node' ∧
        ∃ target, qc = some target ∧ Updated (before.setStatus status) node' target)
      (fun _ node' => Steps params inbox before node') (before.setStatus status) := by
  rw [updateQCHigh, wp_bind, wp_gets]
  refine wp_then (Runs.after skip (runs_cmpQCPriority _ _)) ?_
  rintro order node1 ⟨reached1, loads1, target, _, rfl, same_high, compared⟩
  obtain rfl := Option.some.inj same_high
  rw [wp_bind, wp_deref]
  refine ⟨fun _ same => ?_, fun missing => nomatch missing⟩
  obtain rfl := Option.some.inj same
  rw [wp_ite]
  refine ⟨fun greater => ?_, fun not_greater => ?_⟩
  · refine wp_then (Runs.after reached1 (runs_getBlockByHash _)) ?_
    rintro found node2 ⟨reached2, loads2, is_found⟩
    rw [wp_bind, wp_deref]
    refine ⟨fun blk1 same1 => ?_, fun _ => reached2⟩
    refine wp_then (Runs.after reached2 (runs_getBlockByHash _)) ?_
    rintro found0 node3 ⟨-, loads3, is_parent⟩
    obtain ⟨before', loads, rfl⟩ := ((loads1.trans loads2).trans loads3).of_setStatus
    have found1 := loads3.find (is_found blk1 same1)
    have higher : QCOrder before' target status.qcHigh .gt :=
      greater ▸ (loads2.trans loads3).order compared
    have reached : Steps params inbox before (setHigh target blk1 (before'.setStatus status)) :=
      .tail (.single (.chain (.load loads))) (adopts before' target blk1 rfl loads found1 higher)
    rw [wp_bind, wp_modify]
    refine wp_mono (Runs.after reached (?_ : Runs _ _ (fun (_ : Unit) (node' : Node) =>
      node'.status.view = status.view ∧ node'.status.qcHigh = target) _)) ?_ fun _ _ steps => steps
    · refine Runs.bind (Runs.when (fun _ => runs_updateWindow _ _) fun _ => ⟨_, rfl⟩) ?_
      rintro _ _ window_steps ⟨window, rfl⟩
      have stored : Steps params inbox _ _ := .tail (.tail window_steps (.chain .storeQC)) (.chain .storeBlock)
      have closed' := (closed.steps reached).steps stored
      have high_set : HighSet target _ :=
        HighSet.mono ⟨blk1, _, _, List.mem_cons_self⟩ (Steps.trace_suffix stored)
      refine Runs.modify_bind (.chain .storeQC) (Runs.modify_bind (.chain .storeBlock) (Runs.gets_bind ?_))
      refine Runs.bind (runs_cmpBlockHeight _ _) ?_
      rintro order0 _ _ ⟨rfl, -⟩
      refine Runs.deref_bind fun blk0 same0 => Runs.when (fun ⟨_, same_view⟩ => ?_) fun _ => ⟨rfl, rfl⟩
      obtain ⟨mem0, hash0⟩ := mem_of_findBlock (is_parent blk0 same0)
      refine Runs.mono (runs_commitRecursive answers closed'
        (Or.inl ⟨high_set, (mem_of_findBlock found1).2, hash0, same_view⟩)
        (closed'.blocks blk0 mem0)) ?_
      rintro _ node' _ same
      rw [same]
      exact ⟨rfl, rfl⟩
    · rintro _ node' ⟨steps, same_view, is_high⟩
      exact ⟨steps, target, rfl, same_view, Or.inl is_high⟩
  · exact ⟨reached1, target, rfl, congrArg Status.view loads1.status_eq,
      Or.inr ⟨loads1, order, not_greater, compared⟩⟩

theorem runs_updateQCHigh {qc : Option QuorumCert} (closed : Closed inbox node)
    (circulates : ∀ target node', qc = some target → Loads node node' → Circulates node' target) :
    Runs (NodeStep params inbox) (updateQCHigh params env qc)
      (fun _ node' => ∃ target, qc = some target ∧ Updated node node' target) node := by
  refine wp_updateQCHigh answers closed .refl fun before' target blk1 is_target loads found higher => ?_
  obtain ⟨blocks, rfl, -⟩ := id loads
  exact .adopt (circulates target _ is_target loads) ⟨found, higher⟩

end

/-! ## Proposals and votes -/

theorem runs_rotatorReceiveProposal {blk : Block} (present : blk ∈ node.state.blocks) :
    Runs (NodeStep params inbox) (rotatorReceiveProposal params blk)
      (fun _ node' => ¬ node'.status.view < blk.view ∧ node'.state = node.state) node := by
  refine Runs.get_bind (Runs.when (fun approval => ?_) fun refused => ⟨fun later => ?_, rfl⟩)
  · exact Runs.modify (.approve present approval) ⟨UInt32.lt_irrefl _, rfl⟩
  · exact refused (by rw [isNewViewApproval, if_pos later])

theorem runs_takeTxs :
    Runs (NodeStep params inbox) (takeTxs params)
      (fun _ node' => ∃ txPool, node' = { node with txPool := txPool }) node := by
  refine Runs.get_bind (Runs.ite (fun _ => Runs.pure ⟨_, rfl⟩) fun _ => ?_)
  exact Runs.modify_bind (.chain (.aside _ _ _)) (Runs.pure ⟨_, rfl⟩)

theorem proposal_proposalBlock (parent : Block) (txs : List Bytes) : Proposal params node parent
      (proposalBlock params env node node.status.view parent node.status.qcHigh txs) :=
  ⟨rfl, rfl, rfl, rfl, rfl, rfl⟩

theorem runs_createProposal {parent : Block} (leader : isLeader node node.signer.pubKey = true)
    (is_parent : ProposalParent inbox node parent) : Runs (NodeStep params inbox)
      (createProposal params env node.status.view parent node.status.qcHigh)
      (fun blk node' => .proposed blk ∈ node'.trace ∧ findBlock node'.state.blocks blk.hash = some blk) node := by
  refine Runs.bind runs_takeTxs ?_
  rintro txs _ _ ⟨txPool, rfl⟩
  refine Runs.get_bind (Runs.modify_bind
    (.propose leader is_parent (proposal_proposalBlock parent txs)) ?_)
  refine Runs.bind (runs_rotatorReceiveProposal List.mem_cons_self) ?_
  rintro _ node1 steps1 ⟨-, same_state⟩
  refine Runs.bind (runs_qcRefHeight _) fun _ node2 steps2 ⟨loads, _⟩ => Runs.pure ⟨?_, ?_⟩
  · exact (Steps.trace_suffix (steps1.trans steps2)).subset List.mem_cons_self
  · refine loads.find ?_
    rw [same_state]
    exact findBlock_putBlock_self _ _

theorem majority_of_isVoteEnough (enough : isVoteEnough params node = .ok true) :
    node.roleStore.majorityValidatorCount ≤ node.status.votes.length := by
  by_contra few
  simp [isVoteEnough, few, pure, Except.pure] at enough

theorem runs_driverReceiveVote (answers : Answers params env inbox) (closed : Closed inbox node)
    {vote : Vote} (source : inbox.Vote vote ∨ ∃ blk quota, .proposed blk ∈ node.trace ∧
      vote = blk.vote node.signer quota) :
    Runs (NodeStep params inbox) (driverReceiveVote params env vote) (fun _ _ => True) node := by
  refine Runs.get_bind ?_
  cases added : node.status.addVote vote with
  | error reason => exact Runs.throw
  | ok status =>
      have add_step : NodeStep params inbox node (node.setStatus status) := .addVote added source
      obtain ⟨⟨proposal, in_progress, -⟩, -, status_eq⟩ := Status.addVote_eq_ok added
      refine Runs.modify_bind add_step (Runs.bind (runs_getBlockByHash _) ?_)
      rintro found node1 steps1 ⟨loads, -⟩
      have in_progress1 : node1.status.proposal = some proposal := by
        rw [loads.status_eq]
        exact status_eq ▸ in_progress
      refine Runs.deref_bind fun _ _ => Runs.get_bind (Runs.bind (runs_ofFault _) ?_)
      rintro enough node1 _ ⟨is_enough, rfl⟩
      refine Runs.ite (fun yes => ?_) fun _ => Runs.pure trivial
      rw [yes] at is_enough
      have built : Built node1
          (QuorumCert.build node1.signer (env.voteOrder node1.status.votes)) :=
        ⟨proposal, _, in_progress1, majority_of_isVoteEnough is_enough, env.voteOrder_perm _, rfl⟩
      have build_step : NodeStep params inbox node1 (node1.record (.builtQC _ _)) :=
        .build built is_enough
      have closed1 := ((closed.step add_step).steps steps1).step build_step
      refine Runs.modify_bind build_step ?_
      rw [Runs, wp_bind, wp_modify, wp_bind]
      refine wp_mono (wp_updateQCHigh answers closed1 (.single .endProposal) ?_) ?_
        fun _ _ steps => steps
      · rintro before' _ blk1 is_built ⟨blocks, rfl, kept, origin⟩ found1 higher
        obtain rfl := Option.some.inj is_built
        exact .certify built rfl ⟨found1, higher⟩
      · rintro _ node2 ⟨steps2, -⟩
        exact ⟨.tail steps2 (.chain (.aside _ _ _)), trivial⟩

theorem runs_getVoteQuota : Runs step (getVoteQuota params env) (fun _ node' => node' = node) node := by
  refine Runs.ite (fun _ => Runs.pure rfl) fun _ => Runs.get_bind (Runs.bind (runs_ofFault _) ?_)
  rintro ⟨quota, ok⟩ _ _ ⟨-, rfl⟩
  exact Runs.throwIf_bind fun _ => Runs.pure rfl

end SvpChain.Consensus
