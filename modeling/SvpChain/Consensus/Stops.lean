import SvpChain.Consensus.Restart
import SvpChain.Lib.Table

/-!
# Stops between two puts

When a certificate is adopted, the driver puts the certificate, the pointer to it, its block and the hash of the
block under its height.  A commit puts its block in the same way and, last of all, the committed height.  The
process may stop between any two of these puts, and the next start reads the head of the chain off what has been
put.  The other puts of a commit go to tables that a start does not read: a stop between them is a stop after the
last put listed here.
-/

namespace SvpChain.Consensus

open Core TxPool Program History

/-! ## The next start -/

namespace ChainStore

/-- `Storage.GetLastBlock`. -/
def getLastBlock (store : ChainStore) : Option Block := store.getBlockByHeight store.blockHeight

/-- `Consensus.getInitialBlockAndQC`: the executed block, the leaf and its certificate, or `none` where a genesis
block has to be created. -/
def getInitialBlockAndQC (store : ChainStore) : Except Fault (Option (Block × Block × QuorumCert)) :=
  match store.getLastBlock with
  | none => .ok none
  | some exec =>
      match store.getLastQC with
      | none => .error (.panic "cannot get last qc")
      | some qc =>
          match findBlock store.blocks qc.blockHash with
          | none => .error (.panic "cannot get block with qc")
          | some leaf => .ok (some (exec, leaf, qc))

end ChainStore

/-- A put to a table that the next start reads. -/
inductive Put where
  | qcByBlockHash (qc : QuorumCert)
  | lastQCBlockHash (hash : Bytes)
  | blockByHash (blk : Block)
  | blockHashByHeight (blk : Block)
  /-- `setCommittedBlockHeight` with the height of a block. -/
  | blockHeight (blk : Block)

/-- The tables after a put. -/
def ChainStore.put (store : ChainStore) : Put → ChainStore
  | .qcByBlockHash qc => { store with qcs := putQC store.qcs qc }
  | .lastQCBlockHash hash => { store with lastQC := hash }
  | .blockByHash blk => { store with blocks := putBlock store.blocks blk }
  | .blockHashByHeight blk => { store with
      hashByHeight := (blk.height, blk.hash) :: store.hashByHeight.filter fun entry => entry.1 ≠ blk.height }
  | .blockHeight blk => { store with blockHeight := blk.height }

/-- The puts that follow a recorded call: `StoreQC` and `StoreBlock` in `updateQCHigh`, and `Commit`. -/
def Event.puts : Event → List Put
  | .setQCHigh qc blk1 _ _ =>
      [.qcByBlockHash qc, .lastQCBlockHash qc.blockHash, .blockByHash blk1, .blockHashByHeight blk1]
  | .commit blk => [.blockByHash blk, .blockHashByHeight blk, .blockHeight blk]
  | _ => []

/-- The puts of all calls of a record, the first one first. -/
def putsOf : List Event → List Put
  | [] => []
  | event :: earlier => putsOf earlier ++ event.puts

/-- The tables after some puts. -/
def ChainStore.disk (store : ChainStore) (puts : List Put) : ChainStore := puts.foldl ChainStore.put store

/-- The last block whose commit has reached `setCommittedBlockHeight`. -/
def lastCommitted (b0 : Block) (puts : List Put) : Block :=
  puts.foldl (fun head put => match put with | .blockHeight blk => blk | _ => head) b0

/-- What a put makes of the hash under a height. -/
def Put.storeAt (height : UInt64) (hash : Option Bytes) : Put → Option Bytes
  | .blockHashByHeight blk => if blk.height = height then some blk.hash else hash
  | _ => hash

/-- The hash of the block that was stored last with a height, beginning with the genesis block. -/
def storedAt (height : UInt64) (b0 : Block) (puts : List Put) : Option Bytes :=
  puts.foldl (Put.storeAt height) (Put.storeAt height none (.blockHashByHeight b0))

/-- A start finds the committed block, a stored certificate and the stored block that it certifies. -/
def FindsHead (head : Block) (store : ChainStore) : Prop :=
  ∃ exec leaf qc, store.getInitialBlockAndQC = .ok (some (exec, leaf, qc)) ∧ exec.hash = head.hash ∧
    exec ∈ store.blocks ∧ qc ∈ store.qcs ∧ leaf ∈ store.blocks ∧ leaf.hash = qc.blockHash

variable {store : ChainStore} {head blk blk1 : Block} {qc : QuorumCert} {event : Event} {puts : List Put}
  {trace : List Event}

/-! ## What a start needs -/

/-- What every stop leaves behind. -/
structure Resolves (head : Block) (store : ChainStore) : Prop where
  blockHeight_eq : store.blockHeight = head.height
  head_stored : (findBlock store.blocks head.hash).isSome = true
  qc_stored : store.getLastQC.isSome = true

theorem blockHash_of_getLastQC (found : store.getLastQC = some qc) : qc.blockHash = store.lastQC := by
  simpa using List.find?_some found

/-- A start needs the block of the last certificate and the committed block under its height. -/
theorem Resolves.findsHead_iff (resolves : Resolves head store) :
    FindsHead head store ↔ (findBlock store.blocks store.lastQC).isSome = true ∧
      store.hashByHeight.lookup head.height = some head.hash := by
  obtain ⟨height_eq, head_stored, qc_stored⟩ := resolves
  obtain ⟨exec, exec_eq⟩ := Option.isSome_iff_exists.mp head_stored
  obtain ⟨qc, qc_eq⟩ := Option.isSome_iff_exists.mp qc_stored
  have last_eq := blockHash_of_getLastQC qc_eq
  constructor
  · rintro ⟨exec', leaf, qc', initial, hash_eq, -⟩
    simp only [ChainStore.getInitialBlockAndQC, qc_eq] at initial
    cases last_block : store.getLastBlock with
    | none => simp [last_block] at initial
    | some found =>
        cases leaf_eq : findBlock store.blocks qc.blockHash with
        | none => simp [last_block, leaf_eq] at initial
        | some found_leaf =>
            simp only [last_block, leaf_eq, Except.ok.injEq, Option.some.injEq, Prod.mk.injEq] at initial
            obtain ⟨rfl, -, -⟩ := initial
            rw [ChainStore.getLastBlock, ChainStore.getBlockByHeight, height_eq] at last_block
            obtain ⟨hash, indexed, found_eq⟩ := Option.bind_eq_some_iff.mp last_block
            rw [indexed, ← hash_eq, (mem_of_findBlock found_eq).2, ← last_eq, leaf_eq]
            exact ⟨rfl, rfl⟩
  · rintro ⟨leaf_stored, indexed⟩
    obtain ⟨leaf, leaf_eq⟩ := Option.isSome_iff_exists.mp leaf_stored
    rw [← last_eq] at leaf_eq
    have last_block : store.getLastBlock = some exec := by
      rw [ChainStore.getLastBlock, ChainStore.getBlockByHeight, height_eq, indexed]
      exact exec_eq
    have exec_found := mem_of_findBlock exec_eq
    have leaf_found := mem_of_findBlock leaf_eq
    refine ⟨exec, leaf, qc, ?_, exec_found.2, exec_found.1, List.mem_of_find?_eq_some qc_eq, leaf_found⟩
    simp only [ChainStore.getInitialBlockAndQC, last_block, qc_eq, leaf_eq]

/-! ## The puts of one call -/

theorem isSome_getLastQC_putQC (found : store.getLastQC.isSome = true) (qc : QuorumCert) :
    (store.put (.qcByBlockHash qc)).getLastQC.isSome = true := by
  obtain ⟨last, last_eq⟩ := Option.isSome_iff_exists.mp found
  have pointed := blockHash_of_getLastQC last_eq
  change ((putQC store.qcs qc).find? fun other => other.blockHash = store.lastQC).isSome = true
  refine List.find?_isSome.mpr ?_
  by_cases same : qc.blockHash = store.lastQC
  · exact ⟨qc, List.mem_cons_self, by simpa using same⟩
  · refine ⟨last, List.mem_cons_of_mem _ (List.mem_filter.mpr ⟨List.mem_of_find?_eq_some last_eq, ?_⟩), ?_⟩
    · simpa [pointed] using Ne.symm same
    · simpa using pointed

/-- The stored chain between two calls: also the block of the last certificate is there. -/
structure Settled (head : Block) (store : ChainStore) : Prop extends Resolves head store where
  leaf_stored : (findBlock store.blocks store.lastQC).isSome = true

/-- The pointer to the last certificate is put, and its block is not there. -/
def InGap (store : ChainStore) (event : Event) (count : ℕ) : Prop :=
  ∃ qc blk1 roleStore window, event = .setQCHigh qc blk1 roleStore window ∧ count = 2 ∧
    findBlock store.blocks qc.blockHash = none

theorem not_inGap_of_ne {count : ℕ} (other : count ≠ 2) : ¬ InGap store event count := by
  rintro ⟨_, _, _, _, -, same, -⟩
  exact other same

theorem Settled.iff_not_inGap {count : ℕ} {stopped : ChainStore} (settled : Settled head stopped)
    (outside : ¬ InGap store event count) :
    Resolves head stopped ∧ ((findBlock stopped.blocks stopped.lastQC).isSome = true ↔ ¬ InGap store event count) :=
  ⟨settled.toResolves, iff_of_true settled.leaf_stored outside⟩

theorem getLastQC_pointed (store : ChainStore) (qc : QuorumCert) :
    ((store.put (.qcByBlockHash qc)).put (.lastQCBlockHash qc.blockHash)).getLastQC = some qc :=
  getLastQC_storeQC store qc

theorem Settled.put_qc (settled : Settled head store) (qc : QuorumCert) :
    Settled head (store.put (.qcByBlockHash qc)) :=
  { settled with
    qc_stored := isSome_getLastQC_putQC settled.qc_stored qc }

theorem Settled.put_pointer (settled : Settled head store) (qc : QuorumCert) :
    Resolves head ((store.put (.qcByBlockHash qc)).put (.lastQCBlockHash qc.blockHash)) :=
  { settled with
    qc_stored := by
      rw [getLastQC_pointed]
      rfl }

theorem Resolves.put_block (resolves : Resolves head store) (blk : Block) :
    Resolves head (store.put (.blockByHash blk)) :=
  { resolves with
    head_stored := isSome_findBlock_putBlock resolves.head_stored blk }

theorem Resolves.put_leaf (resolves : Resolves head store) (certifies : blk.hash = store.lastQC) :
    Settled head (store.put (.blockByHash blk)) where
  toResolves := resolves.put_block blk
  leaf_stored := by
    change (findBlock (putBlock store.blocks blk) store.lastQC).isSome = true
    rw [← certifies, findBlock_putBlock_self]
    rfl

theorem Settled.put_block (settled : Settled head store) (blk : Block) :
    Settled head (store.put (.blockByHash blk)) where
  toResolves := settled.toResolves.put_block blk
  leaf_stored := isSome_findBlock_putBlock settled.leaf_stored blk

theorem Settled.put_index (settled : Settled head store) (blk : Block) :
    Settled head (store.put (.blockHashByHeight blk)) :=
  ⟨⟨settled.blockHeight_eq, settled.head_stored, settled.qc_stored⟩, settled.leaf_stored⟩

theorem Settled.put_height (settled : Settled head store) (stored : (findBlock store.blocks blk.hash).isSome = true) :
    Settled blk (store.put (.blockHeight blk)) :=
  ⟨⟨rfl, stored, settled.qc_stored⟩, settled.leaf_stored⟩

theorem Settled.stop_adopt (settled : Settled head store) (certifies : blk1.hash = qc.blockHash)
    (roleStore : RoleStore) (window : Window) (count : ℕ) :
    let event := Event.setQCHigh qc blk1 roleStore window
    let stopped := store.disk (event.puts.take count)
    Resolves head stopped ∧ ((findBlock stopped.blocks stopped.lastQC).isSome = true ↔ ¬ InGap store event count) := by
  have pointed := settled.put_pointer qc
  have leaf := pointed.put_leaf certifies
  match count with
  | 0 => exact settled.iff_not_inGap (not_inGap_of_ne (show 0 ≠ 2 by decide))
  | 1 => exact (settled.put_qc qc).iff_not_inGap (not_inGap_of_ne (show 1 ≠ 2 by decide))
  | 2 =>
      refine ⟨pointed, ?_⟩
      change (findBlock store.blocks qc.blockHash).isSome = true ↔ _
      rw [Option.isSome_iff_ne_none, not_iff_not]
      constructor
      · intro missing
        exact ⟨qc, blk1, roleStore, window, rfl, rfl, missing⟩
      · rintro ⟨_, _, _, _, same, -, missing⟩
        obtain ⟨rfl, -⟩ := Event.setQCHigh.inj same
        exact missing
  | 3 => exact leaf.iff_not_inGap (not_inGap_of_ne (show 3 ≠ 2 by decide))
  | count + 4 =>
      intro event
      rw [List.take_of_length_le (by simp [event, Event.puts])]
      exact (leaf.put_index blk1).iff_not_inGap (not_inGap_of_ne (show count + 4 ≠ 2 by omega))

theorem Settled.stop_commit (settled : Settled head store) (blk : Block) (count : ℕ) :
    Settled (lastCommitted head ((Event.commit blk).puts.take count))
      (store.disk ((Event.commit blk).puts.take count)) := by
  have stored := settled.put_block blk
  have indexed := stored.put_index blk
  have committed : Settled blk (store.disk (Event.commit blk).puts) := by
    refine indexed.put_height ?_
    change (findBlock (putBlock store.blocks blk) blk.hash).isSome = true
    rw [findBlock_putBlock_self]
    rfl
  match count with
  | 0 => exact settled
  | 1 => exact stored
  | 2 => exact indexed
  | count + 3 =>
      rw [List.take_of_length_le (by simp [Event.puts])]
      exact committed

theorem lastCommitted_of_none (none : ∀ blk, .blockHeight blk ∉ puts) : lastCommitted head puts = head := by
  induction puts with
  | nil => rfl
  | cons put puts ih =>
      have rest := ih fun blk mem => none blk (List.mem_cons_of_mem _ mem)
      cases put with
      | blockHeight blk => exact absurd List.mem_cons_self (none blk)
      | _ => exact rest

/-- Adoptions are for the block that the certificate names. -/
def Certified (event : Event) : Prop :=
  ∀ qc blk1 roleStore window, event = .setQCHigh qc blk1 roleStore window → blk1.hash = qc.blockHash

theorem Settled.stop (settled : Settled head store) (certified : Certified event) (count : ℕ) :
    let done := event.puts.take count
    Resolves (lastCommitted head done) (store.disk done) ∧
      ((findBlock (store.disk done).blocks (store.disk done).lastQC).isSome = true ↔ ¬ InGap store event count) := by
  intro done
  cases event with
  | setQCHigh qc blk1 roleStore window =>
      have head_eq : lastCommitted head done = head :=
        lastCommitted_of_none fun blk mem => by simpa [Event.puts] using List.mem_of_mem_take mem
      rw [head_eq]
      exact settled.stop_adopt (certified _ _ _ _ rfl) roleStore window count
  | commit blk =>
      refine (settled.stop_commit blk count).iff_not_inGap ?_
      rintro ⟨_, _, _, _, same, -⟩
      cases same
  | _ =>
      have nothing : done = [] := List.take_nil
      rw [nothing]
      refine settled.iff_not_inGap ?_
      rintro ⟨_, _, _, _, same, -⟩
      cases same

/-! ## The puts of a run -/

theorem lookup_put (store : ChainStore) (height : UInt64) (put : Put) :
    (store.put put).hashByHeight.lookup height = put.storeAt height (store.hashByHeight.lookup height) := by
  cases put with
  | blockHashByHeight blk =>
      change ((blk.height, blk.hash) :: store.hashByHeight.filter fun entry => entry.1 ≠ blk.height).lookup height = _
      by_cases same : blk.height = height
      · simp [Put.storeAt, same]
      · rw [List.lookup_cons, beq_eq_false_iff_ne.mpr (Ne.symm same), Table.lookup_filter_ne (Ne.symm same),
          Put.storeAt, if_neg same]
  | _ => rfl

theorem lookup_disk (store : ChainStore) (height : UInt64) (puts : List Put) :
    (store.disk puts).hashByHeight.lookup height =
      puts.foldl (Put.storeAt height) (store.hashByHeight.lookup height) := by
  induction puts generalizing store with
  | nil => rfl
  | cons put puts ih =>
      rw [List.foldl_cons, ← lookup_put]
      exact ih (store.put put)

theorem disk_append (store : ChainStore) (first second : List Put) :
    store.disk (first ++ second) = (store.disk first).disk second := List.foldl_append

theorem lastCommitted_append (head : Block) (first second : List Put) :
    lastCommitted head (first ++ second) = lastCommitted (lastCommitted head first) second := List.foldl_append

theorem Settled.call (settled : Settled head store) (certified : Certified event) :
    Settled (lastCommitted head event.puts) (store.disk event.puts) := by
  have stopped := settled.stop certified event.puts.length
  simp only [List.take_length] at stopped
  have complete : event.puts.length ≠ 2 := by cases event <;> simp [Event.puts]
  exact ⟨stopped.1, stopped.2.mpr (not_inGap_of_ne complete)⟩

theorem Settled.calls (settled : Settled head store) (certified : ∀ event ∈ trace, Certified event) :
    Settled (lastCommitted head (putsOf trace)) (store.disk (putsOf trace)) := by
  induction trace with
  | nil => exact settled
  | cons event earlier ih =>
      have before := ih fun other mem => certified other (List.mem_cons_of_mem _ mem)
      rw [putsOf, disk_append, lastCommitted_append]
      exact before.call (certified event List.mem_cons_self)

variable {params : Params} {inbox : Inbox} {surroundings : Env → Prop} {signer : Signer} {roleStore : RoleStore}
  {b0 : Block} {start node node' : Node}

/-! ## The storage of a live node -/

/-- The tables that a start reads. -/
def ChainStore.chainTables (store : ChainStore) : ChainStore := { store with txs := [], merkleRoot := [] }

/-- The storage is what the puts of the record make of the first one. -/
structure WrittenBy (first : ChainStore) (node : Node) : Prop where
  running : node.isExisted = false
  tables_eq : node.storage.chainTables = (first.disk (putsOf node.trace)).chainTables

variable {first : ChainStore}

theorem putsOf_cons_of_quiet (quiet : event.Quiet) : putsOf (event :: trace) = putsOf trace := by
  have nothing : event.puts = [] := by
    cases event with
    | setQCHigh | commit => exact quiet.elim
    | _ => rfl
  rw [putsOf, nothing, List.append_nil]

theorem chainTables_disk (store : ChainStore) (puts : List Put) :
    (store.disk puts).chainTables = store.chainTables.disk puts := by
  induction puts generalizing store with
  | nil => rfl
  | cons put puts ih =>
      have one : (store.put put).chainTables = store.chainTables.put put := by cases put <;> rfl
      change ((store.put put).disk puts).chainTables = (store.chainTables.put put).disk puts
      rw [ih, one]

theorem WrittenBy.tables_cons (written : WrittenBy first node) (event : Event) :
    (first.disk (putsOf (event :: node.trace))).chainTables = node.storage.chainTables.disk event.puts := by
  rw [putsOf, disk_append, chainTables_disk, ← written.tables_eq]

theorem WrittenBy.record (written : WrittenBy first node) (quiet : event.Quiet) :
    WrittenBy first (node.record event) := by
  refine ⟨written.running, ?_⟩
  change _ = (first.disk (putsOf (event :: node.trace))).chainTables
  rw [putsOf_cons_of_quiet quiet]
  exact written.tables_eq

theorem WrittenBy.commit_kept (params : Params) (env : Env) (blk : Block) :
    Kept (WrittenBy first) (commit params env blk) := by
  intro node written
  have committed := written.tables_cons (.commit blk)
  rw [Consensus.commit, wp_bind, wp_modify, wp_bind, wp_get, wp_ite]
  refine ⟨fun stopped => absurd (written.running.symm.trans stopped) Bool.false_ne_true, fun _ => ?_⟩
  rw [wp_ite]
  refine ⟨fun _ => ?_, fun _ => ⟨written.running, committed.symm⟩⟩
  rw [wp_bind, onTxPool, wp_zoom, getTxsToExecute, wp_bind, wp_get]
  cases splitTxs (node.record (.commit blk)).storage.hasTx (node.record (.commit blk)).txPool blk.transactions with
  | error reason => exact Or.inl ⟨reason, rfl⟩
  | ok result =>
      have executed : putsOf (.execute blk result.1 :: .commit blk :: node.trace) =
          putsOf (.commit blk :: node.trace) := putsOf_cons_of_quiet trivial
      refine ⟨written.running, ?_⟩
      change _ = (first.disk (putsOf (.execute blk result.1 :: .commit blk :: node.trace))).chainTables
      rw [executed]
      exact committed.symm

theorem writtenBy_stable (params : Params) (first : ChainStore) : StableRounds params (WrittenBy first) where
  memory written _ _ _ _ := ⟨written.running, written.tables_eq⟩
  record written := written.record
  bExec written _ := ⟨written.running, written.tables_eq⟩
  adopt {node} written {qc blk1 _} _ _ :=
    ⟨written.running, (written.tables_cons (.setQCHigh qc blk1 node.roleStore node.status.window)).symm⟩
  commitBlock := WrittenBy.commit_kept params
  approve {node} written {view proposer} _ := by
    have approved : (Event.approve view proposer).Quiet := trivial
    have recorded := written.record approved
    exact ⟨recorded.running, recorded.tables_eq⟩
  timeout written _ _ := ⟨written.running, written.tables_eq⟩
  round written _ _ _ _ := ⟨written.running, written.tables_eq⟩
  token written _ := ⟨written.running, written.tables_eq⟩

/-- Between two handlers the storage of a live node is what the puts of its record have made of the first one. -/
theorem storage_eq_disk (running : start.isExisted = false) (fresh : start.trace = [])
    (run : NodeRun params surroundings start node) (alive : node.alive = true) :
    node.storage.chainTables = (start.storage.disk (putsOf node.trace)).chainTables := by
  have stable := writtenBy_stable params start.storage
  have enter := stable.enterNextView fun node written nextIdx => by
    have entered : (Event.enterView (node.rotator.oldView + 1) nextIdx).Quiet := trivial
    have recorded := written.record entered
    exact ⟨recorded.running, recorded.tables_eq⟩
  have initial : WrittenBy start.storage start := by
    refine ⟨running, ?_⟩
    rw [fresh]
    rfl
  exact (stable.run enter run alive initial).tables_eq

/-! ## Every stop of a run -/

theorem certified_steps (before : ∀ event ∈ node.trace, Certified event) (steps : Steps params inbox node node') :
    ∀ event ∈ node'.trace, Certified event := by
  induction steps with
  | refl => exact before
  | tail _ step ih =>
      rcases step.records with same | ⟨event, recorded, cause⟩
      · rw [same]
        exact ih
      · rw [recorded]
        refine List.forall_mem_cons.mpr ⟨?_, ih⟩
        rintro qc blk1 store window rfl
        exact (mem_of_findBlock cause.2.1.found).2

theorem settled_genesis (q0 : QuorumCert) (txs : List Bytes) (merkleRoot : Bytes)
    (certifies : q0.blockHash = b0.hash) : Settled b0 (genesisStore b0 q0 txs merkleRoot) where
  blockHeight_eq := rfl
  head_stored := by simp [genesisStore, findBlock]
  qc_stored := by simp [genesisStore, ChainStore.getLastQC]
  leaf_stored := by simp [genesisStore, findBlock, certifies]

/-- For every run after the genesis block and every stop after some of the puts of a call, the next start does not
panic and finds the last committed block, a stored certificate and the block it certifies, exactly if the stop is
not in the gap between the pointer to a certificate and a block that was not stored before, and the block that was
stored last with the height of the committed block is the committed block. -/
theorem restart_finds_head_iff (started : Started params signer roleStore b0 start)
    (run : NodeRun params surroundings start node) {event : Event} {earlier : List Event}
    (part : event :: earlier <:+ node.trace) (count : ℕ) :
    let done := putsOf earlier ++ event.puts.take count
    let head := lastCommitted b0 done
    FindsHead head (start.storage.disk done) ↔
      ¬ InGap (start.storage.disk (putsOf earlier)) event count ∧ storedAt head.height b0 done = some head.hash := by
  intro done head
  obtain ⟨q0, txs, merkleRoot, pool, genesis, steps, loaded, window, loads, start_eq⟩ := started.sets_up openInbox
  have storage_eq : start.storage = genesisStore b0 q0 txs merkleRoot := by
    obtain ⟨_, rfl, -⟩ := loads
    rw [start_eq]
    rfl
  have certified : ∀ event ∈ node.trace, Certified event :=
    certified_steps (fun _ mem => absurd mem List.not_mem_nil) (steps.trans run.open_steps)
  have initial : Settled b0 start.storage := storage_eq ▸ settled_genesis q0 txs merkleRoot genesis.certifies
  have before := initial.calls fun other mem => certified other (part.subset (List.mem_cons_of_mem _ mem))
  obtain ⟨resolves, leaf_iff⟩ := before.stop (certified event (part.subset List.mem_cons_self)) count
  rw [← disk_append, ← lastCommitted_append] at resolves
  rw [← disk_append] at leaf_iff
  have genesis_hash : start.storage.hashByHeight.lookup head.height =
      Put.storeAt head.height none (.blockHashByHeight b0) := by
    rw [storage_eq]
    exact lookup_put { genesisStore b0 q0 txs merkleRoot with hashByHeight := [] } head.height (.blockHashByHeight b0)
  rw [resolves.findsHead_iff, leaf_iff, lookup_disk]
  change _ ∧ List.foldl _ (start.storage.hashByHeight.lookup head.height) done = _ ↔ _
  rw [genesis_hash]
  rfl

/-- The certificate in the second block has been adopted for the first one. -/
def lowerAdoption : Event :=
  .setQCHigh (bothVotes lowerBlk) lowerBlk twoValidators windowNode.status.window

theorem straightNode_run : NodeRun stakeParams anyEnv windowNode straightNode :=
  NodeRun.receiveAll .start trivial _ (by decide +kernel)

/-- The storage after the adoption. -/
theorem storage_eq_disk_straightNode : straightNode.storage.chainTables =
    (windowNode.storage.disk (putsOf straightNode.trace)).chainTables :=
  storage_eq_disk rfl (by decide +kernel) straightNode_run (by decide +kernel)

theorem lowerAdoption_part : lowerAdoption :: straightNode.trace.drop 2 <:+ straightNode.trace := by
  have second : straightNode.trace.drop 1 = lowerAdoption :: straightNode.trace.drop 2 := by decide +kernel
  rw [← second]
  exact List.drop_suffix 1 _

/-- After a stop between the pointer to the first certificate and its block, the next start panics. -/
theorem pointer_before_block :
    Started stakeParams (transparentSigner 2) twoValidators (transparentBlock []) windowNode ∧
    NodeRun stakeParams anyEnv windowNode straightNode ∧
    lowerAdoption :: straightNode.trace.drop 2 <:+ straightNode.trace ∧
    (windowNode.storage.disk
      (putsOf (straightNode.trace.drop 2) ++ lowerAdoption.puts.take 2)).getInitialBlockAndQC =
        .error (.panic "cannot get block with qc") :=
  ⟨windowNode_started, straightNode_run, lowerAdoption_part, by decide +kernel⟩

/-- After all four puts of the adoption, the next start finds the genesis block as the committed one. -/
theorem restart_finds_head_straightNode :
    FindsHead (transparentBlock [])
      (windowNode.storage.disk (putsOf (straightNode.trace.drop 2) ++ lowerAdoption.puts.take 4)) := by
  have finds_iff := restart_finds_head_iff windowNode_started straightNode_run lowerAdoption_part 4
  have head_eq : lastCommitted (transparentBlock [])
      (putsOf (straightNode.trace.drop 2) ++ lowerAdoption.puts.take 4) = transparentBlock [] := by decide +kernel
  simp only [head_eq] at finds_iff
  refine finds_iff.mpr ⟨not_inGap_of_ne (by decide), ?_⟩
  decide +kernel

end SvpChain.Consensus
