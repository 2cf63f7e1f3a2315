import SvpChain.Consensus.Between
import SvpChain.Consensus.ParentSync
import SvpChain.Consensus.StakeWindow

/-!
# The stake window after a restart

`updateQCHigh` moves the window on by one entry for each certificate that it adopts.  After a restart
`setupWindow` reads the window off the stored chain: the last certificate, the certificate in its block, the
certificate in that block, and so on.  Both give the same window as long as every adopted certificate is for a
block that carries the certificate adopted before it.
-/

namespace SvpChain.Consensus

open Core TxPool Program History Slide

/-- `Storage.GetLastQC`. -/
def ChainStore.getLastQC (store : ChainStore) : Option QuorumCert :=
  store.qcs.find? fun qc => qc.blockHash = store.lastQC

/-! ## Chains of certificates -/

/-- The certificates from a given one down to a block that carries none, the given one first. -/
inductive CertChain (find : Bytes → Option Block) : QuorumCert → List QuorumCert → Prop where
  | first {qc : QuorumCert} {blk : Block} (found : find qc.blockHash = some blk)
      (carries : blk.quorumCert = none) : CertChain find qc [qc]
  | next {qc own : QuorumCert} {blk : Block} {certs : List QuorumCert} (found : find qc.blockHash = some blk)
      (carries : blk.quorumCert = some own) (older : CertChain find own certs) :
      CertChain find qc (qc :: certs)

theorem findBlock_putBlock_of_found {blocks : List Block} {blk other : Block} {hash : Bytes}
    (one : ∀ old ∈ blocks, old.hash = blk.hash → old = blk) (found : findBlock blocks hash = some other) :
    findBlock (putBlock blocks blk) hash = some other := by
  by_cases same : blk.hash = hash
  · obtain ⟨mem, hash_eq⟩ := mem_of_findBlock found
    rw [← same, findBlock_putBlock_self, one other mem (hash_eq.trans same.symm)]
  · rwa [findBlock_putBlock_of_ne same]

namespace CertChain

variable {qc own : QuorumCert} {certs : List QuorumCert}

theorem putBlock {blocks : List Block} {blk : Block} (one : ∀ old ∈ blocks, old.hash = blk.hash → old = blk)
    (chain : CertChain (findBlock blocks) qc certs) : CertChain (findBlock (putBlock blocks blk)) qc certs := by
  induction chain with
  | first found carries => exact .first (findBlock_putBlock_of_found one found) carries
  | next found carries _ ih => exact .next (findBlock_putBlock_of_found one found) carries ih

theorem replaceHead {find : Bytes → Option Block} (chain : CertChain find qc certs)
    (same : own.blockHash = qc.blockHash) : ∃ older, certs = qc :: older ∧ CertChain find own (own :: older) := by
  cases chain with
  | first found carries => exact ⟨[], rfl, .first (same ▸ found) carries⟩
  | next found carries older => exact ⟨_, rfl, .next (same ▸ found) carries older⟩

theorem followed_eq {find : Bytes → Option Block} (chain : CertChain find qc certs) (size : ℕ) :
    followed find size (some qc) = certs.take size ∧ ∀ cert ∈ certs, (find cert.blockHash).isSome = true := by
  induction chain generalizing size with
  | @first qc blk found carries => cases size <;> simp [followed, found, carries]
  | @next qc own blk certs found carries older ih =>
      cases size with
      | zero => simpa [followed, found] using (ih 0).2
      | succ size => simpa [followed, found, carries] using ih size

end CertChain

theorem Window.Shows.unique {w w' : Window} {size : ℕ} {entries : List (UInt64 × UInt64)}
    (shows : w.Shows size entries) (shows' : w'.Shows size entries) :
    w'.qcQuotas = w.qcQuotas ∧ w'.voteQuotas = w.voteQuotas ∧ w'.qcAcc = w.qcAcc ∧ w'.voteAcc = w.voteAcc := by
  obtain ⟨qcs_eq, votes_eq, qcAcc_eq, voteAcc_eq⟩ := shows
  obtain ⟨qcs_eq', votes_eq', qcAcc_eq', voteAcc_eq'⟩ := shows'
  refine ⟨qcs_eq'.trans qcs_eq.symm, votes_eq'.trans votes_eq.symm, ?_, ?_⟩
  · rw [qcAcc_eq', qcAcc_eq, qcs_eq', qcs_eq]
  · rw [voteAcc_eq', voteAcc_eq, votes_eq', votes_eq]

/-! ## Runs that grow straight -/

/-- The certificate that was set as the highest one last. -/
def lastHigh (first : QuorumCert) : List Event → QuorumCert
  | [] => first
  | .setQCHigh qc _ _ _ :: _ => qc
  | _ :: earlier => lastHigh first earlier

/-- The blocks that a node has stored. -/
def keptBlocks (trace : List Event) : List Block :=
  trace.filterMap fun event =>
    match event with
    | .setQCHigh _ blk1 _ _ => some blk1
    | .commit blk => some blk
    | _ => none

/-- The block and the window of an adoption. -/
def Event.adoption : Event → Option (Block × Window)
  | .setQCHigh _ blk1 _ window => some (blk1, window)
  | _ => none

/-- Two certificates for one block with the same entries in the windows of a node. -/
def SameEntry (signer : Signer) (own high : QuorumCert) : Prop :=
  own.blockHash = high.blockHash ∧ own.sumQuota = high.sumQuota ∧ own.findVote signer = high.findVote signer

/-- A certificate is adopted for a block above the window that carries the certificate adopted before it. -/
def Continues (signer : Signer) (first : QuorumCert) (earlier : List Event) (event : Event) : Prop :=
  ∀ adoption ∈ event.adoption, adoption.2.height < adoption.1.height ∧
    ∃ own ∈ adoption.1.quorumCert, SameEntry signer own (lastHigh first earlier)

/-- All adoptions continue the chain, and one hash stands for one of the stored blocks. -/
def StraightGrowth (signer : Signer) (first : QuorumCert) (b0 : Block) (trace : List Event) : Prop :=
  Throughout (Continues signer first) trace ∧
    ∀ left ∈ b0 :: keptBlocks trace, ∀ right ∈ b0 :: keptBlocks trace, left.hash = right.hash → left = right

instance (signer : Signer) (first : QuorumCert) (b0 : Block) (trace : List Event) :
    Decidable (StraightGrowth signer first b0 trace) :=
  have : ∀ earlier event, Decidable (Continues signer first earlier event) := fun _ event =>
    inferInstanceAs (Decidable (∀ adoption ∈ event.adoption, _ ∧ ∃ own ∈ adoption.1.quorumCert, _ ∧ _ ∧ _))
  inferInstanceAs (Decidable (_ ∧ _))

/-- The live window shows the certificates of the stored chain. -/
def Rebuildable (signer : Signer) (size : ℕ) (b0 : Block) (node : Node) : Prop :=
  ∃ certs blk, CertChain (findBlock node.storage.blocks) node.status.qcHigh certs ∧
    (∀ cert ∈ certs.take size, (cert.findVote signer).isSome = true) ∧
    node.status.window.Shows size (certs.map (windowEntry signer)) ∧
    findBlock node.storage.blocks node.status.qcHigh.blockHash = some blk ∧
    node.status.window.height = blk.height ∧ node.storage.getLastQC = some node.status.qcHigh ∧
    ∀ stored ∈ node.storage.blocks, stored ∈ b0 :: keptBlocks node.trace

/-- What holds between the handlers of a run. -/
def LiveWindow (signer : Signer) (size : ℕ) (first : QuorumCert) (b0 : Block) (node : Node) : Prop :=
  node.signer = signer ∧ lastHigh first node.trace = node.status.qcHigh ∧
    (StraightGrowth signer first b0 node.trace → Rebuildable signer size b0 node)

section Runs

variable {params : Params} {node : Node} {signer : Signer} {size : ℕ} {first qc : QuorumCert} {b0 blk : Block}
  {trace : List Event} {event : Event}

theorem StraightGrowth.earlier (straight : StraightGrowth signer first b0 (event :: trace)) :
    StraightGrowth signer first b0 trace := by
  have kept : keptBlocks trace ⊆ keptBlocks (event :: trace) := by
    intro blk mem
    obtain ⟨other, other_mem, is_blk⟩ := List.mem_filterMap.mp mem
    exact List.mem_filterMap.mpr ⟨other, List.mem_cons_of_mem _ other_mem, is_blk⟩
  have known := List.cons_subset_cons b0 kept
  exact ⟨(throughout_cons.mp straight.1).2, fun left left_mem right right_mem =>
    straight.2 left (known left_mem) right (known right_mem)⟩

theorem lastHigh_cons_of_quiet (quiet : event.Quiet) : lastHigh first (event :: trace) = lastHigh first trace := by
  cases event with
  | setQCHigh => exact quiet.elim
  | _ => rfl

theorem keptBlocks_cons_of_quiet (quiet : event.Quiet) : keptBlocks (event :: trace) = keptBlocks trace := by
  cases event with
  | setQCHigh => exact quiet.elim
  | commit => exact quiet.elim
  | _ => rfl

theorem getLastQC_storeQC (store : ChainStore) (qc : QuorumCert) : (store.storeQC qc).getLastQC = some qc := by
  rw [ChainStore.getLastQC, ChainStore.storeQC, putQC, List.find?_cons_of_pos (by simp)]

theorem Rebuildable.storeBlock (straight : StraightGrowth signer first b0 node.trace)
    (rebuildable : Rebuildable signer size b0 node) (kept : blk ∈ keptBlocks node.trace)
    (storage : ChainStore) (blocks_eq : storage.blocks = putBlock node.storage.blocks blk)
    (qc_eq : storage.getLastQC = node.storage.getLastQC) :
    Rebuildable signer size b0 { node with storage := storage } := by
  obtain ⟨certs, high, chain, voted, shows, found, height_eq, last, known⟩ := rebuildable
  have one : ∀ old ∈ node.storage.blocks, old.hash = blk.hash → old = blk := fun old mem =>
    straight.2 old (known old mem) blk (List.mem_cons_of_mem _ kept)
  refine ⟨certs, high, ?_, voted, shows, ?_, height_eq, qc_eq.trans last, fun stored mem => ?_⟩
  · rw [blocks_eq]
    exact chain.putBlock one
  · rw [blocks_eq]
    exact findBlock_putBlock_of_found one found
  · rw [blocks_eq] at mem
    rcases mem_putBlock mem with rfl | old
    · exact List.mem_cons_of_mem _ kept
    · exact known stored old

theorem forall_take_cons {p : QuorumCert → Prop} {certs : List QuorumCert} (latest : p qc)
    (all : ∀ cert ∈ certs.take size, p cert) : ∀ cert ∈ (qc :: certs).take size, p cert := by
  cases size with
  | zero => simp
  | succ size =>
      rw [List.take_succ_cons, List.forall_mem_cons]
      exact ⟨latest, fun cert mem => all cert (List.take_subset_take_left certs (Nat.le_succ size) mem)⟩

theorem forall_take_replaceHead {p : QuorumCert → Prop} {own high : QuorumCert} {older : List QuorumCert}
    (same : p high → p own) (all : ∀ cert ∈ (high :: older).take size, p cert) :
    ∀ cert ∈ (own :: older).take size, p cert := by
  cases size with
  | zero => simp
  | succ size =>
      rw [List.take_succ_cons, List.forall_mem_cons] at all ⊢
      exact ⟨same all.1, all.2⟩

theorem Rebuildable.adopt (rebuildable : Rebuildable signer size b0 node) {blk1 : Block} {window : Window}
    {vote : UInt64} (certifies : blk1.hash = qc.blockHash) (voted : qc.findVote signer = some vote)
    (updated : node.status.window.update qc.sumQuota vote blk1.height = .ok window)
    (straight : StraightGrowth signer first b0 (adopted qc blk1 window node).trace)
    (high_eq : lastHigh first node.trace = node.status.qcHigh) :
    Rebuildable signer size b0 (adopted qc blk1 window node) := by
  obtain ⟨certs, high, chain, all_voted, shows, found, height_eq, last, known⟩ := rebuildable
  obtain ⟨higher, own, carries, same⟩ := (throughout_cons.mp straight.1).1 _ rfl
  rw [high_eq] at same
  obtain ⟨same_block, same_quota, same_vote⟩ := same
  obtain ⟨older, rfl, own_chain⟩ := chain.replaceHead same_block
  have known' : ∀ stored ∈ node.storage.blocks, stored ∈ b0 :: keptBlocks (adopted qc blk1 window node).trace := by
    intro stored mem
    rcases List.mem_cons.mp (known stored mem) with rfl | kept
    · exact List.mem_cons_self
    · exact List.mem_cons_of_mem _ (List.mem_cons_of_mem _ kept)
  have kept1 : blk1 ∈ b0 :: keptBlocks (adopted qc blk1 window node).trace :=
    List.mem_cons_of_mem _ List.mem_cons_self
  have one : ∀ old ∈ node.storage.blocks, old.hash = blk1.hash → old = blk1 := fun old mem =>
    straight.2 old (known' old mem) blk1 kept1
  have found1 : findBlock (putBlock node.storage.blocks blk1) qc.blockHash = some blk1 :=
    certifies ▸ findBlock_putBlock_self _ _
  have own_entry : windowEntry signer own = windowEntry signer node.status.qcHigh := by
    rw [windowEntry, windowEntry, same_quota, same_vote]
  have entry : windowEntry signer qc = (qc.sumQuota, vote) := by
    rw [windowEntry, voted]
    rfl
  obtain ⟨shows', height_eq'⟩ := shows.update higher updated
  refine ⟨qc :: own :: older, blk1, .next found1 carries (own_chain.putBlock one), ?_, ?_, found1, height_eq',
    getLastQC_storeQC _ _, fun stored mem => ?_⟩
  · have own_voted : (node.status.qcHigh.findVote signer).isSome = true → (own.findVote signer).isSome = true := by
      rw [same_vote]
      exact id
    exact forall_take_cons (by rw [voted]; rfl) (forall_take_replaceHead own_voted all_voted)
  · rw [List.map_cons, List.map_cons, own_entry, entry]
    exact shows'
  · rcases mem_putBlock mem with rfl | old
    · exact kept1
    · exact known' stored old

theorem liveWindow_stable (stakes : params.config.twoPhaseBFTFlag = false) :
    StableNode params (LiveWindow signer size first b0) where
  memory holds _ _ _ _ := holds
  record := by
    rintro node ⟨own, high_eq, rebuild⟩ event quiet
    refine ⟨own, (lastHigh_cons_of_quiet quiet).trans high_eq, fun straight => ?_⟩
    obtain ⟨certs, high, chain, voted, shows, found, height_eq, last, known⟩ := rebuild straight.earlier
    refine ⟨certs, high, chain, voted, shows, found, height_eq, last, ?_⟩
    rw [Node.record, keptBlocks_cons_of_quiet quiet]
    exact known
  commit := by
    rintro node ⟨own, high_eq, rebuild⟩ blk
    refine ⟨own, high_eq, fun straight => ?_⟩
    obtain ⟨certs, high, chain, voted, shows, found, height_eq, last, known⟩ := rebuild straight.earlier
    refine ⟨certs, high, chain, voted, shows, found, height_eq, last, fun stored mem => ?_⟩
    rcases List.mem_cons.mp (known stored mem) with rfl | kept
    · exact List.mem_cons_self
    · exact List.mem_cons_of_mem _ (List.mem_cons_of_mem _ kept)
  store := by
    rintro node ⟨own, high_eq, rebuild⟩ blk committed txs merkleRoot
    refine ⟨own, high_eq, fun straight => ?_⟩
    have kept : blk ∈ keptBlocks node.trace := List.mem_filterMap.mpr ⟨_, committed, rfl⟩
    have before : StraightGrowth signer first b0 node.trace := straight
    exact (rebuild before).storeBlock before kept _ rfl rfl
  bExec holds _ := holds
  adopt := by
    rintro node ⟨own, high_eq, rebuild⟩ qc blk1 window certifies after
    refine ⟨own, rfl, fun straight => ?_⟩
    rw [WindowAfter, stakes] at after
    obtain ⟨vote, voted, updated⟩ := after
    rw [own] at voted
    exact (rebuild straight.earlier).adopt certifies voted updated straight high_eq
  round holds _ _ _ _ := holds
  views holds _ _ _ _ _ := holds
  token holds _ := holds

end Runs

/-! ## The start and the restart -/

section Restart

variable {params : Params} {node start : Node} {signer : Signer} {roleStore : RoleStore} {b0 : Block}

theorem Started.liveWindow (stakes : params.config.twoPhaseBFTFlag = false)
    (started : Started params signer roleStore b0 start) :
    LiveWindow signer roleStore.windowSize start.status.qcHigh b0 start := by
  obtain ⟨q0, txs, merkleRoot, pool, genesis, setup⟩ := started
  rw [Program.when, if_pos stakes] at setup
  set origin := setupNode params signer roleStore (genesisStore b0 q0 txs merkleRoot) pool b0 b0 q0
  have same_find : ∀ hash, origin.lookup hash = findBlock [b0] hash := by
    intro hash
    change (findBlock [b0] hash).or (findBlock [b0] hash) = _
    exact Option.or_self
  have found : findBlock [b0] q0.blockHash = some b0 := by
    rw [genesis.certifies]
    simp [findBlock]
  have chain : CertChain (findBlock [b0]) q0 [q0] := .first found genesis.quorumCert_eq
  have shows := wp_and (@runs_setupWindow params openInbox origin q0) (@wp_setupWindow params origin q0)
  unfold wp at shows
  rw [setup] at shows
  obtain ⟨⟨-, _, window, ⟨_, rfl, -⟩, rfl⟩, blk, window', ⟨-, lookup, readable⟩, shows, height_eq, status_eq⟩ := shows
  obtain rfl : window = window' := congrArg Status.window status_eq
  rw [funext same_find, (chain.followed_eq _).1] at readable shows
  obtain rfl := Option.some.inj (found.symm.trans ((same_find _).symm.trans lookup))
  refine ⟨rfl, rfl, fun _ => ⟨[q0], b0, chain, fun cert mem => (readable cert mem).1, ?_, found, height_eq, ?_,
    fun stored mem => ?_⟩⟩
  · exact Window.shows_map_take.mp shows
  · change List.find? (fun qc => decide (qc.blockHash = q0.blockHash)) [q0] = some q0
    simp
  · exact mem

theorem lookup_setupNode (storage : ChainStore) (pool : TxStore) (exec : Block) {leaf : Block} {qc : QuorumCert}
    (found : findBlock storage.blocks qc.blockHash = some leaf) (hash : Bytes) :
    (setupNode params signer roleStore storage pool exec leaf qc).lookup hash = findBlock storage.blocks hash := by
  change (findBlock [leaf] hash).or (findBlock storage.blocks hash) = _
  have hash_eq := (mem_of_findBlock found).2
  by_cases same : leaf.hash = hash
  · rw [← same, hash_eq, found]
    simp [findBlock, hash_eq]
  · simp [findBlock, same]

/-- In every run that grows straight, the window that a restart reads off the stored certificate and the stored
blocks is the live one. -/
theorem restart_rebuilds_window (stakes : params.config.twoPhaseBFTFlag = false)
    (started : Started params signer roleStore b0 start) (run : NodeRun params anyEnv start node)
    (alive : node.alive = true) (straight : StraightGrowth signer start.status.qcHigh b0 node.trace)
    {roles : RoleStore} (same_size : roles.windowSize = roleStore.windowSize)
    (validator : (roles.getValidatorQuota signer.pubKey).isSome = true) (pool : TxStore) (exec : Block) :
    ∃ qc leaf restarted, node.storage.getLastQC = some qc ∧
      findBlock node.storage.blocks qc.blockHash = some leaf ∧
      setupWindow params qc (setupNode params signer roles node.storage pool exec leaf qc) = (.ok (), restarted) ∧
      restarted.status.window.qcQuotas = node.status.window.qcQuotas ∧
      restarted.status.window.voteQuotas = node.status.window.voteQuotas ∧
      restarted.status.window.qcAcc = node.status.window.qcAcc ∧
      restarted.status.window.voteAcc = node.status.window.voteAcc ∧
      restarted.status.window.height = node.status.window.height := by
  obtain ⟨-, -, rebuild⟩ := (liveWindow_stable stakes).run run alive (started.liveWindow stakes)
  obtain ⟨certs, leaf, chain, voted, shows, found, height_eq, last, -⟩ := rebuild straight
  rw [← same_size] at shows voted
  have lookup := funext (@lookup_setupNode params signer roles node.storage pool exec _ _ found)
  have rebuilt := @wp_setupWindow params
    (setupNode params signer roles node.storage pool exec leaf node.status.qcHigh) node.status.qcHigh
  simp only [lookup, (chain.followed_eq _).1] at rebuilt
  rcases ending_of_wp rebuilt with ⟨_, ended, blk, w, ⟨-, found', -⟩, shows', height_eq', status_eq⟩ | ⟨_, _, never⟩
  · obtain rfl := Option.some.inj (found.symm.trans found')
    obtain ⟨qcs_eq, votes_eq, qcAcc_eq, voteAcc_eq⟩ := shows.unique (Window.shows_map_take.mp shows')
    refine ⟨_, leaf, _, last, found, Prod.ext ended rfl, ?_⟩
    rw [Program.final] at status_eq
    rw [status_eq]
    exact ⟨qcs_eq, votes_eq, qcAcc_eq, voteAcc_eq, height_eq'.trans height_eq.symm⟩
  · refine absurd ⟨validator, found ▸ rfl, fun cert mem => ⟨voted cert mem, ?_⟩⟩ never
    exact (chain.followed_eq 0).2 cert (List.mem_of_mem_take mem)

end Restart

/-! ## A proposal that was missed -/

theorem windowNode_started :
    Started stakeParams (transparentSigner 2) twoValidators (transparentBlock []) windowNode := by
  refine ⟨bothVotes (transparentBlock []), [], [], newTxStore,
    ⟨rfl, rfl, rfl, by decide, rfl, rfl, rfl, by decide⟩, Prod.ext ?_ rfl⟩
  decide +kernel

/-- The node gets the first block, misses the second one, and learns of it from its certificate. -/
def skippingNode : Node :=
  windowNode.receiveAll stakeParams upperEnv
    [.proposal lowerBlk, .qc (transparentSigner 1).pubKey 1 (bothVotes upperBlk)]

/-- The live window has one entry for the certificate of the second block, the stored chain has two: the second
block carries a certificate of the first one, which the node has never adopted. -/
theorem missed_proposal_missing_in_window :
    Started stakeParams (transparentSigner 2) twoValidators (transparentBlock []) windowNode ∧
    NodeRun stakeParams anyEnv windowNode skippingNode ∧ skippingNode.alive = true ∧
    skippingNode.storage.getLastQC = some (bothVotes upperBlk) ∧
    findBlock skippingNode.storage.blocks (bothVotes upperBlk).blockHash = some upperBlk ∧
    let restarted := setupWindow stakeParams (bothVotes upperBlk)
      (setupNode stakeParams (transparentSigner 2) twoValidators skippingNode.storage newTxStore lowerBlk upperBlk
        (bothVotes upperBlk))
    restarted.1 = .ok () ∧ restarted.2.status.window.qcQuotas = [0, 2, 2, 2] ∧
      skippingNode.status.window.qcQuotas = [0, 0, 2, 2] ∧
      restarted.2.status.window.qcAcc ≠ skippingNode.status.window.qcAcc := by
  refine ⟨windowNode_started, NodeRun.receiveAll .start trivial _ ?_, ?_⟩
  all_goals decide +kernel

/-- The node gets both blocks. -/
def straightNode : Node :=
  windowNode.receiveAll stakeParams silentEnv [.proposal lowerBlk, .proposal upperBlk]

/-- The certificate in the second block is adopted, and a restart finds it. -/
theorem restart_rebuilds_window_straightNode :
    straightNode.status.window.qcQuotas = [0, 0, 2, 2] ∧
    ∃ qc leaf restarted, straightNode.storage.getLastQC = some qc ∧
      findBlock straightNode.storage.blocks qc.blockHash = some leaf ∧
      setupWindow stakeParams qc (setupNode stakeParams (transparentSigner 2) twoValidators straightNode.storage
        newTxStore (transparentBlock []) leaf qc) = (.ok (), restarted) ∧
      restarted.status.window.qcQuotas = straightNode.status.window.qcQuotas := by
  have run : NodeRun stakeParams anyEnv windowNode straightNode :=
    NodeRun.receiveAll .start trivial _ (by decide +kernel)
  obtain ⟨qc, leaf, restarted, last, found, rebuilt, quotas_eq, -⟩ :=
    restart_rebuilds_window rfl windowNode_started run (by decide +kernel) (by decide +kernel)
      (rfl : twoValidators.windowSize = twoValidators.windowSize) (by decide) newTxStore (transparentBlock [])
  exact ⟨by decide +kernel, qc, leaf, restarted, last, found, rebuilt, quotas_eq⟩

end SvpChain.Consensus
