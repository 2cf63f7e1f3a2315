import SvpChain.Consensus.Crashes
import SvpChain.Consensus.Stake
import SvpChain.Lib.Sliding

/-!
# What a stake window shows

`setupWindow` fills the window from its last place down: the given certificate, the certificate in its block,
and so on.  `updateWindow` then moves the window on by one entry for each call with a greater height.
-/

namespace SvpChain.Consensus

open Core TxPool Program Slide

/-- The entries of a certificate in the two windows of a node. -/
def windowEntry (signer : Signer) (qc : QuorumCert) : UInt64 × UInt64 :=
  (qc.sumQuota, (qc.findVote signer).getD 0)

/-- The window shows a history of entries. -/
def Window.Shows (size : ℕ) (entries : List (UInt64 × UInt64)) (w : Window) : Prop :=
  w.qcQuotas = slide 0 size (entries.map Prod.fst) ∧ w.voteQuotas = slide 0 size (entries.map Prod.snd) ∧
    w.qcAcc = w.qcQuotas.sum ∧ w.voteAcc = w.voteQuotas.sum

theorem Window.shows_map_take {w : Window} {size : ℕ} {α : Type} {entry : α → UInt64 × UInt64} {certs : List α} :
    w.Shows size ((certs.take size).map entry) ↔ w.Shows size (certs.map entry) := by
  simp [Window.Shows, List.map_take]

namespace Window.Shows

variable {w w' : Window} {size : ℕ} {entries : List (UInt64 × UInt64)} {qc vote height : UInt64}

theorem update (shows : w.Shows size entries) (higher : w.height < height)
    (updated : w.update qc vote height = .ok w') : w'.Shows size ((qc, vote) :: entries) ∧ w'.height = height := by
  obtain ⟨qcs_eq, votes_eq, qcAcc_eq, voteAcc_eq⟩ := shows
  obtain ⟨quota, quotas, voted, votes, qcs, others, rfl⟩ := (update_eq_ok_iff higher).mp updated
  have size_pos : 0 < size := by
    have length_eq := congrArg List.length (qcs.symm.trans qcs_eq)
    rw [List.length_cons, length_slide] at length_eq
    omega
  refine ⟨⟨?_, ?_, ?_, ?_⟩, rfl⟩
  · rw [List.map_cons, slide_cons size_pos, ← qcs_eq, qcs]
    rfl
  · rw [List.map_cons, slide_cons size_pos, ← votes_eq, others]
    rfl
  · rw [qcAcc_eq, qcs, sum_append_sub]
  · rw [voteAcc_eq, others, sum_append_sub]

theorem exists_update (shows : w.Shows size entries) (size_pos : 0 < size) (higher : w.height < height) :
    ∃ w', w.update qc vote height = .ok w' := by
  have places : ∀ {quotas history : List UInt64}, quotas = slide 0 size history → quotas ≠ [] := by
    intro quotas history quotas_eq empty
    have length_eq := congrArg List.length (quotas_eq.symm.trans empty)
    rw [length_slide, List.length_nil] at length_eq
    omega
  obtain ⟨quota, quotas, qcs⟩ := List.exists_cons_of_ne_nil (places shows.1)
  obtain ⟨voted, votes, others⟩ := List.exists_cons_of_ne_nil (places shows.2.1)
  exact ⟨_, (update_eq_ok_iff higher).mpr ⟨quota, quotas, voted, votes, qcs, others, rfl⟩⟩

theorem fill {place : ℕ} (shows : w.Shows size entries) (free : entries.length + (place + 1) = size) (qc vote : UInt64) :
    Window.Shows size (entries ++ [(qc, vote)]) { w with
      qcQuotas := w.qcQuotas.set place qc
      qcAcc := w.qcAcc + qc
      voteQuotas := w.voteQuotas.set place vote
      voteAcc := w.voteAcc + vote } := by
  obtain ⟨qcs_eq, votes_eq, qcAcc_eq, voteAcc_eq⟩ := shows
  have free_qcs : (entries.map Prod.fst).length + (place + 1) = size := by simpa using free
  have free_votes : (entries.map Prod.snd).length + (place + 1) = size := by simpa using free
  refine ⟨?_, ?_, ?_, ?_⟩
  · rw [qcs_eq, set_slide free_qcs, List.map_append]
    rfl
  · rw [votes_eq, set_slide free_votes, List.map_append]
    rfl
  · rw [sum_set_of_zero (qcs_eq ▸ getElem?_slide free_qcs), qcAcc_eq]
  · rw [sum_set_of_zero (votes_eq ▸ getElem?_slide free_votes), voteAcc_eq]

end Window.Shows

/-! ## Reading the stored chain -/

/-- The certificates that `setupWindow` follows, at most as many as there are places. -/
def followed (find : Bytes → Option Block) : ℕ → Option QuorumCert → List QuorumCert
  | 0, _ => []
  | _, none => []
  | place + 1, some qc => qc :: followed find place ((find qc.blockHash).bind Block.quorumCert)

@[simp]
theorem followed_none (find : Bytes → Option Block) (place : ℕ) : followed find place none = [] := by
  cases place <;> rfl

/-- Every certificate has an entry for the node and its block is there. -/
def Readable (find : Bytes → Option Block) (signer : Signer) (certs : List QuorumCert) : Prop :=
  ∀ cert ∈ certs, (cert.findVote signer).isSome = true ∧ (find cert.blockHash).isSome = true

variable {params : Params} {node node' : Node}

/-- The loop adds the entries of the certificates below those that are there, and comes to an end where it
can read them. -/
theorem wp_fillWindow (qc : Option QuorumCert) {size place : ℕ} {entries : List (UInt64 × UInt64)}
    (places : entries.length + place = size) {w : Window} (shows : w.Shows size entries) :
    let certs := followed node.lookup place qc
    wp (fillWindow place qc w)
      (fun w' node' => Readable node.lookup node.signer certs ∧
        w'.Shows size (entries ++ certs.map (windowEntry node.signer)) ∧ w'.height = w.height ∧
        Cached node node') (fun _ _ => ¬ Readable node.lookup node.signer certs) node := by
  intro certs
  induction place generalizing node qc entries w with
  | zero => exact ⟨by simp [certs, followed, Readable], by simpa [certs, followed] using shows, rfl, .refl node⟩
  | succ place ih =>
      cases qc with
      | none => exact ⟨by simp [certs, Readable], by simpa [certs] using shows, rfl, .refl node⟩
      | some qc =>
          rw [fillWindow, wp_bind, wp_get]
          cases vote_eq : qc.findVote node.signer with
          | none =>
              intro readable
              simpa [vote_eq] using (readable qc (by simp [certs, followed])).1
          | some vote =>
              refine wp_then (wp_getBlockByHash _) ?_
              rintro _ node' ⟨rfl, cached, -⟩
              have ⟨_, same_node, same⟩ := cached
              rw [wp_bind, wp_deref]
              refine ⟨fun blk found => ?_, fun missing readable => ?_⟩
              · have certs_eq : certs = qc :: followed node.lookup place blk.quorumCert := by
                  simp [certs, followed, found]
                have entry_eq : windowEntry node.signer qc = (qc.sumQuota, vote) := by
                  simp [windowEntry, vote_eq]
                have signer_eq : node'.signer = node.signer := by rw [same_node]
                have places' : (entries ++ [(qc.sumQuota, vote)]).length + place = size := by
                  rw [List.length_append, List.length_singleton]
                  omega
                have rest := @ih node' blk.quorumCert _ places' _ (shows.fill places qc.sumQuota vote)
                rw [funext same, signer_eq] at rest
                rw [certs_eq, Readable, List.forall_mem_cons, vote_eq, found, List.map_cons, entry_eq]
                refine wp_mono rest ?_ fun _ _ unreadable readable => unreadable readable.2
                rintro w' node'' ⟨readable, shows', height_eq, later⟩
                rw [List.append_assoc] at shows'
                exact ⟨⟨⟨rfl, rfl⟩, readable⟩, shows', height_eq, cached.trans later⟩
              · simpa [missing] using (readable qc (by simp [certs, followed])).2

/-- The window that `setupWindow` makes of a stored chain, and where it makes one. -/
theorem wp_setupWindow (qc : QuorumCert) :
    let size := node.roleStore.windowSize
    let certs := followed node.lookup size (some qc)
    wp (setupWindow params qc)
      (fun _ node' => ∃ blk w, ((node.roleStore.getValidatorQuota node.signer.pubKey).isSome = true ∧
          node.lookup qc.blockHash = some blk ∧ Readable node.lookup node.signer certs) ∧
        w.Shows size (certs.map (windowEntry node.signer)) ∧ w.height = blk.height ∧
        node'.status = { node.status with window := w })
      (fun _ _ => ¬ ((node.roleStore.getValidatorQuota node.signer.pubKey).isSome = true ∧
        (node.lookup qc.blockHash).isSome = true ∧ Readable node.lookup node.signer certs)) node := by
  intro size certs
  rw [setupWindow, wp_bind, wp_get]
  cases limit_eq : node.roleStore.getValidatorQuota node.signer.pubKey with
  | none => exact fun ready => nomatch ready.1
  | some limit =>
      refine (wp_bind _ _).mpr ((wp_bind _ _).mpr (wp_mono (wp_getBlockByHash _) ?_ fun _ _ stopped => stopped))
      rintro _ node' ⟨rfl, cached, -⟩
      have ⟨_, same_node, same⟩ := cached
      rw [wp_bind, wp_deref]
      refine ⟨fun blk found => ?_, fun missing ready => nomatch missing ▸ ready.2.1⟩
      rw [wp_pure, wp_bind]
      have signer_eq : node'.signer = node.signer := by rw [same_node]
      have empty : Window.Shows size []
          ⟨List.replicate size 0, 0, List.replicate size 0, 0, node.roleStore.majorityQuotaCount, limit,
            blk.height, size, params.config.voteStrategy, false⟩ :=
        ⟨slide_nil.symm, slide_nil.symm, (Window.sum_replicate_zero size).symm,
          (Window.sum_replicate_zero size).symm⟩
      have filled := @wp_fillWindow node' (some qc) size size [] (Nat.zero_add size) _ empty
      rw [funext same, signer_eq] at filled
      refine wp_mono filled ?_ fun _ _ unreadable ready => unreadable ready.2.2
      rintro w node'' ⟨readable, shows, height_eq, later⟩
      obtain ⟨_, rfl, -⟩ := cached.trans later
      exact ⟨blk, w, ⟨rfl, found, readable⟩, shows, height_eq, rfl⟩

/-! ## Calls on the status -/

/-- A call on the status of a node. -/
inductive StatusCall where
  | updateWindow (qc vote height : UInt64)
  | startProposal (blk : Block)
  | endProposal
  | addVote (vote : Vote)

/-- The status after a call. A vote that is not added leaves it. -/
def Status.call (s : Status) : StatusCall → Except Fault Status
  | .updateWindow qc vote height => do return { s with window := ← s.window.update qc vote height }
  | .startProposal blk => .ok (s.startProposal blk)
  | .endProposal => .ok s.endProposal
  | .addVote vote => .ok ((s.addVote vote).toOption.getD s)

/-- The entries of the updates above the height of the entry before, the latest first. -/
def acceptedEntries (height : UInt64) : List StatusCall → List (UInt64 × UInt64)
  | [] => []
  | .updateWindow qc vote higher :: calls =>
      if height < higher then acceptedEntries higher calls ++ [(qc, vote)] else acceptedEntries height calls
  | _ :: calls => acceptedEntries height calls

theorem sum_slide (size : ℕ) (history : List UInt64) : (slide 0 size history).sum = (history.take size).sum := by
  simp [slide, List.sum_reverse]

/-- The status counts the votes for its proposal and its window shows the entries. -/
structure Status.Shows (size : ℕ) (entries : List (UInt64 × UInt64)) (s : Status) : Prop where
  window : s.window.Shows size entries
  quotaCount_eq : s.quotaCount = (s.votes.map Vote.quota).sum

namespace Status.Shows

variable {s : Status} {size : ℕ} {entries : List (UInt64 × UInt64)}

theorem addVote (shows : s.Shows size entries) (vote : Vote) : ((s.addVote vote).toOption.getD s).Shows size entries ∧
      ((s.addVote vote).toOption.getD s).window = s.window := by
  cases added : s.addVote vote with
  | error reason => exact ⟨shows, rfl⟩
  | ok s' =>
      obtain ⟨-, -, rfl⟩ := Status.addVote_eq_ok added
      refine ⟨⟨shows.window, ?_⟩, rfl⟩
      simp [Except.toOption, shows.quotaCount_eq]

theorem run (shows : s.Shows size entries) (size_pos : 0 < size) (calls : List StatusCall) :
    ∃ s', calls.foldlM Status.call s = .ok s' ∧ s'.Shows size (acceptedEntries s.window.height calls ++ entries) := by
  induction calls generalizing s entries with
  | nil => exact ⟨s, rfl, shows⟩
  | cons call calls ih =>
      cases call with
      | updateWindow qc vote height =>
          by_cases higher : s.window.height < height
          · obtain ⟨w, updated⟩ := @Window.Shows.exists_update _ _ _ qc vote _ shows.window size_pos higher
            obtain ⟨shows', height_eq⟩ := shows.window.update higher updated
            obtain ⟨s', ran, after⟩ := @ih { s with window := w } _ ⟨shows', shows.quotaCount_eq⟩
            refine ⟨s', ?_, ?_⟩
            · rw [List.foldlM_cons, Status.call, updated]
              exact ran
            · simpa [acceptedEntries, higher, height_eq] using after
          · obtain ⟨s', ran, after⟩ := ih shows
            refine ⟨s', ?_, ?_⟩
            · rw [List.foldlM_cons, Status.call, Window.update_of_not_lt higher]
              exact ran
            · simpa [acceptedEntries, higher] using after
      | startProposal blk => exact @ih (s.startProposal blk) entries ⟨shows.window, rfl⟩
      | endProposal => exact @ih s.endProposal entries ⟨shows.window, rfl⟩
      | addVote vote =>
          obtain ⟨shows', window_eq⟩ := shows.addVote vote
          obtain ⟨s', ran, after⟩ := ih shows'
          exact ⟨s', ran, window_eq ▸ after⟩

theorem getQuotaCount (shows : s.Shows size entries) (size_pos : 0 < size) : s.getQuotaCount =
      .ok ((s.votes.map Vote.quota).sum + ((entries.take (size - 1)).map Prod.fst).sum) := by
  obtain ⟨below, rfl⟩ := Nat.exists_eq_add_of_lt size_pos
  obtain ⟨qcs_eq, -, qcAcc_eq, -⟩ := shows.window
  have newest := congrArg List.tail qcs_eq
  rw [Nat.zero_add, tail_slide] at newest
  cases qcs : s.window.qcQuotas with
  | nil => simpa using congrArg List.length (qcs.symm.trans qcs_eq)
  | cons quota quotas =>
      rw [qcs, List.tail_cons] at newest
      rw [Status.getQuotaCount, shows.quotaCount_eq, qcAcc_eq, qcs, List.sum_cons, newest, sum_slide, List.map_take]
      simp only [Window.first, bind, Except.bind, pure, Except.pure, Nat.zero_add, Nat.add_sub_cancel, Except.ok.injEq]
      grind

end Status.Shows

/-- From the window that `setupWindow` makes, every sequence of calls keeps the last accepted entries in
both windows, their sums, and the count of the votes for the proposal and of the newest certificates. -/
theorem stake_window_slides {qc : QuorumCert} (size_pos : 1 ≤ node.roleStore.windowSize)
    (counted : node.status.quotaCount = (node.status.votes.map Vote.quota).sum)
    (returned : setupWindow params qc node = (.ok (), node')) (calls : List StatusCall) :
    let size := node.roleStore.windowSize
    ∃ blk s, node.lookup qc.blockHash = some blk ∧ calls.foldlM Status.call node'.status = .ok s ∧
      let entries := acceptedEntries blk.height calls ++
        (followed node.lookup size (some qc)).map (windowEntry node.signer)
      (s.window.qcQuotas.length = size ∧ s.window.voteQuotas.length = size) ∧
      s.window.qcQuotas = slide 0 size (entries.map Prod.fst) ∧
      s.window.voteQuotas = slide 0 size (entries.map Prod.snd) ∧
      s.window.qcAcc = s.window.qcQuotas.sum ∧ s.window.voteAcc = s.window.voteQuotas.sum ∧
      s.getQuotaCount =
        .ok ((s.votes.map Vote.quota).sum + ((entries.take (size - 1)).map Prod.fst).sum) := by
  intro size
  have set_up := @wp_setupWindow params node qc
  unfold wp at set_up
  rw [returned] at set_up
  obtain ⟨blk, w, ⟨-, found, -⟩, shows, height_eq, status_eq⟩ := set_up
  have start : Status.Shows size ((followed node.lookup size (some qc)).map (windowEntry node.signer))
      node'.status := by
    rw [status_eq]
    exact ⟨shows, counted⟩
  obtain ⟨s, ran, after⟩ := start.run size_pos calls
  rw [show node'.status.window.height = blk.height by rw [status_eq, height_eq]] at after
  obtain ⟨qcs_eq, votes_eq, sums⟩ := after.window
  refine ⟨blk, s, found, ran, ⟨?_, ?_⟩, qcs_eq, votes_eq, sums.1, sums.2, after.getQuotaCount size_pos⟩
  · rw [qcs_eq, length_slide]
  · rw [votes_eq, length_slide]

/-- The second validator after the genesis block, with a window of four certificates. -/
def windowNode : Node :=
  let q0 := bothVotes (transparentBlock [])
  Program.final (setupWindow stakeParams q0)
    (setupNode stakeParams (transparentSigner 2) twoValidators (genesisStore (transparentBlock []) q0 [] [])
      newTxStore (transparentBlock []) (transparentBlock []) q0)

/-- The second update has a lower height. -/
theorem stake_window_slides_windowNode :
    windowNode.status.window.qcQuotas = [0, 0, 0, 2] ∧
    ∃ s, [.updateWindow 5 1 3, .updateWindow 7 2 2, .updateWindow 9 3 4].foldlM Status.call windowNode.status = .ok s ∧
      s.window.qcQuotas.length = 4 ∧ s.window.qcAcc = s.window.qcQuotas.sum := by
  obtain ⟨-, s, -, ran, ⟨length_eq, -⟩, -, -, sum_eq, -⟩ := stake_window_slides (by decide) rfl
    (Prod.ext (by decide +kernel) rfl : setupWindow stakeParams (bothVotes (transparentBlock [])) _ = (.ok (), windowNode))
    [.updateWindow 5 1 3, .updateWindow 7 2 2, .updateWindow 9 3 4]
  exact ⟨by decide +kernel, s, ran, length_eq, sum_eq⟩

end SvpChain.Consensus
