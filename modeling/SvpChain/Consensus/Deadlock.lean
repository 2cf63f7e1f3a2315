import SvpChain.Consensus.Proposals
import SvpChain.Consensus.Restart

/-!
# The pacemaker and the senders of its tokens

`proposeCh` has no buffer, and `driver.onReceiveVote` sends on it while its caller holds `mtxUpdate`.  The
pacemaker is the only receiver: it takes a token, waits for transactions, and then takes `mtxUpdate` itself.  A
certificate that is completed in between leaves the sender waiting for the pacemaker and the pacemaker waiting for
the sender.  The votes of a round that was started before the token are over by then, so this takes a proposal of a
new view, or a quorum of one.
-/

namespace SvpChain.Consensus

open Core TxPool Program

/-! ## The goroutines -/

/-- The goroutines that send on `proposeCh` with `mtxUpdate` held. -/
inductive Goroutine where
  | pacemaker
  | voteLoop
  | newViewLoop
  deriving DecidableEq

/-- Where `pacemaker.run` stands. -/
inductive PacemakerPhase where
  /-- At the receive from `proposeCh`. -/
  | waiting
  /-- In `delayProposeWhenNoTxs`. -/
  | delaying
  /-- At the lock of `newProposal`. -/
  | locking
  | inside
  /-- At the send, with the lock held. -/
  | sending
  deriving DecidableEq

/-- Where `validator.voteLoop` stands. -/
inductive VotePhase where
  | waiting
  | locking (vote : Vote)
  | inside (vote : Vote)
  | sending
  deriving DecidableEq

/-- Where `rotator.newViewLoop` stands. `onReceiveQC` takes the lock twice. -/
inductive NewViewPhase where
  | waiting
  | locking (sender : PublicKey) (change : UInt32) (qc : QuorumCert)
  | inside (sender : PublicKey) (change : UInt32) (qc : QuorumCert)
  | counting (sender : PublicKey) (change : UInt32)
  | lockingProposal
  | insideProposal
  | sending
  deriving DecidableEq

/-- A node with its goroutines. -/
structure Goroutines where
  node : Node
  /-- The holder of the lock. -/
  mtxUpdate : Option Goroutine
  /-- `pacemaker.start` has not sent its first token yet; the rotator starts after it. -/
  starting : Bool
  pacemaker : PacemakerPhase
  votes : VotePhase
  newViews : NewViewPhase

/-! ## The parts of the handlers -/

section

variable (params : Params) (env : Env)

/-- `validator.onReceiveVote` under the lock. -/
def countVote (vote : Vote) : Handler Unit := do
  let node ← Program.get
  Program.throwIf (node.status.viewChange ≠ .success) .viewChange
  driverReceiveVote params env vote

/-- `rotator.onReceiveQC` before the first lock. The commits of a synchronisation hold the lock too; here they may
run at any time. -/
def prepareQC (qc : QuorumCert) : Handler Unit := do
  onRoleStore (qc.validate params.crypto)
  Program.modify fun node => node.record (.receivedQC qc)
  let blk ← getOrRequestBlock params env qc.proposer qc.blockHash
  let _ ← syncParentBlock params env blk
  Program.when params.config.executeTxFlag (syncTxs params env qc.proposer blk.transactions)

/-- `rotator.onReceiveQC` between its locks: whether there is a new view to propose for. -/
def tallyQC (sender : PublicKey) (change : UInt32) : Handler Bool := do
  enterNextView
  Program.modify (countQC sender change)
  let node ← Program.get
  pure (decide (node.roleStore.majorityValidatorCount ≤ node.rotator.highQCCount ∧
    isLeader node node.signer.pubKey))

/-- One after the other, the parts are the handlers. -/
theorem onReceiveVote_eq (vote : Vote) :
    onReceiveVote params env vote = onRoleStore (vote.validate params.crypto) >>= fun _ => countVote params env vote :=
  rfl

theorem onReceiveQC_eq (sender : PublicKey) (change : UInt32) (qc : QuorumCert) :
    onReceiveQC params env sender change qc = (do
      prepareQC params env qc
      updateQCHigh params env (some qc)
      let proposes ← tallyQC sender change
      Program.when (proposes = true) (newViewProposal params env)) := by
  have decided : ∀ (condition : Prop) [Decidable condition] (program : Handler Unit),
      Program.when (decide condition = true) program = Program.when condition program := by
    intro condition _ program
    by_cases holds : condition
    · simp [Program.when, holds]
    · simp [Program.when, holds]
  simp only [onReceiveQC, prepareQC, tallyQC, bind_assoc, pure_bind, decided]

end

/-! ## Moves -/

/-- A move of a goroutine. -/
inductive Move where
  /-- The pacemaker receives the token of `pacemaker.start`, or of a goroutine at its send. -/
  | receiveStart
  | receiveFromVotes
  | receiveFromNewViews
  | endDelay
  | lockProposal
  | propose
  | takeVote (vote : Vote)
  | lockVote
  | countVote
  | takeQC (sender : PublicKey) (change : UInt32) (qc : QuorumCert)
  | lockQC
  | updateQC
  | tallyQC
  | lockNewView
  | newView
  /-- The loops of proposals, timers and transactions, which send no tokens. -/
  | other (input : Input)

namespace Goroutines

/-- The pacemaker takes a token. -/
def takeToken (s : Goroutines) : Goroutines :=
  { s with
    node := { s.node with proposeCh := s.node.proposeCh - 1 }
    pacemaker := .delaying }

variable (params : Params) (env : Env)

/-- The node after a part of a handler under the lock, the goroutine that goes on at the send if the part has a
token to send, and else leaves the lock. -/
def underLock {α : Type} (program : Handler α) (sends leaves : Node → Goroutines) (s : Goroutines) : Goroutines :=
  let node := s.node.after program
  if node.alive = false then { s with node := node }
  else if s.node.proposeCh < node.proposeCh then sends node
  else { leaves node with mtxUpdate := none }

/-- The state after a move, where it is possible. -/
def move (s : Goroutines) : Move → Option Goroutines
  | .receiveStart =>
      if s.pacemaker = .waiting ∧ s.starting = true then some { s.takeToken with starting := false } else none
  | .receiveFromVotes =>
      if s.pacemaker = .waiting ∧ s.votes = .sending then
        some { s.takeToken with mtxUpdate := none, votes := .waiting }
      else none
  | .receiveFromNewViews =>
      if s.pacemaker = .waiting ∧ s.newViews = .sending then
        some { s.takeToken with mtxUpdate := none, newViews := .waiting }
      else none
  | .endDelay => if s.pacemaker = .delaying then some { s with pacemaker := .locking } else none
  | .lockProposal =>
      if s.pacemaker = .locking ∧ s.mtxUpdate = none then
        some { s with pacemaker := .inside, mtxUpdate := some .pacemaker }
      else none
  | .propose =>
      if s.pacemaker = .inside then
        some (s.underLock (newProposal params env) (fun node => { s with node := node, pacemaker := .sending })
          fun node => { s with node := node, pacemaker := .waiting })
      else none
  | .takeVote vote =>
      if s.votes = .waiting then
        let validation : Handler Unit := onRoleStore (vote.validate params.crypto)
        let phase := match (validation s.node).1 with
          | .ok _ => VotePhase.locking vote
          | .error _ => .waiting
        some { s with node := s.node.after validation, votes := phase }
      else none
  | .lockVote =>
      match s.votes, s.mtxUpdate with
      | .locking vote, none => some { s with votes := .inside vote, mtxUpdate := some .voteLoop }
      | _, _ => none
  | .countVote =>
      match s.votes with
      | .inside vote =>
          some (s.underLock (Consensus.countVote params env vote)
            (fun node => { s with node := node, votes := .sending }) fun node => { s with node := node, votes := .waiting })
      | _ => none
  | .takeQC sender change qc =>
      if s.newViews = .waiting ∧ s.starting = false then
        let phase := match (prepareQC params env qc s.node).1 with
          | .ok _ => NewViewPhase.locking sender change qc
          | .error _ => .waiting
        some { s with node := s.node.after (prepareQC params env qc), newViews := phase }
      else none
  | .lockQC =>
      match s.newViews, s.mtxUpdate with
      | .locking sender change qc, none =>
          some { s with newViews := .inside sender change qc, mtxUpdate := some .newViewLoop }
      | _, _ => none
  | .updateQC =>
      match s.newViews with
      | .inside sender change qc =>
          some { s with
            node := s.node.after (updateQCHigh params env (some qc))
            newViews := .counting sender change
            mtxUpdate := none }
      | _ => none
  | .tallyQC =>
      match s.newViews with
      | .counting sender change =>
          let phase := match (Consensus.tallyQC sender change s.node).1 with
            | .ok true => NewViewPhase.lockingProposal
            | _ => .waiting
          some { s with node := s.node.after (Consensus.tallyQC sender change), newViews := phase }
      | _ => none
  | .lockNewView =>
      if s.newViews = .lockingProposal ∧ s.mtxUpdate = none then
        some { s with newViews := .insideProposal, mtxUpdate := some .newViewLoop }
      else none
  | .newView =>
      if s.newViews = .insideProposal then
        some (s.underLock (newViewProposal params env) (fun node => { s with node := node, newViews := .sending })
          fun node => { s with node := node, newViews := .waiting })
      else none
  | .other input =>
      match input with
      | .propose | .vote _ | .qc _ _ _ => none
      | .proposal _ =>
          if s.mtxUpdate = none then some { s with node := s.node.receive params env input } else none
      | .leaderTimeout | .viewTimeout =>
          if s.starting = false then some { s with node := s.node.receive params env input } else none
      | .submitTx _ | .receiveTx _ => some { s with node := s.node.receive params env input }

/-- The goroutines of a node that has just started. -/
def start (node : Node) : Goroutines where
  node := node
  mtxUpdate := none
  starting := params.config.preserveTxFlag
  pacemaker := .waiting
  votes := .waiting
  newViews := .waiting

/-- A goroutine that holds the lock is at its send, and the pacemaker is at the lock or is that goroutine. -/
def Deadlocked (s : Goroutines) : Prop :=
  (s.mtxUpdate = some .pacemaker ∧ s.pacemaker = .sending) ∨
    (s.mtxUpdate = some .voteLoop ∧ s.votes = .sending ∧ s.pacemaker = .locking) ∨
      (s.mtxUpdate = some .newViewLoop ∧ s.newViews = .sending ∧ s.pacemaker = .locking)

instance (s : Goroutines) : Decidable s.Deadlocked := inferInstanceAs (Decidable (_ ∨ _ ∨ _))

end Goroutines

/-- The states reached by moves that meet a condition. -/
inductive Interleaving (params : Params) (condition : Goroutines → Move → Prop) (first : Goroutines) :
    Goroutines → Prop where
  | start : Interleaving params condition first first
  | step {s s' : Goroutines} (run : Interleaving params condition first s) (alive : s.node.alive = true) {env : Env}
      {move : Move} (met : condition s move) (moved : s.move params env move = some s') :
      Interleaving params condition first s'

namespace Goroutines

/-- Make moves that meet a condition, in the same surroundings. -/
def play (params : Params) (env : Env) (condition : Goroutines → Move → Prop)
    [∀ s move, Decidable (condition s move)] : List Move → Goroutines → Option Goroutines
  | [], s => some s
  | move :: moves, s =>
      if s.node.alive = true ∧ condition s move then
        (s.move params env move).bind (play params env condition moves)
      else none

theorem interleaving_play {params : Params} {env : Env} {condition : Goroutines → Move → Prop}
    [∀ s move, Decidable (condition s move)] {first s s' : Goroutines} (run : Interleaving params condition first s)
    {moves : List Move} (played : s.play params env condition moves = some s') :
    Interleaving params condition first s' := by
  induction moves generalizing s with
  | nil =>
      cases played
      exact run
  | cons move moves ih =>
      obtain ⟨⟨alive, met⟩, rest⟩ := Option.ite_none_right_eq_some.mp played
      obtain ⟨next, moved, played⟩ := Option.bind_eq_some_iff.mp rest
      exact ih (run.step alive met moved) played

theorem exists_interleaving {params : Params} {env : Env} {condition : Goroutines → Move → Prop}
    [∀ s move, Decidable (condition s move)] {first : Goroutines} {moves : List Move} {holds : Goroutines → Prop}
    [DecidablePred holds] (played : ((first.play params env condition moves).any fun s => decide (holds s)) = true) :
    ∃ s, Interleaving params condition first s ∧ holds s := by
  cases reached : first.play params env condition moves with
  | none =>
      rw [reached] at played
      cases played
  | some s =>
      rw [reached] at played
      exact ⟨s, interleaving_play .start reached, of_decide_eq_true played⟩

end Goroutines

/-- Any move. -/
def anyMove : Goroutines → Move → Prop := fun _ _ => True

instance (s : Goroutines) (move : Move) : Decidable (anyMove s move) := isTrue trivial

/-- There are two validators when the node proposes, and the rotator proposes for a new view only while the
pacemaker waits for a token. -/
def Spaced (s : Goroutines) : Move → Prop
  | .propose => 2 ≤ s.node.roleStore.validatorCount
  | .newView => 2 ≤ s.node.roleStore.validatorCount ∧ s.pacemaker = .waiting
  | _ => True

instance (s : Goroutines) (move : Move) : Decidable (Spaced s move) := by
  cases move <;> unfold Spaced <;> infer_instance

theorem two_le_majority {store : RoleStore} (two : 2 ≤ store.validatorCount) : 2 ≤ store.majorityValidatorCount := by
  unfold RoleStore.majorityValidatorCount RoleStore.majorityCount
  omega

/-! ## Parts of handlers that send no token -/

section Parts

variable {params : Params} {env : Env} {node : Node} {vote : Vote}

theorem qcOrder_self {qc : QuorumCert} {order : Ordering} (ordered : node.qcOrder qc qc = some order) :
    order ≠ .gt := by
  rintro rfl
  rw [Node.qcOrder, if_neg (UInt32.lt_irrefl _), if_neg (UInt32.lt_irrefl _)] at ordered
  cases found : node.lookup qc.blockHash with
  | none => simp [found] at ordered
  | some blk => simp [found] at ordered

theorem wp_updateQCHigh_self : wp (updateQCHigh params env (some node.status.qcHigh)) (fun _ node' => Cached node node')
      (fun halt _ => ∃ reason, halt = .fault reason) node := by
  rw [updateQCHigh, wp_bind, wp_gets, wp_bind]
  apply wp_mono (wp_cmpQCPriority _ _)
  · rintro order node' ⟨ordered, cached⟩
    rw [wp_bind, wp_deref]
    refine ⟨fun qc same => ?_, fun missing => by cases missing⟩
    rw [if_neg (qcOrder_self ordered)]
    exact cached
  · intro halt node' stopped
    exact stopped.1

/-- Only `createProposal` opens a round of votes. -/
theorem noProposal_stable (params : Params) : StableViews params (fun node => node.status.proposal = none) where
  memory ended _ _ _ _ := ended
  record ended _ _ := ended
  commit ended _ := ended
  store ended _ _ _ _ := ended
  bExec ended _ := ended
  adopt ended _ _ _ _ _ := ended
  views ended _ _ _ _ _ := ended

/-- No token is left, or the votes of a round have completed a certificate. -/
def Completes (node : Node) (vote : Vote) (node' : Node) : Prop :=
  node'.proposeCh = node.proposeCh ∨ node'.status.proposal = none ∧
    ∃ status, node.status.addVote vote = .ok status ∧ node.roleStore.majorityValidatorCount ≤ status.votes.length

theorem Completes.few {node' : Node} (completes : Completes node vote node') (no_votes : node.status.votes = [])
    (majority : 2 ≤ node.roleStore.majorityValidatorCount) : node'.proposeCh = node.proposeCh := by
  rcases completes with same | ⟨-, status, added, enough⟩
  · exact same
  · obtain ⟨-, -, rfl⟩ := Status.addVote_eq_ok added
    have one : (node.status.votes ++ [vote]).length = 1 := by rw [no_votes]; rfl
    exact absurd (majority.trans (enough.trans one.le)) (by decide)

theorem wp_driverReceiveVote : wp (driverReceiveVote params env vote) (fun _ => Completes node vote)
      (fun halt node' => (∃ reason, halt = .fault reason) ∨ Completes node vote node') node := by
  rw [driverReceiveVote, wp_bind, wp_get]
  cases added : node.status.addVote vote with
  | error reason => exact Or.inr (Or.inl rfl)
  | ok status =>
      refine (wp_bind _ _).mpr ((wp_modify _).mpr ((wp_bind _ _).mpr ?_))
      apply wp_mono (wp_getBlockByHash _) _ fun _ _ stopped => stopped
      rintro found _ ⟨-, ⟨blocks, rfl, -⟩, -⟩
      rw [wp_bind, wp_deref]
      refine ⟨fun blk _ => ?_, fun _ => Or.inl ⟨_, rfl⟩⟩
      rw [wp_bind, wp_get, wp_bind]
      cases counted : isVoteEnough params _ with
      | error reason => exact Or.inl ⟨_, rfl⟩
      | ok enough =>
          cases enough with
          | false => exact Or.inl rfl
          | true =>
              have majority := majority_of_isVoteEnough counted
              -- the round ends before the certificate is adopted
              refine (wp_bind _ _).mpr ((wp_modify _).mpr ((wp_bind _ _).mpr ((wp_modify _).mpr ?_)))
              refine (wp_bind _ _).mpr (wp_mono ((noProposal_stable params).calls.updateQCHigh _ _ rfl) ?_ ?_)
              · intro _ node' ended
                exact Or.inr ⟨ended, status, added, majority⟩
              · rintro halt node' (faulted | ended)
                · exact Or.inl faulted
                · exact Or.inr (Or.inr ⟨ended, status, added, majority⟩)

/-- The round of a proposal that has no votes yet. -/
structure Unvoted (qc : QuorumCert) (tokens : ℕ) (node : Node) : Prop where
  majority : 2 ≤ node.roleStore.majorityValidatorCount
  high : node.status.qcHigh = qc
  votes : node.status.votes = []
  tokens : node.proposeCh = tokens

section Unvoted

variable {qc : QuorumCert} {tokens : ℕ}

theorem Unvoted.of_cached {node' : Node} (unvoted : Unvoted qc tokens node) (cached : Cached node node') :
    Unvoted qc tokens node' := by
  obtain ⟨blocks, rfl, -⟩ := cached
  exact ⟨unvoted.majority, unvoted.high, unvoted.votes, unvoted.tokens⟩

theorem Unvoted.stops (halt : Halt ConsensusError) (node : Node)
    (stopped : (∃ reason, halt = .fault reason) ∨ Unvoted qc tokens node) :
    (∃ reason, halt = .fault reason) ∨ node.proposeCh = tokens :=
  stopped.imp_right Unvoted.tokens

theorem kept_rotatorReceiveProposal (blk : Block) : Kept (Unvoted qc tokens) (rotatorReceiveProposal params blk) :=
  .bind .get fun _ => .when (.modify fun _ unvoted =>
    ⟨unvoted.majority, unvoted.high, unvoted.votes, unvoted.tokens⟩)

theorem kept_qcRefHeight (other : QuorumCert) : Kept (Unvoted qc tokens) (qcRefHeight other) := by
  refine .bind (fun node unvoted => ?_) fun found => .bind .deref fun _ => .pure
  apply wp_mono (wp_getBlockByHash _) _ fun _ _ stopped => stopped
  rintro found node' ⟨-, cached, -⟩
  exact unvoted.of_cached cached

/-- A node that proposes with its highest certificate adopts no other one. -/
theorem wp_createProposal_unvoted {view : UInt32} {parent : Block}
    (majority : 2 ≤ node.roleStore.majorityValidatorCount) :
    wp (createProposal params env view parent node.status.qcHigh)
      (fun blk node' => blk.quorumCert = some node.status.qcHigh ∧ Unvoted node.status.qcHigh node.proposeCh node')
      (fun halt node' => (∃ reason, halt = .fault reason) ∨ node'.proposeCh = node.proposeCh) node := by
  refine (wp_bind _ _).mpr (wp_mono wp_takeTxs ?_ fun _ _ never => never.elim)
  rintro txs _ ⟨txPool, rfl⟩
  refine (wp_bind _ _).mpr (wp_get.mpr ((wp_bind _ _).mpr ((wp_modify _).mpr ((wp_bind _ _).mpr ?_))))
  refine wp_mono (kept_rotatorReceiveProposal _ _ ⟨majority, rfl, rfl, rfl⟩) ?_ Unvoted.stops
  intro _ node1 unvoted1
  refine (wp_bind _ _).mpr (wp_mono (kept_qcRefHeight _ _ unvoted1) ?_ Unvoted.stops)
  intro _ node2 unvoted2
  exact ⟨rfl, unvoted2⟩

theorem wp_broadcastAndVote_unvoted {blk : Block} (carries : blk.quorumCert = some qc)
    (unvoted : Unvoted qc tokens node) : wp (broadcastAndVote params env blk) (fun _ node' => node'.proposeCh = tokens)
      (fun halt node' => (∃ reason, halt = .fault reason) ∨ node'.proposeCh = tokens) node := by
  have broadcast : Unvoted qc tokens (node.record (.broadcastProposal blk)) :=
    ⟨unvoted.majority, unvoted.high, unvoted.votes, unvoted.tokens⟩
  rw [broadcastAndVote, carries, wp_bind, wp_modify, wp_bind, ← broadcast.high]
  apply wp_mono wp_updateQCHigh_self _ fun _ _ faulted => Or.inl faulted
  intro _ node1 cached
  have quota_only : Kept (Unvoted qc tokens) (getVoteQuota params env) := StableApproval.getVoteQuota
  refine (wp_bind _ _).mpr (wp_mono (quota_only node1 (broadcast.of_cached cached)) ?_ Unvoted.stops)
  intro quota node2 unvoted2
  refine (wp_bind _ _).mpr (wp_get.mpr (wp_discardError_of ?_))
  apply wp_mono wp_driverReceiveVote
  · intro _ node3 completes
    exact (completes.few unvoted2.votes unvoted2.majority).trans unvoted2.tokens
  · intro halt node3 stopped
    exact stopped.imp_right fun completes =>
      (completes.few unvoted2.votes unvoted2.majority).trans unvoted2.tokens

end Unvoted

theorem wp_newProposal_quiet (majority : 2 ≤ node.roleStore.majorityValidatorCount) :
    wp (newProposal params env) (fun _ node' => node'.proposeCh = node.proposeCh)
      (fun halt node' => (∃ reason, halt = .fault reason) ∨ node'.proposeCh = node.proposeCh) node := by
  rw [newProposal, wp_bind, wp_get, wp_ite]
  refine ⟨fun _ => rfl, fun _ => (wp_ite _ _ _).mpr ⟨fun _ => rfl, fun _ => (wp_bind _ _).mpr ?_⟩⟩
  apply wp_mono (wp_createProposal_unvoted majority) _ fun _ _ stopped => stopped
  rintro blk node1 ⟨carries, unvoted⟩
  exact wp_broadcastAndVote_unvoted carries unvoted

theorem wp_newViewProposal_quiet (majority : 2 ≤ node.roleStore.majorityValidatorCount) :
    wp (newViewProposal params env) (fun _ node' => node'.proposeCh = node.proposeCh)
      (fun halt node' => (∃ reason, halt = .fault reason) ∨ node'.proposeCh = node.proposeCh) node := by
  rw [newViewProposal, wp_bind, wp_modify, wp_bind, wp_gets, wp_bind]
  apply wp_mono (wp_getBlockByHash _) _ fun _ _ stopped => stopped
  rintro found _ ⟨-, ⟨blocks, rfl, -⟩, -⟩
  rw [wp_bind, wp_deref]
  refine ⟨fun parent _ => ?_, fun _ => Or.inl ⟨_, rfl⟩⟩
  refine (wp_bind _ _).mpr (wp_get.mpr ((wp_bind _ _).mpr ?_))
  refine wp_mono (wp_createProposal_unvoted majority) ?_ fun _ _ stopped => stopped
  rintro blk node1 ⟨carries, unvoted⟩
  exact wp_broadcastAndVote_unvoted carries unvoted

theorem wp_countVote : wp (countVote params env vote) (fun _ => Completes node vote)
      (fun halt node' => (∃ reason, halt = .fault reason) ∨ Completes node vote node') node := by
  rw [countVote, wp_bind, wp_get, wp_bind, wp_throwIf]
  exact ⟨fun _ => Or.inr (Or.inl rfl), fun _ => wp_driverReceiveVote⟩

theorem kept_countVote : Kept (fun node => node.status.proposal = none) (countVote params env vote) := by
  refine .bind .get fun _ => .bind .throwIf fun _ => .get_bind fun node ended => ?_
  have refused : node.status.addVote vote = .error .noProposal := by rw [Status.addVote, ended]
  rw [refused]
  exact Or.inr ended

theorem kept_prepareQC (qc : QuorumCert) :
    Kept (fun node => node.status.proposal = none) (prepareQC params env qc) := by
  have stable := (noProposal_stable params).calls
  exact .bind (stable.onRoleStore _) fun _ => .bind (.modify fun _ ended => ended) fun _ =>
    .bind (stable.getOrRequestBlock _ _) fun _ => .bind (stable.syncParentBlock _) fun _ =>
      .when (stable.syncTxs _ _)

theorem kept_tallyQC (params : Params) (sender : PublicKey) (change : UInt32) :
    Kept (fun node => node.status.proposal = none) (tallyQC sender change) :=
  .bind (noProposal_stable params).enterNextView fun _ => .bind (.modify fun _ ended => ended) fun _ =>
    .bind .get fun _ => .pure

end Parts

/-! ## The order of the tokens -/

namespace Goroutines

variable {params : Params} {env : Env} {s s' : Goroutines}

theorem underLock_quiet {α : Type} {program : Handler α} (sends leaves : Node → Goroutines)
    (quiet : wp program (fun _ node' => node'.proposeCh = s.node.proposeCh)
      (fun halt node' => (∃ reason, halt = .fault reason) ∨ node'.proposeCh = s.node.proposeCh) s.node) :
    (s.node.after program).alive = false ∧ s.underLock program sends leaves =
    { s with node := s.node.after program } ∨
      s.underLock program sends leaves = { leaves (s.node.after program) with mtxUpdate := none } := by
  unfold underLock
  by_cases alive : (s.node.after program).alive = false
  · exact Or.inl ⟨alive, if_pos alive⟩
  · have same : (s.node.after program).proposeCh = s.node.proposeCh :=
      after_of_wp quiet (Bool.eq_true_of_not_eq_false alive)
    right
    simp only [if_neg alive, if_neg same.not_gt]

/-- A round of votes is open only while the pacemaker waits for its token. -/
structure Orderly (s : Goroutines) : Prop where
  pacemaker_holds : s.pacemaker = .inside → s.mtxUpdate = some .pacemaker
  votes_hold : ∀ vote, s.votes = .inside vote → s.mtxUpdate = some .voteLoop
  votes_send : s.votes = .sending → s.mtxUpdate = some .voteLoop ∧ s.pacemaker = .waiting ∧ s.starting = false
  newViews_hold : ∀ sender change qc, s.newViews = .inside sender change qc → s.mtxUpdate = some .newViewLoop
  newView_holds : s.newViews = .insideProposal → s.mtxUpdate = some .newViewLoop
  pacemaker_sends : s.pacemaker ≠ .sending
  newViews_send : s.newViews ≠ .sending
  start_first : s.starting = true → s.pacemaker = .waiting ∧ s.newViews = .waiting
  round_ended : s.node.alive = true → s.pacemaker ≠ .waiting ∨ s.starting = true ∨ s.votes = .sending →
    s.node.status.proposal = none

theorem Orderly.not_deadlocked (orderly : Orderly s) : ¬ s.Deadlocked := by
  rintro (⟨-, sends⟩ | ⟨-, sends, locking⟩ | ⟨-, sends, -⟩)
  · exact orderly.pacemaker_sends sends
  · have waiting := (orderly.votes_send sends).2.1
    rw [locking] at waiting
    cases waiting
  · exact orderly.newViews_send sends

/-! Each part of a move changes one thing: the node, the holder of the lock, or the phase of one goroutine. -/

theorem Orderly.setNode (orderly : Orderly s) {node : Node}
    (ended : node.alive = true → s.pacemaker ≠ .waiting ∨ s.starting = true ∨ s.votes = .sending →
      node.status.proposal = none) : Orderly { s with node := node } :=
  { orderly with
    round_ended := ended }

theorem Orderly.after {α : Type} {program : Handler α} (orderly : Orderly s) (alive : s.node.alive = true)
    (kept : Kept (fun node => node.status.proposal = none) program) :
    Orderly { s with node := s.node.after program } :=
  orderly.setNode fun alive' busy => kept_after kept (orderly.round_ended alive busy) alive'

theorem Orderly.lock (orderly : Orderly s) (free : s.mtxUpdate = none) (holder : Goroutine) :
    Orderly { s with mtxUpdate := some holder } := by
  have unheld {goroutine : Goroutine} : s.mtxUpdate ≠ some goroutine := by
    rw [free]
    exact nofun
  exact { orderly with
    pacemaker_holds := fun inside => absurd (orderly.pacemaker_holds inside) unheld
    votes_hold := fun vote inside => absurd (orderly.votes_hold vote inside) unheld
    votes_send := fun sending => absurd (orderly.votes_send sending).1 unheld
    newViews_hold := fun _ _ _ inside => absurd (orderly.newViews_hold _ _ _ inside) unheld
    newView_holds := fun inside => absurd (orderly.newView_holds inside) unheld }

theorem Orderly.unlock {holder : Goroutine} (orderly : Orderly s) (held : s.mtxUpdate = some holder)
    (pacemaker : holder = .pacemaker → s.pacemaker ≠ .inside)
    (votes : holder = .voteLoop → (∀ vote, s.votes ≠ .inside vote) ∧ s.votes ≠ .sending)
    (newViews : holder = .newViewLoop →
      (∀ sender change qc, s.newViews ≠ .inside sender change qc) ∧ s.newViews ≠ .insideProposal) :
    Orderly { s with mtxUpdate := none } := by
  have holder_eq {goroutine : Goroutine} (holds : s.mtxUpdate = some goroutine) : holder = goroutine :=
    Option.some.inj (held.symm.trans holds)
  exact { orderly with
    pacemaker_holds := fun inside => absurd inside (pacemaker (holder_eq (orderly.pacemaker_holds inside)))
    votes_hold := fun vote inside => absurd inside ((votes (holder_eq (orderly.votes_hold vote inside))).1 vote)
    votes_send := fun sending => absurd sending (votes (holder_eq (orderly.votes_send sending).1)).2
    newViews_hold := fun sender change qc inside =>
      absurd inside ((newViews (holder_eq (orderly.newViews_hold _ _ _ inside))).1 sender change qc)
    newView_holds := fun inside => absurd inside (newViews (holder_eq (orderly.newView_holds inside))).2 }

theorem Orderly.setVotes (orderly : Orderly s) {phase : VotePhase}
    (holds : ∀ vote, phase = .inside vote → s.mtxUpdate = some .voteLoop) (silent : phase ≠ .sending) :
    Orderly { s with votes := phase } :=
  { orderly with
    votes_hold := holds
    votes_send := fun sending => absurd sending silent
    round_ended := fun alive busy =>
      orderly.round_ended alive (busy.imp_right (Or.imp_right fun sending => absurd sending silent)) }

theorem Orderly.setNewViews (orderly : Orderly s) {phase : NewViewPhase}
    (started : s.starting = true → phase = .waiting)
    (holds : ∀ sender change qc, phase = .inside sender change qc → s.mtxUpdate = some .newViewLoop)
    (proposal_holds : phase = .insideProposal → s.mtxUpdate = some .newViewLoop) (silent : phase ≠ .sending) :
    Orderly { s with newViews := phase } :=
  { orderly with
    newViews_hold := holds
    newView_holds := proposal_holds
    newViews_send := silent
    start_first := fun starting => ⟨(orderly.start_first starting).1, started starting⟩ }

theorem Orderly.started_of_newViews (orderly : Orderly s) (busy : s.newViews ≠ .waiting) {phase : NewViewPhase}
    (starting : s.starting = true) : phase = .waiting :=
  absurd (orderly.start_first starting).2 busy

theorem Orderly.setPacemaker (orderly : Orderly s) {phase : PacemakerPhase}
    (holds : phase = .inside → s.mtxUpdate = some .pacemaker) (silent : phase ≠ .sending)
    (started : s.starting = false) (quiet : s.votes ≠ .sending)
    (ended : s.node.alive = true → phase ≠ .waiting → s.node.status.proposal = none) :
    Orderly { s with pacemaker := phase } :=
  { orderly with
    pacemaker_holds := holds
    votes_send := fun sending => absurd sending quiet
    pacemaker_sends := silent
    start_first := fun starting => absurd (started.symm.trans starting) Bool.false_ne_true
    round_ended := fun alive busy => by
      rcases busy with working | starting | sending
      · exact ended alive working
      · exact absurd (started.symm.trans starting) Bool.false_ne_true
      · exact absurd sending quiet }

/-- While the pacemaker works on a token, the node has started, no vote is at its send and no round is open. -/
theorem Orderly.working (orderly : Orderly s) (works : s.pacemaker ≠ .waiting) :
    s.starting = false ∧ s.votes ≠ .sending ∧ (s.node.alive = true → s.node.status.proposal = none) := by
  refine ⟨?_, fun sending => works (orderly.votes_send sending).2.1, fun alive => orderly.round_ended alive (.inl works)⟩
  cases starting : s.starting with
  | false => rfl
  | true => exact absurd (orderly.start_first starting).1 works

theorem Orderly.goOn (orderly : Orderly s) (works : s.pacemaker ≠ .waiting) {phase : PacemakerPhase}
    (holds : phase = .inside → s.mtxUpdate = some .pacemaker) (silent : phase ≠ .sending) :
    Orderly { s with pacemaker := phase } := by
  obtain ⟨started, quiet, ended⟩ := orderly.working works
  exact orderly.setPacemaker holds silent started quiet fun alive _ => ended alive

theorem Orderly.receiveStart (orderly : Orderly s) (starting : s.starting = true) :
    Orderly { s.takeToken with starting := false } := by
  have waiting := (orderly.start_first starting).1
  have quiet : s.votes ≠ .sending := fun sending =>
    absurd ((orderly.votes_send sending).2.2.symm.trans starting) Bool.false_ne_true
  exact { orderly with
    pacemaker_holds := nofun
    votes_send := fun sending => absurd sending quiet
    pacemaker_sends := nofun
    start_first := nofun
    round_ended := fun alive _ => orderly.round_ended alive (.inr (.inl starting)) }

theorem Orderly.receiveFromVotes (orderly : Orderly s) (sending : s.votes = .sending) :
    Orderly { s.takeToken with mtxUpdate := none, votes := .waiting } := by
  obtain ⟨held, waiting, started⟩ := orderly.votes_send sending
  have ended (alive : s.node.alive = true) := orderly.round_ended alive (.inr (.inr sending))
  have left : Orderly { s with votes := .waiting } := orderly.setVotes nofun nofun
  have free : Orderly { s with votes := .waiting, mtxUpdate := none } := left.unlock held nofun (fun _ => ⟨nofun, nofun⟩) nofun
  have taken : Orderly { s with votes := .waiting, mtxUpdate := none, pacemaker := .delaying } :=
    free.setPacemaker nofun nofun started nofun fun alive _ => ended alive
  exact taken.setNode fun alive _ => ended alive

/-- A vote that completes its round finds the pacemaker waiting for the token. -/
theorem Orderly.countVote (orderly : Orderly s) (alive : s.node.alive = true) {vote : Vote}
    (inside : s.votes = .inside vote) :
    Orderly (s.underLock (Consensus.countVote params env vote) (fun node => { s with node := node, votes := .sending })
      fun node => { s with node := node, votes := .waiting }) := by
  have after : Orderly { s with node := s.node.after (Consensus.countVote params env vote) } :=
    orderly.after alive kept_countVote
  have held := orderly.votes_hold vote inside
  unfold underLock
  by_cases dead : (s.node.after (Consensus.countVote params env vote)).alive = false
  · simp only [if_pos dead]
    exact after
  · by_cases token : s.node.proposeCh < (s.node.after (Consensus.countVote params env vote)).proposeCh
    · simp only [if_neg dead, if_pos token]
      rcases after_of_wp wp_countVote (Bool.eq_true_of_not_eq_false dead) with same | ⟨ended, status, added, -⟩
      · exact absurd same token.ne'
      · -- the round was open, so the pacemaker has done with its last token
        obtain ⟨⟨proposal, opened, -⟩, -⟩ := Status.addVote_eq_ok added
        have round_open : ¬ (s.pacemaker ≠ .waiting ∨ s.starting = true ∨ s.votes = .sending) := fun busy =>
          absurd (opened.symm.trans (orderly.round_ended alive busy)) nofun
        simp only [not_or, not_not, Bool.not_eq_true] at round_open
        obtain ⟨waiting, started, -⟩ := round_open
        exact { orderly with
          votes_hold := nofun
          votes_send := fun _ => ⟨held, waiting, started⟩
          round_ended := fun _ _ => ended }
    · simp only [if_neg dead, if_neg token]
      have left := @Orderly.setVotes _ after .waiting nofun nofun
      exact left.unlock held nofun (fun _ => ⟨nofun, nofun⟩) nofun

theorem Orderly.propose (orderly : Orderly s) (inside : s.pacemaker = .inside)
    (two : 2 ≤ s.node.roleStore.validatorCount) :
    Orderly (s.underLock (newProposal params env) (fun node => { s with node := node, pacemaker := .sending })
      fun node => { s with node := node, pacemaker := .waiting }) := by
  have works : s.pacemaker ≠ .waiting := by
    rw [inside]
    exact nofun
  obtain ⟨started, quiet, -⟩ := orderly.working works
  rcases underLock_quiet _ _ (wp_newProposal_quiet (two_le_majority two)) with ⟨dead, same⟩ | same
  · rw [same]
    exact orderly.setNode fun alive _ => absurd (dead.symm.trans alive) Bool.false_ne_true
  · rw [same]
    have waits : Orderly { s with pacemaker := .waiting } :=
      orderly.setPacemaker nofun nofun started quiet fun _ works => absurd rfl works
    have left : Orderly { s with pacemaker := .waiting, mtxUpdate := none } :=
      waits.unlock (orderly.pacemaker_holds inside) (fun _ => nofun) nofun nofun
    refine left.setNode fun _ busy => ?_
    rcases busy with works | starting | sending
    · exact absurd rfl works
    · exact absurd (started.symm.trans starting) Bool.false_ne_true
    · exact absurd sending quiet

theorem Orderly.newView (orderly : Orderly s) (inside : s.newViews = .insideProposal)
    (two : 2 ≤ s.node.roleStore.validatorCount) (waiting : s.pacemaker = .waiting) :
    Orderly (s.underLock (newViewProposal params env) (fun node => { s with node := node, newViews := .sending })
      fun node => { s with node := node, newViews := .waiting }) := by
  have held := orderly.newView_holds inside
  rcases underLock_quiet _ _ (wp_newViewProposal_quiet (two_le_majority two)) with ⟨dead, same⟩ | same
  · rw [same]
    exact orderly.setNode fun alive _ => absurd (dead.symm.trans alive) Bool.false_ne_true
  · rw [same]
    have left := @Orderly.setNewViews _ orderly .waiting (fun _ => rfl) nofun nofun nofun
    have free : Orderly { s with newViews := .waiting, mtxUpdate := none } :=
      left.unlock held nofun nofun fun _ => ⟨nofun, nofun⟩
    refine free.setNode fun _ busy => ?_
    rcases busy with works | starting | sending
    · exact absurd waiting works
    · exact absurd (inside.symm.trans (orderly.start_first starting).2) nofun
    · exact absurd ((orderly.votes_send sending).1.symm.trans held) nofun

theorem Orderly.other (orderly : Orderly s) (alive : s.node.alive = true) {input : Input}
    (moved : s.move params env (.other input) = some s') : Orderly s' := by
  have stable := (noProposal_stable params).approval
  have receives (kept : Kept (fun node => node.status.proposal = none) (handle params env input)) :
      Orderly { s with node := s.node.receive params env input } := by
    rw [receive_eq_after]
    exact orderly.after alive kept
  cases input with
  | propose => cases moved
  | vote vote => cases moved
  | qc sender change qc => cases moved
  | proposal blk =>
      obtain ⟨-, moved⟩ := Option.ite_none_right_eq_some.mp moved
      cases moved
      exact receives (stable.onReceiveProposal blk)
  | leaderTimeout =>
      obtain ⟨-, moved⟩ := Option.ite_none_right_eq_some.mp moved
      cases moved
      exact receives stable.onLeaderTimeout
  | viewTimeout =>
      obtain ⟨-, moved⟩ := Option.ite_none_right_eq_some.mp moved
      cases moved
      exact receives stable.onViewTimeout
  | submitTx tx =>
      cases moved
      exact receives (.bind .get fun _ => stable.onTxPool _)
  | receiveTx tx =>
      cases moved
      exact receives (.bind .get fun _ => stable.onTxPool _)

/-- The lock keeps its holders apart, and a round is opened only when the pacemaker is done with its last token. -/
theorem Orderly.step (orderly : Orderly s) (alive : s.node.alive = true) {move : Move} (spaced : Spaced s move)
    (moved : s.move params env move = some s') : Orderly s' := by
  cases move with
  | receiveStart =>
      obtain ⟨⟨-, starting⟩, moved⟩ := Option.ite_none_right_eq_some.mp moved
      cases moved
      exact orderly.receiveStart starting
  | receiveFromVotes =>
      obtain ⟨⟨-, sending⟩, moved⟩ := Option.ite_none_right_eq_some.mp moved
      cases moved
      exact orderly.receiveFromVotes sending
  | receiveFromNewViews =>
      obtain ⟨⟨-, sending⟩, -⟩ := Option.ite_none_right_eq_some.mp moved
      exact absurd sending orderly.newViews_send
  | endDelay =>
      obtain ⟨delaying, moved⟩ := Option.ite_none_right_eq_some.mp moved
      cases moved
      exact orderly.goOn (by rw [delaying]; exact nofun) nofun nofun
  | lockProposal =>
      obtain ⟨⟨locking, free⟩, moved⟩ := Option.ite_none_right_eq_some.mp moved
      cases moved
      exact (orderly.lock free .pacemaker).goOn (by rw [locking]; exact nofun) (fun _ => rfl) nofun
  | propose =>
      obtain ⟨inside, moved⟩ := Option.ite_none_right_eq_some.mp moved
      cases moved
      exact orderly.propose inside spaced
  | takeVote vote =>
      obtain ⟨-, moved⟩ := Option.ite_none_right_eq_some.mp moved
      cases moved
      have after := orderly.after alive ((noProposal_stable params).calls.onRoleStore (vote.validate params.crypto))
      refine after.setVotes (fun other inside => ?_) ?_
      · split at inside <;> cases inside
      · split <;> exact nofun
  | lockVote =>
      simp only [Goroutines.move] at moved
      split at moved
      · next free =>
        cases moved
        exact (orderly.lock free .voteLoop).setVotes (fun _ _ => rfl) nofun
      · cases moved
  | countVote =>
      simp only [Goroutines.move] at moved
      split at moved
      · next inside =>
        cases moved
        exact orderly.countVote alive inside
      · cases moved
  | takeQC sender change qc =>
      obtain ⟨⟨-, started⟩, moved⟩ := Option.ite_none_right_eq_some.mp moved
      cases moved
      have after : Orderly { s with node := s.node.after (prepareQC params env qc) } :=
        orderly.after alive (kept_prepareQC qc)
      refine after.setNewViews (fun starting => absurd (started.symm.trans starting) Bool.false_ne_true)
        (fun _ _ _ inside => ?_) (fun inside => ?_) ?_
      · split at inside <;> cases inside
      · split at inside <;> cases inside
      · split <;> exact nofun
  | lockQC =>
      simp only [Goroutines.move] at moved
      split at moved
      · next locking free =>
        cases moved
        exact (orderly.lock free .newViewLoop).setNewViews
          (orderly.started_of_newViews (by rw [locking]; exact nofun)) (fun _ _ _ _ => rfl) nofun nofun
      · cases moved
  | updateQC =>
      simp only [Goroutines.move] at moved
      split at moved
      · next sender change qc inside =>
        cases moved
        have after : Orderly { s with node := s.node.after (updateQCHigh params env (some qc)) } :=
          orderly.after alive ((noProposal_stable params).calls.updateQCHigh _)
        have counts := @Orderly.setNewViews _ after (.counting sender change)
          (orderly.started_of_newViews (by rw [inside]; exact nofun)) nofun nofun nofun
        exact counts.unlock (orderly.newViews_hold _ _ _ inside) nofun nofun fun _ => ⟨nofun, nofun⟩
      · cases moved
  | tallyQC =>
      simp only [Goroutines.move] at moved
      split at moved
      · next sender change counting =>
        cases moved
        have after := orderly.after alive (kept_tallyQC params sender change)
        refine after.setNewViews (orderly.started_of_newViews (by rw [counting]; exact nofun))
          (fun _ _ _ inside => ?_) (fun inside => ?_) ?_
        · split at inside <;> cases inside
        · split at inside <;> cases inside
        · split <;> exact nofun
      · cases moved
  | lockNewView =>
      obtain ⟨⟨locking, free⟩, moved⟩ := Option.ite_none_right_eq_some.mp moved
      cases moved
      exact (orderly.lock free .newViewLoop).setNewViews
        (orderly.started_of_newViews (by rw [locking]; exact nofun)) nofun (fun _ => rfl) nofun
  | newView =>
      obtain ⟨inside, moved⟩ := Option.ite_none_right_eq_some.mp moved
      cases moved
      exact orderly.newView inside spaced.1 spaced.2
  | other input => exact orderly.other alive moved

end Goroutines

/-! ## Deadlocks -/

section

variable {params : Params}

/-- A node that `Consensus.start` has set up, after the genesis block or from its storage. -/
def SetUp (params : Params) (start : Node) : Prop :=
  ∃ signer roleStore storage pool exec leaf qc,
    Program.when (params.config.twoPhaseBFTFlag = false) (setupWindow params qc)
      (setupNode params signer roleStore storage pool exec leaf qc) = (.ok (), start)

theorem Started.setUp {signer : Signer} {roleStore : RoleStore} {b0 : Block} {start : Node}
    (started : Started params signer roleStore b0 start) : SetUp params start := by
  obtain ⟨q0, txs, merkleRoot, pool, -, setup⟩ := started
  exact ⟨signer, roleStore, genesisStore b0 q0 txs merkleRoot, pool, b0, b0, q0, setup⟩

theorem SetUp.proposal_eq {start : Node} (set_up : SetUp params start) : start.status.proposal = none := by
  obtain ⟨signer, roleStore, storage, pool, exec, leaf, qc, setup⟩ := set_up
  have runs : Runs (NodeStep params openInbox)
      (Program.when (params.config.twoPhaseBFTFlag = false) (setupWindow params qc)) (fun _ node' => SetsUp _ node')
      (setupNode params signer roleStore storage pool exec leaf qc) :=
    Runs.when (fun _ => runs_setupWindow qc) fun _ => ⟨_, _, .refl _, rfl⟩
  unfold Runs wp at runs
  rw [setup] at runs
  obtain ⟨-, mid, window, loads, rfl⟩ := runs
  rfl

theorem SetUp.orderly {start : Node} (set_up : SetUp params start) : Goroutines.Orderly (Goroutines.start params start) where
  pacemaker_holds := nofun
  votes_hold := nofun
  votes_send := nofun
  newViews_hold := nofun
  newView_holds := nofun
  pacemaker_sends := nofun
  newViews_send := nofun
  start_first _ := ⟨rfl, rfl⟩
  round_ended _ _ := set_up.proposal_eq

theorem Interleaving.orderly {start : Node} (set_up : SetUp params start) {s : Goroutines}
    (run : Interleaving params Spaced (Goroutines.start params start) s) : s.Orderly := by
  induction run with
  | start => exact set_up.orderly
  | step run alive spaced moved orderly => exact orderly.step alive spaced moved

/-- With two validators, and with proposals for new views only while the pacemaker waits for a token, the pacemaker
and the senders of tokens never wait for each other. -/
theorem spaced_not_deadlocked {start : Node} (set_up : SetUp params start) {s : Goroutines}
    (run : Interleaving params Spaced (Goroutines.start params start) s) : ¬ s.Deadlocked :=
  (Interleaving.orderly set_up run).not_deadlocked

end

/-- The first validator proposes, counts the vote of the second one and takes the token of the certificate. -/
def roundMoves : List Move :=
  [.receiveStart, .endDelay, .lockProposal, .propose, .takeVote (firstChild.vote (transparentSigner 2) 1), .lockVote,
    .countVote, .receiveFromVotes, .endDelay]

theorem spaced_not_deadlocked_roundMoves :
    ∃ s, Interleaving stakeParams Spaced (Goroutines.start stakeParams (stakeNode 1)) s ∧
      s.node.status.qcHigh.blockHash = firstChild.hash ∧ s.pacemaker = .locking ∧ ¬ s.Deadlocked := by
  have played : (((Goroutines.start stakeParams (stakeNode 1)).play stakeParams silentEnv Spaced roundMoves).any
      fun s => decide (s.node.status.qcHigh.blockHash = firstChild.hash ∧ s.pacemaker = .locking)) = true := by
    decide +kernel
  obtain ⟨s, run, certified, locking⟩ := Goroutines.exists_interleaving played
  exact ⟨s, run, certified, locking, spaced_not_deadlocked (stakeNode_started 1 (Or.inl rfl)).setUp run⟩

/-- The second validator leads the next view and proposes while its pacemaker waits for transactions. -/
def newViewMoves : List Move :=
  [.receiveStart, .other .viewTimeout, .takeQC (transparentSigner 1).pubKey 1 (bothVotes (transparentBlock [])),
    .lockQC, .updateQC, .tallyQC, .lockNewView, .newView]

/-- The block of the new view. -/
def newViewBlock : Block :=
  (((Goroutines.start stakeParams (stakeNode 2)).play stakeParams silentEnv anyMove newViewMoves).map
    fun s => s.node.status.bLeaf).getD (transparentBlock [])

def oneValidator : RoleStore := RoleStore.ofGenesis [(transparentSigner 1).pubKey] [1] 1

def soleVote : QuorumCert :=
  QuorumCert.build (transparentSigner 1) [(transparentBlock []).vote (transparentSigner 1) 1]

/-- The only validator after the genesis block. -/
def soleNode : Node :=
  Program.final (setupWindow stakeParams soleVote)
    (setupNode stakeParams (transparentSigner 1) oneValidator (genesisStore (transparentBlock []) soleVote [] [])
      newTxStore (transparentBlock []) (transparentBlock []) soleVote)

theorem soleNode_started : Started stakeParams (transparentSigner 1) oneValidator (transparentBlock []) soleNode := by
  refine ⟨soleVote, [], [], newTxStore, ⟨rfl, rfl, rfl, by decide, rfl, rfl, rfl, by decide⟩, Prod.ext ?_ rfl⟩
  decide +kernel

/-- The other vote for a proposal of a new view completes the certificate while the pacemaker comes to the lock, and
the vote of an only validator completes it in the pacemaker itself. -/
theorem newView_and_sole_validator_deadlocked :
    (Started stakeParams (transparentSigner 2) stakeValidators (transparentBlock []) (stakeNode 2) ∧
      ∃ s, Interleaving stakeParams anyMove (Goroutines.start stakeParams (stakeNode 2)) s ∧ s.Deadlocked) ∧
    (Started stakeParams (transparentSigner 1) oneValidator (transparentBlock []) soleNode ∧
      ∃ s, Interleaving stakeParams anyMove (Goroutines.start stakeParams soleNode) s ∧ s.Deadlocked) := by
  have voted : (((Goroutines.start stakeParams (stakeNode 2)).play stakeParams silentEnv anyMove
      (newViewMoves ++ [.takeVote (newViewBlock.vote (transparentSigner 1) 1), .lockVote, .countVote, .endDelay])).any
        fun s => decide s.Deadlocked) = true := by decide +kernel
  have proposed : (((Goroutines.start stakeParams soleNode).play stakeParams silentEnv anyMove
      [.receiveStart, .endDelay, .lockProposal, .propose]).any fun s => decide s.Deadlocked) = true := by
    decide +kernel
  exact ⟨⟨stakeNode_started 2 (Or.inr rfl), Goroutines.exists_interleaving voted⟩,
    soleNode_started, Goroutines.exists_interleaving proposed⟩

end SvpChain.Consensus
