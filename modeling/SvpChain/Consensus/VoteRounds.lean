import SvpChain.Consensus.Quorum
import SvpChain.Consensus.Leader
import SvpChain.Consensus.Proposals
import SvpChain.Core.Assembly

/-!
# Rounds of votes

A proposer collects votes in `status.votes` from `startProposal` to `endProposal`.  `validator.onReceiveVote`
lets only votes of validators with valid signatures through, `status.addVote` only the first vote of
each voter for the block and the view in progress.  The votes are therefore a poll on the proposal, and
the certificate that `driver.onReceiveVote` builds from a majority of them is one of that poll.
-/

namespace SvpChain.Consensus

open Core TxPool Program History

variable {params : Params} {node node' start : Node} {env : Env} {store : RoleStore} {blk : Block}
  {qc : QuorumCert} {vote : Vote} {during : List Event}

/-! ## Runs with decoded votes -/

/-- Votes reach a node through `Unmarshal`. -/
def Input.Decoded : Input → Prop
  | .vote vote => vote.Decoded
  | _ => True

/-- The runs of a node from any state, as long as the validator set is unchanged. -/
inductive RoundRun (params : Params) (start : Node) : Node → Prop where
  | start : RoundRun params start start
  | step {node : Node} (run : RoundRun params start node) (alive : node.alive = true) {env : Env}
      (fixed : fixedRoles env) {input : Input} (decoded : input.Decoded) :
      RoundRun params start (node.receive params env input)

/-- The block that was proposed last. -/
def currentProposal (first : Option Block) : List Event → Option Block
  | [] => first
  | .proposed blk :: _ => some blk
  | _ :: earlier => currentProposal first earlier

theorem currentProposal_cons {first : Option Block} {event : Event} (other : ∀ blk, event ≠ .proposed blk) :
    currentProposal first (event :: during) = currentProposal first during := by
  cases event with
  | proposed blk => exact absurd rfl (other blk)
  | _ => rfl

/-! ## Steps -/

/-- What reaches a node under a fixed role store. -/
def roundInbox (crypto : Crypto) (store : RoleStore) : Inbox :=
  { openInbox with
    Vote := fun vote => vote.Valid crypto store
    Roles := fun store store' => store' = store }

theorem closed_roundInbox {crypto : Crypto} (node : Node) : Closed (roundInbox crypto store) node :=
  ⟨fun _ _ => trivial, fun _ _ => Or.inl trivial, fun _ _ => Or.inl trivial, Or.inl trivial,
    (closed_openInbox node).high⟩

theorem Vote.Valid.of_sameRoles {crypto : Crypto} {store' : RoleStore} (roles : SameRoles store store')
    (valid : vote.Valid crypto store') : vote.Valid crypto store := by
  obtain ⟨graceHeight, rfl⟩ := roles
  exact ⟨valid.decoded, valid.validator, valid.signed⟩

theorem Steps.sameRoles {inbox : Inbox} (fixed : ∀ store store', inbox.Roles store store' → store' = store)
    (steps : Steps params inbox node node') (roles : SameRoles store node.roleStore) :
    SameRoles store node'.roleStore := by
  induction steps with
  | refl => exact roles
  | tail _ step ih => exact step.sameRoles fixed ih

theorem NodeStep.starts_round {inbox : Inbox} (step : NodeStep params inbox node node')
    (proposed : node'.trace = .proposed blk :: node.trace) :
    node'.status.proposal = some blk ∧ node'.status.votes = [] := by
  have grown : node'.trace ≠ node.trace := by
    rw [proposed]
    exact List.cons_ne_self _ _
  cases step with
  | chain step =>
      cases step with
      | load loads =>
          obtain ⟨_, rfl, -⟩ := loads
          exact absurd rfl grown
      | receive | answer | commit | execute => cases proposed
      | _ => exact absurd rfl grown
  | propose =>
      obtain ⟨same, -⟩ := List.cons.inj proposed
      rw [Event.proposed.inj same.symm]
      exact ⟨rfl, rfl⟩
  | addVote added =>
      obtain ⟨-, -, rfl⟩ := Status.addVote_eq_ok added
      exact absurd rfl grown
  | approve | adopt | certify | build | broadcast | sendVote | beginViewChange | countQC | newView
  | validate | receiveQC | sendQC | enterNextView => cases proposed
  | _ => exact absurd rfl grown

/-- What a built certificate is: one of the poll on the block proposed last. -/
def CertifiesPoll (crypto : Crypto) (start : Node) (during : List Event) : Event → Prop
  | .builtQC qc tally => ∃ proposal, currentProposal start.status.proposal during = some proposal ∧
      qc.OfPoll crypto start.roleStore proposal tally.votes
  | _ => True

/-- The votes at hand are a poll on the block proposed last. -/
structure RoundInv (crypto : Crypto) (start : Node) (during : List Event) (node : Node) : Prop where
  trace_eq : node.trace = during ++ start.trace
  signer_eq : node.signer = start.signer
  roles : SameRoles start.roleStore node.roleStore
  current : ∀ proposal, node.status.proposal = some proposal →
    currentProposal start.status.proposal during = some proposal ∧
      Poll crypto start.roleStore proposal node.status.votes
  rule : Throughout (CertifiesPoll crypto start) during

section

variable (correct : start.signer.Correct params.crypto)
  (validator : start.roleStore.isValidator start.signer.pubKey = true)
include correct validator

/-- The votes stay a poll on the proposal in progress, if the step starts no round. -/
theorem RoundInv.poll_step (inv : RoundInv params.crypto start during node)
    (step : NodeStep params (roundInbox params.crypto start.roleStore) node node')
    (no_round : ∀ blk, node'.trace ≠ .proposed blk :: node.trace) {proposal : Block}
    (in_progress : node'.status.proposal = some proposal) :
    currentProposal start.status.proposal during = some proposal ∧
      Poll params.crypto start.roleStore proposal node'.status.votes := by
  rcases step.progress with ended | ⟨same, same_votes⟩ | ⟨_, other, recorded, -⟩ |
    ⟨vote, same, added, ⟨other, is_other, hash_eq, view_eq⟩, fresh, source⟩
  · rw [ended] at in_progress
    cases in_progress
  · rw [same_votes]
    exact inv.current proposal (same ▸ in_progress)
  · exact absurd recorded (no_round other)
  · rw [same] at in_progress
    obtain rfl := Option.some.inj (is_other.symm.trans in_progress)
    obtain ⟨is_current, poll⟩ := inv.current other in_progress
    have valid : vote.Valid params.crypto start.roleStore := by
      rcases source with received | ⟨blk, quota, -, rfl⟩
      · exact received
      · rw [inv.signer_eq]
        exact valid_vote correct validator quota
    rw [added]
    exact ⟨is_current, poll.append valid hash_eq.symm view_eq.symm fresh⟩

theorem RoundInv.built (inv : RoundInv params.crypto start during node) (built : Built node qc) :
    ∃ proposal, currentProposal start.status.proposal during = some proposal ∧
      qc.OfPoll params.crypto start.roleStore proposal node.status.votes := by
  obtain ⟨proposal, votes, in_progress, enough, order, rfl⟩ := built
  obtain ⟨is_current, poll⟩ := inv.current proposal in_progress
  have majority_eq : node.roleStore.majorityValidatorCount = start.roleStore.majorityValidatorCount := by
    obtain ⟨graceHeight, roles_eq⟩ := inv.roles
    rw [roles_eq]
    rfl
  rw [majority_eq] at enough
  rw [inv.signer_eq]
  exact ⟨proposal, is_current, QuorumCert.ofPoll_build poll order enough correct validator⟩

theorem RoundInv.step (inv : RoundInv params.crypto start during node)
    (step : NodeStep params (roundInbox params.crypto start.roleStore) node node') :
    ∃ during', RoundInv params.crypto start during' node' := by
  have signer_eq := step.signer_eq.trans inv.signer_eq
  have roles := step.sameRoles (fun _ _ same => same) inv.roles
  rcases step.records with same | ⟨event, recorded, cause⟩
  · refine ⟨during, same.trans inv.trace_eq, signer_eq, roles, fun proposal in_progress => ?_, inv.rule⟩
    refine inv.poll_step correct validator step (fun blk proposed => ?_) in_progress
    exact List.cons_ne_self _ _ (proposed.symm.trans same)
  have trace_eq : node'.trace = (event :: during) ++ start.trace := by rw [recorded, inv.trace_eq]; rfl
  refine ⟨event :: during, trace_eq, signer_eq, roles, fun proposal in_progress => ?_,
    throughout_cons.mpr ⟨?_, inv.rule⟩⟩
  · by_cases round : ∃ blk, event = .proposed blk
    · obtain ⟨blk, rfl⟩ := round
      obtain ⟨is_blk, no_votes⟩ := step.starts_round recorded
      rw [no_votes, Option.some.inj (in_progress.symm.trans is_blk)]
      exact ⟨rfl, .nil⟩
    · rw [currentProposal_cons fun blk is_proposed => round ⟨blk, is_proposed⟩]
      refine inv.poll_step correct validator step (fun blk proposed => round ⟨blk, ?_⟩) in_progress
      exact (List.cons.inj (recorded.symm.trans proposed)).1
  · cases event with
    | builtQC qc tally =>
        obtain ⟨built, -, rfl⟩ := cause
        exact inv.built correct validator built
    | _ => trivial

theorem RoundInv.steps (inv : RoundInv params.crypto start during node)
    (steps : Steps params (roundInbox params.crypto start.roleStore) node node') :
    ∃ during', RoundInv params.crypto start during' node' := by
  induction steps with
  | refl => exact ⟨during, inv⟩
  | tail _ step ih =>
      obtain ⟨_, inv⟩ := ih
      exact inv.step correct validator step

end

/-! ## Runs -/

theorem receive_vote_of_not_valid (decoded : vote.Decoded) (not_valid : ¬ vote.Valid params.crypto node.roleStore) :
    node.receive params env (.vote vote) = node := by
  have refused : wp (handle params env (.vote vote)) (fun _ _ => False)
      (fun halt node' => node' = node ∧ ∃ reason, halt = .error reason) node := by
    refine (wp_bind _ _).mpr (wp_zoom.mpr (wp_mono (wp_validateVote decoded) ?_ ?_))
    · rintro _ store ⟨rfl, valid⟩
      exact absurd valid not_valid
    · rintro _ store ⟨rfl, reason, rfl⟩
      exact ⟨rfl, _, rfl⟩
  rcases ending_of_wp refused with ⟨_, _, never⟩ | ⟨_, ending, unchanged, reason, rfl⟩
  · exact never.elim
  · have whole : handle params env (.vote vote) node = (.error (.error reason), node) :=
      Prod.ext ending unchanged
    rw [Node.receive, whole]

theorem RoundRun.steps (run : RoundRun params start node) : SameRoles start.roleStore node.roleStore ∧
      Steps params (roundInbox params.crypto start.roleStore) start node := by
  induction run with
  | start => exact ⟨⟨_, rfl⟩, .refl⟩
  | @step node run alive env fixed input decoded ih =>
      obtain ⟨roles, steps⟩ := ih
      have answers : Answers params env (roundInbox params.crypto start.roleStore) :=
        ⟨fun _ _ _ _ _ _ => trivial, fun _ _ _ _ _ _ => ⟨trivial, trivial⟩, fixed⟩
      have later : Steps params (roundInbox params.crypto start.roleStore) node
          (node.receive params env input) := by
        by_cases refused : ∃ vote, input = .vote vote ∧ ¬ vote.Valid params.crypto node.roleStore
        · obtain ⟨vote, rfl, not_valid⟩ := refused
          rw [receive_vote_of_not_valid decoded not_valid]
        · refine steps_receive answers (closed_roundInbox node) ?_
          cases input with
          | propose | proposal | qc => exact fun _ => trivial
          | vote vote =>
              have valid : vote.Valid params.crypto node.roleStore := by
                by_contra not_valid
                exact refused ⟨vote, rfl, not_valid⟩
              exact fun _ => Vote.Valid.of_sameRoles roles valid
          | _ => trivial
      exact ⟨Steps.sameRoles (fun _ _ same => same) later roles, steps.trans later⟩

/-- From any state without votes, under any role store that stays unchanged, a leader who is a validator
builds certificates of the polls on its proposals only. -/
theorem builtQC_ofPoll (no_votes : start.status.votes = [])
    (correct : start.signer.Correct params.crypto)
    (validator : start.roleStore.isValidator start.signer.pubKey = true)
    (run : RoundRun params start node) :
    ∃ during, node.trace = during ++ start.trace ∧
      Throughout (CertifiesPoll params.crypto start) during := by
  have initial : RoundInv params.crypto start [] start := by
    refine ⟨rfl, rfl, ⟨_, rfl⟩, fun proposal in_progress => ⟨in_progress, ?_⟩, throughout_nil⟩
    rw [no_votes]
    exact .nil
  obtain ⟨during, inv⟩ := initial.steps correct validator run.steps.2
  exact ⟨during, inv.trace_eq, inv.rule⟩

theorem RoundRun.receiveAll (run : RoundRun params start node) (fixed : fixedRoles env)
    (inputs : List Input) (decoded : ∀ input ∈ inputs, input.Decoded)
    (alive : (node.receiveAll params env inputs).alive = true) :
    RoundRun params start (node.receiveAll params env inputs) :=
  receiveAll_induction inputs (fun _ run alive input mem => run.step alive fixed (decoded input mem)) run alive

/-! ## A round of two validators -/

theorem certifiedLeader_roundRun : RoundRun transparentParams secondValidator certifiedLeader := by
  have fixed : fixedRoles silentEnv := fun _ _ _ _ => rfl
  have leads : RoundRun transparentParams secondValidator newLeader :=
    .receiveAll .start fixed _ (by simp [Input.Decoded]) (by decide +kernel)
  refine leads.receiveAll fixed _ ?_ (by decide +kernel)
  rintro input mem
  obtain rfl := List.mem_singleton.mp mem
  rfl

/-- The votes on the proposal in view 1. -/
def newLeaderTally : Tally :=
  ⟨[newLeaderBlk.vote (transparentSigner 2) 1, newLeaderBlk.vote (transparentSigner 1) 1], twoValidators,
    secondValidator.status.window⟩

/-- The certificate of these votes. -/
theorem builtQC_ofPoll_certifiedLeader :
    .builtQC certifiedLeader.status.qcHigh newLeaderTally ∈ certifiedLeader.trace ∧
    ∃ during, certifiedLeader.trace = during ++ secondValidator.trace ∧
      Throughout (CertifiesPoll transparentParams.crypto secondValidator) during := by
  refine ⟨by decide +kernel, ?_⟩
  refine builtQC_ofPoll rfl (fun message => ?_) (by decide) certifiedLeader_roundRun
  exact beq_self_eq_true _

end SvpChain.Consensus
