import SvpChain.Consensus.Votes

/-!
# Whose proposals a node votes for

A node votes for the proposals of its present leader.  Two handlers set the leader: the rotation, which
enters the next view under the validator that follows, and `approveViewLeader`, which takes the view
and the proposer of any received proposal of a view that is not lower.
-/

namespace SvpChain.Consensus

open Core TxPool

variable {params : Params} {inbox : Inbox} {node node' : Node} {roleStore : RoleStore} {b0 : Block}

/-! ## The record of leaders -/

/-- The view and the leader that were set last; a node starts in view 0 under validator 0. -/
def currentLeader : List Event → UInt32 × UInt32
  | [] => (0, 0)
  | .approve view leader :: _ => (view, leader)
  | .enterView view leader :: _ => (view, leader)
  | _ :: earlier => currentLeader earlier

/-- What holds of a call, given the calls before it. -/
def FollowsLeader (roleStore : RoleStore) (b0 : Block) (earlier : List Event) : Event → Prop
  | .enterView view leader => view = (currentLeader earlier).1 + 1 ∧
      leader = view % UInt32.ofNat roleStore.validatorCount
  | .approve view leader => (currentLeader earlier).1 ≤ view ∧
      ∃ blk, (blk = b0 ∨ .received blk ∈ earlier ∨ .proposed blk ∈ earlier) ∧ blk.view = view ∧
        leader = UInt32.ofNat (roleStore.getValidatorIndex blk.proposer)
  | .sendVote blk _ => roleStore.isValidator blk.proposer = true ∧
      currentLeader earlier = (blk.view, UInt32.ofNat (roleStore.getValidatorIndex blk.proposer))
  | _ => True

/-- Every call of a record follows the leader set before it. -/
def LeaderRules (roleStore : RoleStore) (b0 : Block) : List Event → Prop
  | [] => True
  | event :: earlier => FollowsLeader roleStore b0 earlier event ∧ LeaderRules roleStore b0 earlier

/-- A call that does not set the leader leaves it as it is. -/
def Event.setsLeader : Event → Bool
  | .approve _ _ | .enterView _ _ => true
  | _ => false

theorem currentLeader_cons {event : Event} (other : event.setsLeader = false) (earlier : List Event) :
    currentLeader (event :: earlier) = currentLeader earlier := by
  cases event with
  | approve | enterView => cases other
  | _ => rfl

/-! ## Steps -/

/-- The validator set is fixed and the genesis block is known. -/
def fixedInbox (b0 : Block) : Inbox :=
  { openInbox with Root := fun blk => blk = b0, Roles := fun store store' => store' = store }

/-- The record gives the present view and leader. -/
structure LeaderInv (roleStore : RoleStore) (b0 : Block) (node : Node) : Prop where
  roles : SameRoles roleStore node.roleStore
  current : currentLeader node.trace = (node.status.view, node.status.leaderIndex)
  rules : LeaderRules roleStore b0 node.trace

theorem NodeStep.leader (step : NodeStep params inbox node node') :
    (node'.status.view = node.status.view ∧ node'.status.leaderIndex = node.status.leaderIndex ∧
      (node'.trace = node.trace ∨ ∃ event, event.setsLeader = false ∧ node'.trace = event :: node.trace)) ∨
    ∃ event, event.setsLeader = true ∧ node'.trace = event :: node.trace ∧
      currentLeader (event :: node.trace) = (node'.status.view, node'.status.leaderIndex) := by
  cases step with
  | chain step =>
      cases step with
      | load loads =>
          obtain ⟨_, rfl, -⟩ := loads
          exact Or.inl ⟨rfl, rfl, Or.inl rfl⟩
      | receive | answer | commit | execute => exact Or.inl ⟨rfl, rfl, Or.inr ⟨_, rfl, rfl⟩⟩
      | _ => exact Or.inl ⟨rfl, rfl, Or.inl rfl⟩
  | approve => exact Or.inr ⟨_, rfl, rfl, rfl⟩
  | enterNextView => exact Or.inr ⟨_, rfl, rfl, rfl⟩
  | addVote added _ =>
      obtain ⟨-, -, rfl⟩ := Status.addVote_eq_ok added
      exact Or.inl ⟨rfl, rfl, Or.inl rfl⟩
  | adopt | certify | build | propose | broadcast | sendVote | beginViewChange | countQC | newView
  | validate | receiveQC | sendQC =>
      exact Or.inl ⟨rfl, rfl, Or.inr ⟨_, rfl, rfl⟩⟩
  | _ => exact Or.inl ⟨rfl, rfl, Or.inl rfl⟩

/-- With a fixed validator set the role store changes in the grace height alone. -/
theorem NodeStep.sameRoles (fixed : ∀ store store', inbox.Roles store store' → store' = store)
    (step : NodeStep params inbox node node') (roles : SameRoles roleStore node.roleStore) :
    SameRoles roleStore node'.roleStore := by
  obtain ⟨graceHeight, roles_eq⟩ := roles
  cases step with
  | chain step =>
      cases step with
      | load loads =>
          obtain ⟨_, rfl, -⟩ := loads
          exact ⟨graceHeight, roles_eq⟩
      | grace height => exact ⟨height, by rw [roles_eq]⟩
      | execute store _ _ _ _ changed => exact ⟨graceHeight, (fixed _ _ changed).trans roles_eq⟩
      | _ => exact ⟨graceHeight, roles_eq⟩
  | _ => exact ⟨graceHeight, roles_eq⟩

theorem LeaderInv.follows (closed : Closed (fixedInbox b0) node) (inv : LeaderInv roleStore b0 node)
    {event : Event} (cause : Cause params (fixedInbox b0) node event) :
    FollowsLeader roleStore b0 node.trace event := by
  obtain ⟨graceHeight, roles_eq⟩ := inv.roles
  cases event with
  | enterView view leader =>
      obtain ⟨view_eq, next_eq⟩ := cause
      refine ⟨by rw [inv.current, view_eq], ?_⟩
      rw [nextLeaderIndex, roles_eq] at next_eq
      split at next_eq
      · cases next_eq
      · rw [view_eq]
        exact (Except.ok.inj next_eq).symm
  | approve view leader =>
      obtain ⟨blk, mem, view_eq, leader_eq, approval⟩ := cause
      refine ⟨?_, blk, closed.blocks blk mem, view_eq.symm, ?_⟩
      · rw [inv.current]
        exact isNewViewApproval_le approval
      · rw [leader_eq, Node.proposerIndex, roles_eq]
        rfl
  | sendVote blk vote =>
      obtain ⟨qc, quota, guard, -⟩ := cause
      have leader := guard.leader
      rw [isLeader, roles_eq, Bool.and_eq_true, beq_iff_eq] at leader
      refine ⟨leader.1, ?_⟩
      rw [inv.current, guard.view_eq, leader.2]
      rfl
  | _ => trivial

theorem LeaderInv.step (closed : Closed (fixedInbox b0) node) (inv : LeaderInv roleStore b0 node)
    (step : NodeStep params (fixedInbox b0) node node') : LeaderInv roleStore b0 node' where
  roles := step.sameRoles (fun _ _ same => same) inv.roles
  current := by
    rcases step.leader with ⟨view_eq, leader_eq, same | ⟨event, other, trace_eq⟩⟩ |
      ⟨event, -, trace_eq, current⟩
    · rw [same, view_eq, leader_eq, inv.current]
    · rw [trace_eq, currentLeader_cons other, view_eq, leader_eq, inv.current]
    · rw [trace_eq, current]
  rules := by
    rcases step.records with same | ⟨event, trace_eq, cause⟩
    · rw [same]
      exact inv.rules
    · rw [trace_eq]
      exact ⟨inv.follows closed cause, inv.rules⟩

theorem LeaderInv.steps (closed : Closed (fixedInbox b0) node) (inv : LeaderInv roleStore b0 node)
    (steps : Steps params (fixedInbox b0) node node') : LeaderInv roleStore b0 node' := by
  induction steps with
  | refl => exact inv
  | tail before step ih => exact ih.step (closed.steps before) step

/-! ## Runs -/

/-- In every run with a fixed validator set, votes go to the leader set last.  It is the validator that
follows when a rotation enters a view, and otherwise the proposer of a received block of a view that is
not lower. -/
theorem votes_follow_leader {signer : Signer} {start : Node}
    (started : Started params signer roleStore b0 start) (run : NodeRun params fixedRoles start node) :
    LeaderRules roleStore b0 node.trace := by
  obtain ⟨q0, txs, merkleRoot, pool, genesis, setup_steps, -⟩ := started.steps (fixedInbox b0)
  have closed : Closed (fixedInbox b0)
      (setupNode params signer roleStore (genesisStore b0 q0 txs merkleRoot) pool b0 b0 q0) :=
    closed_setupNode rfl genesis
  have initial : LeaderInv roleStore b0
      (setupNode params signer roleStore (genesisStore b0 q0 txs merkleRoot) pool b0 b0 q0) := by
    refine ⟨⟨roleStore.graceHeight, rfl⟩, ?_, trivial⟩
    change (0, 0) = (q0.view, UInt32.ofNat (roleStore.getValidatorIndex q0.proposer))
    rw [genesis.certView_eq, genesis.leader_eq]
    rfl
  have run_steps : Steps params (fixedInbox b0) start node :=
    run.steps (closed.steps setup_steps)
      (fun env fixed => ⟨fun _ _ _ _ _ _ => trivial, fun _ _ _ _ _ _ => ⟨trivial, trivial⟩, fixed⟩)
      allowed_openInbox
  exact (initial.steps closed (setup_steps.trans run_steps)).rules

/-! ## A proposer out of turn -/

/-- The second validator, after a proposal of the first one for view 1. -/
def outOfTurnNode : Node :=
  secondValidator.receiveAll transparentParams silentEnv
    [.proposal (childBlock 1 (transparentBlock []) 1 1 0 [])]

theorem outOfTurnNode_run : NodeRun transparentParams fixedRoles secondValidator outOfTurnNode :=
  NodeRun.receiveAll .start (fun _ _ _ _ => rfl) _ (by decide +kernel)

/-- Validator 0 of two gets a vote for a proposal of view 1. -/
theorem vote_out_of_turn :
    let blk := childBlock 1 (transparentBlock []) 1 1 0 []
    Started transparentParams (transparentSigner 2) twoValidators (transparentBlock [])
      secondValidator ∧
    NodeRun transparentParams fixedRoles secondValidator outOfTurnNode ∧
    .sendVote blk (blk.vote (transparentSigner 2) 1) ∈ outOfTurnNode.trace ∧
    twoValidators.getValidatorIndex blk.proposer ≠ blk.view.toNat % twoValidators.validatorCount :=
  ⟨secondValidator_started, outOfTurnNode_run, by decide +kernel⟩

/-- The leaders of that run. -/
theorem votes_follow_leader_outOfTurnNode :
    LeaderRules twoValidators (transparentBlock []) outOfTurnNode.trace :=
  votes_follow_leader secondValidator_started outOfTurnNode_run

end SvpChain.Consensus
