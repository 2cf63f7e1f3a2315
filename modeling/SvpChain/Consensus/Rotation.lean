import SvpChain.Consensus.Certified

/-!
# Who stands behind a new view

`rotator` counts certificates that arrive during a view change in `highQCCount`, and a leader proposes in the
new view once the count reaches the majority.  A message does not name its sender, so the count is
that of messages since the last reset; it is one of validators when no sender is counted twice and
all messages are for the new view.
-/

namespace SvpChain.Consensus

open Core TxPool History

variable {params : Params} {inbox : Inbox} {node node' : Node} {surroundings : Env → Prop}

/-! ## Counted messages -/

/-- The messages counted since the last reset, each as its sender and the view change it is for. -/
def countedSince : List Event → List (PublicKey × UInt32)
  | [] => []
  | .countedQC sender change :: earlier => (sender, change) :: countedSince earlier
  | .setLeader _ :: _ => []
  | .approve _ _ :: _ => []
  | _ :: earlier => countedSince earlier

theorem highQCCount_step (counted : node.rotator.highQCCount = (countedSince node.trace).length)
    (step : NodeStep params inbox node node') : node'.rotator.highQCCount = (countedSince node'.trace).length := by
  cases step with
  | chain step =>
      cases step with
      | load loads =>
          obtain ⟨_, rfl, -⟩ := loads
          exact counted
      | _ => exact counted
  | approve | beginViewChange => rfl
  | countQC => exact congrArg (· + 1) counted
  | _ => exact counted

theorem highQCCount_steps (counted : node.rotator.highQCCount = (countedSince node.trace).length)
    (steps : Steps params inbox node node') : node'.rotator.highQCCount = (countedSince node'.trace).length := by
  induction steps with
  | refl => exact counted
  | tail _ step ih => exact highQCCount_step ih step

/-! ## New views -/

/-- A proposal in a new view rests on messages of a majority of distinct validators. -/
def NewViewBacked (earlier : List Event) : Event → Prop
  | .newView view roleStore => ∃ senders : Finset PublicKey,
      (∀ sender ∈ senders, roleStore.isValidator sender = true ∧
        (sender, view) ∈ countedSince earlier) ∧ roleStore.majorityValidatorCount ≤ senders.card
  | _ => True

/-- The messages counted for a new view come from distinct validators and are for that view. -/
def MessagesDistinct (earlier : List Event) : Event → Prop
  | .newView view roleStore => ((countedSince earlier).map Prod.fst).Nodup ∧
      ∀ message ∈ countedSince earlier, roleStore.isValidator message.1 = true ∧ message.2 = view
  | _ => True

theorem newViewBacked_of_distinct {earlier : List Event} {view : UInt32} {roleStore : RoleStore}
    (distinct : MessagesDistinct earlier (.newView view roleStore))
    (enough : roleStore.majorityValidatorCount ≤ (countedSince earlier).length) :
    NewViewBacked earlier (.newView view roleStore) := by
  obtain ⟨nodup, valid⟩ := distinct
  refine ⟨((countedSince earlier).map Prod.fst).toFinset, fun sender sender_mem => ?_, ?_⟩
  · obtain ⟨message, message_mem, rfl⟩ := List.mem_map.mp (List.mem_toFinset.mp sender_mem)
    obtain ⟨validator, for_view⟩ := valid message message_mem
    exact ⟨validator, for_view ▸ message_mem⟩
  · rwa [List.toFinset_card_of_nodup nodup, List.length_map]

theorem newViewBacked_steps (counted : node.rotator.highQCCount = (countedSince node.trace).length)
    (fresh : node.trace = []) (steps : Steps params inbox node node')
    (distinct : Throughout MessagesDistinct node'.trace) : Throughout NewViewBacked node'.trace := by
  induction steps with
  | refl =>
      rw [fresh]
      exact throughout_nil
  | @tail node₁ node₂ before step ih =>
      have counted₁ := highQCCount_steps counted before
      have kept := ih (distinct.of_suffix step.trace_suffix)
      rcases step.records with same | ⟨event, recorded, cause⟩
      · rw [same]
        exact kept
      · rw [recorded] at distinct ⊢
        refine throughout_cons.mpr ⟨?_, kept⟩
        cases event with
        | newView view roleStore =>
            obtain ⟨-, rfl, enough⟩ := cause
            exact newViewBacked_of_distinct (throughout_cons.mp distinct).1 (counted₁ ▸ enough)
        | _ => trivial

/-- In every run in which the messages counted for a new view come from distinct validators and are for
that view, the proposals of new views rest on a majority of validators. -/
theorem newView_backed {signer : Signer} {roleStore : RoleStore} {b0 : Block} {start : Node}
    (started : Started params signer roleStore b0 start)
    (run : NodeRun params surroundings start node)
    (distinct : Throughout MessagesDistinct node.trace) : Throughout NewViewBacked node.trace := by
  obtain ⟨q0, txs, merkleRoot, pool, -, setup_steps, -⟩ := started.steps openInbox
  exact newViewBacked_steps rfl rfl (setup_steps.trans run.open_steps) distinct

/-! ## One message twice -/

/-- Four validators with equal stake. -/
def fourValidators : RoleStore :=
  RoleStore.ofGenesis [(transparentSigner 1).pubKey, (transparentSigner 2).pubKey,
    (transparentSigner 3).pubKey, (transparentSigner 4).pubKey] [1, 1, 1, 1] 4

/-- The certificate of the genesis block with the votes of all four. -/
def fourVotes : QuorumCert :=
  QuorumCert.build (transparentSigner 1)
    ([1, 2, 3, 4].map fun byte => (transparentBlock []).vote (transparentSigner byte) 1)

/-- The second of four validators after the genesis block. -/
def secondOfFour : Node :=
  setupNode transparentParams (transparentSigner 2) fourValidators
    (genesisStore (transparentBlock []) fourVotes [] []) newTxStore (transparentBlock [])
    (transparentBlock []) fourVotes

theorem secondOfFour_started : Started transparentParams (transparentSigner 2) fourValidators (transparentBlock [])
      secondOfFour :=
  ⟨fourVotes, [], [], newTxStore, ⟨rfl, rfl, rfl, by decide, rfl, rfl, rfl, by decide⟩, rfl⟩

/-- The node, which leads view 1, after its own timeout and messages of two senders. -/
def rotatedNode (first second : UInt8) : Node :=
  secondOfFour.receiveAll transparentParams silentEnv
    [.leaderTimeout, .qc (transparentSigner first).pubKey 1 fourVotes,
      .qc (transparentSigner second).pubKey 1 fourVotes]

theorem rotatedNode_run (first second : UInt8) (alive : (rotatedNode first second).alive = true) :
    NodeRun transparentParams anyEnv secondOfFour (rotatedNode first second) :=
  NodeRun.receiveAll .start trivial _ alive

/-- The parts of a record that end with a proposal in a new view. -/
def newViews (trace : List Event) : List (List Event) :=
  trace.tails.filter fun part =>
    match part with
    | .newView _ _ :: _ => true
    | _ => false

theorem mem_newViews {trace earlier : List Event} {view : UInt32} {roleStore : RoleStore} :
    .newView view roleStore :: earlier ∈ newViews trace ↔ .newView view roleStore :: earlier <:+ trace := by
  simp [newViews]

/-- The calls of the node before its proposal in view 1. -/
def beforeNewView (first second : UInt8) : List Event :=
  [.countedQC (transparentSigner second).pubKey 1, .receivedQC fourVotes,
    .countedQC (transparentSigner first).pubKey 1, .enterView 1 1, .receivedQC fourVotes,
    .countedQC (transparentSigner 2).pubKey 1, .setLeader 1]

/-- One message that arrives twice counts as two: the node proposes in view 1 after its own timeout and
messages of a single peer, where three of four validators are needed. -/
theorem repeated_message_counted :
    Started transparentParams (transparentSigner 2) fourValidators (transparentBlock [])
      secondOfFour ∧
    NodeRun transparentParams anyEnv secondOfFour (rotatedNode 3 3) ∧
    .newView 1 fourValidators :: beforeNewView 3 3 <:+ (rotatedNode 3 3).trace ∧
    ¬ NewViewBacked (beforeNewView 3 3) (.newView 1 fourValidators) := by
  refine ⟨secondOfFour_started, rotatedNode_run 3 3 (by decide +kernel), by decide +kernel, ?_⟩
  rintro ⟨senders, messages, enough⟩
  have only : senders ⊆ {(transparentSigner 2).pubKey, (transparentSigner 3).pubKey} := by
    intro sender sender_mem
    have counted := List.mem_map_of_mem (messages sender sender_mem).2 (f := Prod.fst)
    have keys : (countedSince (beforeNewView 3 3)).map Prod.fst =
        [(transparentSigner 3).pubKey, (transparentSigner 3).pubKey, (transparentSigner 2).pubKey] := rfl
    rw [keys] at counted
    simp only [List.mem_cons, List.not_mem_nil, or_false] at counted
    rw [Finset.mem_insert, Finset.mem_singleton]
    rcases counted with third | third | second
    · exact .inr third
    · exact .inr third
    · exact .inl second
  have few := (Finset.card_le_card only).trans (Finset.card_le_two)
  exact absurd (enough.trans few) (by decide)

/-- Messages of two peers and the own timeout back the proposal in view 1. -/
theorem newView_backed_rotatedNode :
    .newView 1 fourValidators :: beforeNewView 3 4 <:+ (rotatedNode 3 4).trace ∧
    Throughout NewViewBacked (rotatedNode 3 4).trace := by
  have only : newViews (rotatedNode 3 4).trace = [.newView 1 fourValidators :: beforeNewView 3 4] := by
    decide +kernel
  refine ⟨mem_newViews.mp (only ▸ List.mem_singleton_self _), ?_⟩
  refine newView_backed secondOfFour_started (rotatedNode_run 3 4 (by decide +kernel)) ?_
  intro event earlier part
  cases event with
  | newView view roleStore =>
      have is_only := mem_newViews.mpr part
      rw [only, List.mem_singleton] at is_only
      obtain ⟨same, rfl⟩ := List.cons_eq_cons.mp is_only
      obtain ⟨rfl, rfl⟩ := Event.newView.inj same
      exact ⟨by decide, by decide⟩
  | _ => trivial

end SvpChain.Consensus
