import SvpChain.Consensus.Leader
import SvpChain.Lib.Interleaving

/-!
# A network of validators

The validators run the same code on the same genesis block.  Each handler is one step of its node, and
a message is the record of its sending: it may arrive at any later time, once at each receiver, or
never.  Peers answer requests for blocks with what they hold.
-/

namespace SvpChain.Consensus

open Core TxPool Relation Interleaving

/-! ## Runs -/

/-- The nodes, by the positions of their validators. -/
abbrev Net (n : ℕ) := Fin n → Node

variable {n : ℕ} {params : Params} {b0 blk : Block} {net net' start : Net n}

/-- What happens next. -/
inductive Act (n : ℕ) where
  /-- The pacemaker of a node uses a token. -/
  | propose (i : Fin n)
  | leaderTimeout (i : Fin n)
  | viewTimeout (i : Fin n)
  | submitTx (i : Fin n) (tx : Transaction)
  | receiveTx (i : Fin n) (tx : Transaction)
  /-- A node receives what another one has sent; the place is that of the sending among the calls of
  the sender, the earliest first. -/
  | deliver (i sender : Fin n) (place : ℕ)
  deriving DecidableEq

def Act.isDelivery : Act n → Bool
  | .deliver _ _ _ => true
  | _ => false

/-- What a call of the sender brings to the receiver, given the calls before it. -/
def Event.message (sender receiver : PublicKey) (earlier : List Event) : Event → Option Input
  | .broadcastProposal blk => some (.proposal blk)
  | .sendVote blk vote => if blk.proposer = receiver then some (.vote vote) else none
  | .sendQC peer qc =>
      -- the sender has begun the change to the view after its present one
      if peer = receiver then some (.qc sender ((currentLeader earlier).1 + 1) qc) else none
  | _ => none

/-- The node that acts, and its input. -/
def Net.input (net : Net n) : Act n → Option (Fin n × Input)
  | .propose i => some (i, .propose)
  | .leaderTimeout i => some (i, .leaderTimeout)
  | .viewTimeout i => some (i, .viewTimeout)
  | .submitTx i tx => some (i, .submitTx tx)
  | .receiveTx i tx => some (i, .receiveTx tx)
  | .deliver i sender place =>
      let calls := (net sender).trace.reverse
      calls[place]?.bind fun event =>
        (event.message (net sender).signer.pubKey (net i).signer.pubKey
          (calls.take place).reverse).map fun input => (i, input)

/-- The network after an input of a node. -/
def Net.receive (params : Params) (env : Env) (net : Net n) (i : Fin n) (input : Input) : Net n :=
  Function.update net i ((net i).receive params env input)

/-- The states of a network that runs under a rule for its steps, with the acts that led there, the
latest first. -/
inductive NetRun (params : Params) (rule : Net n → Act n → Env → Prop) (start : Net n) :
    List (Act n) → Net n → Prop where
  | start : NetRun params rule start [] start
  | step {acts : List (Act n)} {net : Net n} (run : NetRun params rule start acts net) {act : Act n}
      {i : Fin n} {input : Input} (next : net.input act = some (i, input))
      (once : act.isDelivery = true → act ∉ acts) (alive : (net i).alive = true) {env : Env}
      (keeps : rule net act env) :
      NetRun params rule start (act :: acts) (net.receive params env i input)

/-- The network after a list of acts, if each of them is possible and passes a check. -/
def Net.play (params : Params) (env : Env) (check : Net n → Act n → Bool) :
    List (Act n) → Net n → Option (Net n)
  | [], net => some net
  | act :: acts, net =>
      (net.input act).bind fun (i, input) =>
        if (net i).alive ∧ check net act then
          Net.play params env check acts (net.receive params env i input)
        else none

section Play

variable {rule : Net n → Act n → Env → Prop} {env : Env} {check : Net n → Act n → Bool}
  (keeps : ∀ net act, check net act = true → rule net act env)
include keeps

theorem NetRun.play {earlier : List (Act n)} (run : NetRun params rule start earlier net)
    {acts : List (Act n)} (once : ((acts.reverse ++ earlier).filter Act.isDelivery).Nodup)
    (played : net.play params env check acts = some net') :
    NetRun params rule start (acts.reverse ++ earlier) net' := by
  induction acts generalizing net earlier with
  | nil =>
      obtain rfl := Option.some.inj played
      exact run
  | cons act acts ih =>
      obtain ⟨⟨i, input⟩, next, rest⟩ := Option.bind_eq_some_iff.mp played
      obtain ⟨⟨alive, checked⟩, played⟩ := Option.ite_none_right_eq_some.mp rest
      rw [List.reverse_cons, List.append_assoc, List.singleton_append] at once ⊢
      refine ih (run.step next (fun delivery => ?_) alive (keeps net act checked)) once played
      rw [List.filter_append, List.filter_cons_of_pos delivery] at once
      have fresh := (List.nodup_cons.mp once.of_append_right).1
      exact fun old => fresh (List.mem_filter.mpr ⟨old, delivery⟩)

theorem exists_run_of_play {acts : List (Act n)} (once : (acts.reverse.filter Act.isDelivery).Nodup)
    {holds : Net n → Bool} (played : (start.play params env check acts).any holds = true) :
    ∃ net, NetRun params rule start acts.reverse net ∧ holds net = true := by
  obtain ⟨net, played, is_held⟩ := (Option.any_eq_true _ _).mp played
  have run := NetRun.start.play keeps (by rwa [List.append_nil]) played
  exact ⟨net, List.append_nil acts.reverse ▸ run, is_held⟩

end Play

/-- Peers answer requests with what they hold, and no execution changes the validators. -/
structure PeersAnswer (net : Net n) (env : Env) : Prop where
  requestBlock : ∀ number peer hash blk, env.requestBlock number peer hash = some blk →
    ∃ j, (net j).signer.pubKey = peer ∧
      (findBlock (net j).state.blocks hash = some blk ∨ findBlock (net j).storage.blocks hash = some blk)
  requestBlockByHeight : ∀ number peer height blk,
    env.requestBlockByHeight number peer height = some blk →
      ∃ j, (net j).signer.pubKey = peer ∧ (net j).storage.getBlockByHeight height = some blk
  execute : fixedRoles env

/-- A token is used only when the leaf is the block of the high certificate. -/
def Net.OnLeaf (net : Net n) : Act n → Prop
  | .propose i => Proposes (net i) → (net i).status.bLeaf.hash = (net i).status.qcHigh.blockHash
  | _ => True

instance (node : Node) : Decidable (Proposes node) :=
  inferInstanceAs (Decidable (_ ∧ _ ∧ _))

instance (net : Net n) (act : Act n) : Decidable (net.OnLeaf act) :=
  match act with
  | .propose i => inferInstanceAs (Decidable (Proposes (net i) →
      (net i).status.bLeaf.hash = (net i).status.qcHigh.blockHash))
  | .leaderTimeout _ | .viewTimeout _ | .submitTx _ _ | .receiveTx _ _ | .deliver _ _ _ => .isTrue trivial

/-- Proposals are made under certified blocks, and what peers answer to requests by height are the
genesis block and blocks they have committed. -/
structure Orderly (b0 : Block) (net : Net n) (act : Act n) (env : Env) : Prop extends
    PeersAnswer net env where
  committed : ∀ number peer height blk, env.requestBlockByHeight number peer height = some blk →
    blk = b0 ∨ ∃ j, (net j).signer.pubKey = peer ∧ .commit blk ∈ (net j).trace
  leaf : net.OnLeaf act

/-! ## Steps -/

/-- The blocks that a node has proposed. -/
def proposals (trace : List Event) : List Block :=
  trace.filterMap fun event =>
    match event with
    | .proposed blk => some blk
    | _ => none

/-- The genesis block and all proposals. -/
def knownBlocks (b0 : Block) (net : Net n) : List Block :=
  b0 :: (List.finRange n).flatMap fun i => proposals (net i).trace

theorem mem_proposals {trace : List Event} : blk ∈ proposals trace ↔ .proposed blk ∈ trace := by
  constructor
  · intro mem
    obtain ⟨event, event_mem, is_proposal⟩ := List.mem_filterMap.mp mem
    cases event with
    | proposed other => exact Option.some.inj is_proposal ▸ event_mem
    | _ => cases is_proposal
  · intro proposed
    exact List.mem_filterMap.mpr ⟨_, proposed, rfl⟩

theorem mem_knownBlocks : blk ∈ knownBlocks b0 net ↔ blk = b0 ∨ ∃ i, .proposed blk ∈ (net i).trace := by
  simp [knownBlocks, mem_proposals]

/-- What may reach the nodes. -/
def netInbox (b0 : Block) (net : Net n) : Inbox where
  Root blk := blk = b0
  Block blk := blk ∈ knownBlocks b0 net
  Height blk := blk = b0 ∨ ∃ j, .commit blk ∈ (net j).trace
  Vote vote := ∃ j blk, .sendVote blk vote ∈ (net j).trace
  QC qc := ∃ j peer, .sendQC peer qc ∈ (net j).trace
  Roles store store' := store' = store
  Leaf leaf qc := leaf.hash = qc.blockHash

/-- The nodes make steps with what they have sent so far. -/
abbrev NetStep (params : Params) (b0 : Block) : Net n → Net n → Prop :=
  SystemStep fun net => NodeStep params (netInbox b0 net)

/-- No record of calls gets shorter. -/
def Grows (net net' : Net n) : Prop := ∀ i, (net i).trace <:+ (net' i).trace

theorem NetStep.grows (step : NetStep params b0 net net') : Grows net net' := by
  intro i
  rcases step i with same | step
  · rw [same]
  · exact step.trace_suffix

theorem NetStep.event (step : NetStep params b0 net net') {i : Fin n} {event : Event} (mem : event ∈ (net' i).trace) :
    event ∈ (net i).trace ∨ Cause params (netInbox b0 net) (net i) event := by
  rcases step i with same | step
  · exact Or.inl (same ▸ mem)
  · exact step.event mem

theorem Grows.known (grows : Grows net net') (known : blk ∈ knownBlocks b0 net) : blk ∈ knownBlocks b0 net' := by
  rw [mem_knownBlocks] at known ⊢
  exact known.imp_right fun ⟨i, proposed⟩ => ⟨i, (grows i).subset proposed⟩

/-- The second inbox has what the first one has. -/
structure Widens (inbox inbox' : Inbox) : Prop where
  root : ∀ blk, inbox.Root blk → inbox'.Root blk
  block : ∀ blk, inbox.Block blk → inbox'.Block blk
  height : ∀ blk, inbox.Height blk → inbox'.Height blk
  vote : ∀ vote, inbox.Vote vote → inbox'.Vote vote
  qc : ∀ qc, inbox.QC qc → inbox'.QC qc
  roles : ∀ store store', inbox.Roles store store' → inbox'.Roles store store'
  leaf : ∀ leaf qc, inbox.Leaf leaf qc → inbox'.Leaf leaf qc

theorem Grows.widens (grows : Grows net net') : Widens (netInbox b0 net) (netInbox b0 net') where
  root _ is_root := is_root
  block _ known := grows.known known
  height _ := Or.imp_right fun ⟨j, committed⟩ => ⟨j, (grows j).subset committed⟩
  vote _ := fun ⟨j, blk, sent⟩ => ⟨j, blk, (grows j).subset sent⟩
  qc _ := fun ⟨j, peer, sent⟩ => ⟨j, peer, (grows j).subset sent⟩
  roles _ _ same := same
  leaf _ _ same := same

section Widen

variable {inbox inbox' : Inbox} {node node' : Node} (widens : Widens inbox inbox')
include widens

theorem Seen.widen (seen : Seen inbox node blk) : Seen inbox' node blk :=
  seen.imp_left (widens.root blk)

theorem Closed.widen (closed : Closed inbox node) : Closed inbox' node where
  received blk received := widens.block blk (closed.received blk received)
  blocks blk mem := (closed.blocks blk mem).widen widens
  stored blk mem := (closed.stored blk mem).widen widens
  leaf := closed.leaf.widen widens
  high := by
    obtain ⟨blk, seen, hash_eq⟩ := closed.high
    exact ⟨blk, seen.widen widens, hash_eq⟩

theorem CommitReason.widen {target : Block} (reason : CommitReason inbox node target) :
    CommitReason inbox' node target :=
  reason.imp_right (And.imp_left (widens.height target))

theorem ChainStep.widen (step : ChainStep params inbox node node') : ChainStep params inbox' node node' := by
  cases step with
  | aside => exact .aside _ _ _
  | grace => exact .grace _
  | load loads => exact .load loads
  | receive received => exact .receive (widens.block _ received)
  | answer by_height => exact .answer (widens.height _ by_height)
  | window summed => exact .window summed
  | storeQC => exact .storeQC
  | storeBlock => exact .storeBlock
  | commit reason ancestor higher =>
      exact .commit (reason.widen widens) (ancestor.mono fun _ seen => seen.widen widens) higher
  | execute _ _ committed seen txs_eq roles =>
      exact .execute _ _ committed (seen.widen widens) txs_eq (widens.roles _ _ roles)
  | mockExecute mock committed seen => exact .mockExecute mock committed (seen.widen widens)
  | clean _ blocks_subset qcs_subset => exact .clean _ blocks_subset qcs_subset
  | setBExec committed => exact .setBExec committed
  | stop => exact .stop

theorem NodeStep.widen (step : NodeStep params inbox node node') : NodeStep params inbox' node node' := by
  cases step with
  | chain step => exact .chain (step.widen widens)
  | approve present approval => exact .approve present approval
  | adopt circulates higher => exact .adopt circulates higher
  | certify built recorded higher => exact .certify built recorded higher
  | build built enough => exact .build built enough
  | endProposal => exact .endProposal
  | propose leader is_parent proposal =>
      have still_parent := is_parent.imp_left (And.imp_right (And.imp_left (widens.leaf _ _)))
      exact .propose leader still_parent proposal
  | broadcast proposed => exact .broadcast proposed
  | addVote added source => exact .addVote added (source.imp_left (widens.vote _))
  | sendVote quota guard =>
      obtain ⟨seen, view_eq, leader, cert_eq, level⟩ := guard
      exact .sendVote quota ⟨seen.widen widens, view_eq, leader, cert_eq, level⟩
  | rememberView => exact .rememberView _
  | beginViewChange => exact .beginViewChange _
  | countQC => exact .countQC _ _
  | newView enough leader => exact .newView enough leader
  | validate received => exact .validate (widens.block _ received)
  | receiveQC received => exact .receiveQC (widens.qc _ received)
  | sendQC => exact .sendQC _
  | failViewChange => exact .failViewChange
  | enterNextView ongoing same_view next_eq => exact .enterNextView ongoing same_view next_eq

end Widen

theorem netStep_persistent : Persistent fun (net : Net n) => NodeStep params (netInbox b0 net) :=
  fun _ _ step _ _ possible => possible.widen (NetStep.grows step).widens

/-! ## Runs as steps -/

/-- The nodes of the validators after the genesis block. -/
structure Members (signer : Fin n → Signer) (roleStore : RoleStore) (b0 : Block) (net : Net n) :
    Prop where
  signer_eq : ∀ i, (net i).signer = signer i
  roles : ∀ i, SameRoles roleStore (net i).roleStore
  closed : ∀ i, Closed (netInbox b0 net) (net i)

variable {signer : Fin n → Signer} {roleStore : RoleStore}

theorem NodeStep.signer_eq {inbox : Inbox} {node node' : Node}
    (step : NodeStep params inbox node node') : node'.signer = node.signer := by
  cases step with
  | chain step =>
      cases step with
      | load loads =>
          obtain ⟨_, rfl, -⟩ := loads
          rfl
      | _ => rfl
  | _ => rfl

theorem Members.step (members : Members signer roleStore b0 net) (step : NetStep params b0 net net') :
    Members signer roleStore b0 net' where
  signer_eq i := by
    rcases step i with same | step
    · rw [same, members.signer_eq]
    · rw [step.signer_eq, members.signer_eq]
  roles i := by
    rcases step i with same | step
    · rw [same]
      exact members.roles i
    · exact step.sameRoles (fun _ _ same => same) (members.roles i)
  closed i := by
    refine Closed.widen step.grows.widens ?_
    rcases step i with same | step
    · rw [same]
      exact members.closed i
    · exact (members.closed i).step step

theorem Members.steps (members : Members signer roleStore b0 net)
    (steps : ReflTransGen (NetStep params b0) net net') : Members signer roleStore b0 net' := by
  induction steps with
  | refl => exact members
  | tail _ step ih => exact ih.step step

theorem Members.known_of_seen (members : Members signer roleStore b0 net) {i : Fin n}
    (seen : Seen (netInbox b0 net) (net i) blk) : blk ∈ knownBlocks b0 net := by
  rcases seen with is_root | received | proposed
  · exact mem_knownBlocks.mpr (Or.inl is_root)
  · exact (members.closed i).received blk received
  · exact mem_knownBlocks.mpr (Or.inr ⟨i, proposed⟩)

/-- The nodes hold the genesis block alone. -/
def NetSetup (params : Params) (signer : Fin n → Signer) (roleStore : RoleStore) (b0 : Block)
    (net : Net n) : Prop :=
  ∀ i, ∃ q0 txs merkleRoot pool, Genesis params roleStore b0 q0 ∧ net i =
    setupNode params (signer i) roleStore (genesisStore b0 q0 txs merkleRoot) pool b0 b0 q0

theorem NetSetup.members (setup : NetSetup params signer roleStore b0 net) : Members signer roleStore b0 net where
  signer_eq i := by
    obtain ⟨q0, txs, merkleRoot, pool, -, node_eq⟩ := setup i
    rw [node_eq]
    rfl
  roles i := by
    obtain ⟨q0, txs, merkleRoot, pool, -, node_eq⟩ := setup i
    rw [node_eq]
    exact ⟨roleStore.graceHeight, rfl⟩
  closed i := by
    obtain ⟨q0, txs, merkleRoot, pool, genesis, node_eq⟩ := setup i
    rw [node_eq]
    exact closed_setupNode rfl genesis

theorem widens_of_no_node (net : Net n) : Widens (netInbox b0 fun j : Fin 0 => j.elim0) (netInbox b0 net) where
  root _ is_root := is_root
  block _ known := mem_knownBlocks.mpr ((mem_knownBlocks.mp known).imp_right fun ⟨j, _⟩ => j.elim0)
  height _ := Or.imp_right fun ⟨j, _⟩ => j.elim0
  vote _ := fun ⟨j, _⟩ => j.elim0
  qc _ := fun ⟨j, _⟩ => j.elim0
  roles _ _ same := same
  leaf _ _ same := same

theorem exists_setup (started : ∀ i, Started params (signer i) roleStore b0 (start i)) :
    ∃ first, NetSetup params signer roleStore b0 first ∧ ReflTransGen (NetStep params b0) first start := by
  -- a node sets up its window without any message
  choose q0 txs merkleRoot pool genesis steps _ using fun i =>
    (started i).steps (netInbox b0 fun j : Fin 0 => j.elim0)
  refine ⟨_, fun i => ⟨q0 i, txs i, merkleRoot i, pool i, genesis i, rfl⟩, ?_⟩
  refine steps_all netStep_persistent fun i => ReflTransGen.mono (fun _ _ step => ?_) _ _ (steps i)
  exact step.widen (widens_of_no_node _)

theorem Members.answers (members : Members signer roleStore b0 net) {act : Act n} {env : Env}
    (orderly : Orderly b0 net act env) : Answers params env (netInbox b0 net) where
  requestBlock number peer hash blk answer _ := by
    obtain ⟨j, -, in_memory | in_storage⟩ := orderly.requestBlock number peer hash blk answer
    · exact members.known_of_seen ((members.closed j).blocks blk (mem_of_findBlock in_memory).1)
    · exact members.known_of_seen ((members.closed j).stored blk (mem_of_findBlock in_storage).1)
  requestBlockByHeight number peer height blk answer _ := by
    obtain ⟨j, -, held⟩ := orderly.requestBlockByHeight number peer height blk answer
    obtain ⟨hash, -, in_storage⟩ := Option.bind_eq_some_iff.mp held
    refine ⟨members.known_of_seen ((members.closed j).stored blk (mem_of_findBlock in_storage).1), ?_⟩
    exact (orderly.committed number peer height blk answer).imp_right fun ⟨j, _, committed⟩ =>
      ⟨j, committed⟩
  execute := orderly.execute

/-- The blocks that are broadcast were proposed by their senders. -/
def BroadcastsProposed (net : Net n) : Prop :=
  ∀ i blk, .broadcastProposal blk ∈ (net i).trace → .proposed blk ∈ (net i).trace

theorem BroadcastsProposed.steps (before : BroadcastsProposed net)
    (steps : ReflTransGen (NetStep params b0) net net') : BroadcastsProposed net' := by
  induction steps with
  | refl => exact before
  | tail _ step ih =>
      intro i blk sent
      refine (NetStep.grows step i).subset ?_
      rcases NetStep.event step sent with old | proposed
      · exact ih i blk old
      · exact proposed

theorem allowed_of_input (broadcasts : BroadcastsProposed net) {act : Act n} {i : Fin n}
    {input : Input} (next : net.input act = some (i, input)) (leaf : net.OnLeaf act) :
    Allowed params (netInbox b0 net) (net i) input := by
  cases act with
  | propose j =>
      obtain ⟨rfl, rfl⟩ := Prod.mk.inj (Option.some.inj next)
      exact leaf
  | deliver receiver sender place =>
      obtain ⟨event, at_place, delivered⟩ := Option.bind_eq_some_iff.mp next
      have recorded : event ∈ (net sender).trace :=
        List.mem_reverse.mp (List.mem_of_getElem? at_place)
      obtain ⟨message, is_message, pair_eq⟩ := Option.map_eq_some_iff.mp delivered
      obtain ⟨rfl, rfl⟩ := Prod.mk.inj pair_eq
      cases event with
      | broadcastProposal blk =>
          obtain rfl := Option.some.inj is_message
          exact fun _ => mem_knownBlocks.mpr (Or.inr ⟨sender, broadcasts sender blk recorded⟩)
      | sendVote blk vote =>
          obtain ⟨-, same⟩ := Option.ite_none_right_eq_some.mp is_message
          obtain rfl := Option.some.inj same
          exact fun _ => ⟨sender, blk, recorded⟩
      | sendQC peer qc =>
          obtain ⟨-, same⟩ := Option.ite_none_right_eq_some.mp is_message
          obtain rfl := Option.some.inj same
          exact fun _ => ⟨sender, peer, recorded⟩
      | _ => cases is_message
  | _ =>
      obtain ⟨rfl, rfl⟩ := Prod.mk.inj (Option.some.inj next)
      trivial

/-- A run of the network is a sequence of steps of its nodes. -/
theorem NetRun.steps {acts : List (Act n)} (started : ∀ i, Started params (signer i) roleStore b0 (start i))
    (run : NetRun params (Orderly b0) start acts net) : ∃ first, NetSetup params signer roleStore b0 first ∧
      ReflTransGen (NetStep params b0) first net := by
  obtain ⟨first, setup, setup_steps⟩ := exists_setup started
  refine ⟨first, setup, ?_⟩
  have none_sent : BroadcastsProposed first := by
    intro i blk sent
    obtain ⟨q0, txs, merkleRoot, pool, -, node_eq⟩ := setup i
    rw [node_eq] at sent
    cases sent
  induction run with
  | start => exact setup_steps
  | @step _ net _ _ i input next _ _ env orderly ih =>
      have members := setup.members.steps ih
      have received : Steps params (netInbox b0 net) (net i) ((net i).receive params env input) :=
        steps_receive (members.answers orderly) (members.closed i)
          (allowed_of_input (none_sent.steps ih) next orderly.leaf)
      exact ih.trans (steps_update netStep_persistent received)

end SvpChain.Consensus
