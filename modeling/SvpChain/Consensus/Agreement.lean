import SvpChain.Consensus.Quorum
import SvpChain.Lib.TwoChain

/-!
# Agreement

Two nodes commit the same block at every height as long as every token is used while the leaf is the
block of the high certificate, and peers answer requests by height with blocks they have committed.
`pacemaker.newProposal` does not see to the first: it proposes under the leaf, which is a block without a
certificate when the proposal of a new view has come between.
-/

namespace SvpChain.Consensus

open Core TxPool Relation Interleaving History

variable {n : ℕ} {params : Params} {b0 blk : Block} {q0 qc : QuorumCert} {net net' start : Net n}
  {signer : Fin n → Signer} {roleStore : RoleStore} {inbox : Inbox} {node node' : Node}
  {Known : Block → Prop}

/-! ## What a leader has built -/

/-- The certificate of a proposal is not below the ones that were built before, but for the proposal
itself. -/
def AboveMinted (Known : Block → Prop) (trace : List Event) (blk : Block) : Prop :=
  ∃ ref, blk.quorumCert = some ref ∧ ∀ qc, Minted trace qc →
    qc.blockHash = blk.hash ∨ certPrio Known qc ≤ certPrio Known ref

/-- A certificate is built for a proposal that was made above the earlier certificates. -/
def BuiltAbove (Known : Block → Prop) (earlier : List Event) : Event → Prop
  | .builtQC qc _ => ∃ blk, .proposed blk ∈ earlier ∧ qc.blockHash = blk.hash ∧
      AboveMinted Known earlier blk
  | _ => True

/-- A node proposes under the highest certificate that it has set. -/
structure LeadsInOrder (Known : Block → Prop) (node : Node) : Prop where
  high : ∀ qc, HighSet qc node.trace → ⊥ < certPrio Known qc ∧
    certPrio Known qc ≤ certPrio Known node.status.qcHigh
  progress : ∀ blk, node.status.proposal = some blk → AboveMinted Known node.trace blk
  last : ∀ qc tally earlier blk, node.trace = .builtQC qc tally :: earlier →
    node.status.proposal = some blk → qc.blockHash = blk.hash
  built : Throughout (BuiltAbove Known) node.trace

theorem Minted.highSet {trace : List Event} (minted : Minted trace qc) : HighSet qc trace := by
  obtain ⟨blk1, roleStore, window, tally, earlier, part⟩ := minted
  exact ⟨blk1, roleStore, window, part.subset List.mem_cons_self⟩

theorem minted_cons {event : Event} {trace : List Event} (minted : Minted (event :: trace) qc) :
    Minted trace qc ∨ (∃ blk1 roleStore window, event = .setQCHigh qc blk1 roleStore window) ∧
      ∃ tally earlier, trace = .builtQC qc tally :: earlier := by
  obtain ⟨blk1, roleStore, window, tally, earlier, part⟩ := minted
  rcases List.suffix_cons_iff.mp part with same | inside
  · obtain ⟨event_eq, trace_eq⟩ := List.cons_eq_cons.mp same
    exact Or.inr ⟨⟨blk1, roleStore, window, event_eq.symm⟩, tally, earlier, trace_eq.symm⟩
  · exact Or.inl ⟨blk1, roleStore, window, tally, earlier, inside⟩

theorem NodeStep.high_set (step : NodeStep params inbox node node') (set : HighSet qc node'.trace) :
    HighSet qc node.trace ∨ node'.status.qcHigh = qc ∧ QCOrder node qc node.status.qcHigh .gt := by
  rcases step.high_cases with ⟨-, kept⟩ | ⟨blk1, recorded, higher, -⟩
  · exact Or.inl (kept qc set)
  · obtain ⟨other, roleStore, window, mem⟩ := set
    rw [recorded] at mem
    rcases List.mem_cons.mp mem with same | old
    · obtain ⟨rfl, -⟩ := Event.setQCHigh.inj same
      exact Or.inr ⟨rfl, higher.order⟩
    · exact Or.inl ⟨other, roleStore, window, old⟩

section Order

variable (one_height : OneHeight Known) (known : ∀ blk ∈ node.state.blocks, Known blk)
include one_height known

theorem NodeStep.high_le (step : NodeStep params inbox node node') :
    certPrio Known node.status.qcHigh ≤ certPrio Known node'.status.qcHigh := by
  rcases step.high with same | order
  · rw [same]
  · exact (certPrio_lt_of_gt one_height known order).le

theorem LeadsInOrder.step (leads : LeadsInOrder Known node)
    (built_for : ∀ qc blk, Built node qc → node.status.proposal = some blk →
      .proposed blk ∈ node.trace ∧ qc.blockHash = blk.hash)
    (step : NodeStep params inbox node node') : LeadsInOrder Known node' := by
  have kept : ∀ blk, node.status.proposal = some blk → AboveMinted Known node'.trace blk := by
    intro blk in_progress
    obtain ⟨ref, cert_eq, above⟩ := leads.progress blk in_progress
    refine ⟨ref, cert_eq, fun qc minted => ?_⟩
    rcases step.records with same | ⟨event, trace_eq, -⟩
    · exact above qc (same ▸ minted)
    · rcases minted_cons (trace_eq ▸ minted) with old | ⟨-, tally, earlier, just_built⟩
      · exact above qc old
      · exact Or.inl (leads.last qc tally earlier blk just_built in_progress)
  constructor
  · intro qc set
    rcases step.high_set set with old | ⟨rfl, order⟩
    · obtain ⟨positive, below⟩ := leads.high qc old
      exact ⟨positive, below.trans (step.high_le one_height known)⟩
    · exact ⟨bot_le.trans_lt (certPrio_lt_of_gt one_height known order), le_rfl⟩
  · intro blk in_progress
    rcases step.progress with ended | ⟨same, -⟩ | ⟨parent, other, trace_eq, proposal, started, -⟩ |
      ⟨vote, same, -⟩
    · rw [ended] at in_progress
      cases in_progress
    · exact kept blk (same ▸ in_progress)
    · obtain rfl := Option.some.inj (started.symm.trans in_progress)
      refine ⟨_, proposal.quorumCert_eq, fun qc minted => ?_⟩
      rcases minted_cons (trace_eq ▸ minted) with old | ⟨⟨_, _, _, event_eq⟩, -⟩
      · exact Or.inr (leads.high qc old.highSet).2
      · cases event_eq
    · exact kept blk (same ▸ in_progress)
  · intro qc tally earlier blk just_built in_progress
    have in_progress_before : node.status.proposal = some blk := by
      rcases step.progress with ended | ⟨same, -⟩ | ⟨parent, other, trace_eq, -⟩ | ⟨vote, same, -⟩
      · rw [ended] at in_progress
        cases in_progress
      · exact same ▸ in_progress
      · rw [trace_eq] at just_built
        cases just_built
      · exact same ▸ in_progress
    rcases step.records with same | ⟨event, trace_eq, cause⟩
    · exact leads.last qc tally earlier blk (same ▸ just_built) in_progress_before
    · obtain ⟨rfl, -⟩ := List.cons_eq_cons.mp (trace_eq.symm.trans just_built)
      exact (built_for qc blk cause.1 in_progress_before).2
  · refine step.throughout leads.built fun event cause => ?_
    cases event with
    | builtQC qc tally =>
        obtain ⟨built, -⟩ := cause
        obtain ⟨blk, votes, in_progress, -⟩ := id built
        obtain ⟨proposed, hash_eq⟩ := built_for qc blk built in_progress
        exact ⟨blk, proposed, hash_eq, leads.progress blk in_progress⟩
    | _ => trivial

end Order

/-- The proposal of the second certificate carries one that is not below the first. -/
def ProposedAbove (Known : Block → Prop) (trace : List Event) (qc qc' : QuorumCert) : Prop :=
  ∃ blk, .proposed blk ∈ trace ∧ qc'.blockHash = blk.hash ∧
    ∃ ref, blk.quorumCert = some ref ∧ certPrio Known qc ≤ certPrio Known ref

theorem LeadsInOrder.proposedAbove (leads : LeadsInOrder Known node) {qc' : QuorumCert}
    {earlier : List Event} {tally : Tally} (part : .builtQC qc' tally :: earlier <:+ node.trace)
    (minted : Minted earlier qc) : qc.blockHash = qc'.blockHash ∨ ProposedAbove Known node.trace qc qc' := by
  obtain ⟨blk, proposed, hash_eq, ref, cert_eq, above⟩ := leads.built _ _ part
  have proposed_here := part.subset (List.mem_cons_of_mem _ proposed)
  rcases above qc minted with same | below
  · exact Or.inl (same.trans hash_eq.symm)
  · exact Or.inr ⟨blk, proposed_here, hash_eq, ref, cert_eq, below⟩

theorem LeadsInOrder.minted_order (leads : LeadsInOrder Known node) {qc' : QuorumCert}
    (minted : Minted node.trace qc) (minted' : Minted node.trace qc') :
    qc.blockHash = qc'.blockHash ∨ ProposedAbove Known node.trace qc qc' ∨ ProposedAbove Known node.trace qc' qc := by
  obtain ⟨blk1, roles, window, tally, earlier, part⟩ := id minted
  obtain ⟨blk1', roles', window', tally', earlier', part'⟩ := id minted'
  have minted_inside : ∀ {qc blk1 roles window tally earlier qc' blk1' roles' window' tally' earlier'},
      .setQCHigh qc blk1 roles window :: .builtQC qc tally :: earlier <:+
        .setQCHigh qc' blk1' roles' window' :: .builtQC qc' tally' :: earlier' →
      qc = qc' ∨ Minted earlier' qc := by
    intro qc blk1 roles window tally earlier qc' blk1' roles' window' tally' earlier' inside
    rcases List.suffix_cons_iff.mp inside with same | inside
    · exact Or.inl (Event.setQCHigh.inj (List.cons_eq_cons.mp same).1).1
    · rcases List.suffix_cons_iff.mp inside with same | inside
      · cases (List.cons_eq_cons.mp same).1
      · exact Or.inr ⟨blk1, roles, window, tally, earlier, inside⟩
  rcases List.suffix_or_suffix_of_suffix part part' with inside | inside
  · rcases minted_inside inside with rfl | before
    · exact Or.inl rfl
    · rcases leads.proposedAbove ((List.suffix_cons _ _).trans part') before with same | above
      · exact Or.inl same
      · exact Or.inr (Or.inl above)
  · rcases minted_inside inside with rfl | before
    · exact Or.inl rfl
    · rcases leads.proposedAbove ((List.suffix_cons _ _).trans part) before with same | above
      · exact Or.inl same.symm
      · exact Or.inr (Or.inr above)

/-- A ballot that may come after another one. -/
def MayFollow (Known : Block → Prop) (late early : Block) : Prop :=
  early.view ≤ late.view ∧ ∃ qc, late.quorumCert = some qc ∧ CertBelow Known early (certPrio Known qc)

theorem VotesInOrder.total {blk' : Block} (inv : VotesInOrder Known node)
    (cast : blk ∈ ballots node.trace) (cast' : blk' ∈ ballots node.trace) (different : blk ≠ blk') :
    MayFollow Known blk blk' ∨ MayFollow Known blk' blk := by
  have : Std.Symm fun one other => MayFollow Known one other ∨ MayFollow Known other one :=
    ⟨fun _ _ => Or.symm⟩
  have pairwise : (ballots node.trace).Pairwise fun one other =>
      MayFollow Known one other ∨ MayFollow Known other one := inv.ordered.imp Or.inl
  exact pairwise.forall cast cast' different

/-! ## The network -/

/-- Every node votes and leads in order. -/
structure NetOrder (Known : Block → Prop) (net : Net n) : Prop where
  votes : ∀ i, VotesInOrder Known (net i)
  leads : ∀ i, LeadsInOrder Known (net i)

theorem NetOrder.step (positions : Positions signer roleStore) (sound : Sound signer roleStore b0 net)
    (one_height : OneHeight Known) (known : ∀ blk ∈ knownBlocks b0 net, Known blk)
    (grow : ∀ i, ViewsGrow (net' i).trace) (order : NetOrder Known net)
    (step : NetStep params b0 net net') : NetOrder Known net' := by
  have members := sound.members
  have held : ∀ i, ∀ blk ∈ (net i).state.blocks, Known blk := fun i blk mem =>
    known blk (members.known_of_seen ((members.closed i).blocks blk mem))
  constructor
  · intro i
    rcases step i with same | node_step
    · rw [same]
      exact order.votes i
    · exact (order.votes i).step one_height (held i) (grow i) node_step
  · intro i
    rcases step i with same | node_step
    · rw [same]
      exact order.leads i
    · refine (order.leads i).step one_height (held i) (fun qc blk built in_progress => ?_) node_step
      obtain ⟨other, is_other, proposed, certifies⟩ :=
        built.certifies (members.majority positions i) (sound.votes.counted i)
      obtain rfl := Option.some.inj (is_other.symm.trans in_progress)
      exact ⟨proposed, certifies.hash_eq⟩

theorem NetSetup.order (setup : NetSetup params signer roleStore b0 net) : NetOrder Known net where
  votes i := by
    constructor
    · intro blk mem
      rw [setup.trace_eq i] at mem
      exact absurd mem List.not_mem_nil
    · rw [setup.trace_eq i]
      exact List.Pairwise.nil
  leads i := by
    constructor
    · rintro qc ⟨_, _, _, mem⟩
      rw [setup.trace_eq i] at mem
      exact absurd mem List.not_mem_nil
    · intro blk in_progress
      rw [setup.proposal_eq i] at in_progress
      cases in_progress
    · intro qc tally earlier blk _ in_progress
      rw [setup.proposal_eq i] at in_progress
      cases in_progress
    · rw [setup.trace_eq i]
      exact throughout_nil

/-- The second block is the parent of the first. -/
structure Hangs (b0 : Block) (net : Net n) (child parent : Block) : Prop where
  child_known : child ∈ knownBlocks b0 net
  parent_known : parent ∈ knownBlocks b0 net
  not_genesis : child ≠ b0
  hash_eq : parent.hash = child.parentHash

/-- A certified child has the view of the block or of a block above it. -/
def BelowFinal (b0 : Block) (net : Net n) (blk : Block) : Prop :=
  ∃ i qc child target, Minted (net i).trace qc ∧ qc.blockHash = child.hash ∧
    child ∈ knownBlocks b0 net ∧ target ∈ knownBlocks b0 net ∧ target.hash = child.parentHash ∧
      target.view = child.view ∧ ReflTransGen (Hangs b0 net) target blk

theorem Hangs.mono {child parent : Block} (hangs : Hangs b0 net child parent)
    (grows : Grows net net') : Hangs b0 net' child parent :=
  ⟨grows.known hangs.child_known, grows.known hangs.parent_known, hangs.not_genesis, hangs.hash_eq⟩

theorem BelowFinal.mono (below : BelowFinal b0 net blk) (grows : Grows net net') : BelowFinal b0 net' blk := by
  obtain ⟨i, qc, child, target, minted, child_eq, child_known, target_known, parent_eq, view_eq,
    descends⟩ := below
  exact ⟨i, qc, child, target, minted.mono (grows i), child_eq, grows.known child_known,
    grows.known target_known, parent_eq, view_eq,
    ReflTransGen.mono (fun _ _ hangs => hangs.mono grows) _ _ descends⟩

theorem BelowFinal.below {target : Block} (final : BelowFinal b0 net target)
    (descends : ReflTransGen (Hangs b0 net) target blk) : BelowFinal b0 net blk := by
  obtain ⟨i, qc, child, top, minted, child_eq, child_known, top_known, parent_eq, view_eq, above⟩ :=
    final
  exact ⟨i, qc, child, top, minted, child_eq, child_known, top_known, parent_eq, view_eq,
    above.trans descends⟩

/-- The ancestors that a node commits hang under their children. -/
theorem hangs_of_ancestor (members : Members signer roleStore b0 net) (genesis_height : b0.height = 0)
    {i : Fin n} {target : Block} (ancestor : Ancestor (Seen (netInbox b0 net) (net i)) target blk) :
    ReflTransGen (Hangs b0 net) target blk := by
  induction ancestor with
  | self => exact .refl
  | parent below above parent_seen hash_eq ih =>
      refine ih.tail ⟨members.known_of_seen below.seen, members.known_of_seen parent_seen, ?_, hash_eq⟩
      rintro rfl
      exact above genesis_height

theorem certPrio_genesis (one_height : OneHeight Known) (known : Known b0)
    (genesis : Genesis params roleStore b0 q0) (hash_eq : qc.blockHash = b0.hash)
    (view_eq : qc.view = 0) : certPrio Known qc = ⊥ := by
  rw [certPrio, view_eq, heightOf_eq one_height known hash_eq.symm, genesis.height_eq]
  rfl

theorem belowFinal_step (sound : Sound signer roleStore b0 net)
    (genesis : Genesis params roleStore b0 q0) (one_height : OneHeight Known) (known : Known b0)
    (order : NetOrder Known net) (final : ∀ i blk, .commit blk ∈ (net i).trace → BelowFinal b0 net blk)
    (step : NetStep params b0 net net') (i : Fin n) (blk : Block)
    (committed : .commit blk ∈ (net' i).trace) : BelowFinal b0 net' blk := by
  have members := sound.members
  refine BelowFinal.mono ?_ step.grows
  rcases step.event committed with old | ⟨target, reason, ancestor, higher⟩
  · exact final i blk old
  have descends := hangs_of_ancestor members genesis.height_eq ancestor
  rcases reason with ⟨set, leaf_eq, parent_eq, view_eq⟩ | ⟨is_genesis | ⟨j, committed⟩, -⟩
  · rcases sound.certs.high i with ⟨hash_eq, cert_view⟩ | ⟨j, minted⟩
    · -- no certificate of the genesis block is higher than another one
      have positive := ((order.leads i).high _ set).1
      rw [certPrio_genesis one_height known genesis hash_eq cert_view] at positive
      exact absurd positive (lt_irrefl _)
    · exact ⟨j, _, _, target, minted, leaf_eq.symm, members.known_of_seen (members.closed i).leaf,
        members.known_of_seen ancestor.target_seen, parent_eq, view_eq, descends⟩
  · -- nothing above the height 0 is an ancestor of the genesis block
    subst is_genesis
    rcases ReflTransGen.cases_head descends with rfl | ⟨parent, hangs, -⟩
    · rw [genesis.height_eq] at higher
      exact absurd higher UInt64.not_lt_zero
    · exact absurd rfl hangs.not_genesis
  · exact (final j target committed).below descends

/-! ## The chain -/

/-- The counters of heights and views do not wrap around. -/
structure NoWrap (b0 : Block) (net : Net n) : Prop where
  heights : ∀ blk ∈ knownBlocks b0 net, blk.height + 1 ≠ 0
  views : ∀ i, ViewsGrow (net i).trace

/-- The hash of a block that is known tells it from the other ones. -/
def HashInjective (b0 : Block) (net : Net n) : Prop :=
  ∀ blk ∈ knownBlocks b0 net, ∀ blk' ∈ knownBlocks b0 net, blk.hash = blk'.hash → blk = blk'

instance (trace : List Event) : Decidable (ViewsGrow trace) :=
  inferInstanceAs (Decidable (0 ∉ enteredViews trace))

instance (b0 : Block) (net : Net n) : Decidable (NoWrap b0 net) :=
  decidable_of_iff ((∀ blk ∈ knownBlocks b0 net, blk.height + 1 ≠ 0) ∧ ∀ i, ViewsGrow (net i).trace)
    ⟨fun ⟨heights, views⟩ => ⟨heights, views⟩, fun ⟨heights, views⟩ => ⟨heights, views⟩⟩

instance (b0 : Block) (net : Net n) : Decidable (HashInjective b0 net) :=
  inferInstanceAs (Decidable (∀ blk ∈ knownBlocks b0 net, ∀ blk' ∈ knownBlocks b0 net,
    blk.hash = blk'.hash → blk = blk'))

/-- The blocks, votes and certificates of a network. -/
def netChain (b0 : Block) (net : Net n) : TwoChain (Fin n) Block where
  root := b0
  Parent := Hangs b0 net
  view blk := blk.view.toNat
  height blk := blk.height.toNat
  Voted i blk := blk ∈ ballots (net i).trace
  Certified blk := blk ∈ knownBlocks b0 net ∧
    (blk = b0 ∨ ∃ i qc, Minted (net i).trace qc ∧ qc.blockHash = blk.hash)

theorem oneHeight_of_injective (injective : HashInjective b0 net) : OneHeight (· ∈ knownBlocks b0 net) :=
  fun blk blk' known known' hash_eq => congrArg Block.height (injective blk known blk' known' hash_eq)

theorem genesis_known (b0 : Block) (net : Net n) : b0 ∈ knownBlocks b0 net := List.mem_cons_self

theorem known_of_proposed {i : Fin n} (proposed : .proposed blk ∈ (net i).trace) : blk ∈ knownBlocks b0 net :=
  mem_knownBlocks.mpr (Or.inr ⟨i, proposed⟩)

/-- Two majorities meet. -/
theorem exists_common_voter {left right : Finset (Fin n)} (left_enough : RoleStore.majorityCount n ≤ left.card)
    (right_enough : RoleStore.majorityCount n ≤ right.card) : ∃ k ∈ left, k ∈ right := by
  have meet : (Finset.univ : Finset (Fin n)).card < left.card + right.card := by
    rw [Finset.card_univ, Fintype.card_fin]
    rw [RoleStore.majorityCount] at left_enough right_enough
    omega
  obtain ⟨k, mem⟩ := Finset.inter_nonempty_of_card_lt_card_add_card left.subset_univ
    right.subset_univ meet
  exact ⟨k, Finset.mem_inter.mp mem⟩

theorem toNat_eq_succ {height height' : UInt64} (succ_eq : height = height' + 1)
    (not_zero : height ≠ 0) : height.toNat = height'.toNat + 1 := by
  have bound := height'.toNat_lt
  have toNat_eq : height.toNat = (height'.toNat + 1) % 2 ^ 64 := by
    rw [succ_eq, UInt64.toNat_add]
    rfl
  have positive : height.toNat ≠ 0 := fun zero => not_zero (UInt64.toNat_inj.mp zero)
  omega

section Safe

variable (injective : HashInjective b0 net) (sound : Sound signer roleStore b0 net)

section

include injective

theorem certPrio_eq_prio (known : blk ∈ knownBlocks b0 net) (hash_eq : qc.blockHash = blk.hash)
    (view_eq : qc.view = blk.view) : certPrio (· ∈ knownBlocks b0 net) qc = (netChain b0 net).prio blk := by
  rw [certPrio, view_eq, heightOf_eq (oneHeight_of_injective injective) known hash_eq.symm]
  rfl

include sound

theorem Minted.certifies {i : Fin n} (minted : Minted (net i).trace qc)
    (known : blk ∈ knownBlocks b0 net) (hash_eq : qc.blockHash = blk.hash) :
    .proposed blk ∈ (net i).trace ∧ Certifies net qc blk := by
  obtain ⟨tally, built⟩ := minted.built
  obtain ⟨other, proposed, certifies⟩ := sound.votes.built i qc tally built
  obtain rfl := injective other (known_of_proposed proposed) blk known
    (certifies.hash_eq.symm.trans hash_eq)
  exact ⟨proposed, certifies⟩

theorem cast_of_mem_voters {k : Fin n} (known : blk ∈ knownBlocks b0 net)
    (voted : k ∈ voters net blk.hash) : blk ∈ ballots (net k).trace := by
  obtain ⟨ballot, cast, hash_eq⟩ := mem_voters.mp voted
  obtain ⟨j, proposed⟩ := sound.votes.voted k ballot cast
  obtain rfl := injective ballot (known_of_proposed proposed) blk known hash_eq
  exact cast

theorem exists_minted (certified : (netChain b0 net).Certified blk) (not_genesis : blk ≠ b0) :
    ∃ i qc, Minted (net i).trace qc ∧ .proposed blk ∈ (net i).trace ∧ Certifies net qc blk := by
  obtain ⟨known, is_genesis | ⟨i, qc, minted, hash_eq⟩⟩ := certified
  · exact absurd is_genesis not_genesis
  · exact ⟨i, qc, minted, minted.certifies injective sound known hash_eq⟩

end

theorem Sound.height_ne_zero (sound : Sound signer roleStore b0 net) (no_wrap : NoWrap b0 net)
    {i : Fin n} (proposed : .proposed blk ∈ (net i).trace) : blk.height ≠ 0 := by
  obtain ⟨-, parent, known, -, height_eq⟩ := sound.certs.proposed i blk proposed
  rw [height_eq]
  exact no_wrap.heights parent known

section

variable (genesis : Genesis params roleStore b0 q0)
include injective sound genesis

theorem parent_certified {parent : Block} (hangs : Hangs b0 net blk parent) :
    (netChain b0 net).Certified parent ∧ ∃ qc, blk.quorumCert = some qc ∧
      certPrio (· ∈ knownBlocks b0 net) qc = (netChain b0 net).prio parent := by
  obtain ⟨i, proposed⟩ := (mem_knownBlocks.mp hangs.child_known).resolve_left hangs.not_genesis
  obtain ⟨⟨qc, cert_eq, issued, for_parent⟩, -⟩ := sound.certs.proposed i blk proposed
  have hash_eq := for_parent.trans hangs.hash_eq.symm
  rcases issued with ⟨genesis_hash, genesis_view⟩ | ⟨j, minted⟩
  · obtain rfl := injective parent hangs.parent_known b0 (genesis_known b0 net)
      (hash_eq.symm.trans genesis_hash)
    exact ⟨⟨hangs.parent_known, Or.inl rfl⟩, qc, cert_eq, certPrio_eq_prio injective
      hangs.parent_known hash_eq (genesis_view.trans genesis.view_eq.symm)⟩
  · obtain ⟨-, certifies⟩ := minted.certifies injective sound hangs.parent_known hash_eq
    exact ⟨⟨hangs.parent_known, Or.inr ⟨j, qc, minted, hash_eq⟩⟩, qc, cert_eq,
      certPrio_eq_prio injective hangs.parent_known hash_eq certifies.view_eq⟩

omit genesis in
theorem height_eq_succ {parent : Block} (no_wrap : NoWrap b0 net) (certified : (netChain b0 net).Certified blk)
    (hangs : Hangs b0 net blk parent) : blk.height.toNat = parent.height.toNat + 1 := by
  obtain ⟨i, _, -, proposed, -⟩ := exists_minted injective sound certified hangs.not_genesis
  obtain ⟨-, other, other_known, hash_eq, height_eq⟩ := sound.certs.proposed i blk proposed
  obtain rfl := injective other other_known parent hangs.parent_known
    (hash_eq.trans hangs.hash_eq.symm)
  exact toNat_eq_succ height_eq (sound.height_ne_zero no_wrap proposed)

variable (order : NetOrder (· ∈ knownBlocks b0 net) net)
include order

/-- A certified proposal is not of a lower view than its parent: somebody has voted for both, and for
the parent first. -/
theorem parent_view_le {parent : Block} (certified : (netChain b0 net).Certified blk)
    (hangs : Hangs b0 net blk parent) : parent.view ≤ blk.view := by
  obtain ⟨i, _, -, proposed, certifies⟩ :=
    exists_minted injective sound certified hangs.not_genesis
  obtain ⟨⟨qc, cert_eq, -, for_parent⟩, -⟩ := sound.certs.proposed i blk proposed
  have hash_eq := for_parent.trans hangs.hash_eq.symm
  rcases sound.first i blk qc proposed cert_eq with ⟨genesis_hash, -⟩ | ⟨quorum, enough, first⟩
  · rw [injective parent hangs.parent_known b0 (genesis_known b0 net)
      (hash_eq.symm.trans genesis_hash), genesis.view_eq]
    exact UInt32.zero_le
  · obtain ⟨k, voted, in_quorum⟩ := exists_common_voter certifies.quorum enough
    have cast := cast_of_mem_voters injective sound hangs.child_known voted
    obtain ⟨earlier, part, before⟩ := (first k in_quorum).first.of_mem cast
    obtain ⟨ballot, ballot_mem, ballot_hash⟩ := before rfl
    obtain ⟨j, ballot_proposed⟩ := sound.votes.voted k ballot
      (part.subset (List.mem_cons_of_mem _ ballot_mem))
    obtain rfl := injective ballot (known_of_proposed ballot_proposed) parent hangs.parent_known
      (ballot_hash.trans hash_eq)
    have ordered := (order.votes k).ordered.sublist part.sublist
    exact ((List.pairwise_cons.mp ordered).1 ballot ballot_mem).1

theorem locked_of_order {k : Fin n} {blk' parent parent' : Block}
    (voted : blk ∈ ballots (net k).trace) (voted' : blk' ∈ ballots (net k).trace)
    (later : blk.view.toNat < blk'.view.toNat) (hangs : Hangs b0 net blk parent)
    (hangs' : Hangs b0 net blk' parent') : (netChain b0 net).prio parent ≤ (netChain b0 net).prio parent' := by
  obtain ⟨-, qc, cert_eq, prio_eq⟩ := parent_certified injective sound genesis hangs
  obtain ⟨-, qc', cert_eq', prio_eq'⟩ := parent_certified injective sound genesis hangs'
  have different : blk ≠ blk' := fun same => (same ▸ later).false
  rcases (order.votes k).total voted voted' different with ⟨view_le, -⟩ |
    ⟨-, target, target_eq, below, below_eq, prio_le⟩
  · exact absurd (UInt32.le_iff_toNat_le.mp view_le) (Nat.not_le_of_lt later)
  · obtain rfl := Option.some.inj (target_eq.symm.trans cert_eq')
    obtain rfl := Option.some.inj (below_eq.symm.trans cert_eq)
    rw [← prio_eq, ← prio_eq']
    exact prio_le

theorem ordered_of_order (few : n < 2 ^ 32) {blk' parent parent' : Block}
    (certified : (netChain b0 net).Certified blk) (certified' : (netChain b0 net).Certified blk')
    (different : blk ≠ blk') (same_view : blk.view.toNat = blk'.view.toNat)
    (hangs : Hangs b0 net blk parent) (hangs' : Hangs b0 net blk' parent') :
    (netChain b0 net).prio blk ≤ (netChain b0 net).prio parent' ∨
      (netChain b0 net).prio blk' ≤ (netChain b0 net).prio parent := by
  obtain ⟨i, qc, minted, proposed, certifies⟩ :=
    exists_minted injective sound certified hangs.not_genesis
  obtain ⟨j, qc', minted', proposed', certifies'⟩ :=
    exists_minted injective sound certified' hangs'.not_genesis
  obtain rfl : i = j :=
    sound.turn.proposer_unique few proposed proposed' (UInt32.toNat_inj.mp same_view)
  have above_prio : ∀ {qc qc' : QuorumCert} {blk blk' parent' : Block},
      Hangs b0 net blk' parent' → blk ∈ knownBlocks b0 net → Certifies net qc blk →
      Certifies net qc' blk' → ProposedAbove (· ∈ knownBlocks b0 net) (net i).trace qc qc' →
      (netChain b0 net).prio blk ≤ (netChain b0 net).prio parent' := by
    rintro qc qc' blk blk' parent' hangs' known certifies certifies' ⟨other, proposed, hash_eq,
      ref, ref_eq, prio_le⟩
    obtain rfl := injective other (known_of_proposed proposed) blk' hangs'.child_known
      (hash_eq.symm.trans certifies'.hash_eq)
    obtain ⟨-, target, target_eq, prio_eq⟩ := parent_certified injective sound genesis hangs'
    obtain rfl := Option.some.inj (target_eq.symm.trans ref_eq)
    rw [← prio_eq, ← certPrio_eq_prio injective known certifies.hash_eq certifies.view_eq]
    exact prio_le
  rcases (order.leads i).minted_order minted minted' with same | above | above
  · exact absurd (injective blk hangs.child_known blk' hangs'.child_known
      (certifies.hash_eq.symm.trans (same.trans certifies'.hash_eq))) different
  · exact Or.inl (above_prio hangs' hangs.child_known certifies certifies' above)
  · exact Or.inr (above_prio hangs hangs'.child_known certifies' certifies above)

/-- The blocks of the network keep to the rules of a chain of certified blocks. -/
theorem netChain_safe (few : n < 2 ^ 32) (no_wrap : NoWrap b0 net) : (netChain b0 net).Safe where
  root_prio := ⟨congrArg UInt32.toNat genesis.view_eq, congrArg UInt64.toNat genesis.height_eq⟩
  root_parent parent hangs := hangs.not_genesis rfl
  parent_unique block parent parent' hangs hangs' :=
    injective parent hangs.parent_known parent' hangs'.parent_known
      (hangs.hash_eq.trans hangs'.hash_eq.symm)
  certified_parent blk certified not_genesis := by
    obtain ⟨i, _, -, proposed, -⟩ := exists_minted injective sound certified not_genesis
    obtain ⟨-, parent, parent_known, hash_eq, -⟩ := sound.certs.proposed i blk proposed
    have hangs : Hangs b0 net blk parent := ⟨certified.1, parent_known, not_genesis, hash_eq⟩
    exact ⟨parent, hangs, (parent_certified injective sound genesis hangs).1,
      height_eq_succ injective sound no_wrap certified hangs,
      UInt32.le_iff_toNat_le.mp (parent_view_le injective sound genesis order certified hangs)⟩
  common_voter blk blk' certified certified' not_genesis not_genesis' := by
    obtain ⟨_, _, -, -, certifies⟩ := exists_minted injective sound certified not_genesis
    obtain ⟨_, _, -, -, certifies'⟩ := exists_minted injective sound certified' not_genesis'
    obtain ⟨k, voted, voted'⟩ := exists_common_voter certifies.quorum certifies'.quorum
    exact ⟨k, cast_of_mem_voters injective sound certified.1 voted,
      cast_of_mem_voters injective sound certified'.1 voted'⟩
  locked k blk blk' parent parent' voted voted' later hangs hangs' :=
    locked_of_order injective sound genesis order voted voted' later hangs hangs'
  ordered blk blk' parent parent' certified certified' different same_view hangs hangs' :=
    ordered_of_order injective sound genesis order few certified certified' different same_view
      hangs hangs'

end

end Safe

/-! ## Runs -/

/-- The blocks that a node has passed to `driver.commit`. -/
def commits (trace : List Event) : List Block :=
  trace.filterMap fun event =>
    match event with
    | .commit blk => some blk
    | _ => none

theorem mem_commits {trace : List Event} : blk ∈ commits trace ↔ .commit blk ∈ trace := by
  constructor
  · intro mem
    obtain ⟨event, event_mem, is_commit⟩ := List.mem_filterMap.mp mem
    cases event with
    | commit other => exact Option.some.inj is_commit ▸ event_mem
    | _ => cases is_commit
  · intro committed
    exact List.mem_filterMap.mpr ⟨_, committed, rfl⟩

theorem order_and_final (positions : Positions signer roleStore)
    (genesis : Genesis params roleStore b0 q0) (setup : NetSetup params signer roleStore b0 start)
    (one_height : OneHeight Known) (steps : ReflTransGen (NetStep params b0) start net)
    (known : ∀ blk ∈ knownBlocks b0 net, Known blk) (grow : ∀ i, ViewsGrow (net i).trace) :
    NetOrder Known net ∧ ∀ i blk, .commit blk ∈ (net i).trace → BelowFinal b0 net blk := by
  induction steps with
  | refl =>
      exact ⟨setup.order, fun i _ mem => absurd (setup.trace_eq i ▸ mem) List.not_mem_nil⟩
  | @tail before after earlier step ih =>
      have sound := setup.sound.steps positions genesis earlier
      have known_before := fun blk mem => known blk (NetStep.grows step |>.known mem)
      obtain ⟨order, final⟩ :=
        ih known_before fun i => (grow i).of_suffix (NetStep.grows step i)
      exact ⟨order.step positions sound one_height known_before grow step,
        belowFinal_step sound genesis one_height (known_before b0 (genesis_known b0 before)) order final
          step⟩

theorem BelowFinal.exists_final (below : BelowFinal b0 net blk) (injective : HashInjective b0 net)
    (sound : Sound signer roleStore b0 net) (no_wrap : NoWrap b0 net) (genesis : Genesis params roleStore b0 q0) :
    ∃ final, (netChain b0 net).Final final ∧ (netChain b0 net).Descends final blk := by
  obtain ⟨i, qc, child, target, minted, child_eq, child_known, target_known, parent_eq, view_eq,
    descends⟩ := below
  have proposed := (minted.certifies injective sound child_known child_eq).1
  have not_genesis : child ≠ b0 := by
    rintro rfl
    exact sound.height_ne_zero no_wrap proposed genesis.height_eq
  exact ⟨target, ⟨child, ⟨child_known, Or.inr ⟨i, qc, minted, child_eq⟩⟩,
    ⟨child_known, target_known, not_genesis, parent_eq⟩, congrArg UInt32.toNat view_eq⟩, descends⟩

/-- In every run of a network in which tokens are used while the leaf is the block of the high
certificate, peers answer requests by height with committed blocks, and no counter wraps around, no
two nodes commit different blocks of one height. -/
theorem commits_agree (few : n < 2 ^ 32) (positions : Positions signer roleStore)
    (started : ∀ i, Started params (signer i) roleStore b0 (start i)) {acts : List (Act n)}
    (run : NetRun params (Orderly b0) start acts net) (injective : HashInjective b0 net)
    (no_wrap : NoWrap b0 net) (i j : Fin n) :
    ∀ blk ∈ commits (net i).trace, ∀ blk' ∈ commits (net j).trace, blk.height = blk'.height →
      blk = blk' := by
  intro blk committed blk' committed' same_height
  obtain ⟨first, setup, steps⟩ := run.steps started
  obtain ⟨q0, -, -, -, genesis, -⟩ := setup i
  have sound := setup.sound.steps positions genesis steps
  obtain ⟨order, final⟩ := order_and_final positions genesis setup
    (oneHeight_of_injective injective) steps (fun _ mem => mem) no_wrap.views
  have safe := netChain_safe injective sound genesis order few no_wrap
  obtain ⟨top, is_final, descends⟩ := (final i blk (mem_commits.mp committed)).exists_final
    injective sound no_wrap genesis
  obtain ⟨top', is_final', descends'⟩ := (final j blk' (mem_commits.mp committed')).exists_final
    injective sound no_wrap genesis
  exact safe.agreement is_final is_final' descends descends' (congrArg UInt64.toNat same_height)

/-! ## A proposal under a block without a certificate -/

/-- The flags of the package. -/
def fourParams : Params := ⟨transparentCrypto, ⟨true, false, false, 500, 0⟩⟩

def fourSigners (i : Fin 4) : Signer := transparentSigner (UInt8.ofNat (i + 1))

/-- Four validators with equal stake. -/
def fourRoles : RoleStore :=
  RoleStore.ofGenesis (List.ofFn fun i => (fourSigners i).pubKey) [4, 4, 4, 4] 4

/-- A genesis block of the first validator. -/
def fourGenesis : Block :=
  Block.sign transparentCrypto (fourSigners 0)
    { hash := [], view := 0, height := 0, parentHash := [], execHeight := 0, merkleRoot := []
      timestamp := 0, transactions := [], quorumCert := none, signature := none } none

def fourCert : QuorumCert :=
  QuorumCert.build (fourSigners 0) (List.ofFn fun i => fourGenesis.vote (fourSigners i) 2)

/-- The four nodes after the genesis block. -/
def fourNodes : Net 4 := fun i =>
  Program.final (setupWindow fourParams fourCert)
    (setupNode fourParams (fourSigners i) fourRoles (genesisStore fourGenesis fourCert [] [])
      newTxStore fourGenesis fourGenesis fourCert)

theorem fourSigners_positions : Positions fourSigners fourRoles := ⟨rfl, by decide⟩

theorem fourNodes_started (i : Fin 4) : Started fourParams (fourSigners i) fourRoles fourGenesis (fourNodes i) := by
  refine ⟨fourCert, [], [], newTxStore, ⟨rfl, rfl, rfl, by decide, rfl, rfl, rfl, by decide⟩,
    Prod.ext ?_ rfl⟩
  revert i
  decide +kernel

theorem silentEnv_peersAnswer (net : Net n) : PeersAnswer net silentEnv where
  requestBlock _ _ _ _ answer := nomatch answer
  requestBlockByHeight _ _ _ _ answer := nomatch answer
  execute _ _ _ _ := rfl

theorem silentEnv_orderly (net : Net n) (act : Act n) (leaf : decide (net.OnLeaf act) = true) :
    Orderly b0 net act silentEnv where
  toPeersAnswer := silentEnv_peersAnswer net
  committed _ _ _ _ answer := nomatch answer
  leaf := of_decide_eq_true leaf

/-- Validator 1 leads view 1 with a first block that is certified there.  Late messages of the change
to view 1 make it propose a second block as for a new view, and then the token of the first block a
third one under the second, which has no certificate.  The votes for the third block commit the second
at validator 1.  Validator 2 leads view 2 and knows of the first certificate alone. -/
def conflictActs : List (Act 4) :=
  [.leaderTimeout 0, .leaderTimeout 2, .leaderTimeout 3, .viewTimeout 0, .viewTimeout 2,
    .leaderTimeout 1, .deliver 1 0 1, .deliver 1 2 1, .deliver 1 3 1, .deliver 1 0 3,
    .deliver 0 1 10, .deliver 2 1 10, .deliver 3 1 10, .deliver 1 0 7, .deliver 1 2 7,
    .deliver 1 2 3, .propose 1,
    .deliver 0 1 21, .deliver 2 1 21, .deliver 0 1 23, .deliver 2 1 23, .deliver 1 0 14,
    .deliver 1 2 14,
    .leaderTimeout 0, .leaderTimeout 3, .leaderTimeout 2, .deliver 2 0 16, .deliver 2 3 7,
    .deliver 0 2 25, .deliver 3 2 25, .deliver 2 0 20, .deliver 2 3 12, .propose 2,
    .deliver 0 2 29, .deliver 3 2 29, .deliver 2 0 24, .deliver 2 3 16]

/-- Two nodes have committed different blocks of one height. -/
def Conflict (left right : Node) : Prop :=
  ∃ blk ∈ commits left.trace, ∃ blk' ∈ commits right.trace,
    blk.height = blk'.height ∧ blk.hash ≠ blk'.hash

instance (left right : Node) : Decidable (Conflict left right) :=
  inferInstanceAs (Decidable (∃ blk ∈ commits left.trace, ∃ blk' ∈ commits right.trace,
    blk.height = blk'.height ∧ blk.hash ≠ blk'.hash))

/-- Two validators commit different blocks of one height. -/
theorem conflicting_commits :
    Positions fourSigners fourRoles ∧
    (∀ i, Started fourParams (fourSigners i) fourRoles fourGenesis (fourNodes i)) ∧
    ∃ net, NetRun fourParams (fun net _ env => PeersAnswer net env) fourNodes
        conflictActs.reverse net ∧
      HashInjective fourGenesis net ∧ Conflict (net 1) (net 2) := by
  have played : (fourNodes.play fourParams silentEnv (fun _ _ => true) conflictActs).any (fun net =>
      decide (HashInjective fourGenesis net ∧ Conflict (net 1) (net 2))) = true := by
    decide +kernel
  obtain ⟨net, run, holds⟩ := exists_run_of_play (fun net _ _ => silentEnv_peersAnswer net)
    (by decide) played
  exact ⟨fourSigners_positions, fourNodes_started, net, run, of_decide_eq_true holds⟩

/-- Validator 1 leads view 1 without late messages: its first block is committed when the second is
certified, and validator 0 follows with the third. -/
def agreeingActs : List (Act 4) :=
  [.leaderTimeout 0, .leaderTimeout 2, .leaderTimeout 3, .leaderTimeout 1, .deliver 1 0 1,
    .deliver 1 2 1, .deliver 0 1 10, .deliver 2 1 10, .deliver 1 0 5, .deliver 1 2 5, .propose 1,
    .deliver 0 1 14, .deliver 2 1 14, .deliver 1 0 9, .deliver 1 2 9, .propose 1, .deliver 0 1 20]

/-- The commits of that run agree. -/
theorem commits_agree_fourNodes :
    ∃ net, NetRun fourParams (Orderly fourGenesis) fourNodes agreeingActs.reverse net ∧
      (commits (net 0).trace ≠ [] ∧ commits (net 1).trace ≠ []) ∧
      ∀ blk ∈ commits (net 0).trace, ∀ blk' ∈ commits (net 1).trace, blk.height = blk'.height →
        blk = blk' := by
  have played : (fourNodes.play fourParams silentEnv (fun net act => decide (net.OnLeaf act))
      agreeingActs).any (fun net => decide (HashInjective fourGenesis net ∧ NoWrap fourGenesis net ∧
        commits (net 0).trace ≠ [] ∧ commits (net 1).trace ≠ [])) = true := by
    decide +kernel
  obtain ⟨net, run, holds⟩ := exists_run_of_play silentEnv_orderly (by decide) played
  obtain ⟨injective, no_wrap, committed⟩ := of_decide_eq_true holds
  exact ⟨net, run, committed, commits_agree (by decide) fourSigners_positions fourNodes_started run
    injective no_wrap 0 1⟩

end SvpChain.Consensus
