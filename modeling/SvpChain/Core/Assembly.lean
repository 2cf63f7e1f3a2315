import SvpChain.Core.Certificate

/-!
# Certificates assembled from votes

`QuorumCert.Build` copies the quota and the signature of every vote in the order it is given and takes
the block hash and the view from the first one that has a block hash.  For votes of distinct validators for one block, each
with a valid signature, the result passes `Validate` whatever that order is, and `FindVote` reads the
votes back.
-/

namespace SvpChain.Core

open Program

variable {crypto : Crypto} {store : RoleStore} {signer : Signer} {blk : Block} {vote : Vote}
  {votes tally : List Vote}

/-! ## Votes -/

/-- The signatures of a key pair pass the check with its public key. -/
def Signer.Correct (crypto : Crypto) (signer : Signer) : Prop :=
  ∀ message, (signer.sign message).verify crypto message = true

/-- A vote as `Unmarshal` gives it. -/
def Vote.Decoded (vote : Vote) : Prop := Vote.setData vote.data = .ok vote

/-- A vote that passes `Validate` under a role store. -/
structure Vote.Valid (crypto : Crypto) (store : RoleStore) (vote : Vote) : Prop where
  decoded : vote.Decoded
  validator : store.isValidator vote.voter.pubKey = true
  signed : vote.voter.verify crypto
    (appendUint64 (appendUint32 vote.blockHash vote.view) vote.quota) = true

theorem Vote.Decoded.newSignature_eq (decoded : vote.Decoded) : newSignature vote.data.signature = .ok vote.voter := by
  unfold Vote.Decoded Vote.setData at decoded
  cases read : newSignature vote.data.signature with
  | error reason => rw [read] at decoded; cases decoded
  | ok sig =>
      rw [read] at decoded
      rw [← Except.ok.inj decoded]

theorem newSignature_data {data : Option PbSignature} {sig : Signature}
    (read : newSignature data = .ok sig) : newSignature (some sig.data) = .ok sig := by
  cases data with
  | none => cases read
  | some data =>
      have data_eq : sig.data = data := by
        change (newPublicKey data.pubKey).map _ = _ at read
        cases key : newPublicKey data.pubKey with
        | error reason => rw [key] at read; cases read
        | ok pubKey =>
            rw [key] at read
            rw [← Except.ok.inj read]
      rw [data_eq, read]

theorem newSignature_sign (signer : Signer) (message : Bytes) :
    newSignature (some (signer.sign message).data) = .ok (signer.sign message) := by
  have read : newPublicKey signer.pubKey.key = .ok signer.pubKey := by
    rw [newPublicKey, dif_pos signer.pubKey.size]
  change (newPublicKey signer.pubKey.key).map _ = _
  rw [read]
  rfl

theorem valid_vote (correct : signer.Correct crypto)
    (validator : store.isValidator signer.pubKey = true) (quota : UInt64) :
    (blk.vote signer quota).Valid crypto store where
  decoded := by
    unfold Vote.Decoded Vote.setData
    have read := newSignature_sign signer (appendUint64 (appendUint32 blk.hash blk.view) quota)
    simp only [Block.vote, read, Except.map]
  validator := validator
  signed := correct _

/-- `Validate` leaves the role store alone and refuses decoded votes that are not valid. -/
theorem wp_validateVote (decoded : vote.Decoded) :
    wp (vote.validate crypto) (fun _ after => after = store ∧ vote.Valid crypto store)
      (fun halt after => after = store ∧ ∃ reason, halt = .error reason) store := by
  simp only [Vote.validate, decoded.newSignature_eq, ofExcept, wp_bind, wp_pure, wp_get, wp_throwIf,
    true_and]
  refine ⟨fun _ => ⟨_, rfl⟩, fun validator => ⟨fun _ => ⟨_, rfl⟩, fun signed => ?_⟩⟩
  exact ⟨decoded, by simpa using validator, Bool.of_not_eq_false signed⟩

theorem Vote.Valid.wp_validate (valid : vote.Valid crypto store) :
    wp (vote.validate crypto) (fun _ after => after = store) (fun _ _ => False) store := by
  simp only [Vote.validate, valid.decoded.newSignature_eq, ofExcept, wp_bind, wp_pure, wp_get, wp_throwIf_false,
    and_true]
  exact ⟨by simp [valid.validator], (Bool.not_eq_false _).mpr valid.signed⟩

/-! ## Certificates -/

/-- Votes of distinct validators for one block. -/
structure Poll (crypto : Crypto) (store : RoleStore) (blk : Block) (votes : List Vote) : Prop where
  valid : ∀ vote ∈ votes, vote.Valid crypto store
  hash_eq : ∀ vote ∈ votes, vote.blockHash = blk.hash
  view_eq : ∀ vote ∈ votes, vote.view = blk.view
  distinct : (votes.map fun vote => vote.voter.pubKey).Nodup

theorem Poll.nil : Poll crypto store blk [] where
  valid _ mem := absurd mem List.not_mem_nil
  hash_eq _ mem := absurd mem List.not_mem_nil
  view_eq _ mem := absurd mem List.not_mem_nil
  distinct := List.nodup_nil

theorem Poll.append (poll : Poll crypto store blk votes) (valid : vote.Valid crypto store)
    (hash_eq : vote.blockHash = blk.hash) (view_eq : vote.view = blk.view)
    (fresh : vote.voter.pubKey ∉ votes.map fun other => other.voter.pubKey) :
    Poll crypto store blk (votes ++ [vote]) where
  valid := List.forall_mem_append.mpr ⟨poll.valid, List.forall_mem_singleton.mpr valid⟩
  hash_eq := List.forall_mem_append.mpr ⟨poll.hash_eq, List.forall_mem_singleton.mpr hash_eq⟩
  view_eq := List.forall_mem_append.mpr ⟨poll.view_eq, List.forall_mem_singleton.mpr view_eq⟩
  distinct := by
    rw [List.map_append, List.map_singleton]
    exact List.nodup_append.mpr ⟨poll.distinct, List.nodup_singleton _, fun key old other new same =>
      fresh (List.mem_singleton.mp new ▸ same ▸ old)⟩

theorem Poll.perm (poll : Poll crypto store blk tally) (order : votes.Perm tally) : Poll crypto store blk votes where
  valid vote mem := poll.valid vote (order.subset mem)
  hash_eq vote mem := poll.hash_eq vote (order.subset mem)
  view_eq vote mem := poll.view_eq vote (order.subset mem)
  distinct := (order.map _).nodup_iff.mpr poll.distinct

namespace QuorumCert

/-- `QuorumCert.Marshal` with an encoding of the message. -/
def marshal (encode : PbQuorumCert → Bytes) (qc : QuorumCert) : Bytes := encode qc.data

/-- `QuorumCert.Unmarshal` with a decoding of the message. -/
def unmarshal (decode : Bytes → Option PbQuorumCert) (bytes : Bytes) : Option QuorumCert :=
  (decode bytes).bind fun data => (setData data).toOption

/-- A certificate of a poll on a block. -/
structure OfPoll (crypto : Crypto) (store : RoleStore) (blk : Block) (votes : List Vote)
    (qc : QuorumCert) : Prop where
  /-- The certificate survives `Marshal` and `Unmarshal`, if the encoding of messages is faithful. -/
  survives : ∀ encode decode, (∀ data, decode (encode data) = some data) →
    unmarshal decode (qc.marshal encode) = some qc
  passes : (qc.validate crypto store).1 = .ok ()
  blockHash_eq : qc.blockHash = blk.hash
  view_eq : qc.view = blk.view
  /-- Every voter is listed once. -/
  voters : (qc.sigs.map Signature.pubKey).Perm (votes.map fun vote => vote.voter.pubKey)
  distinct : (qc.sigs.map Signature.pubKey).Nodup
  /-- Every signer finds its own vote. -/
  found : ∀ signer, ∀ vote ∈ votes, vote.voter.pubKey = signer.pubKey → qc.findVote signer = some vote.quota
  absent : ∀ signer, signer.pubKey ∉ (votes.map fun vote => vote.voter.pubKey) →
    qc.findVote signer = some 0

/-! ## Assembly -/

theorem newSigList_voters (decoded : ∀ vote ∈ votes, vote.Decoded) :
    newSigList (votes.map fun vote => vote.voter.data) = .ok (votes.map Vote.voter) := by
  induction votes with
  | nil => rfl
  | cons vote votes ih =>
      have read := newSignature_data (decoded vote List.mem_cons_self).newSignature_eq
      have rest := ih fun other mem => decoded other (List.mem_cons_of_mem _ mem)
      unfold newSigList at rest ⊢
      rw [List.map_cons, List.mapM_cons, read]
      simp only [bind, Except.bind, rest, pure, Except.pure, List.map_cons]

/-- Once a block hash is set, the other votes are not read. -/
theorem foldl_target {target : UInt32 × Bytes} (set : target.2 ≠ []) (votes : List Vote) :
    votes.foldl (fun target vote => if target.2 = [] then (vote.view, vote.blockHash) else target) target =
      target := by
  induction votes with
  | nil => rfl
  | cons vote votes ih => rw [List.foldl_cons, if_neg set, ih]

theorem buildTarget_cons (vote : Vote) (votes : List Vote) :
    buildTarget (vote :: votes) =
      votes.foldl (fun target vote => if target.2 = [] then (vote.view, vote.blockHash) else target)
        (vote.view, vote.blockHash) := by
  rw [buildTarget, List.foldl_cons, if_pos rfl]

theorem buildTarget_cons_of_ne {vote : Vote} (set : vote.blockHash ≠ []) (votes : List Vote) :
    buildTarget (vote :: votes) = (vote.view, vote.blockHash) := by
  rw [buildTarget_cons, foldl_target set]

theorem exists_of_buildTarget (set : (buildTarget votes).2 ≠ []) :
    ∃ first ∈ votes, first.blockHash ≠ [] ∧ buildTarget votes = (first.view, first.blockHash) := by
  unfold buildTarget at set ⊢
  generalize target_eq : ((0, []) : UInt32 × Bytes) = target at set ⊢
  have unset : target.2 = [] := target_eq ▸ rfl
  clear target_eq
  induction votes generalizing target with
  | nil => exact absurd unset set
  | cons vote votes ih =>
      rw [List.foldl_cons, if_pos unset] at set ⊢
      by_cases empty : vote.blockHash = []
      · obtain ⟨first, mem, first_set, eq⟩ := ih _ set empty
        exact ⟨first, List.mem_cons_of_mem _ mem, first_set, eq⟩
      · exact ⟨vote, List.mem_cons_self, empty, foldl_target empty votes⟩

theorem buildTarget_ne (mem : vote ∈ votes) (set : vote.blockHash ≠ []) : (buildTarget votes).2 ≠ [] := by
  obtain ⟨before, after, rfl⟩ := List.append_of_mem mem
  rw [buildTarget, List.foldl_append, List.foldl_cons]
  split
  · rw [foldl_target set]
    exact set
  · next earlier =>
      rw [foldl_target earlier]
      exact earlier

theorem buildTarget_eq (same : ∀ vote ∈ votes, (vote.view, vote.blockHash) = (blk.view, blk.hash))
    (nonempty : votes ≠ []) : buildTarget votes = (blk.view, blk.hash) := by
  obtain ⟨first, rest, rfl⟩ := List.exists_cons_of_ne_nil nonempty
  rw [buildTarget_cons, same first List.mem_cons_self]
  replace same := fun vote mem => same vote (List.mem_cons_of_mem first mem)
  clear nonempty
  induction rest with
  | nil => rfl
  | cons vote rest ih =>
      rw [List.foldl_cons, same vote List.mem_cons_self, ite_self]
      exact ih fun other mem => same other (List.mem_cons_of_mem vote mem)

theorem setData_build (decoded : ∀ vote ∈ votes, vote.Decoded) :
    setData (build signer votes).data = .ok (build signer votes) := by
  have sigs := newSigList_voters decoded
  have read := newSignature_sign signer (appendUint32 (buildTarget votes).2 (buildTarget votes).1)
  simp only [setData, build, sigs, read, bind, Except.bind, pure, Except.pure]

/-- What the signature loop of `Validate` checks of the votes that a certificate lists. -/
theorem checked_votes_iff {data : PbQuorumCert} (distinct : (votes.map fun vote => vote.voter.pubKey).Nodup)
    (validators : ∀ vote ∈ votes, store.isValidator vote.voter.pubKey = true) :
    Checked crypto store data (votes.map Vote.voter) (votes.map Vote.quota) [] ↔
      ∀ vote ∈ votes, SignedQuota crypto data vote.voter vote.quota := by
  have signed_iff : List.Forall₂ (SignedQuota crypto data) (votes.map Vote.voter)
      ((votes.map Vote.quota).take (votes.map Vote.voter).length) ↔
        ∀ vote ∈ votes, SignedQuota crypto data vote.voter vote.quota := by
    rw [List.take_of_length_le (by simp), List.forall₂_map_left_iff, List.forall₂_map_right_iff,
      List.forall₂_same]
  have keys : Function.Injective PublicKey.key := by
    rintro ⟨key, _⟩ ⟨_, _⟩ rfl
    rfl
  constructor
  · intro checked
    exact signed_iff.mp checked.signed
  · intro signed
    refine ⟨signed_iff.mpr signed, ?_, fun _ _ => List.not_mem_nil, ?_⟩
    · have distinct_keys := distinct.map keys
      rwa [List.map_map] at distinct_keys ⊢
    · intro sig mem
      obtain ⟨vote, vote_mem, rfl⟩ := List.mem_map.mp mem
      exact validators vote vote_mem

theorem checked_of_poll {data : PbQuorumCert} (poll : Poll crypto store blk votes)
    (hash_eq : data.blockHash = blk.hash) (view_eq : data.view = blk.view) :
    Checked crypto store data (votes.map Vote.voter) (votes.map Vote.quota) [] := by
  refine (checked_votes_iff poll.distinct fun vote mem => (poll.valid vote mem).validator).mpr ?_
  intro vote mem
  have signed := (poll.valid vote mem).signed
  rw [poll.hash_eq vote mem, poll.view_eq vote mem] at signed
  rw [SignedQuota, hash_eq, view_eq]
  exact signed

theorem findVoteIn_voters (target : PublicKey) (votes : List Vote) :
    findVoteIn target (votes.map Vote.voter) (votes.map Vote.quota) =
      some (((votes.find? fun vote => vote.voter.pubKey = target).map Vote.quota).getD 0) := by
  induction votes with
  | nil => rfl
  | cons vote votes ih =>
      by_cases same : vote.voter.pubKey = target
      · simp [findVoteIn, same]
      · simpa [findVoteIn, same] using ih

theorem findVote_of_mem (poll : Poll crypto store blk votes) {reader : Signer} (mem : vote ∈ votes)
    (own : vote.voter.pubKey = reader.pubKey) : (build signer votes).findVote reader = some vote.quota := by
  change findVoteIn reader.pubKey (votes.map Vote.voter) (votes.map Vote.quota) = _
  rw [findVoteIn_voters]
  cases found : votes.find? fun vote => vote.voter.pubKey = reader.pubKey with
  | none => exact absurd own (by simpa using List.find?_eq_none.mp found vote mem)
  | some other =>
      have other_own : other.voter.pubKey = reader.pubKey := by simpa using List.find?_some found
      have same : other = vote := List.inj_on_of_nodup_map poll.distinct (List.mem_of_find?_eq_some found)
        mem (other_own.trans own.symm)
      rw [same]
      rfl

theorem findVote_of_not_mem {reader : Signer} (absent : reader.pubKey ∉ votes.map fun vote => vote.voter.pubKey) :
    (build signer votes).findVote reader = some 0 := by
  change findVoteIn reader.pubKey (votes.map Vote.voter) (votes.map Vote.quota) = _
  have none_found : votes.find? (fun vote => vote.voter.pubKey = reader.pubKey) = none := by
    refine List.find?_eq_none.mpr fun vote mem own => absent ?_
    exact List.mem_map.mpr ⟨vote, mem, by simpa using own⟩
  rw [findVoteIn_voters, none_found]
  rfl

theorem ofPoll_build (poll : Poll crypto store blk tally) (order : votes.Perm tally)
    (enough : store.majorityValidatorCount ≤ tally.length) (correct : signer.Correct crypto)
    (validator : store.isValidator signer.pubKey = true) : (build signer votes).OfPoll crypto store blk tally := by
  have ordered := poll.perm order
  have enough_ordered : store.majorityValidatorCount ≤ votes.length := order.length_eq ▸ enough
  -- a majority is at least one vote, which gives the block hash and the view
  have nonempty : votes ≠ [] := by
    rintro rfl
    rw [RoleStore.majorityValidatorCount, RoleStore.majorityCount, List.length_nil] at enough_ordered
    omega
  have target_eq : buildTarget votes = (blk.view, blk.hash) := by
    refine buildTarget_eq (fun vote mem => ?_) nonempty
    rw [ordered.view_eq vote mem, ordered.hash_eq vote mem]
  have hash_eq : (build signer votes).data.blockHash = blk.hash := congrArg Prod.snd target_eq
  have view_eq : (build signer votes).data.view = blk.view := congrArg Prod.fst target_eq
  have decoded := fun vote mem => (ordered.valid vote mem).decoded
  refine ⟨?_, ?_, hash_eq, view_eq, ?_, ?_, ?_, ?_⟩
  · intro encode decode faithful
    rw [unmarshal, marshal, faithful, Option.bind_some, setData_build decoded]
    rfl
  · refine (validate_eq_ok_iff _).mpr ⟨?_, checked_of_poll ordered hash_eq view_eq, ?_⟩
    · have length_eq : (build signer votes).sigs.length = votes.length := List.length_map ..
      rw [length_eq]
      split
      · exact (Nat.sub_le _ _).trans enough_ordered
      · exact enough_ordered
    · exact ⟨_, newSignature_sign signer _, validator, correct _⟩
  · change (votes.map Vote.voter |>.map Signature.pubKey).Perm _
    rw [List.map_map]
    exact order.map _
  · change (votes.map Vote.voter |>.map Signature.pubKey).Nodup
    rw [List.map_map]
    exact ordered.distinct
  · intro reader vote mem own
    exact findVote_of_mem ordered (order.mem_iff.mpr mem) own
  · intro reader absent
    exact findVote_of_not_mem fun mem => absent ((order.map _).subset mem)

end QuorumCert

end SvpChain.Core
