import SvpChain.Core.Binding

/-!
# What an accepted certificate binds

`QuorumCert.Validate` walks over the signatures and reads the quota at each position, while the sum
of the quotas was taken over all of them when the message was decoded.  The two lists are separate
fields of the message.  An accepted certificate binds its quotas exactly when the lists are equally
long and their sum does not wrap.
-/

namespace SvpChain.Core

open Program

variable {crypto : Crypto} {data : PbQuorumCert} {store : RoleStore}

/-- A signature over the block hash, the view and one quota. -/
def SignedQuota (crypto : Crypto) (data : PbQuorumCert) (sig : Signature) (quota : UInt64) : Prop :=
  sig.verify crypto (appendUint64 (appendUint32 data.blockHash data.view) quota) = true

/-- What the signature loop has checked when it ends without an error. -/
structure Checked (crypto : Crypto) (store : RoleStore) (data : PbQuorumCert)
    (sigs : List Signature) (quotas : List UInt64) (seen : List Bytes) : Prop where
  signed : List.Forall₂ (SignedQuota crypto data) sigs (quotas.take sigs.length)
  distinct : (sigs.map fun sig => sig.pubKey.key).Nodup
  fresh : ∀ sig ∈ sigs, sig.pubKey.key ∉ seen
  validators : ∀ sig ∈ sigs, store.isValidator sig.pubKey = true

theorem Checked.cons {sig : Signature} {sigs : List Signature} {quota : UInt64}
    {quotas : List UInt64} {seen : List Bytes}
    (checked : Checked crypto store data sigs quotas (sig.pubKey.key :: seen))
    (unseen : sig.pubKey.key ∉ seen) (validator : store.isValidator sig.pubKey = true)
    (signed : SignedQuota crypto data sig quota) : Checked crypto store data (sig :: sigs) (quota :: quotas) seen where
  signed := .cons signed checked.signed
  distinct := by
    refine List.nodup_cons.mpr ⟨?_, checked.distinct⟩
    intro repeated
    obtain ⟨other, mem, same⟩ := List.mem_map.mp repeated
    exact checked.fresh other mem (same ▸ List.mem_cons_self)
  fresh := by
    intro other mem
    rcases List.mem_cons.mp mem with rfl | mem
    · exact unseen
    · exact fun in_seen => checked.fresh other mem (List.mem_cons_of_mem _ in_seen)
  validators := by
    intro other mem
    rcases List.mem_cons.mp mem with rfl | mem
    · exact validator
    · exact checked.validators other mem

/-- The loop leaves the role store alone, ends without an error only after these checks, and faults only
when the quotas run out before the signatures. -/
theorem wp_validateSigs (sigs : List Signature) (quotas : List UInt64) (seen : List Bytes) :
    wp (QuorumCert.validateSigs crypto data sigs quotas seen)
      (fun _ after => after = store ∧ Checked crypto store data sigs quotas seen)
      (fun halt after => after = store ∧ ∀ reason, halt = .fault reason → quotas.length < sigs.length) store := by
  induction sigs generalizing quotas seen with
  | nil =>
      have checked : Checked crypto store data [] quotas seen :=
        ⟨.nil, List.nodup_nil, by simp, by simp⟩
      exact ⟨rfl, checked⟩
  | cons sig sigs ih =>
      simp only [QuorumCert.validateSigs, wp_bind, wp_throwIf, wp_get, true_and]
      refine ⟨fun _ _ raised => (by cases raised), fun unseen => ?_⟩
      refine ⟨fun _ _ raised => (by cases raised), fun validator => ?_⟩
      cases quotas with
      | nil => exact ⟨rfl, fun _ _ => Nat.succ_pos _⟩
      | cons quota quotas =>
          simp only [wp_bind, wp_throwIf, true_and]
          refine ⟨fun _ _ raised => (by cases raised), fun signed => ?_⟩
          refine wp_mono (ih quotas (sig.pubKey.key :: seen)) ?_ ?_
          · rintro _ after ⟨rfl, checked⟩
            exact ⟨rfl, checked.cons unseen (by simpa using validator)
              (by simpa [SignedQuota] using signed)⟩
          · intro _ _ stopped
            exact ⟨stopped.1, fun reason raised => Nat.succ_lt_succ (stopped.2 reason raised)⟩

theorem checked_cons_iff {sig : Signature} {sigs : List Signature} {quota : UInt64}
    {quotas : List UInt64} {seen : List Bytes} : Checked crypto store data (sig :: sigs) (quota :: quotas) seen ↔
      sig.pubKey.key ∉ seen ∧ store.isValidator sig.pubKey = true ∧ SignedQuota crypto data sig quota ∧
        Checked crypto store data sigs quotas (sig.pubKey.key :: seen) := by
  constructor
  · intro checked
    obtain ⟨signed, rest⟩ := List.forall₂_cons.mp checked.signed
    obtain ⟨new, distinct⟩ := List.nodup_cons.mp checked.distinct
    refine ⟨checked.fresh sig List.mem_cons_self, checked.validators sig List.mem_cons_self, signed,
      rest, distinct, ?_, fun other mem => checked.validators other (List.mem_cons_of_mem _ mem)⟩
    intro other mem in_seen
    rcases List.mem_cons.mp in_seen with same | in_seen
    · exact new (List.mem_map.mpr ⟨other, mem, same⟩)
    · exact checked.fresh other (List.mem_cons_of_mem _ mem) in_seen
  · rintro ⟨unseen, validator, signed, checked⟩
    exact checked.cons unseen validator signed

theorem wp_validateSigs_iff (sigs : List Signature) (quotas : List UInt64) (seen : List Bytes)
    {post : Unit → RoleStore → Prop} :
    wp (QuorumCert.validateSigs crypto data sigs quotas seen) post (fun _ _ => False) store ↔
      Checked crypto store data sigs quotas seen ∧ post () store := by
  induction sigs generalizing quotas seen with
  | nil =>
      have checked : Checked crypto store data [] quotas seen :=
        ⟨.nil, List.nodup_nil, by simp, by simp⟩
      exact ⟨fun holds => ⟨checked, holds⟩, fun holds => holds.2⟩
  | cons sig sigs ih =>
      simp only [QuorumCert.validateSigs, wp_bind, wp_throwIf_false, wp_get]
      cases quotas with
      | nil => exact ⟨fun holds => holds.2.2.elim, fun holds => by cases holds.1.signed⟩
      | cons quota quotas =>
          simp only [wp_bind, wp_throwIf_false, ih, checked_cons_iff, SignedQuota,
            Bool.not_eq_false, and_assoc]

namespace QuorumCert

/-- What `Validate` checks of a certificate besides the number of its signatures. -/
structure WellSigned (crypto : Crypto) (store : RoleStore) (qc : QuorumCert) : Prop where
  sigs : Checked crypto store qc.data qc.sigs qc.data.quotas []
  proposer : ∃ sig, newSignature qc.data.signature = .ok sig ∧ store.isValidator sig.pubKey = true ∧
    sig.verify crypto (appendUint32 qc.data.blockHash qc.data.view) = true

/-- `Validate` accepts a certificate exactly when it is well signed, by a majority, or by one validator
less while the grace period lasts. -/
theorem validate_eq_ok_iff (qc : QuorumCert) :
    (qc.validate crypto store).1 = .ok () ↔
      (if 0 < store.graceHeight - 1 then store.majorityValidatorCount - 1
        else store.majorityValidatorCount) ≤ qc.sigs.length ∧ qc.WellSigned crypto store := by
  rw [eq_ok_iff_wp]
  have checked_iff (graceHeight : Nat) :
      Checked crypto { store with graceHeight := graceHeight } qc.data qc.sigs qc.data.quotas [] ↔
        Checked crypto store qc.data qc.sigs qc.data.quotas [] :=
    ⟨fun checked => ⟨checked.signed, checked.distinct, checked.fresh, checked.validators⟩,
      fun checked => ⟨checked.signed, checked.distinct, checked.fresh, checked.validators⟩⟩
  simp only [validate, RoleStore.decAndGetGrace, wp_bind, wp_modify, wp_gets, wp_get, wp_throwIf_false,
    wp_validateSigs_iff, checked_iff, not_lt]
  refine and_congr_right fun _ => ?_
  constructor
  · rintro ⟨checked, holds⟩
    cases read : newSignature qc.data.signature with
    | error reason => simp [read, ofExcept] at holds
    | ok sig =>
        simp only [read, ofExcept, wp_bind, wp_pure, wp_throwIf_false, Bool.not_eq_false] at holds
        exact ⟨checked, sig, read, holds.1, holds.2.1⟩
  · rintro ⟨checked, sig, read, validator, signed⟩
    simp only [read, ofExcept, wp_bind, wp_pure, wp_throwIf_false, Bool.not_eq_false]
    exact ⟨checked, validator, signed, trivial⟩

/-- A certificate whose quotas are bound by its signatures. -/
structure Binds (crypto : Crypto) (store : RoleStore) (qc : QuorumCert) : Prop where
  /-- Each signer signed the block hash, the view and the quota in its own place. -/
  signed : List.Forall₂ (SignedQuota crypto qc.data) qc.sigs qc.data.quotas
  distinct : (qc.sigs.map Signature.pubKey).Nodup
  validators : ∀ sig ∈ qc.sigs, store.isValidator sig.pubKey = true
  exact_sum : qc.sumQuota.toNat = (qc.data.quotas.map UInt64.toNat).sum

/-- `Validate` ends without a fault, and only binding certificates pass. -/
def Sound (crypto : Crypto) (store : RoleStore) (qc : QuorumCert) : Prop :=
  wp (qc.validate crypto) (fun _ _ => qc.Binds crypto store)
    (fun halt _ => ∀ reason, halt ≠ .fault reason) store

/-- `Validate` returns an error value. -/
def Rejected (crypto : Crypto) (store : RoleStore) (qc : QuorumCert) : Prop :=
  ∃ reason, (qc.validate crypto store).1 = .error (.error reason)

/-- The quotas and the signatures are equally many and the quotas add up below `2 ^ 64`. -/
def Aligned (qc : QuorumCert) : Prop :=
  qc.data.quotas.length = qc.sigs.length ∧ (qc.data.quotas.map UInt64.toNat).sum < 2 ^ 64

theorem wp_validate (qc : QuorumCert) :
    wp (qc.validate crypto)
      (fun _ after => after = { store with graceHeight := store.graceHeight - 1 } ∧
        Checked crypto store qc.data qc.sigs qc.data.quotas [])
      (fun halt after => after = { store with graceHeight := store.graceHeight - 1 } ∧
        ∀ reason, halt = .fault reason → qc.data.quotas.length < qc.sigs.length)
      store := by
  have errors : ∀ (reason : CoreError) (after : Fault),
      Halt.error reason = Halt.fault after → qc.data.quotas.length < qc.sigs.length :=
    fun _ _ raised => nomatch raised
  simp only [validate, RoleStore.decAndGetGrace, wp_bind, wp_modify, wp_gets, wp_get, wp_throwIf,
    true_and]
  refine ⟨fun _ => errors _, fun _ => ?_⟩
  refine wp_mono (wp_validateSigs qc.sigs qc.data.quotas []) ?_ fun _ _ stopped => stopped
  rintro _ after ⟨rfl, checked⟩
  -- the counter of the grace period is not read by `IsValidator`
  have checked : Checked crypto store qc.data qc.sigs qc.data.quotas [] :=
    ⟨checked.signed, checked.distinct, checked.fresh, checked.validators⟩
  cases newSignature qc.data.signature with
  | error reason => exact ⟨rfl, errors reason⟩
  | ok sig =>
      simp only [ofExcept, wp_bind, wp_pure, wp_throwIf, true_and]
      exact ⟨fun _ => errors _, fun _ => ⟨fun _ => errors _, fun _ => checked⟩⟩

private theorem toNat_sum_of_lt (quotas : List UInt64) (bound : (quotas.map UInt64.toNat).sum < 2 ^ 64) :
    quotas.sum.toNat = (quotas.map UInt64.toNat).sum := by
  induction quotas with
  | nil => rfl
  | cons quota quotas ih =>
      simp only [List.map_cons, List.sum_cons] at bound ⊢
      rw [UInt64.toNat_add, ih (by omega), Nat.mod_eq_of_lt bound]

theorem sumQuota_of_setData {qc : QuorumCert} (decoded : setData data = .ok qc) : qc.sumQuota = qc.data.quotas.sum := by
  unfold setData at decoded
  cases sigs : newSigList data.signatures with
  | error reason => simp [sigs, bind, Except.bind] at decoded
  | ok sigs' =>
      cases signature : newSignature data.signature with
      | error reason => simp [sigs, signature, bind, Except.bind] at decoded
      | ok signature' =>
          simp only [sigs, signature, bind, Except.bind, pure, Except.pure] at decoded
          obtain rfl := Except.ok.inj decoded
          rfl

theorem Checked.binds {qc : QuorumCert}
    (checked : Checked crypto store qc.data qc.sigs qc.data.quotas []) (aligned : qc.Aligned)
    (sum_eq : qc.sumQuota = qc.data.quotas.sum) : qc.Binds crypto store where
  signed := by
    have all : qc.data.quotas.take qc.sigs.length = qc.data.quotas :=
      List.take_of_length_le aligned.1.le
    exact all ▸ checked.signed
  distinct := by
    refine List.Nodup.of_map PublicKey.key ?_
    rw [List.map_map]
    exact checked.distinct
  validators := checked.validators
  exact_sum := by rw [sum_eq, toNat_sum_of_lt _ aligned.2]

theorem Binds.aligned {qc : QuorumCert} (binds : qc.Binds crypto store) : qc.Aligned :=
  ⟨binds.signed.length_eq.symm, binds.exact_sum ▸ qc.sumQuota.toNat_lt⟩

end QuorumCert

/-- A certificate message for the block hash `[1]`, signed once by `transparentSigner 7` with quota
one, that carries the given quotas. -/
def transparentCert (quotas : List UInt64) : PbQuorumCert :=
  let signed := appendUint32 [1] 2
  { view := 2
    blockHash := [1]
    quotas := quotas
    signatures := [((transparentSigner 7).sign (appendUint64 signed 1)).data]
    signature := some ((transparentSigner 7).sign signed).data }

/-- The decoded form of `transparentCert`. -/
def transparentQC (quotas : List UInt64) : QuorumCert :=
  let signed := appendUint32 [1] 2
  ⟨transparentCert quotas, quotas.sum, [(transparentSigner 7).sign (appendUint64 signed 1)],
    (transparentSigner 7).sign signed⟩

end SvpChain.Core
