import SvpChain.Core.Certificate
import SvpChain.Node.RoleStore

/-!
# Certificates against the validator table

`QuorumCert.Validate` uses the table in three ways: it counts the grace period down, it compares the
number of signatures with `MajorityValidatorCount`, and it looks every signer up in the map.  Every
signer it accepts is in the slice of validators, so that two majorities meet in more than a third of
the slice.  The grace period is not part of the committed state: after a validator has been added,
the first three certificates to be validated pass with one signature less, whichever they are.
-/

namespace SvpChain.Roles

open Core Program

variable {formats : Formats} {crypto : Crypto}

/-! ## The table as `Validate` sees it -/

/-- The table with its validators looked up by the bytes of their keys. A text that is not the text of
a key is never looked up. -/
def Table.byKey (formats : Formats) (store : Table) : RoleStore where
  validatorMap :=
    (store.validatorMap.filter fun entry =>
        formats.encodeToString (formats.decodeString entry.1) = entry.1).map fun entry =>
      (formats.decodeString entry.1, entry.2)
  validators := store.validators
  stakeQuotas := store.stakeQuotas
  quotaCount := store.quotaCount
  windowSize := store.windowSize
  graceHeight := store.graceHeight

theorem lookup_byKey (store : Table) (pubKey : PublicKey) : (store.byKey formats).validatorMap.lookup pubKey.key =
      store.validatorMap.lookup (formats.string pubKey) := by
  unfold Table.byKey
  induction store.validatorMap with
  | nil => rfl
  | cons entry entries ih =>
      obtain ⟨keyStr, position⟩ := entry
      by_cases canonical : formats.encodeToString (formats.decodeString keyStr) = keyStr
      · have same : (pubKey.key == formats.decodeString keyStr) = (formats.string pubKey == keyStr) := by
          rw [Bool.eq_iff_iff, beq_iff_eq, beq_iff_eq, Formats.string]
          constructor
          · rintro key_eq
            rw [key_eq, canonical]
          · rintro rfl
            exact (formats.decode_encode pubKey.key).symm
        rw [List.filter_cons_of_pos (by simpa using canonical), List.map_cons, List.lookup_cons,
          List.lookup_cons, same, ih]
      · have other : (formats.string pubKey == keyStr) = false := by
          rw [beq_eq_false_iff_ne]
          rintro rfl
          exact canonical (by rw [Formats.string, formats.decode_encode])
        rw [List.filter_cons_of_neg (by simpa using canonical), ih, List.lookup_cons, other]

theorem isValidator_byKey (store : Table) (pubKey : PublicKey) :
    (store.byKey formats).isValidator pubKey = store.isValidator (formats.string pubKey) := by
  rw [RoleStore.isValidator, lookup_byKey, Table.isValidator, if_neg (formats.string_ne_empty pubKey)]

namespace Table

/-- `MajorityValidatorCount`. -/
def majorityValidatorCount (store : Table) : Nat := RoleStore.majorityCount store.validators.length

/-- `DecAndGetGrace`. -/
def decAndGetGrace {ε : Type} : Program ε Table Nat := do
  Program.modify fun store => store.withPeers store.peers (store.graceHeight - 1)
  Program.gets graceHeight

/-- `QuorumCert.Validate` on the table. -/
def validate (formats : Formats) (crypto : Crypto) (qc : QuorumCert) : Program CoreError Table Unit :=
  Program.zoom (Table.byKey formats) (fun part store => store.withPeers store.peers part.graceHeight)
    id (qc.validate crypto)

/-- `Validate` returns no error. -/
def Accepts (formats : Formats) (crypto : Crypto) (store : Table) (qc : QuorumCert) : Prop :=
  (validate formats crypto qc store).1 = .ok ()

theorem accepts_iff {store : Table} {qc : QuorumCert} :
    store.Accepts formats crypto qc ↔
      (if 0 < store.graceHeight - 1 then store.majorityValidatorCount - 1
        else store.majorityValidatorCount) ≤ qc.sigs.length ∧
        qc.WellSigned crypto (store.byKey formats) := by
  have same : store.Accepts formats crypto qc ↔
      (qc.validate crypto (store.byKey formats)).1 = .ok () := by
    rw [Accepts, validate, eq_ok_iff_wp, eq_ok_iff_wp, wp_zoom]
    refine ⟨fun holds => wp_mono holds (fun _ _ _ => trivial) ?_,
      fun holds => wp_mono holds (fun _ _ _ => trivial) fun _ _ stopped => stopped.elim⟩
    intro halt _ stopped
    cases halt <;> exact stopped
  rw [same, QuorumCert.validate_eq_ok_iff]
  rfl

end Table

/-! ## Sequences of calls -/

/-- A call that reaches the table. -/
inductive RoleCall where
  | update (call : Call)
  | validate (qc : QuorumCert)

/-- The updates of a sequence of calls. -/
def updates : List RoleCall → List Call
  | [] => []
  | .update call :: calls => call :: updates calls
  | .validate _ :: calls => updates calls

/-- The program returns, with an error value or without one, and leaves this state behind. -/
def Returned {ε σ α : Type} (program : Program ε σ α) (state after : σ) : Prop :=
  program.final state = after ∧ ∀ reason, (program state).1 ≠ .error (.fault reason)

/-- The call returns and leaves this table behind. -/
def RoleCall.Step (formats : Formats) (crypto : Crypto) : RoleCall → Table → Table → Prop
  | .update call => Returned (call.run formats)
  | .validate qc => Returned (Table.validate formats crypto qc)

/-- A sequence of calls that all return. -/
inductive RoleRun (formats : Formats) (crypto : Crypto) : Table → List RoleCall → Table → Prop where
  | nil {store : Table} : RoleRun formats crypto store [] store
  | cons {store next after : Table} {call : RoleCall} {calls : List RoleCall}
      (step : call.Step formats crypto store next) (rest : RoleRun formats crypto next calls after) :
      RoleRun formats crypto store (call :: calls) after

theorem Returned.of_eq {ε σ α : Type} {program : Program ε σ α} {state after : σ} {value : α}
    (ending : program state = (.ok value, after)) : Returned program state after := by
  refine ⟨congrArg Prod.snd ending, fun reason raised => ?_⟩
  rw [ending] at raised
  exact nomatch raised

theorem Returned.holds {program : Program RoleError Table Unit} {spec : Table → Prop}
    {store after : Table} (returns : Returns program spec store)
    (returned : Returned program store after) : spec after := by
  obtain ⟨rfl, no_fault⟩ := returned
  unfold Returns wp at returns
  unfold final
  rcases ending : program store with ⟨result, after⟩
  rw [ending] at returns no_fault
  cases result with
  | ok value => exact returns
  | error halt =>
      cases halt with
      | error reason => exact returns reason rfl
      | fault reason => exact absurd rfl (no_fault reason)

/-- `Validate` counts the grace period down and writes nothing else. -/
theorem final_validate (qc : QuorumCert) (store : Table) : (Table.validate formats crypto qc).final store =
      store.withPeers store.peers (store.graceHeight - 1) := by
  have counted : wp (Table.validate formats crypto qc)
      (fun _ after => after = store.withPeers store.peers (store.graceHeight - 1))
      (fun _ after => after = store.withPeers store.peers (store.graceHeight - 1)) store := by
    rw [Table.validate, wp_zoom]
    refine wp_mono (QuorumCert.wp_validate qc) ?_ ?_
    · rintro _ after ⟨rfl, -⟩
      rfl
    · rintro halt after ⟨rfl, -⟩
      cases halt <;> rfl
  exact final_of_wp counted

/-- What holds of the empty table, and is kept when a validator is entered and when the peers are read,
holds of a new table. -/
theorem newRoleStore_induction {genesis : Genesis} {entries : List PeerEntry} {store : Table}
    (holds : Table → Prop) (built : Table.newRoleStore formats genesis entries = .ok store) (empty : holds
      { validatorMap := [], validators := [], stakeQuotas := genesis.stakeQuotas, quotaCount := 0
        windowSize := genesis.windowSize
        peers := List.replicate genesis.validators.length none
        graceHeight := 0 })
    (enter : ∀ (store : Table) (keyStr : String) (pubKey : PublicKey) (quota : UInt64),
      formats.decodeString keyStr = pubKey.key → holds store →
        holds { store.push keyStr pubKey quota with stakeQuotas := store.stakeQuotas })
    (setPeers : ∀ (store : Table) (peers : List (Option Peer)), holds store →
      holds (store.withPeers peers store.graceHeight)) : holds store := by
  have loaded_holds (texts : List String) : ∀ (quotas : List UInt64) (start after : Table),
      holds start → Table.loadValidators formats texts quotas start = .ok after → holds after := by
    induction texts with
    | nil =>
        intro quotas start after held loaded
        exact Except.ok.inj loaded ▸ held
    | cons keyStr texts ih =>
        intro quotas start after held loaded
        unfold Table.loadValidators at loaded
        split at loaded
        · exact nomatch loaded
        · exact nomatch loaded
        · rename_i pubKey quota rest read
          exact ih _ _ _ (enter start keyStr pubKey quota (key_of_stringToPubKey read) held) loaded
  unfold Table.newRoleStore at built
  dsimp only at built
  split at built
  · exact nomatch built
  · rename_i loaded_store loaded
    obtain ⟨peers, rfl⟩ := loadPeers_eq entries 0 loaded_store built
    exact setPeers _ _ (loaded_holds _ _ _ _ empty loaded)

/-! ## Two majorities -/

/-- Every key that `IsValidator` knows is in the slice of validators. -/
def Table.Covered (formats : Formats) (store : Table) : Prop :=
  ∀ pubKey, store.isValidator (formats.string pubKey) = true → pubKey ∈ store.validators

namespace Table.Covered

variable {store : Table} {keyStr : String} {pubKey : PublicKey}

theorem push (covered : store.Covered formats) (decoded : formats.decodeString keyStr = pubKey.key)
    (quota : UInt64) : (store.push keyStr pubKey quota).Covered formats := by
  intro other validator
  by_cases same : formats.string other = keyStr
  · have key_eq : other.key = pubKey.key := by
      rw [← decoded, ← same, Formats.string, formats.decode_encode]
    have own : other = pubKey := PublicKey.mk.injEq .. ▸ key_eq
    exact List.mem_append_right _ (own ▸ List.mem_cons_self)
  · have old : store.isValidator (formats.string other) = true := by
      simpa [Table.isValidator, Table.push, List.lookup_cons, beq_eq_false_iff_ne.mpr same] using validator
    exact List.mem_append_left _ (covered other old)

theorem remove (covered : store.Covered formats) {i : Nat} (at_i : store.validators[i]? = some pubKey)
    (quota : UInt64) : (store.remove i (formats.string pubKey) quota).Covered formats := by
  intro other validator
  obtain ⟨different, old⟩ := (isValidator_remove (formats.string pubKey) (formats.string other)).mp validator
  obtain ⟨j, at_j⟩ := List.mem_iff_getElem?.mp (covered other old)
  have elsewhere : j ≠ i := by
    rintro rfl
    rw [at_i, Option.some.injEq] at at_j
    exact different (congrArg formats.string at_j.symm)
  exact List.mem_eraseIdx_iff_getElem?.mpr ⟨j, elsewhere, at_j⟩

theorem leaves (covered : store.Covered formats) {after : Table} {call : Call}
    (leaves : call.Leaves formats store after) : after.Covered formats := by
  cases call with
  | add keyStr point topic quota =>
      rcases leaves with ⟨-, rfl⟩ | ⟨pubKey, peers, graceHeight, -, decoded, rfl⟩
      · exact covered
      · exact covered.push decoded quota
  | delete keyStr =>
      rcases leaves with ⟨peers, -, rfl⟩ | ⟨i, pubKey, quota, peers, at_i, rfl, -, rfl⟩
      · exact covered
      · exact covered.remove at_i quota

theorem step (covered : store.Covered formats) {after : Table} {call : RoleCall}
    (step : call.Step formats crypto store after) : after.Covered formats := by
  cases call with
  | update call => exact covered.leaves (Returned.holds (call.returns store) step)
  | validate qc =>
      obtain ⟨rfl, -⟩ := step
      rw [final_validate]
      exact covered

theorem run (covered : store.Covered formats) {after : Table} {calls : List RoleCall}
    (run : RoleRun formats crypto store calls after) : after.Covered formats := by
  induction run with
  | nil => exact covered
  | cons step _ ih => exact ih (covered.step step)

theorem newRoleStore {genesis : Genesis} {entries : List PeerEntry}
    (built : Table.newRoleStore formats genesis entries = .ok store) : store.Covered formats := by
  refine newRoleStore_induction (Table.Covered formats) built ?_ ?_ fun _ _ covered => covered
  · intro pubKey validator
    simp [Table.isValidator] at validator
  · intro store keyStr pubKey quota decoded covered
    exact covered.push decoded quota

end Table.Covered

/-- The keys that signed a certificate. -/
def signers (qc : QuorumCert) : Finset PublicKey := (qc.sigs.map Signature.pubKey).toFinset

theorem signers_of_wellSigned {store : Table} (covered : store.Covered formats) {qc : QuorumCert}
    (signed : qc.WellSigned crypto (store.byKey formats)) :
    (signers qc).card = qc.sigs.length ∧ signers qc ⊆ store.validators.toFinset := by
  constructor
  · have distinct : (qc.sigs.map Signature.pubKey).Nodup := by
      refine List.Nodup.of_map PublicKey.key ?_
      rw [List.map_map]
      exact signed.sigs.distinct
    rw [signers, List.toFinset_card_of_nodup distinct, List.length_map]
  · intro pubKey mem
    obtain ⟨sig, sig_mem, rfl⟩ := List.mem_map.mp (List.mem_toFinset.mp mem)
    have validator := signed.sigs.validators sig sig_mem
    rw [isValidator_byKey] at validator
    exact List.mem_toFinset.mpr (covered sig.pubKey validator)

/-- With `f` a third of the other validators, `MajorityCount` leaves out `f` of them. -/
theorem majorityCount_eq {n : Nat} (nonempty : 1 ≤ n) : RoleStore.majorityCount n = n - (n - 1) / 3 := by
  unfold RoleStore.majorityCount
  omega

/-- Two certificates that one table accepts after its grace period are signed by more than a third of
the validators in common. -/
theorem quorums_intersect {genesis : Genesis} {entries : List PeerEntry} {start store : Table}
    (built : Table.newRoleStore formats genesis entries = .ok start) {calls : List RoleCall}
    (run : RoleRun formats crypto start calls store) (nonempty : 1 ≤ store.validators.length)
    (exhausted : (Table.decAndGetGrace store : Except (Halt CoreError) Nat × Table).1 = .ok 0)
    {left right : QuorumCert} (left_accepted : store.Accepts formats crypto left)
    (right_accepted : store.Accepts formats crypto right) :
    RoleStore.majorityCount store.validators.length =
        store.validators.length - (store.validators.length - 1) / 3 ∧
      (store.validators.length - 1) / 3 + 1 ≤ (signers left ∩ signers right).card ∧
      ∀ faulty : Finset PublicKey, faulty.card ≤ (store.validators.length - 1) / 3 →
        ∃ signer ∈ signers left ∩ signers right, signer ∉ faulty := by
  have covered := (Table.Covered.newRoleStore built).run run
  have no_grace : ¬ 0 < store.graceHeight - 1 := by
    have grace_eq : store.graceHeight - 1 = 0 := Except.ok.inj exhausted
    omega
  have majority := majorityCount_eq nonempty
  obtain ⟨left_enough, left_signed⟩ := Table.accepts_iff.mp left_accepted
  obtain ⟨right_enough, right_signed⟩ := Table.accepts_iff.mp right_accepted
  rw [if_neg no_grace, Table.majorityValidatorCount, majority] at left_enough right_enough
  obtain ⟨left_card, left_subset⟩ := signers_of_wellSigned covered left_signed
  obtain ⟨right_card, right_subset⟩ := signers_of_wellSigned covered right_signed
  have union_le : (signers left ∪ signers right).card ≤ store.validators.length :=
    (Finset.card_le_card (Finset.union_subset left_subset right_subset)).trans
      (List.toFinset_card_le _)
  have common : (store.validators.length - 1) / 3 + 1 ≤ (signers left ∩ signers right).card := by
    have counted := Finset.card_union_add_card_inter (signers left) (signers right)
    omega
  refine ⟨majority, common, fun faulty few => ?_⟩
  exact Finset.exists_mem_notMem_of_card_lt_card (by omega)

/-! ## The grace period -/

/-- The table with another grace period. -/
def Table.setGrace (graceHeight : Nat) (store : Table) : Table :=
  store.withPeers store.peers graceHeight

@[simp]
theorem setGrace_setGrace (first second : Nat) (store : Table) :
    (store.setGrace first).setGrace second = store.setGrace second := rfl

/-- The call enters a validator together with its peer. -/
def Call.enters (formats : Formats) (store : Table) : Call → Bool
  | .add keyStr point topic _ =>
      (store.validatorMap.lookup keyStr).isNone && (stringToPubKey formats keyStr).toOption.isSome &&
        (formats.addrError point).isNone && (formats.addrError topic).isNone
  | .delete _ => false

/-- The calls of `Validate` since a validator was last entered, if one was. -/
def validationsSince (formats : Formats) : Table → List RoleCall → Option Nat → Option Nat
  | _, [], count => count
  | store, .update call :: calls, count =>
      validationsSince formats ((call.run formats).final store) calls
        (if call.enters formats store then some 0 else count)
  | store, .validate _ :: calls, count => validationsSince formats store calls (count.map (· + 1))

/-- The grace period left after so many calls of `Validate`. -/
def graceLeft : Option Nat → Nat
  | none => 0
  | some count => minGraceHeight - count

theorem Call.run_setGrace (call : Call) (store : Table) (graceHeight : Nat) :
    call.run formats (store.setGrace graceHeight) =
      ((call.run formats store).1, ((call.run formats).final store).setGrace
        (if call.enters formats store then minGraceHeight else graceHeight)) := by
  have map_eq : (store.setGrace graceHeight).validatorMap = store.validatorMap := rfl
  cases call with
  | add keyStr point topic quota =>
      cases mapped : store.validatorMap.lookup keyStr with
      | some position => simp [Call.run, final, addValidator_eq, Call.enters, map_eq, mapped]
      | none =>
          cases read : stringToPubKey formats keyStr with
          | error reason =>
              simp [Call.run, final, addValidator_eq, Call.enters, map_eq, mapped, read, Except.toOption]
          | ok pubKey =>
              cases point_read : formats.addrError point <;> cases topic_read : formats.addrError topic <;>
                simp [Call.run, final, addValidator_eq, Call.enters, map_eq, mapped, read, point_read,
                  topic_read, Except.toOption] <;> rfl
  | delete keyStr =>
      have kept (other : Table) : Table.deletePeer formats keyStr (other.setGrace graceHeight) =
          ((Table.deletePeer formats keyStr other).1,
            (Table.deletePeer formats keyStr other).2.setGrace graceHeight) := by
        have peers_eq : (other.setGrace graceHeight).peers = other.peers := rfl
        cases found : Table.findPeer formats keyStr other.peers with
        | error reason => simp [deletePeer_eq, peers_eq, found]
        | ok place =>
            cases place with
            | none => simp [deletePeer_eq, peers_eq, found]
            | some i =>
                simp only [deletePeer_eq, peers_eq, found]
                rfl
      have validators_eq : (store.setGrace graceHeight).validators = store.validators := rfl
      have quotas_eq : (store.setGrace graceHeight).stakeQuotas = store.stakeQuotas := rfl
      have remove_eq (i : Nat) (quota : UInt64) : (store.setGrace graceHeight).remove i keyStr quota =
        (store.remove i keyStr quota).setGrace graceHeight := rfl
      cases mapped : store.validatorMap.lookup keyStr with
      | none => simp [Call.run, final, deleteValidator_eq, Call.enters, map_eq, mapped]
      | some position =>
          cases found : store.validators.findIdx? fun pubKey => formats.string pubKey = keyStr with
          | none => simp [Call.run, final, deleteValidator_eq, Call.enters, map_eq, mapped, validators_eq, found, kept]
          | some i =>
              cases at_i : store.stakeQuotas[i]? <;>
                simp [Call.run, final, deleteValidator_eq, Call.enters, map_eq, mapped, validators_eq, found, quotas_eq, at_i, remove_eq, kept]

theorem Call.final_setGrace (call : Call) (store : Table) (graceHeight : Nat) :
    (call.run formats).final (store.setGrace graceHeight) = ((call.run formats).final store).setGrace
      (if call.enters formats store then minGraceHeight else graceHeight) :=
  congrArg Prod.snd (call.run_setGrace store graceHeight)

theorem Call.enters_setGrace (call : Call) (store : Table) (graceHeight : Nat) :
    call.enters formats (store.setGrace graceHeight) = call.enters formats store := by
  cases call <;> rfl

theorem validationsSince_setGrace (calls : List RoleCall) (store : Table) (graceHeight : Nat) (count : Option Nat) :
    validationsSince formats (store.setGrace graceHeight) calls count = validationsSince formats store calls count := by
  induction calls generalizing store graceHeight count with
  | nil => rfl
  | cons call calls ih =>
      cases call with
      | update call =>
          rw [validationsSince, validationsSince, call.final_setGrace, call.enters_setGrace, ih]
      | validate qc => exact ih store graceHeight _

/-- The table after a sequence of updates. -/
def applyUpdates (formats : Formats) : List Call → Table → Table
  | [], store => store
  | call :: calls, store => applyUpdates formats calls ((call.run formats).final store)

/-- A run leaves what its updates alone leave, whatever the grace period was, with a grace period that
counts the calls of `Validate`. -/
theorem RoleRun.after_eq {store after : Table} {calls : List RoleCall}
    (run : RoleRun formats crypto store calls after) {count : Option Nat}
    (grace_eq : store.graceHeight = graceLeft count) (graceHeight : Nat) :
    after = (applyUpdates formats (updates calls) (store.setGrace graceHeight)).setGrace
      (graceLeft (validationsSince formats store calls count)) := by
  induction run generalizing count graceHeight with
  | @nil store =>
      rw [updates, applyUpdates, validationsSince, setGrace_setGrace, ← grace_eq]
      rfl
  | @cons store next after call calls step rest ih =>
      cases call with
      | update call =>
          obtain ⟨rfl, -⟩ := step
          have next_grace : ((call.run formats).final store).graceHeight =
              graceLeft (if call.enters formats store then some 0 else count) := by
            have own : (call.run formats).final store = ((call.run formats).final store).setGrace
                (if call.enters formats store then minGraceHeight else store.graceHeight) :=
              call.final_setGrace store store.graceHeight
            rw [congrArg Table.graceHeight own]
            cases call.enters formats store with
            | true => rfl
            | false => exact grace_eq
          rw [updates, applyUpdates, call.final_setGrace, validationsSince]
          exact ih next_grace _
      | validate qc =>
          obtain ⟨next_eq, -⟩ := step
          rw [final_validate] at next_eq
          subst next_eq
          have next_grace : store.graceHeight - 1 = graceLeft (count.map (· + 1)) := by
            rw [grace_eq]
            cases count <;> rfl
          have rest_eq := ih next_grace graceHeight
          rwa [← Table.setGrace, validationsSince_setGrace, setGrace_setGrace] at rest_eq

theorem graceHeight_newRoleStore {genesis : Genesis} {entries : List PeerEntry} {store : Table}
    (built : Table.newRoleStore formats genesis entries = .ok store) : store.graceHeight = 0 :=
  newRoleStore_induction (fun store => store.graceHeight = 0) built rfl
    (fun _ _ _ _ _ unchanged => unchanged) fun _ _ unchanged => unchanged

/-- Fewer than three certificates have been validated since a validator was last entered. -/
def InGrace (formats : Formats) (start : Table) (calls : List RoleCall) : Prop :=
  ∃ count < minGraceHeight - 1, validationsSince formats start calls none = some count

theorem inGrace_iff {start : Table} {calls : List RoleCall} :
    InGrace formats start calls ↔ 0 < graceLeft (validationsSince formats start calls none) - 1 := by
  unfold InGrace
  cases validationsSince formats start calls none with
  | none => simp [graceLeft]
  | some count =>
      simp only [graceLeft, minGraceHeight, Option.some.injEq, exists_eq_right']
      omega

theorem wellSigned_setGrace {store : Table} {graceHeight : Nat} {qc : QuorumCert} :
    qc.WellSigned crypto ((store.setGrace graceHeight).byKey formats) ↔ qc.WellSigned crypto (store.byKey formats) :=
  ⟨fun ⟨sigs, proposer⟩ => ⟨⟨sigs.signed, sigs.distinct, sigs.fresh, sigs.validators⟩, proposer⟩,
    fun ⟨sigs, proposer⟩ => ⟨⟨sigs.signed, sigs.distinct, sigs.fresh, sigs.validators⟩, proposer⟩⟩

/-- Two numbers of signatures asked for, each with or without the grace period, let the same well signed
certificates through. -/
theorem accepted_alike_iff {majority : Nat} (majority_pos : 1 ≤ majority) {leftGrace rightGrace : Prop}
    [Decidable leftGrace] [Decidable rightGrace] {wellSigned : QuorumCert → Prop} :
    (∀ qc : QuorumCert,
      (if leftGrace then majority - 1 else majority) ≤ qc.sigs.length ∧ wellSigned qc ↔
        (if rightGrace then majority - 1 else majority) ≤ qc.sigs.length ∧ wellSigned qc) ↔
      (leftGrace ↔ rightGrace) ∨
        ∀ qc : QuorumCert, qc.sigs.length + 1 = majority → ¬ wellSigned qc := by
  -- with the grace period on one side only, one number of signatures makes the difference
  have differ : (∀ qc : QuorumCert, majority - 1 ≤ qc.sigs.length ∧ wellSigned qc ↔
      majority ≤ qc.sigs.length ∧ wellSigned qc) ↔
      ∀ qc : QuorumCert, qc.sigs.length + 1 = majority → ¬ wellSigned qc := by
    constructor
    · intro alike qc short signed
      have enough := ((alike qc).mp ⟨by omega, signed⟩).1
      omega
    · intro none_signed qc
      refine and_congr_left fun signed => ?_
      have not_short : qc.sigs.length + 1 ≠ majority := fun short => none_signed qc short signed
      omega
  by_cases left_grace : leftGrace <;> by_cases right_grace : rightGrace
  · simp [left_grace, right_grace]
  · simpa [left_grace, right_grace] using differ
  · rw [forall_congr' fun qc => Iff.comm]
    simpa [left_grace, right_grace] using differ
  · simp [left_grace, right_grace]

/-- Two runs with the same updates accept the same certificates exactly when the grace period is over
in both or in neither, or no certificate with one signature less than a majority is well signed. -/
theorem verdicts_agree_iff {genesis : Genesis} {entries : List PeerEntry} {start : Table}
    (built : Table.newRoleStore formats genesis entries = .ok start) {left right : List RoleCall}
    (same_updates : updates left = updates right) {leftStore rightStore : Table}
    (left_run : RoleRun formats crypto start left leftStore)
    (right_run : RoleRun formats crypto start right rightStore) :
    (∀ qc, leftStore.Accepts formats crypto qc ↔ rightStore.Accepts formats crypto qc) ↔
      (InGrace formats start left ↔ InGrace formats start right) ∨
        ∀ qc : QuorumCert, qc.sigs.length + 1 = leftStore.majorityValidatorCount →
          ¬ qc.WellSigned crypto (leftStore.byKey formats) := by
  have start_grace : start.graceHeight = graceLeft none := graceHeight_newRoleStore built
  have left_eq := left_run.after_eq start_grace 0
  have right_eq := right_run.after_eq start_grace 0
  rw [← same_updates] at right_eq
  rw [inGrace_iff, inGrace_iff]
  generalize applyUpdates formats (updates left) (start.setGrace 0) = store at left_eq right_eq
  generalize graceLeft (validationsSince formats start left none) = leftGrace at left_eq
  generalize graceLeft (validationsSince formats start right none) = rightGrace at right_eq
  subst left_eq right_eq
  have majority_pos : 1 ≤ store.majorityValidatorCount := by
    unfold Table.majorityValidatorCount RoleStore.majorityCount
    omega
  simp only [Table.accepts_iff, wellSigned_setGrace]
  exact accepted_alike_iff majority_pos

/-- A signer for `transparentCrypto` with a letter for its key. -/
def letterSigner (letter : Char) : Signer := transparentSigner (UInt8.ofNat letter.toNat)

/-- The vote of such a signer for a block hash in the second view. -/
def letterVote (blockHash : Bytes) (letter : Char) : Vote :=
  let signature := (letterSigner letter).sign (appendUint64 (appendUint32 blockHash 2) 1)
  ⟨⟨2, 1, blockHash, some signature.data⟩, signature⟩

/-- A certificate that `'a'` has built from such votes. -/
def letterCert (blockHash : Bytes) (letters : List Char) : QuorumCert :=
  QuorumCert.build (letterSigner 'a') (letters.map (letterVote blockHash))

/-- The three validators have signed two blocks. -/
theorem quorums_intersect_threeTable :
    Table.newRoleStore letterFormats threeValidators threePeers = .ok threeTable ∧
      threeTable.Accepts letterFormats transparentCrypto (letterCert [1] ['a', 'b', 'c']) ∧
      threeTable.Accepts letterFormats transparentCrypto (letterCert [2] ['c', 'b', 'a']) ∧
      RoleStore.majorityCount 3 = 3 - (3 - 1) / 3 ∧
      (3 - 1) / 3 + 1 ≤
        (signers (letterCert [1] ['a', 'b', 'c']) ∩ signers (letterCert [2] ['c', 'b', 'a'])).card ∧
      ∀ faulty : Finset PublicKey, faulty.card ≤ (3 - 1) / 3 →
        ∃ signer ∈ signers (letterCert [1] ['a', 'b', 'c']) ∩ signers (letterCert [2] ['c', 'b', 'a']),
          signer ∉ faulty :=
  have built : Table.newRoleStore letterFormats threeValidators threePeers = .ok threeTable := by
    decide +kernel
  have left_accepted :
      threeTable.Accepts letterFormats transparentCrypto (letterCert [1] ['a', 'b', 'c']) := by
    unfold Table.Accepts
    decide +kernel
  have right_accepted :
      threeTable.Accepts letterFormats transparentCrypto (letterCert [2] ['c', 'b', 'a']) := by
    unfold Table.Accepts
    decide +kernel
  ⟨built, left_accepted, right_accepted,
    quorums_intersect built .nil (by decide) rfl left_accepted right_accepted⟩

/-- A genesis file with four validators. -/
def fourValidators : Genesis :=
  ⟨['a', 'b', 'c', 'd'].map letterText, [1, 1, 1, 1], 1⟩

/-- The peers file that goes with `fourValidators`. -/
def fourPeers : List PeerEntry :=
  ['a', 'b', 'c', 'd'].map fun letter => ⟨(letterKey letter).key, "point", "topic"⟩

/-- The table built from the two files. -/
def fourTable : Table :=
  { validatorMap := [(letterText 'd', 3), (letterText 'c', 2), (letterText 'b', 1), (letterText 'a', 0)]
    validators := ['a', 'b', 'c', 'd'].map letterKey
    stakeQuotas := [1, 1, 1, 1]
    quotaCount := 4
    windowSize := 1
    peers := ['a', 'b', 'c', 'd'].map fun letter => some ⟨letterKey letter, "point", "topic"⟩
    graceHeight := 0 }

/-- The table after a fifth validator has been added and so many certificates have been validated
since. -/
def fiveTable (validations : Nat) : Table :=
  { validatorMap := (letterText 'e', 4) :: fourTable.validatorMap
    validators := ['a', 'b', 'c', 'd', 'e'].map letterKey
    stakeQuotas := [1, 1, 1, 1, 1]
    quotaCount := 5
    windowSize := 1
    peers := ['a', 'b', 'c', 'd', 'e'].map fun letter => some ⟨letterKey letter, "point", "topic"⟩
    graceHeight := 4 - validations }

/-- The addition of the fifth validator. -/
def addFifth : RoleCall := .update (.add (letterText 'e') "point" "topic" 1)

/-- A certificate with three of four signatures. -/
def thinCert : QuorumCert := letterCert [1] ['a', 'b', 'c']

theorem fiveTable_runs : Table.newRoleStore letterFormats fourValidators fourPeers = .ok fourTable ∧
      RoleRun letterFormats transparentCrypto fourTable [addFifth] (fiveTable 0) ∧
      RoleRun letterFormats transparentCrypto fourTable
        [addFifth, .validate thinCert, .validate thinCert, .validate thinCert] (fiveTable 3) := by
  have built : Table.newRoleStore letterFormats fourValidators fourPeers = .ok fourTable := by
    decide +kernel
  have added : addFifth.Step letterFormats transparentCrypto fourTable (fiveTable 0) :=
    Returned.of_eq (by decide +kernel : _ = (Except.ok (), _))
  have first : RoleCall.Step letterFormats transparentCrypto (.validate thinCert) (fiveTable 0)
      (fiveTable 1) := Returned.of_eq (by decide +kernel : _ = (Except.ok (), _))
  have second : RoleCall.Step letterFormats transparentCrypto (.validate thinCert) (fiveTable 1)
      (fiveTable 2) := Returned.of_eq (by decide +kernel : _ = (Except.ok (), _))
  have third : RoleCall.Step letterFormats transparentCrypto (.validate thinCert) (fiveTable 2)
      (fiveTable 3) := Returned.of_eq (by decide +kernel : _ = (Except.ok (), _))
  exact ⟨built, .cons added .nil, .cons added (.cons first (.cons second (.cons third .nil)))⟩

/-- Two nodes have added the same validator; the one that has validated three certificates since then
rejects a certificate that the other one accepts. -/
theorem validations_change_verdict :
    Table.newRoleStore letterFormats fourValidators fourPeers = .ok fourTable ∧
      updates [addFifth] = updates [addFifth, .validate thinCert, .validate thinCert, .validate thinCert] ∧
      RoleRun letterFormats transparentCrypto fourTable [addFifth] (fiveTable 0) ∧
      RoleRun letterFormats transparentCrypto fourTable
        [addFifth, .validate thinCert, .validate thinCert, .validate thinCert] (fiveTable 3) ∧
      (fiveTable 0).Accepts letterFormats transparentCrypto thinCert ∧
      ¬ (fiveTable 3).Accepts letterFormats transparentCrypto thinCert := by
  obtain ⟨built, short_run, long_run⟩ := fiveTable_runs
  refine ⟨built, rfl, short_run, long_run, ?_, ?_⟩
  · unfold Table.Accepts
    decide +kernel
  · unfold Table.Accepts
    decide +kernel

/-- The criterion applied to these two runs. -/
theorem verdicts_agree_iff_fiveTable :
    Table.newRoleStore letterFormats fourValidators fourPeers = .ok fourTable ∧
      ((∀ qc, (fiveTable 0).Accepts letterFormats transparentCrypto qc ↔
          (fiveTable 3).Accepts letterFormats transparentCrypto qc) ↔
        (InGrace letterFormats fourTable [addFifth] ↔ InGrace letterFormats fourTable
            [addFifth, .validate thinCert, .validate thinCert, .validate thinCert]) ∨
          ∀ qc : QuorumCert, qc.sigs.length + 1 = (fiveTable 0).majorityValidatorCount →
            ¬ qc.WellSigned transparentCrypto ((fiveTable 0).byKey letterFormats)) :=
  have same_updates : updates [addFifth] =
      updates [addFifth, .validate thinCert, .validate thinCert, .validate thinCert] := rfl
  ⟨fiveTable_runs.1,
    verdicts_agree_iff fiveTable_runs.1 same_updates fiveTable_runs.2.1 fiveTable_runs.2.2⟩

end SvpChain.Roles
