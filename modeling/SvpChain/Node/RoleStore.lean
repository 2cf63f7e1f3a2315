import SvpChain.Core.Message
import SvpChain.Lib.Table

/-!
# The validator table

`roleStore` of package `node` keeps the validators four times over: in a map from the text of a key
to its position, in two parallel slices and in a running sum.  The lookups agree with the slices as
long as keys are added under their own text, stakes do not wrap, and only the last validator is ever
deleted: `DeleteValidator` moves every later validator down by one position and leaves the map as it
is.
-/

namespace SvpChain.Roles

open Core Program

/-- The text formats of the imported packages. -/
structure Formats where
  /-- `base64.StdEncoding.EncodeToString`. -/
  encodeToString : Bytes → String
  /-- The bytes that `base64.StdEncoding.DecodeString` returns, next to an error or without one. -/
  decodeString : String → Bytes
  /-- The error of `multiaddr.NewMultiaddr`, or `none` where it reads the address. -/
  addrError : String → Option String
  decode_encode : ∀ bytes, decodeString (encodeToString bytes) = bytes
  decode_empty : decodeString "" = []

variable {formats : Formats}

/-- `PublicKey.String`. -/
def Formats.string (formats : Formats) (pubKey : PublicKey) : String :=
  formats.encodeToString pubKey.key

theorem Formats.string_inj {left right : PublicKey}
    (same : formats.string left = formats.string right) : left = right := by
  have keys : left.key = right.key := by
    rw [← formats.decode_encode left.key, ← formats.decode_encode right.key]
    exact congrArg formats.decodeString same
  cases left
  cases right
  exact PublicKey.mk.injEq .. ▸ keys

theorem Formats.string_ne_empty (pubKey : PublicKey) : formats.string pubKey ≠ "" := by
  intro empty
  have no_bytes : pubKey.key = [] := by
    rw [← formats.decode_encode pubKey.key, ← formats.decode_empty]
    exact congrArg formats.decodeString empty
  have size := pubKey.size
  simp [no_bytes] at size

/-- A text that is the text of the key it decodes to. -/
def Formats.Canonical (formats : Formats) (keyStr : String) : Prop :=
  formats.encodeToString (formats.decodeString keyStr) = keyStr

/-- A peer of package `p2p`; its connection is left out. -/
structure Peer where
  pubKey : PublicKey
  pointAddr : String
  topicAddr : String
  deriving DecidableEq

/-- The genesis file. -/
structure Genesis where
  validators : List String
  stakeQuotas : List UInt64
  windowSize : Nat

/-- An entry of the peers file. -/
structure PeerEntry where
  pubKey : Bytes
  pointAddr : String
  topicAddr : String

/-- The error values of the two updates. -/
inductive RoleError where
  | validatorNotFound
  | addedRepeatedly
  /-- The error of `multiaddr.NewMultiaddr`. -/
  | invalidAddr (message : String)
  deriving DecidableEq, Repr

/-- The text of an error value. -/
def RoleError.message : RoleError → String
  | .validatorNotFound => "validator not found"
  | .addedRepeatedly => "validator is added repeatedly"
  | .invalidAddr message => message

/-- `roleStore`, without the connected peers of its `PeerStore`. -/
structure Table where
  validatorMap : List (String × Nat)
  validators : List PublicKey
  stakeQuotas : List UInt64
  quotaCount : UInt64
  windowSize : Nat
  /-- A missing entry is a nil pointer. -/
  peers : List (Option Peer)
  graceHeight : Nat
  deriving DecidableEq

/-- `MinGraceHeight`. -/
def minGraceHeight : Nat := 4

/-- `StringToPubKey`. -/
def stringToPubKey (formats : Formats) (keyStr : String) : Except Fault PublicKey :=
  match newPublicKey (formats.decodeString keyStr) with
  | .ok pubKey => .ok pubKey
  | .error _ => .error (.fatal "parse voter failed")

namespace Table

variable (formats)

def isValidator (store : Table) (keyStr : String) : Bool :=
  if keyStr = "" then false else (store.validatorMap.lookup keyStr).isSome

def getValidator (store : Table) (idx : Nat) : Option PublicKey := store.validators[idx]?

/-- `GetValidatorIndex`; an unknown key has index zero. -/
def getValidatorIndex (store : Table) (keyStr : String) : Nat :=
  if keyStr = "" then 0 else (store.validatorMap.lookup keyStr).getD 0

/-- `GetValidatorQuota`, or `none` where the index is out of range. -/
def getValidatorQuota (store : Table) (keyStr : String) : Option UInt64 :=
  if keyStr = "" then some 0 else store.stakeQuotas[store.getValidatorIndex keyStr]?

/-! ## Building and updating the table -/

/-- The validator loop of `NewRoleStore`, with the texts and quotas still unread. -/
def loadValidators : List String → List UInt64 → Table → Except Fault Table
  | [], _, store => .ok store
  | keyStr :: rest, quotas, store =>
      match stringToPubKey formats keyStr, quotas with
      | .error reason, _ => .error reason
      | .ok _, [] => .error .indexOutOfRange
      | .ok pubKey, quota :: quotas =>
          loadValidators rest quotas { store with
            validatorMap := (keyStr, store.validators.length) :: store.validatorMap
            validators := store.validators ++ [pubKey]
            quotaCount := store.quotaCount + quota }

/-- The peer loop of `NewRoleStore`, from position `i` on. -/
def loadPeers : List PeerEntry → Nat → Table → Except Fault Table
  | [], _, store => .ok store
  | entry :: rest, i, store =>
      match newPublicKey entry.pubKey, formats.addrError entry.pointAddr,
        formats.addrError entry.topicAddr with
      | .error reason, _, _ => .error (.fatal reason.message)
      | .ok _, some message, _ => .error (.fatal message)
      | .ok _, none, some message => .error (.fatal message)
      | .ok pubKey, none, none =>
          if i < store.peers.length then
            loadPeers rest (i + 1) { store with
              peers := store.peers.set i (some ⟨pubKey, entry.pointAddr, entry.topicAddr⟩) }
          else .error .indexOutOfRange

/-- `NewRoleStore`. -/
def newRoleStore (genesis : Genesis) (peers : List PeerEntry) : Except Fault Table :=
  let start : Table :=
    { validatorMap := [], validators := [], stakeQuotas := genesis.stakeQuotas, quotaCount := 0
      windowSize := genesis.windowSize
      peers := List.replicate genesis.validators.length none
      graceHeight := 0 }
  match loadValidators formats genesis.validators genesis.stakeQuotas start with
  | .error reason => .error reason
  | .ok store => loadPeers formats peers 0 store

/-- The entries that `AddValidator` appends. -/
def push (keyStr : String) (pubKey : PublicKey) (quota : UInt64) (store : Table) : Table :=
  { store with
    validatorMap := (keyStr, store.validators.length) :: store.validatorMap
    validators := store.validators ++ [pubKey]
    stakeQuotas := store.stakeQuotas ++ [quota]
    quotaCount := store.quotaCount + quota }

/-- The entries that `DeleteValidator` takes out at position `i`. -/
def remove (i : Nat) (keyStr : String) (quota : UInt64) (store : Table) : Table :=
  { store with
    validatorMap := store.validatorMap.filter fun entry => entry.1 ≠ keyStr
    validators := store.validators.eraseIdx i
    stakeQuotas := store.stakeQuotas.eraseIdx i
    quotaCount := store.quotaCount - quota }

/-- The table with other peers and another grace period. -/
def withPeers (peers : List (Option Peer)) (graceHeight : Nat) (store : Table) : Table :=
  { store with peers := peers, graceHeight := graceHeight }

/-- A `multiaddr.NewMultiaddr` whose error is handed on. -/
def checkAddr (addr : String) : Program RoleError Table Unit :=
  match formats.addrError addr with
  | some message => Program.throw (.invalidAddr message)
  | none => pure ()

/-- `AddValidator`. -/
def addValidator (keyStr point topic : String) (quota : UInt64) : Program RoleError Table Unit := do
  let store ← Program.get
  Program.throwIf ((store.validatorMap.lookup keyStr).isSome = true) .addedRepeatedly
  match stringToPubKey formats keyStr with
  | .error reason => Program.fault reason
  | .ok pubKey => do
      Program.modify (push keyStr pubKey quota)
      -- a wrong address is reported after the validator has been entered
      checkAddr formats point
      checkAddr formats topic
      Program.modify fun store =>
        store.withPeers (store.peers ++ [some ⟨pubKey, point, topic⟩]) minGraceHeight

/-- The position of a key among the peers, or the nil peer met before it. -/
def findPeer (keyStr : String) : List (Option Peer) → Except Fault (Option Nat)
  | [] => .ok none
  | none :: _ => .error .nilDereference
  | some peer :: rest =>
      if formats.string peer.pubKey = keyStr then .ok (some 0)
      else (findPeer keyStr rest).map (Option.map (· + 1))

/-- The validator loop of `DeleteValidator`. -/
def deleteEntry (keyStr : String) : Program RoleError Table Unit := do
  let store ← Program.get
  match store.validators.findIdx? fun pubKey => formats.string pubKey = keyStr with
  | none => pure ()
  | some i =>
      match store.stakeQuotas[i]? with
      | none => Program.fault .indexOutOfRange
      | some quota => Program.modify (remove i keyStr quota)

/-- The peer loop of `DeleteValidator`. -/
def deletePeer (keyStr : String) : Program RoleError Table Unit := do
  let store ← Program.get
  match findPeer formats keyStr store.peers with
  | .error reason => Program.fault reason
  | .ok none => pure ()
  | .ok (some i) =>
      Program.modify fun store => store.withPeers (store.peers.eraseIdx i) store.graceHeight

/-- `DeleteValidator`. -/
def deleteValidator (keyStr : String) : Program RoleError Table Unit := do
  let store ← Program.get
  Program.throwIf (store.validatorMap.lookup keyStr = none) .validatorNotFound
  deleteEntry formats keyStr
  deletePeer formats keyStr

end Table

/-! ## The index invariant -/

/-- The sum of the stakes as a natural number. -/
def stakeSum (quotas : List UInt64) : Nat := (quotas.map UInt64.toNat).sum

@[simp]
theorem stakeSum_append (left right : List UInt64) : stakeSum (left ++ right) = stakeSum left + stakeSum right := by
  simp [stakeSum]

@[simp]
theorem stakeSum_cons (quota : UInt64) (quotas : List UInt64) :
    stakeSum (quota :: quotas) = quota.toNat + stakeSum quotas := by
  simp [stakeSum]

@[simp]
theorem stakeSum_nil : stakeSum [] = 0 := rfl

/-- Every mapped text other than the empty one has a position inside the slice of validators. -/
def Table.Bounded (store : Table) : Prop :=
  ∀ keyStr i, keyStr ≠ "" → store.validatorMap.lookup keyStr = some i → i < store.validators.length

/-- The map, the two slices and the running sum describe one list of validators. -/
structure Indexed (formats : Formats) (store : Table) : Prop where
  lengths : store.validators.length = store.stakeQuotas.length
  total : store.quotaCount.toNat = stakeSum store.stakeQuotas
  members : ∀ keyStr, store.isValidator keyStr = true ↔
    ∃ pubKey ∈ store.validators, formats.string pubKey = keyStr
  index : ∀ i pubKey, store.getValidator i = some pubKey →
    store.getValidatorIndex (formats.string pubKey) = i
  quota : ∀ i pubKey, store.getValidator i = some pubKey →
    ∃ quota, store.stakeQuotas[i]? = some quota ∧
      store.getValidatorQuota (formats.string pubKey) = some quota

namespace Indexed

variable {store : Table} {keyStr : String} {pubKey : PublicKey} {quota : UInt64} {i : Nat}

@[simp]
theorem withPeers_iff (peers : List (Option Peer)) (graceHeight : Nat) :
    Indexed formats (store.withPeers peers graceHeight) ↔ Indexed formats store :=
  ⟨fun indexed => ⟨indexed.lengths, indexed.total, indexed.members, indexed.index, indexed.quota⟩,
    fun indexed => ⟨indexed.lengths, indexed.total, indexed.members, indexed.index, indexed.quota⟩⟩

theorem quota_of_index (lengths : store.validators.length = store.stakeQuotas.length)
    (found : store.getValidator i = some pubKey) (index : store.getValidatorIndex (formats.string pubKey) = i) :
    ∃ quota, store.stakeQuotas[i]? = some quota ∧ store.getValidatorQuota (formats.string pubKey) = some quota := by
  have inside : i < store.stakeQuotas.length := by
    rw [← lengths]
    exact (List.getElem?_eq_some_iff.mp found).1
  refine ⟨store.stakeQuotas[i], List.getElem?_eq_getElem inside, ?_⟩
  rw [Table.getValidatorQuota, if_neg (formats.string_ne_empty pubKey), index,
    List.getElem?_eq_getElem inside]

theorem lookup_of_index (indexed : Indexed formats store) (found : store.validators[i]? = some pubKey) :
    store.validatorMap.lookup (formats.string pubKey) = some i := by
  have nonempty := formats.string_ne_empty pubKey
  have member := (indexed.members _).mpr ⟨pubKey, List.mem_of_getElem? found, rfl⟩
  have index := indexed.index i pubKey found
  rw [Table.isValidator, if_neg nonempty] at member
  rw [Table.getValidatorIndex, if_neg nonempty] at index
  obtain ⟨position, at_position⟩ := Option.isSome_iff_exists.mp member
  rw [at_position] at index ⊢
  exact congrArg some index

theorem position_unique (indexed : Indexed formats store) {j : Nat}
    (left : store.validators[i]? = some pubKey) (right : store.validators[j]? = some pubKey) : i = j :=
  Option.some.inj ((indexed.lookup_of_index left).symm.trans (indexed.lookup_of_index right))

theorem bounded (indexed : Indexed formats store) : store.Bounded := by
  intro keyStr i nonempty mapped
  have member : store.isValidator keyStr = true := by
    rw [Table.isValidator, if_neg nonempty, mapped]
    rfl
  obtain ⟨pubKey, mem, rfl⟩ := (indexed.members keyStr).mp member
  obtain ⟨position, found⟩ := List.mem_iff_getElem?.mp mem
  have same := (indexed.lookup_of_index found).symm.trans mapped
  exact Option.some.inj same ▸ (List.getElem?_eq_some_iff.mp found).1

end Indexed

/-! ## Adding a validator -/

section Push

variable {store : Table} {keyStr : String} {pubKey : PublicKey} {quota : UInt64}

theorem isValidator_push (other : String) (nonempty : keyStr ≠ "") :
    (store.push keyStr pubKey quota).isValidator other = true ↔ other = keyStr ∨ store.isValidator other = true := by
  by_cases empty : other = ""
  · simp [Table.isValidator, empty, nonempty.symm]
  · by_cases same : other = keyStr
    · simp [Table.isValidator, Table.push, same, nonempty]
    · simp [Table.isValidator, Table.push, empty, same, List.lookup_cons, beq_eq_false_iff_ne.mpr same]

theorem getValidatorIndex_push_self (nonempty : keyStr ≠ "") :
    (store.push keyStr pubKey quota).getValidatorIndex keyStr = store.validators.length := by
  simp [Table.getValidatorIndex, Table.push, nonempty]

theorem getValidatorIndex_push_of_ne {other : String} (different : other ≠ keyStr) :
    (store.push keyStr pubKey quota).getValidatorIndex other = store.getValidatorIndex other := by
  simp [Table.getValidatorIndex, Table.push, List.lookup_cons, beq_eq_false_iff_ne.mpr different]

theorem getValidator_push (i : Nat) (found : PublicKey) : (store.push keyStr pubKey quota).getValidator i = some found ↔
      store.getValidator i = some found ∨ i = store.validators.length ∧ found = pubKey := by
  simp only [Table.getValidator, Table.push]
  rcases Nat.lt_trichotomy i store.validators.length with below | rfl | above
  · simp [List.getElem?_append_left below, below.ne]
  · simp [eq_comm]
  · rw [List.getElem?_append_right above.le, List.getElem?_eq_none above.le]
    simp [above.ne', Nat.sub_eq_zero_iff_le, above]

/-- The running sum after one more stake is the natural sum exactly when it was before and the new
sum does not wrap. -/
theorem toNat_add_eq_iff (count quota : UInt64) (sum : Nat) : (count + quota).toNat = sum + quota.toNat ↔
      count.toNat = sum ∧ sum + quota.toNat < 2 ^ 64 := by
  have count_lt := count.toNat_lt
  have quota_lt := quota.toNat_lt
  rw [UInt64.toNat_add]
  omega

theorem Indexed.push (indexed : Indexed formats store)
    (fresh : store.validatorMap.lookup (formats.string pubKey) = none)
    (exact_sum : stakeSum store.stakeQuotas + quota.toNat < 2 ^ 64) :
    Indexed formats (store.push (formats.string pubKey) pubKey quota) := by
  have nonempty := formats.string_ne_empty pubKey
  have lengths : (store.push (formats.string pubKey) pubKey quota).validators.length =
      (store.push (formats.string pubKey) pubKey quota).stakeQuotas.length := by
    simp [Table.push, indexed.lengths]
  have index : ∀ i found,
      (store.push (formats.string pubKey) pubKey quota).getValidator i = some found →
      (store.push (formats.string pubKey) pubKey quota).getValidatorIndex
        (formats.string found) = i := by
    intro i found at_i
    rcases (getValidator_push i found).mp at_i with old | ⟨rfl, rfl⟩
    · have different : formats.string found ≠ formats.string pubKey := by
        intro same
        rw [← same, indexed.lookup_of_index old] at fresh
        exact nomatch fresh
      rw [getValidatorIndex_push_of_ne different]
      exact indexed.index i found old
    · exact getValidatorIndex_push_self nonempty
  refine ⟨lengths, ?_, ?_, index, fun i found at_i => Indexed.quota_of_index lengths at_i
    (index i found at_i)⟩
  · have total := (toNat_add_eq_iff store.quotaCount quota _).mpr ⟨indexed.total, exact_sum⟩
    simpa [Table.push] using total
  · intro other
    rw [isValidator_push other nonempty, indexed.members]
    constructor
    · rintro (rfl | ⟨found, mem, rfl⟩)
      · exact ⟨pubKey, List.mem_append_right _ List.mem_cons_self, rfl⟩
      · exact ⟨found, List.mem_append_left _ mem, rfl⟩
    · rintro ⟨found, mem, rfl⟩
      rcases List.mem_append.mp mem with old | new
      · exact Or.inr ⟨found, old, rfl⟩
      · exact Or.inl (by rw [List.mem_singleton.mp new])

theorem Indexed.string_ne_of_push {i : Nat} {found : PublicKey}
    (indexed : Indexed formats (store.push (formats.string pubKey) pubKey quota))
    (old : store.validators[i]? = some found) : formats.string found ≠ formats.string pubKey := by
  intro same
  have inside := (List.getElem?_eq_some_iff.mp old).1
  have at_i : (store.push (formats.string pubKey) pubKey quota).validators[i]? = some pubKey :=
    (getValidator_push i pubKey).mpr (Or.inl (formats.string_inj same ▸ old))
  have at_end : (store.push (formats.string pubKey) pubKey quota).validators[store.validators.length]?
      = some pubKey := (getValidator_push _ pubKey).mpr (Or.inr ⟨rfl, rfl⟩)
  exact absurd (indexed.position_unique at_i at_end) inside.ne

theorem Indexed.of_push (indexed : Indexed formats (store.push (formats.string pubKey) pubKey quota))
    (fresh : store.validatorMap.lookup (formats.string pubKey) = none) : Indexed formats store := by
  have nonempty := formats.string_ne_empty pubKey
  have lengths : store.validators.length = store.stakeQuotas.length := by
    simpa [Table.push] using indexed.lengths
  have index : ∀ i found, store.getValidator i = some found →
      store.getValidatorIndex (formats.string found) = i := by
    intro i found old
    rw [← getValidatorIndex_push_of_ne (indexed.string_ne_of_push old)]
    exact indexed.index i found ((getValidator_push i found).mpr (Or.inl old))
  refine ⟨lengths, ?_, ?_, index, fun i found old => Indexed.quota_of_index lengths old
    (index i found old)⟩
  · have total := indexed.total
    simp only [Table.push, stakeSum_append, stakeSum_cons, stakeSum_nil, Nat.add_zero] at total
    exact ((toNat_add_eq_iff store.quotaCount quota _).mp total).1
  · intro other
    have members := indexed.members other
    rw [isValidator_push other nonempty] at members
    constructor
    · intro validator
      obtain ⟨found, mem, rfl⟩ := members.mp (Or.inr validator)
      rcases List.mem_append.mp mem with old | new
      · exact ⟨found, old, rfl⟩
      · rw [List.mem_singleton.mp new, Table.isValidator, if_neg nonempty, fresh] at validator
        exact nomatch validator
    · rintro ⟨found, old, rfl⟩
      obtain ⟨i, at_i⟩ := List.mem_iff_getElem?.mp old
      rcases members.mpr ⟨found, List.mem_append_left _ old, rfl⟩ with same | validator
      · exact absurd same (indexed.string_ne_of_push at_i)
      · exact validator

/-- Entering a key under a text that was not in the map keeps the table indexed exactly when the
text is the key's own and the stakes still add up below `2 ^ 64`. -/
theorem indexed_push_iff (bounded : store.Bounded) (fresh : store.validatorMap.lookup keyStr = none) :
    Indexed formats (store.push keyStr pubKey quota) ↔ Indexed formats store ∧ formats.string pubKey = keyStr ∧
        stakeSum store.stakeQuotas + quota.toNat < 2 ^ 64 := by
  constructor
  · intro indexed
    have at_end : (store.push keyStr pubKey quota).validators[store.validators.length]? = some pubKey :=
      (getValidator_push _ pubKey).mpr (Or.inr ⟨rfl, rfl⟩)
    -- under another text the new key is looked up among the old positions
    have own_text : formats.string pubKey = keyStr := by
      by_contra different
      have mapped := indexed.lookup_of_index at_end
      rw [Table.push, List.lookup_cons, beq_eq_false_iff_ne.mpr different] at mapped
      exact absurd (bounded _ _ (formats.string_ne_empty pubKey) mapped) (lt_irrefl _)
    subst own_text
    refine ⟨indexed.of_push fresh, rfl, ?_⟩
    have total := indexed.total
    simp only [Table.push, stakeSum_append, stakeSum_cons, stakeSum_nil, Nat.add_zero] at total
    exact ((toNat_add_eq_iff store.quotaCount quota _).mp total).2
  · rintro ⟨indexed, rfl, exact_sum⟩
    exact indexed.push fresh exact_sum

end Push

/-! ## Deleting a validator -/

section Remove

variable {store : Table} {pubKey : PublicKey} {quota : UInt64} {i : Nat}

theorem getValidatorIndex_remove_of_ne {keyStr other : String} (different : other ≠ keyStr) :
    (store.remove i keyStr quota).getValidatorIndex other = store.getValidatorIndex other := by
  simp only [Table.getValidatorIndex, Table.remove, SvpChain.Table.lookup_filter_ne different]

theorem isValidator_remove (keyStr other : String) : (store.remove i keyStr quota).isValidator other = true ↔
      other ≠ keyStr ∧ store.isValidator other = true := by
  by_cases same : other = keyStr
  · simp [Table.isValidator, Table.remove, same]
  · simp only [Table.isValidator, Table.remove, SvpChain.Table.lookup_filter_ne same]
    simp [same]

theorem Indexed.string_ne {j : Nat} {found : PublicKey} (indexed : Indexed formats store)
    (at_i : store.validators[i]? = some pubKey) (at_j : store.validators[j]? = some found)
    (different : j ≠ i) : formats.string found ≠ formats.string pubKey := by
  intro same
  exact different (indexed.position_unique at_j (formats.string_inj same ▸ at_i))

theorem Indexed.last_of_remove (indexed : Indexed formats store) (at_i : store.validators[i]? = some pubKey)
    (removed : Indexed formats (store.remove i (formats.string pubKey) quota)) : i + 1 = store.validators.length := by
  by_contra earlier
  have inside : i < store.validators.length := (List.getElem?_eq_some_iff.mp at_i).1
  have next_inside : i + 1 < store.validators.length := by omega
  have at_next : store.validators[i + 1]? = some store.validators[i + 1] :=
    List.getElem?_eq_getElem next_inside
  have shifted : (store.remove i (formats.string pubKey) quota).getValidator i =
      some store.validators[i + 1] := by
    rw [Table.getValidator, Table.remove, List.getElem?_eraseIdx_of_ge le_rfl, at_next]
  have different := indexed.string_ne at_i at_next (by omega)
  have stale := removed.index i _ shifted
  rw [getValidatorIndex_remove_of_ne different, indexed.index (i + 1) _ at_next] at stale
  omega

theorem eraseIdx_of_last {α : Type} {values : List α} {value : α}
    (at_i : values[i]? = some value) (last : i + 1 = values.length) : values = values.eraseIdx i ++ [value] := by
  obtain ⟨front, final, rfl⟩ : ∃ front final, values = front ++ [final] :=
    ⟨_, _, (List.dropLast_append_getLast (List.ne_nil_of_length_pos (by omega))).symm⟩
  obtain rfl : i = front.length := by simpa using last
  obtain rfl : final = value := by simpa using at_i
  simp [List.eraseIdx_append_of_length_le]

theorem Indexed.remove (indexed : Indexed formats store)
    (at_i : store.validators[i]? = some pubKey) (quota_i : store.stakeQuotas[i]? = some quota)
    (last : i + 1 = store.validators.length) : Indexed formats (store.remove i (formats.string pubKey) quota) := by
  have split := eraseIdx_of_last at_i last
  have quotas_split := eraseIdx_of_last quota_i (indexed.lengths ▸ last)
  have lengths : (store.remove i (formats.string pubKey) quota).validators.length =
      (store.remove i (formats.string pubKey) quota).stakeQuotas.length := by
    have before := indexed.lengths
    rw [split, quotas_split] at before
    simpa [Table.remove] using before
  have old : ∀ j found,
      (store.remove i (formats.string pubKey) quota).getValidator j = some found →
      store.validators[j]? = some found ∧ j ≠ i := by
    intro j found at_j
    have inside : j < (store.validators.eraseIdx i).length := (List.getElem?_eq_some_iff.mp at_j).1
    refine ⟨?_, ?_⟩
    · rw [split, List.getElem?_append_left inside]
      exact at_j
    · rw [List.length_eraseIdx_of_lt (by omega)] at inside
      omega
  have index : ∀ j found,
      (store.remove i (formats.string pubKey) quota).getValidator j = some found →
      (store.remove i (formats.string pubKey) quota).getValidatorIndex (formats.string found) = j := by
    intro j found at_j
    obtain ⟨at_j, different⟩ := old j found at_j
    rw [getValidatorIndex_remove_of_ne (indexed.string_ne at_i at_j different)]
    exact indexed.index j found at_j
  refine ⟨lengths, ?_, ?_, index, fun j found at_j => Indexed.quota_of_index lengths at_j
    (index j found at_j)⟩
  · have total := indexed.total
    rw [quotas_split, stakeSum_append, stakeSum_cons, stakeSum_nil, Nat.add_zero] at total
    have covered : quota ≤ store.quotaCount := UInt64.le_iff_toNat_le.mpr (by omega)
    rw [Table.remove, UInt64.toNat_sub_of_le _ _ covered, total]
    exact Nat.add_sub_cancel _ _
  · intro other
    rw [isValidator_remove, indexed.members]
    constructor
    · rintro ⟨different, found, mem, rfl⟩
      rw [split] at mem
      rcases List.mem_append.mp mem with kept | deleted
      · exact ⟨found, kept, rfl⟩
      · exact absurd (congrArg formats.string (List.mem_singleton.mp deleted)) different
    · rintro ⟨found, kept, rfl⟩
      obtain ⟨j, at_j⟩ := List.mem_iff_getElem?.mp kept
      obtain ⟨at_j, different⟩ := old j found at_j
      exact ⟨indexed.string_ne at_i at_j different, found, List.mem_of_getElem? at_j, rfl⟩

/-- Taking out a validator keeps an indexed table indexed exactly when it is the last one. -/
theorem indexed_remove_iff (indexed : Indexed formats store)
    (at_i : store.validators[i]? = some pubKey) (quota_i : store.stakeQuotas[i]? = some quota) :
    Indexed formats (store.remove i (formats.string pubKey) quota) ↔ i + 1 = store.validators.length :=
  ⟨indexed.last_of_remove at_i, indexed.remove at_i quota_i⟩

end Remove

/-! ## Sequences of calls -/

/-- A call of one of the two updates. -/
inductive Call where
  | add (keyStr point topic : String) (quota : UInt64)
  | delete (keyStr : String)

def Call.run (formats : Formats) : Call → Program RoleError Table Unit
  | .add keyStr point topic quota => Table.addValidator formats keyStr point topic quota
  | .delete keyStr => Table.deleteValidator formats keyStr

/-- Whenever the program returns, with an error value or without one, `holds` is true of the table
it leaves behind. -/
def Returns (program : Program RoleError Table Unit) (holds : Table → Prop) (store : Table) : Prop :=
  wp program (fun _ => holds) (fun halt after => ∀ reason, halt = .error reason → holds after) store

variable {store after : Table} {keyStr : String}

theorem Returns.congr {program : Program RoleError Table Unit} {spec left right : Table → Prop}
    (returns : Returns program spec store) (same : ∀ after, spec after → (left after ↔ right after)) :
    Returns program left store ↔ Returns program right store := by
  unfold Returns wp at *
  rcases ending : program store with ⟨result, after⟩
  rw [ending] at returns
  cases result with
  | ok value => exact same after returns
  | error halt =>
      exact forall_congr' fun reason => forall_congr' fun raised => same after (returns reason raised)

/-- The condition under which a call keeps the table indexed: a new key is entered under its own
text and the stakes add up below `2 ^ 64`; a deleted validator is the last one. -/
def Call.Keeps (formats : Formats) (store : Table) : Call → Prop
  | .add keyStr _ _ quota =>
      (store.validatorMap.lookup keyStr).isSome = true ∨
        (formats.Canonical keyStr ∧ stakeSum store.stakeQuotas + quota.toNat < 2 ^ 64)
  | .delete keyStr => ∀ i pubKey, store.validators[i]? = some pubKey →
      formats.string pubKey = keyStr → i + 1 = store.validators.length

/-- What a returning call leaves in the slices, the map and the sum. -/
def Call.Leaves (formats : Formats) (store after : Table) : Call → Prop
  | .add keyStr _ _ quota =>
      ((store.validatorMap.lookup keyStr).isSome = true ∧ after = store) ∨
        ∃ pubKey peers graceHeight, store.validatorMap.lookup keyStr = none ∧
          formats.decodeString keyStr = pubKey.key ∧
          after = (store.push keyStr pubKey quota).withPeers peers graceHeight
  | .delete keyStr =>
      (∃ peers, (∀ pubKey ∈ store.validators, formats.string pubKey = keyStr →
          store.validatorMap.lookup keyStr = none) ∧
          after = store.withPeers peers store.graceHeight) ∨
        ∃ i pubKey quota peers, store.validators[i]? = some pubKey ∧
          formats.string pubKey = keyStr ∧ store.stakeQuotas[i]? = some quota ∧
          after = (store.remove i keyStr quota).withPeers peers store.graceHeight

theorem key_of_stringToPubKey {pubKey : PublicKey} (read : stringToPubKey formats keyStr = .ok pubKey) :
    formats.decodeString keyStr = pubKey.key := by
  unfold stringToPubKey newPublicKey at read
  split at read
  · rename_i decoded
    split at decoded
    · cases read
      cases decoded
      rfl
    · exact nomatch decoded
  · exact nomatch read

theorem wp_checkAddr {addr : String} {post : Unit → Table → Prop} {stop : Halt RoleError → Table → Prop} :
    wp (Table.checkAddr formats addr) post stop store ↔ (∀ message, formats.addrError addr = some message →
          stop (.error (.invalidAddr message)) store) ∧ (formats.addrError addr = none → post () store) := by
  unfold Table.checkAddr
  cases formats.addrError addr <;> simp

theorem addValidator_eq (keyStr point topic : String) (quota : UInt64) (store : Table) :
    Table.addValidator formats keyStr point topic quota store =
      match store.validatorMap.lookup keyStr, stringToPubKey formats keyStr,
        formats.addrError point, formats.addrError topic with
      | some _, _, _, _ => (.error (.error .addedRepeatedly), store)
      | none, .error reason, _, _ => (.error (.fault reason), store)
      | none, .ok pubKey, some message, _ =>
          (.error (.error (.invalidAddr message)), store.push keyStr pubKey quota)
      | none, .ok pubKey, none, some message =>
          (.error (.error (.invalidAddr message)), store.push keyStr pubKey quota)
      | none, .ok pubKey, none, none =>
          (.ok (), (store.push keyStr pubKey quota).withPeers
            (store.peers ++ [some ⟨pubKey, point, topic⟩]) minGraceHeight) := by
  cases mapped : store.validatorMap.lookup keyStr with
  | some position => simp [Table.addValidator, bind, Program.get, throwIf, Program.throw, mapped]
  | none =>
      cases read : stringToPubKey formats keyStr with
      | error reason =>
          simp [Table.addValidator, bind, Program.get, throwIf, pure, fault, mapped, read]
      | ok pubKey =>
          cases point_read : formats.addrError point <;> cases topic_read : formats.addrError topic <;>
            simp [Table.addValidator, bind, Program.get, throwIf, pure, Program.modify, Table.checkAddr,
              Program.throw, mapped, read, point_read, topic_read, Table.push]

theorem deletePeer_eq (keyStr : String) (store : Table) :
    Table.deletePeer formats keyStr store =
      match Table.findPeer formats keyStr store.peers with
      | .error reason => (.error (.fault reason), store)
      | .ok none => (.ok (), store)
      | .ok (some i) => (.ok (), store.withPeers (store.peers.eraseIdx i) store.graceHeight) := by
  cases found : Table.findPeer formats keyStr store.peers with
  | error reason => simp [Table.deletePeer, bind, Program.get, fault, found]
  | ok place => cases place <;> simp [Table.deletePeer, bind, Program.get, Program.modify, pure, found]

theorem deleteValidator_eq (keyStr : String) (store : Table) :
    Table.deleteValidator formats keyStr store =
      match store.validatorMap.lookup keyStr,
        store.validators.findIdx? fun pubKey => formats.string pubKey = keyStr with
      | none, _ => (.error (.error .validatorNotFound), store)
      | some _, none => Table.deletePeer formats keyStr store
      | some _, some i =>
          match store.stakeQuotas[i]? with
          | none => (.error (.fault .indexOutOfRange), store)
          | some quota => Table.deletePeer formats keyStr (store.remove i keyStr quota) := by
  cases mapped : store.validatorMap.lookup keyStr with
  | none => simp [Table.deleteValidator, bind, Program.get, throwIf, Program.throw, mapped]
  | some position =>
      cases found : store.validators.findIdx? fun pubKey => formats.string pubKey = keyStr with
      | none =>
          simp [Table.deleteValidator, Table.deleteEntry, bind, Program.get, throwIf, pure, mapped, found]
      | some i =>
          cases at_i : store.stakeQuotas[i]? <;>
            simp [Table.deleteValidator, Table.deleteEntry, bind, Program.get, throwIf, pure, fault,
              Program.modify, mapped, found, at_i]
theorem returns_addValidator (keyStr point topic : String) (quota : UInt64) (store : Table) :
    Returns (Table.addValidator formats keyStr point topic quota)
      (fun after => (Call.add keyStr point topic quota).Leaves formats store after) store := by
  simp only [Returns, Table.addValidator, wp_bind, wp_get, wp_throwIf]
  refine ⟨fun mapped _ _ => Or.inl ⟨mapped, rfl⟩, fun unmapped => ?_⟩
  have fresh : store.validatorMap.lookup keyStr = none := Option.not_isSome_iff_eq_none.mp unmapped
  cases read : stringToPubKey formats keyStr with
  | error reason => exact fun _ raised => by cases raised
  | ok pubKey =>
      have entered : ∀ peers graceHeight, (Call.add keyStr point topic quota).Leaves formats store
          ((store.push keyStr pubKey quota).withPeers peers graceHeight) :=
        fun peers graceHeight => Or.inr
          ⟨pubKey, peers, graceHeight, fresh, key_of_stringToPubKey read, rfl⟩
      simp only [wp_bind, wp_modify, wp_checkAddr]
      have failed := entered store.peers store.graceHeight
      exact ⟨fun _ _ _ _ => failed, fun _ => ⟨fun _ _ _ _ => failed, fun _ => entered _ _⟩⟩

theorem returns_deletePeer {holds : Table → Prop} (left : ∀ peers, holds (store.withPeers peers store.graceHeight)) :
    Returns (Table.deletePeer formats keyStr) holds store := by
  simp only [Returns, Table.deletePeer, wp_bind, wp_get]
  cases Table.findPeer formats keyStr store.peers with
  | error reason => exact fun _ raised => by cases raised
  | ok found =>
      cases found with
      | none => exact left store.peers
      | some i => exact left _

theorem returns_deleteValidator (keyStr : String) (store : Table) : Returns (Table.deleteValidator formats keyStr)
      (fun after => (Call.delete keyStr).Leaves formats store after) store := by
  simp only [Returns, Table.deleteValidator, Table.deleteEntry, wp_bind, wp_get, wp_throwIf]
  refine ⟨fun unmapped _ _ => Or.inl ⟨store.peers, fun _ _ _ => unmapped, rfl⟩, fun mapped => ?_⟩
  cases found : store.validators.findIdx? fun pubKey => formats.string pubKey = keyStr with
  | none =>
      refine returns_deletePeer fun peers => Or.inl ⟨peers, ?_, rfl⟩
      intro pubKey mem same
      have differs := List.findIdx?_eq_none_iff.mp found pubKey mem
      exact absurd same (by simpa using differs)
  | some i =>
      obtain ⟨inside, same, -⟩ := List.findIdx?_eq_some_iff_getElem.mp found
      dsimp only
      cases at_i : store.stakeQuotas[i]? with
      | none => exact fun _ raised => by cases raised
      | some quota =>
          have entry := List.getElem?_eq_getElem inside
          exact returns_deletePeer fun peers => Or.inr
            ⟨i, _, quota, peers, entry, by simpa using same, at_i, rfl⟩

theorem Call.returns (call : Call) (store : Table) :
    Returns (call.run formats) (fun after => call.Leaves formats store after) store := by
  cases call with
  | add keyStr point topic quota => exact returns_addValidator keyStr point topic quota store
  | delete keyStr => exact returns_deleteValidator keyStr store

theorem Formats.canonical_iff {pubKey : PublicKey} (decoded : formats.decodeString keyStr = pubKey.key) :
    formats.Canonical keyStr ↔ formats.string pubKey = keyStr := by
  rw [Formats.Canonical, Formats.string, decoded]

theorem Call.indexed_iff {call : Call} (indexed : Indexed formats store) (leaves : call.Leaves formats store after) :
    Indexed formats after ↔ call.Keeps formats store := by
  cases call with
  | add keyStr point topic quota =>
      rcases leaves with ⟨mapped, rfl⟩ | ⟨pubKey, peers, graceHeight, fresh, decoded, rfl⟩
      · exact ⟨fun _ => Or.inl mapped, fun _ => indexed⟩
      · rw [Indexed.withPeers_iff, indexed_push_iff indexed.bounded fresh]
        simp [Call.Keeps, fresh, indexed, Formats.canonical_iff decoded]
  | delete keyStr =>
      rcases leaves with ⟨peers, unmapped, rfl⟩ | ⟨i, pubKey, quota, peers, at_i, rfl, quota_i, rfl⟩
      · refine ⟨fun _ i pubKey at_i same => ?_, fun _ => (Indexed.withPeers_iff _ _).mpr indexed⟩
        have absent := unmapped pubKey (List.mem_of_getElem? at_i) same
        rw [← same, indexed.lookup_of_index at_i] at absent
        exact nomatch absent
      · rw [Indexed.withPeers_iff, indexed_remove_iff indexed at_i quota_i]
        refine ⟨fun last j found at_j same => ?_, fun keeps => keeps i pubKey at_i rfl⟩
        rw [formats.string_inj same] at at_j
        exact indexed.position_unique at_j at_i ▸ last

/-! ## From the genesis file -/

theorem Table.Bounded.push (bounded : store.Bounded) (keyStr : String)
    (pubKey : PublicKey) (quota : UInt64) : (store.push keyStr pubKey quota).Bounded := by
  intro other i nonempty mapped
  have length_push : (store.push keyStr pubKey quota).validators.length =
      store.validators.length + 1 := by simp [Table.push]
  rw [Table.push, List.lookup_cons] at mapped
  split at mapped
  · rw [length_push, ← Option.some.inj mapped]
    exact Nat.lt_succ_self _
  · rw [length_push]
    exact Nat.lt_succ_of_lt (bounded other i nonempty mapped)

theorem indexed_loadValidators_iff (texts : List String) (quotas : List UInt64) (store : Table)
    (loaded : Table.loadValidators formats texts quotas
      { store with stakeQuotas := store.stakeQuotas ++ quotas } = .ok after)
    (lengths : texts.length = quotas.length) (distinct : texts.Nodup)
    (fresh : ∀ keyStr ∈ texts, store.validatorMap.lookup keyStr = none) (bounded : store.Bounded) :
    Indexed formats after ↔ Indexed formats store ∧ (∀ keyStr ∈ texts, formats.Canonical keyStr) ∧
      stakeSum store.stakeQuotas + stakeSum quotas < 2 ^ 64 := by
  induction texts generalizing quotas store with
  | nil =>
      obtain rfl : quotas = [] := List.length_eq_zero_iff.mp lengths.symm
      obtain rfl : store = after := by simpa [Table.loadValidators] using loaded
      refine ⟨fun indexed => ⟨indexed, by simp, ?_⟩, fun holds => holds.1⟩
      have total := indexed.total
      have small := store.quotaCount.toNat_lt
      simp only [stakeSum_nil]
      omega
  | cons keyStr texts ih =>
      cases quotas with
      | nil => simp at lengths
      | cons quota quotas =>
          obtain ⟨unlisted, distinct⟩ := List.nodup_cons.mp distinct
          cases read : stringToPubKey formats keyStr with
          | error reason => simp [Table.loadValidators, read] at loaded
          | ok pubKey =>
              have loaded_rest : Table.loadValidators formats texts quotas
                  { store.push keyStr pubKey quota with
                    stakeQuotas := (store.push keyStr pubKey quota).stakeQuotas ++ quotas } =
                  .ok after := by
                simpa [Table.loadValidators, read, Table.push] using loaded
              have fresh_rest : ∀ other ∈ texts,
                  (store.push keyStr pubKey quota).validatorMap.lookup other = none := by
                intro other mem
                have different : (other == keyStr) = false :=
                  beq_eq_false_iff_ne.mpr fun same => unlisted (same ▸ mem)
                rw [Table.push, List.lookup_cons, different]
                exact fresh other (List.mem_cons_of_mem _ mem)
              rw [ih quotas (store.push keyStr pubKey quota) loaded_rest
                  (Nat.succ.inj lengths) distinct fresh_rest (bounded.push _ _ _),
                indexed_push_iff bounded (fresh keyStr List.mem_cons_self),
                ← Formats.canonical_iff (key_of_stringToPubKey read)]
              have sums : stakeSum (store.push keyStr pubKey quota).stakeQuotas =
                  stakeSum store.stakeQuotas + quota.toNat := by simp [Table.push]
              rw [sums, stakeSum_cons]
              constructor
              · rintro ⟨⟨indexed, own, -⟩, canonical, exact_sum⟩
                exact ⟨indexed, List.forall_mem_cons.mpr ⟨own, canonical⟩, by omega⟩
              · rintro ⟨indexed, canonical, exact_sum⟩
                obtain ⟨own, canonical⟩ := List.forall_mem_cons.mp canonical
                exact ⟨⟨indexed, own, by omega⟩, canonical, by omega⟩

theorem loadPeers_eq (entries : List PeerEntry) (i : Nat) (store : Table)
    (loaded : Table.loadPeers formats entries i store = .ok after) :
    ∃ peers, after = store.withPeers peers store.graceHeight := by
  induction entries generalizing i store with
  | nil =>
      obtain rfl := Except.ok.inj loaded
      exact ⟨store.peers, rfl⟩
  | cons entry entries ih =>
      unfold Table.loadPeers at loaded
      split at loaded
      · exact nomatch loaded
      · exact nomatch loaded
      · exact nomatch loaded
      · split at loaded
        · obtain ⟨peers, rfl⟩ := ih _ _ loaded
          exact ⟨peers, rfl⟩
        · exact nomatch loaded

/-- The texts of the genesis file are the texts of their keys and the stakes add up below
`2 ^ 64`. -/
def Genesis.Canonical (formats : Formats) (genesis : Genesis) : Prop :=
  (∀ keyStr ∈ genesis.validators, formats.Canonical keyStr) ∧ stakeSum genesis.stakeQuotas < 2 ^ 64

theorem indexed_newRoleStore_iff {genesis : Genesis} {entries : List PeerEntry}
    (built : Table.newRoleStore formats genesis entries = .ok store) (distinct : genesis.validators.Nodup)
    (lengths : genesis.validators.length = genesis.stakeQuotas.length) :
    Indexed formats store ↔ genesis.Canonical formats := by
  unfold Table.newRoleStore at built
  dsimp only at built
  split at built
  · exact nomatch built
  · rename_i loaded_store loaded
    obtain ⟨peers, rfl⟩ := loadPeers_eq entries 0 loaded_store built
    let empty : Table :=
      { validatorMap := [], validators := [], stakeQuotas := [], quotaCount := 0
        windowSize := genesis.windowSize
        peers := List.replicate genesis.validators.length none
        graceHeight := 0 }
    have indexed_empty : Indexed formats empty :=
      ⟨rfl, rfl, by simp [empty, Table.isValidator], by simp [empty, Table.getValidator],
        by simp [empty, Table.getValidator]⟩
    rw [Indexed.withPeers_iff, indexed_loadValidators_iff genesis.validators genesis.stakeQuotas empty
      loaded lengths distinct (fun _ _ => rfl) (fun _ _ _ mapped => nomatch mapped)]
    simp [indexed_empty, Genesis.Canonical, empty]

/-! ## Whole runs -/

/-- The table is indexed now and after every call of the sequence that returns. -/
def AlwaysIndexed (formats : Formats) : List Call → Table → Prop
  | [], store => Indexed formats store
  | call :: calls, store =>
      Indexed formats store ∧ Returns (call.run formats) (AlwaysIndexed formats calls) store

/-- Every call of the sequence that returns meets `Call.Keeps` where it is made. -/
def AllKeep (formats : Formats) : List Call → Table → Prop
  | [], _ => True
  | call :: calls, store =>
      Returns (call.run formats) (fun after => call.Keeps formats store ∧ AllKeep formats calls after)
        store

theorem AlwaysIndexed.here {calls : List Call}
    (always : AlwaysIndexed formats calls store) : Indexed formats store := by
  cases calls with
  | nil => exact always
  | cons call calls => exact always.1

theorem alwaysIndexed_iff_allKeep (calls : List Call) (indexed : Indexed formats store) :
    AlwaysIndexed formats calls store ↔ AllKeep formats calls store := by
  induction calls generalizing store with
  | nil => exact ⟨fun _ => trivial, fun _ => indexed⟩
  | cons call calls ih =>
      have same : ∀ after, call.Leaves formats store after → (AlwaysIndexed formats calls after ↔
          call.Keeps formats store ∧ AllKeep formats calls after) := by
        intro after leaves
        have step := Call.indexed_iff indexed leaves
        exact ⟨fun always => ⟨step.mp always.here, (ih always.here).mp always⟩,
          fun keeps => (ih (step.mpr keeps.1)).mpr keeps.2⟩
      have returns := (call.returns store).congr same
      exact ⟨fun always => returns.mp always.2, fun keeps => ⟨indexed, returns.mpr keeps⟩⟩

/-- The table with its texts decoded. -/
def Table.toRoleStore (formats : Formats) (store : Table) : RoleStore where
  validatorMap := store.validatorMap.map fun entry => (formats.decodeString entry.1, entry.2)
  validators := store.validators
  stakeQuotas := store.stakeQuotas
  quotaCount := store.quotaCount
  windowSize := store.windowSize
  graceHeight := store.graceHeight

theorem lookup_decoded {entries : List (String × Nat)}
    (texts : ∀ entry ∈ entries, entry.1 ≠ "" → ∃ pubKey, formats.string pubKey = entry.1) (pubKey : PublicKey) :
    (entries.map fun entry => (formats.decodeString entry.1, entry.2)).lookup pubKey.key =
      entries.lookup (formats.string pubKey) := by
  induction entries with
  | nil => rfl
  | cons entry entries ih =>
      obtain ⟨keyStr, position⟩ := entry
      obtain ⟨own, rest⟩ := List.forall_mem_cons.mp texts
      have same : (pubKey.key == formats.decodeString keyStr) =
          (formats.string pubKey == keyStr) := by
        by_cases empty : keyStr = ""
        · have no_text := formats.string_ne_empty pubKey
          have size := pubKey.size
          have no_bytes : pubKey.key ≠ [] := fun nil => by simp [nil] at size
          rw [empty, formats.decode_empty, beq_eq_false_iff_ne.mpr no_bytes,
            beq_eq_false_iff_ne.mpr no_text]
        · obtain ⟨other, rfl⟩ := own empty
          rw [Formats.string, Formats.string, formats.decode_encode, Bool.eq_iff_iff, beq_iff_eq,
            beq_iff_eq]
          refine ⟨congrArg formats.encodeToString, fun texts_eq => ?_⟩
          exact congrArg PublicKey.key (formats.string_inj texts_eq)
      rw [List.map_cons, List.lookup_cons, List.lookup_cons, same, ih rest]

theorem Indexed.lookup_toRoleStore (indexed : Indexed formats store) (pubKey : PublicKey) :
    (store.toRoleStore formats).validatorMap.lookup pubKey.key = store.validatorMap.lookup (formats.string pubKey) := by
  refine lookup_decoded (fun entry mem nonempty => ?_) pubKey
  have validator : store.isValidator entry.1 = true := by
    rw [Table.isValidator, if_neg nonempty, List.lookup_isSome_iff]
    exact ⟨entry, mem, beq_self_eq_true _⟩
  obtain ⟨pubKey, -, text⟩ := (indexed.members entry.1).mp validator
  exact ⟨pubKey, text⟩

/-- Texts with one character for each byte, and addresses that are always read. -/
def letterFormats : Formats where
  encodeToString bytes := String.ofList (bytes.map fun byte => Char.ofNat byte.toNat)
  decodeString text := text.toList.map fun letter => UInt8.ofNat letter.toNat
  addrError _ := none
  decode_encode bytes := by
    rw [String.toList_ofList, List.map_map]
    refine (List.map_congr_left fun byte _ => ?_).trans (List.map_id bytes)
    have small := byte.toNat_lt
    have letter : (Char.ofNat byte.toNat).toNat = byte.toNat := by
      rw [Char.ofNat, dif_pos (Or.inl (by omega))]
      rfl
    simp [letter]
  decode_empty := rfl

/-- A key that repeats one letter. -/
def letterKey (letter : Char) : PublicKey :=
  ⟨List.replicate 32 (UInt8.ofNat letter.toNat), List.length_replicate⟩

/-- Its text. -/
def letterText (letter : Char) : String := letterFormats.string (letterKey letter)

/-- A genesis file with three validators of stakes two, three and five. -/
def threeValidators : Genesis :=
  ⟨[letterText 'a', letterText 'b', letterText 'c'], [2, 3, 5], 1⟩

/-- The peers file that goes with `threeValidators`. -/
def threePeers : List PeerEntry :=
  ['a', 'b', 'c'].map fun letter => ⟨(letterKey letter).key, "point", "topic"⟩

/-- The table built from the two files. -/
def threeTable : Table :=
  { validatorMap := [(letterText 'c', 2), (letterText 'b', 1), (letterText 'a', 0)]
    validators := [letterKey 'a', letterKey 'b', letterKey 'c']
    stakeQuotas := [2, 3, 5]
    quotaCount := 10
    windowSize := 1
    peers := ['a', 'b', 'c'].map fun letter => some ⟨letterKey letter, "point", "topic"⟩
    graceHeight := 0 }

end SvpChain.Roles
