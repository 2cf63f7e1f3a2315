import SvpChain.Core.Message

/-!
# What a hash commits to

`Sum` hashes a concatenation in which the fixed-width fields are recoverable and the
variable-length fields are not delimited.  For an injective hash, two accepted messages with equal
hashes therefore agree exactly when the lengths of their undelimited fields agree.
-/

namespace SvpChain.Core

open Bytes

private theorem uint32_toNat_lt (value : UInt32) : value.toNat < 256 ^ 4 :=
  value.toNat_lt

private theorem uint64_toNat_lt (value : UInt64) : value.toNat < 256 ^ 8 :=
  value.toNat_lt

private theorem int64_of_toUInt64_eq {left right : Int64} (equal : left.toUInt64 = right.toUInt64) : left = right :=
  Int64.toBitVec_inj.mp (congrArg UInt64.toBitVec equal)

/-- A big-endian 32-bit field at the front of a concatenation is determined by it. -/
theorem bigEndian32_append_inj {left right : UInt32} {leftTail rightTail : Bytes}
    (equal : bigEndian 4 left.toNat ++ leftTail = bigEndian 4 right.toNat ++ rightTail) :
    left = right ∧ leftTail = rightTail := by
  obtain ⟨heads, tails⟩ := List.append_inj equal (by simp)
  exact ⟨UInt32.toNat_inj.mp
    (bigEndian_inj (uint32_toNat_lt left) (uint32_toNat_lt right) heads), tails⟩

theorem bigEndian64_append_inj {left right : UInt64} {leftTail rightTail : Bytes}
    (equal : bigEndian 8 left.toNat ++ leftTail = bigEndian 8 right.toNat ++ rightTail) :
    left = right ∧ leftTail = rightTail := by
  obtain ⟨heads, tails⟩ := List.append_inj equal (by simp)
  exact ⟨UInt64.toNat_inj.mp
    (bigEndian_inj (uint64_toNat_lt left) (uint64_toNat_lt right) heads), tails⟩

/-! ## Transactions -/

namespace Transaction

/-- The fields a transaction hash is meant to stand for. -/
def SameContents (left right : Transaction) : Prop :=
  left.data.nonce = right.data.nonce ∧ left.sender = right.sender ∧
    left.codeAddr = right.codeAddr ∧ left.input = right.input ∧ left.expiry = right.expiry

/-- A transaction that decodes from the wire and passes `Validate`. -/
def Accepted (crypto : Crypto) (tx : Transaction) : Prop :=
  setData tx.data = .ok tx ∧ tx.validate crypto = .ok ()

theorem Accepted.sum_eq_hash {crypto : Crypto} {tx : Transaction}
    (accepted : tx.Accepted crypto) : tx.data.sum crypto = tx.hash := by
  by_contra different
  have valid := accepted.2
  simp only [validate, if_pos different] at valid
  exact absurd valid (by simp [throw, throwThe, MonadExceptOf.throw, bind, Except.bind])

theorem Accepted.sender_key {crypto : Crypto} {tx : Transaction}
    (accepted : tx.Accepted crypto) : tx.data.sender = tx.sender.key := by
  have decoded := accepted.1
  unfold setData newPublicKey at decoded
  split at decoded
  · have sender_eq : (⟨tx.data.sender, ‹_›⟩ : PublicKey) = tx.sender := by
      simpa [Except.map] using congrArg (Except.map Transaction.sender) decoded
    exact congrArg PublicKey.key sender_eq
  · simp [Except.map] at decoded

theorem Accepted.preimage_eq {crypto : Crypto} {left right : Transaction}
    (injective : Function.Injective crypto.sha3) (left_accepted : left.Accepted crypto)
    (right_accepted : right.Accepted crypto) (hash_eq : left.hash = right.hash) :
    left.data.preimage = right.data.preimage := by
  apply injective
  calc
    left.data.sum crypto = left.hash := left_accepted.sum_eq_hash
    _ = right.hash := hash_eq
    _ = right.data.sum crypto := right_accepted.sum_eq_hash.symm

/-- Equal hashes fix everything but the boundary between code address and input. -/
theorem Accepted.fields_of_hash_eq {crypto : Crypto} {left right : Transaction}
    (injective : Function.Injective crypto.sha3) (left_accepted : left.Accepted crypto)
    (right_accepted : right.Accepted crypto) (hash_eq : left.hash = right.hash) :
    left.data.nonce = right.data.nonce ∧ left.sender = right.sender ∧
      left.codeAddr ++ left.input = right.codeAddr ++ right.input ∧ left.expiry = right.expiry := by
  have preimages := left_accepted.preimage_eq injective right_accepted hash_eq
  obtain ⟨nonces, rest⟩ := bigEndian64_append_inj preimages
  rw [left_accepted.sender_key, right_accepted.sender_key] at rest
  obtain ⟨senders, rest⟩ :=
    List.append_inj rest (left.sender.size.trans right.sender.size.symm)
  rw [← List.append_assoc, ← List.append_assoc] at rest
  -- the expiry has fixed width, so it splits off at the end
  obtain ⟨middles, expiries⟩ := List.append_inj' rest (by simp)
  refine ⟨int64_of_toUInt64_eq nonces, ?_, middles, ?_⟩
  · cases left_sender : left.sender
    cases right_sender : right.sender
    simp_all
  · exact UInt64.toNat_inj.mp (bigEndian_inj (uint64_toNat_lt _) (uint64_toNat_lt _) expiries)

/-- Accepted transactions with one hash agree exactly when their code addresses are equally long. -/
theorem sameContents_iff_codeAddr_length {crypto : Crypto} {left right : Transaction}
    (injective : Function.Injective crypto.sha3) (left_accepted : left.Accepted crypto)
    (right_accepted : right.Accepted crypto) (hash_eq : left.hash = right.hash) :
    left.SameContents right ↔ left.codeAddr.length = right.codeAddr.length := by
  obtain ⟨nonces, senders, middles, expiries⟩ :=
    left_accepted.fields_of_hash_eq injective right_accepted hash_eq
  constructor
  · rintro ⟨-, -, codeAddrs, -, -⟩
    rw [codeAddrs]
  · intro lengths
    obtain ⟨codeAddrs, inputs⟩ := List.append_inj middles lengths
    exact ⟨nonces, senders, codeAddrs, inputs, expiries⟩

end Transaction

/-- A hash that is the identity and signatures that repeat the key and the message. -/
def transparentCrypto : Crypto where
  sha3 := id
  verify key message value := value == key ++ message

/-- A signer for `transparentCrypto` whose key repeats one byte. -/
def transparentSigner (byte : UInt8) : Signer where
  pubKey := ⟨List.replicate 32 byte, List.length_replicate⟩
  signValue message := List.replicate 32 byte ++ message

/-- A signed transaction of `transparentSigner 7` with the given code address and input. -/
def transparentTx (codeAddr input : Bytes) : Transaction :=
  let unsigned : PbTransaction :=
    { hash := [], signature := [], nonce := 5, sender := (transparentSigner 7).pubKey.key
      codeAddr := codeAddr, input := input, expiry := 0 }
  let hash := unsigned.sum transparentCrypto
  { data := { unsigned with
      hash := hash, signature := (transparentSigner 7).signValue hash }
    sender := (transparentSigner 7).pubKey }

theorem transparentTx_accepted : (transparentTx [1] [2]).Accepted transparentCrypto ∧
      (transparentTx [] [1, 2]).Accepted transparentCrypto :=
  ⟨⟨rfl, rfl⟩, ⟨rfl, rfl⟩⟩

/-- An invocation and a deployment share one hash and one signature. -/
theorem invocation_deployment_collision :
    Function.Injective transparentCrypto.sha3 ∧
      (transparentTx [1] [2]).Accepted transparentCrypto ∧
      (transparentTx [] [1, 2]).Accepted transparentCrypto ∧
      (transparentTx [1] [2]).hash = (transparentTx [] [1, 2]).hash ∧
      (transparentTx [1] [2]).data.signature = (transparentTx [] [1, 2]).data.signature ∧
      ¬ (transparentTx [1] [2]).SameContents (transparentTx [] [1, 2]) := by
  refine ⟨Function.injective_id, transparentTx_accepted.1, transparentTx_accepted.2, rfl, rfl, ?_⟩
  rintro ⟨-, -, codeAddrs, -, -⟩
  exact absurd codeAddrs (by decide)

/-- The criterion applied to the colliding pair. -/
theorem sameContents_iff_codeAddr_length_collision :
    (transparentTx [1] [2]).SameContents (transparentTx [] [1, 2]) ↔
      (transparentTx [1] [2]).codeAddr.length = (transparentTx [] [1, 2]).codeAddr.length :=
  Transaction.sameContents_iff_codeAddr_length Function.injective_id transparentTx_accepted.1
    transparentTx_accepted.2 rfl

/-! ## Blocks -/

namespace Block

/-- The fields a block hash is meant to stand for; the last one covers whether there is a
certificate at all. -/
def SameContents (left right : Block) : Prop :=
  left.view = right.view ∧ left.height = right.height ∧ left.parentHash = right.parentHash ∧
    left.execHeight = right.execHeight ∧ left.merkleRoot = right.merkleRoot ∧
      left.data.timestamp = right.data.timestamp ∧ left.transactions = right.transactions ∧
        left.data.quorumCert.map (fun qc => (qc.view, qc.blockHash)) =
          right.data.quorumCert.map (fun qc => (qc.view, qc.blockHash))

/-- The lengths that `Sum` does not record. -/
def SameLayout (left right : Block) : Prop :=
  left.parentHash.length = right.parentHash.length ∧
    left.merkleRoot.length = right.merkleRoot.length ∧
      left.transactions.map List.length = right.transactions.map List.length ∧
        left.data.quorumCert.isSome = right.data.quorumCert.isSome

/-- A block that decodes from the wire and passes `Validate` under a role store. -/
def Accepted (crypto : Crypto) (store : RoleStore) (blk : Block) : Prop :=
  setData blk.data = .ok blk ∧ (blk.validate crypto store).1 = .ok ()

theorem Accepted.sum_eq_hash {crypto : Crypto} {store : RoleStore} {blk : Block}
    (accepted : blk.Accepted crypto store) : blk.data.sum crypto = blk.hash := by
  by_contra different
  have valid := accepted.2
  simp only [validate, Program.throwIf, if_pos different] at valid
  exact absurd valid (by simp [Program.throw, bind])

theorem Accepted.preimage_eq {crypto : Crypto} {store : RoleStore} {left right : Block}
    (injective : Function.Injective crypto.sha3) (left_accepted : left.Accepted crypto store)
    (right_accepted : right.Accepted crypto store) (hash_eq : left.hash = right.hash) :
    left.data.preimage = right.data.preimage := by
  apply injective
  calc
    left.data.sum crypto = left.hash := left_accepted.sum_eq_hash
    _ = right.hash := hash_eq
    _ = right.data.sum crypto := right_accepted.sum_eq_hash.symm

/-- The view and the height stand first and have fixed width, so the preimage fixes them. -/
theorem view_height_of_preimage_eq {left right : PbBlock} (equal : left.preimage = right.preimage) :
    left.view = right.view ∧ left.height = right.height := by
  obtain ⟨views, rest⟩ := bigEndian32_append_inj equal
  exact ⟨views, (bigEndian64_append_inj rest).1⟩

private theorem certBytes_inj {left right : PbBlock} (presence : left.quorumCert.isSome = right.quorumCert.isSome)
    (equal : left.certBytes = right.certBytes) : left.quorumCert.map (fun qc => (qc.view, qc.blockHash)) =
      right.quorumCert.map (fun qc => (qc.view, qc.blockHash)) := by
  unfold PbBlock.certBytes at equal
  cases left_cert : left.quorumCert with
  | none =>
      have right_none : right.quorumCert = none := by simpa [left_cert] using presence.symm
      simp [right_none]
  | some leftCert =>
      rw [left_cert, Option.isSome_some] at presence
      obtain ⟨rightCert, right_cert⟩ := Option.isSome_iff_exists.mp presence.symm
      rw [left_cert, right_cert] at equal
      obtain ⟨views, hashes⟩ := bigEndian32_append_inj equal
      simp [right_cert, views, hashes]

/-- Accepted blocks with one hash agree exactly when their undelimited fields are equally long. -/
theorem sameContents_iff_sameLayout {crypto : Crypto} {store : RoleStore} {left right : Block}
    (injective : Function.Injective crypto.sha3) (left_accepted : left.Accepted crypto store)
    (right_accepted : right.Accepted crypto store) (hash_eq : left.hash = right.hash) :
    left.SameContents right ↔ left.SameLayout right := by
  constructor
  · rintro ⟨-, -, parents, -, roots, -, txs, certs⟩
    refine ⟨by rw [parents], by rw [roots], by rw [txs], ?_⟩
    simpa using congrArg Option.isSome certs
  · rintro ⟨parent_lengths, root_lengths, tx_lengths, presence⟩
    have preimages := left_accepted.preimage_eq injective right_accepted hash_eq
    obtain ⟨views, rest⟩ := bigEndian32_append_inj preimages
    obtain ⟨heights, rest⟩ := bigEndian64_append_inj rest
    obtain ⟨parents, rest⟩ := List.append_inj rest parent_lengths
    obtain ⟨execHeights, rest⟩ := bigEndian64_append_inj rest
    obtain ⟨roots, rest⟩ := List.append_inj rest root_lengths
    obtain ⟨timestamps, rest⟩ := bigEndian64_append_inj rest
    obtain ⟨txs, certs⟩ := flatten_inj_of_lengths tx_lengths rest
    exact ⟨views, heights, parents, execHeights, roots, int64_of_toUInt64_eq timestamps, txs,
      certBytes_inj presence certs⟩

end Block

/-- A genesis-like block of `transparentSigner 7` with the given transaction hashes. -/
def transparentBlock (transactions : List Bytes) : Block :=
  Block.sign transparentCrypto (transparentSigner 7)
    { hash := [], view := 0, height := 0, parentHash := [], execHeight := 0, merkleRoot := []
      timestamp := 9, transactions := transactions, quorumCert := none, signature := none }
    none

/-- The role store whose only validator is `transparentSigner 7`. -/
def transparentStore : RoleStore :=
  RoleStore.ofGenesis [(transparentSigner 7).pubKey] [1] 1

theorem transparentBlock_accepted : (transparentBlock [[1], [2]]).Accepted transparentCrypto transparentStore ∧
      (transparentBlock [[1, 2]]).Accepted transparentCrypto transparentStore :=
  ⟨⟨rfl, rfl⟩, ⟨rfl, rfl⟩⟩

/-- Two transaction hashes and their concatenation give one block hash and one signature. -/
theorem transaction_list_collision :
    Function.Injective transparentCrypto.sha3 ∧
      (transparentBlock [[1], [2]]).Accepted transparentCrypto transparentStore ∧
      (transparentBlock [[1, 2]]).Accepted transparentCrypto transparentStore ∧
      (transparentBlock [[1], [2]]).hash = (transparentBlock [[1, 2]]).hash ∧
      ¬ (transparentBlock [[1], [2]]).SameContents (transparentBlock [[1, 2]]) := by
  refine ⟨Function.injective_id, transparentBlock_accepted.1, transparentBlock_accepted.2,
    rfl, ?_⟩
  rintro ⟨-, -, -, -, -, -, txs, -⟩
  exact absurd txs (by decide)

/-- The criterion applied to the colliding pair. -/
theorem sameContents_iff_sameLayout_collision :
    (transparentBlock [[1], [2]]).SameContents (transparentBlock [[1, 2]]) ↔
      (transparentBlock [[1], [2]]).SameLayout (transparentBlock [[1, 2]]) :=
  Block.sameContents_iff_sameLayout Function.injective_id transparentBlock_accepted.1
    transparentBlock_accepted.2 rfl

end SvpChain.Core
