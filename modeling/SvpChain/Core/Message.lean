import Mathlib.Data.UInt
import SvpChain.Lib.Bytes
import SvpChain.Lib.Program

/-!
# Signed messages

Keys, signatures, quorum certificates, votes, blocks and transactions of package `core`, each as
its protocol-buffer message together with what `setData` decodes from it.  The hash function and
the signature check come from outside the repository and are parameters.
-/

namespace SvpChain.Core

/-- The hash and signature primitives of the imported packages. -/
structure Crypto where
  /-- SHA3-256 of everything written to the hash state. -/
  sha3 : Bytes → Bytes
  /-- `ed25519.Verify` of a public key, a message and a signature value. -/
  verify : Bytes → Bytes → Bytes → Bool

/-- The error values of package `core`. -/
inductive CoreError where
  | invalidBlockHash
  | nilSig
  | notEnoughSig
  | duplicateSig
  | invalidSig
  | invalidValidator
  | invalidTxHash
  | invalidKeySize
  deriving DecidableEq, Repr

/-- The text of an error value. -/
def CoreError.message : CoreError → String
  | .invalidBlockHash => "invalid block hash"
  | .nilSig => "nil signature"
  | .notEnoughSig => "not enough signatures in qc"
  | .duplicateSig => "duplicate signature in qc"
  | .invalidSig => "invalid signature"
  | .invalidValidator => "invalid validator"
  | .invalidTxHash => "invalid tx hash"
  | .invalidKeySize => "invalid key size"

/-- Embed a pure decoding result. -/
def ofExcept {σ α : Type} : Except CoreError α → Program CoreError σ α
  | .ok value => pure value
  | .error reason => Program.throw reason

/-! ## Keys and signatures -/

/-- A public key. Its text is the base64 form of its bytes, so keys are compared by their bytes. -/
structure PublicKey where
  /-- Raw key bytes. -/
  key : Bytes
  /-- `ed25519.PublicKeySize`. -/
  size : key.length = 32
  deriving DecidableEq

theorem length_ones : (List.replicate 32 (1 : UInt8)).length = 32 := rfl

theorem length_zeros : (List.replicate 32 (0 : UInt8)).length = 32 := rfl

/-- `NewPublicKey`. -/
def newPublicKey (bytes : Bytes) : Except CoreError PublicKey :=
  if size : bytes.length = 32 then .ok ⟨bytes, size⟩ else .error .invalidKeySize

/-- The wire message `pb.Signature`. -/
structure PbSignature where
  pubKey : Bytes
  value : Bytes
  deriving DecidableEq

/-- A decoded signature. -/
structure Signature where
  data : PbSignature
  pubKey : PublicKey
  deriving DecidableEq

/-- `newSignature`. -/
def newSignature : Option PbSignature → Except CoreError Signature
  | none => .error .nilSig
  | some data => (newPublicKey data.pubKey).map fun pubKey => ⟨data, pubKey⟩

/-- `newSigList`. -/
def newSigList (signatures : List PbSignature) : Except CoreError (List Signature) :=
  signatures.mapM fun data => newSignature (some data)

/-- `Signature.Verify`. -/
def Signature.verify (crypto : Crypto) (signature : Signature) (message : Bytes) : Bool :=
  crypto.verify signature.pubKey.key message signature.data.value

/-- A private key, as its public key and its signing function. -/
structure Signer where
  pubKey : PublicKey
  /-- `ed25519.Sign` with the private key. -/
  signValue : Bytes → Bytes

/-- `PrivateKey.Sign`. -/
def Signer.sign (signer : Signer) (message : Bytes) : Signature :=
  ⟨⟨signer.pubKey.key, signer.signValue message⟩, signer.pubKey⟩

/-- `appendUint32` of one value. -/
def appendUint32 (hash : Bytes) (value : UInt32) : Bytes :=
  hash ++ Bytes.littleEndian 4 value.toNat

/-- `appendUint64` of one value. -/
def appendUint64 (hash : Bytes) (value : UInt64) : Bytes :=
  hash ++ Bytes.littleEndian 8 value.toNat

/-! ## Role store -/

/-- The validator set `roleStore` of package `node`; peer addresses are left out. -/
structure RoleStore where
  /-- Position of each validator key. -/
  validatorMap : List (Bytes × Nat)
  validators : List PublicKey
  stakeQuotas : List UInt64
  quotaCount : UInt64
  windowSize : Nat
  /-- Remaining certificate validations with one signature less. -/
  graceHeight : Nat
  deriving DecidableEq

namespace RoleStore

/-- `NewRoleStore` on a genesis file. -/
def ofGenesis (validators : List PublicKey) (stakeQuotas : List UInt64) (windowSize : Nat) :
    RoleStore where
  validatorMap := (validators.map PublicKey.key).zipIdx.reverse
  validators := validators
  stakeQuotas := stakeQuotas
  quotaCount := stakeQuotas.sum
  windowSize := windowSize
  graceHeight := 0

def validatorCount (store : RoleStore) : Nat := store.validators.length

/-- `MajorityCount`: the ceiling of `(2 * validatorCount + 1) / 3`. -/
def majorityCount (validatorCount : Nat) : Nat := (2 * validatorCount + 1 + 2) / 3

def majorityValidatorCount (store : RoleStore) : Nat := majorityCount store.validatorCount

def majorityQuotaCount (store : RoleStore) : UInt64 := (store.quotaCount + 1) / 2

def isValidator (store : RoleStore) (pubKey : PublicKey) : Bool :=
  (store.validatorMap.lookup pubKey.key).isSome

def getValidator (store : RoleStore) (index : Nat) : Option PublicKey := store.validators[index]?

/-- `GetValidatorIndex`; an unknown key has index zero. -/
def getValidatorIndex (store : RoleStore) (pubKey : PublicKey) : Nat :=
  (store.validatorMap.lookup pubKey.key).getD 0

/-- `GetValidatorQuota`, or `none` where the index is out of range. -/
def getValidatorQuota (store : RoleStore) (pubKey : PublicKey) : Option UInt64 :=
  store.stakeQuotas[store.getValidatorIndex pubKey]?

/-- `DecAndGetGrace`. -/
def decAndGetGrace {ε : Type} : Program ε RoleStore Nat := do
  Program.modify fun store => { store with graceHeight := store.graceHeight - 1 }
  Program.gets graceHeight

end RoleStore

/-! ## Quorum certificates -/

/-- The wire message `pb.QuorumCert`. -/
structure PbQuorumCert where
  view : UInt32
  blockHash : Bytes
  quotas : List UInt64
  signatures : List PbSignature
  signature : Option PbSignature
  deriving DecidableEq

/-- A decoded quorum certificate. -/
structure QuorumCert where
  data : PbQuorumCert
  /-- Wrapping sum of the quotas. -/
  quota : UInt64
  sigs : List Signature
  signature : Signature
  deriving DecidableEq

namespace QuorumCert

/-- `QuorumCert.setData`. -/
def setData (data : PbQuorumCert) : Except CoreError QuorumCert := do
  let sigs ← newSigList data.signatures
  let signature ← newSignature data.signature
  return ⟨data, data.quotas.sum, sigs, signature⟩

def view (qc : QuorumCert) : UInt32 := qc.data.view
def blockHash (qc : QuorumCert) : Bytes := qc.data.blockHash
def sumQuota (qc : QuorumCert) : UInt64 := qc.quota
def proposer (qc : QuorumCert) : PublicKey := qc.signature.pubKey

/-- The signature loop of `Validate`, with the keys seen so far and the quotas still unread. -/
def validateSigs (crypto : Crypto) (data : PbQuorumCert) :
    List Signature → List UInt64 → List Bytes → Program CoreError RoleStore Unit
  | [], _, _ => pure ()
  | sig :: sigs, quotas, seen => do
      Program.throwIf (sig.pubKey.key ∈ seen) .duplicateSig
      let store ← Program.get
      Program.throwIf (store.isValidator sig.pubKey = false) .invalidValidator
      match quotas with
      -- `qc.data.Quotas[i]` is read before the signature is checked
      | [] => Program.fault .indexOutOfRange
      | quota :: quotas => do
          let message := appendUint64 (appendUint32 data.blockHash data.view) quota
          Program.throwIf (sig.verify crypto message = false) .invalidSig
          validateSigs crypto data sigs quotas (sig.pubKey.key :: seen)

/-- `QuorumCert.Validate`. -/
def validate (crypto : Crypto) (qc : QuorumCert) : Program CoreError RoleStore Unit := do
  let grace ← RoleStore.decAndGetGrace
  let store ← Program.get
  let needed :=
    if 0 < grace then store.majorityValidatorCount - 1 else store.majorityValidatorCount
  Program.throwIf (qc.sigs.length < needed) .notEnoughSig
  validateSigs crypto qc.data qc.sigs qc.data.quotas []
  let sig ← ofExcept (newSignature qc.data.signature)
  Program.throwIf (store.isValidator sig.pubKey = false) .invalidValidator
  Program.throwIf (sig.verify crypto (appendUint32 qc.data.blockHash qc.data.view) = false)
    .invalidSig

/-- The loop of `FindVote`; `none` is an index out of range. -/
def findVoteIn (target : PublicKey) : List Signature → List UInt64 → Option UInt64
  | [], _ => some 0
  | sig :: sigs, quotas =>
      if sig.pubKey = target then quotas.head? else findVoteIn target sigs quotas.tail

/-- `QuorumCert.FindVote`. -/
def findVote (qc : QuorumCert) (signer : Signer) : Option UInt64 :=
  findVoteIn signer.pubKey qc.sigs qc.data.quotas

end QuorumCert

/-! ## Votes -/

/-- The wire message `pb.Vote`. -/
structure PbVote where
  view : UInt32
  quota : UInt64
  blockHash : Bytes
  signature : Option PbSignature
  deriving DecidableEq

/-- A decoded vote. -/
structure Vote where
  data : PbVote
  voter : Signature
  deriving DecidableEq

namespace Vote

/-- `Vote.setData`. -/
def setData (data : PbVote) : Except CoreError Vote :=
  (newSignature data.signature).map fun voter => ⟨data, voter⟩

def view (vote : Vote) : UInt32 := vote.data.view
def quota (vote : Vote) : UInt64 := vote.data.quota
def blockHash (vote : Vote) : Bytes := vote.data.blockHash

/-- `Vote.Validate`. -/
def validate (crypto : Crypto) (vote : Vote) : Program CoreError RoleStore Unit := do
  let sig ← ofExcept (newSignature vote.data.signature)
  let store ← Program.get
  Program.throwIf (store.isValidator sig.pubKey = false) .invalidValidator
  let message := appendUint64 (appendUint32 vote.data.blockHash vote.data.view) vote.data.quota
  Program.throwIf (sig.verify crypto message = false) .invalidSig

end Vote

/-- The view and the block hash that the loop of `Build` reads off the votes.  They are set as long as the
block hash is nil, which is what an empty one is decoded to. -/
def QuorumCert.buildTarget (votes : List Vote) : UInt32 × Bytes :=
  votes.foldl (fun target vote => if target.2 = [] then (vote.view, vote.blockHash) else target) (0, [])

/-- `QuorumCert.Build`. -/
def QuorumCert.build (signer : Signer) (votes : List Vote) : QuorumCert :=
  let (view, blockHash) := buildTarget votes
  let signature := signer.sign (appendUint32 blockHash view)
  { data :=
      { view := view
        blockHash := blockHash
        quotas := votes.map Vote.quota
        signatures := votes.map fun vote => vote.voter.data
        signature := some signature.data }
    quota := (votes.map Vote.quota).sum
    sigs := votes.map Vote.voter
    signature := signature }

/-! ## Blocks -/

/-- The wire message `pb.Block`. -/
structure PbBlock where
  hash : Bytes
  view : UInt32
  height : UInt64
  parentHash : Bytes
  execHeight : UInt64
  merkleRoot : Bytes
  timestamp : Int64
  transactions : List Bytes
  quorumCert : Option PbQuorumCert
  signature : Option PbSignature
  deriving DecidableEq

/-- A decoded block; only the genesis block carries no certificate. -/
structure Block where
  data : PbBlock
  quorumCert : Option QuorumCert
  signature : Signature
  deriving DecidableEq

/-- The certificate part of the bytes hashed by `Block.Sum`. -/
def PbBlock.certBytes (data : PbBlock) : Bytes :=
  match data.quorumCert with
  | none => []
  | some qc => Bytes.bigEndian 4 qc.view.toNat ++ qc.blockHash

/-- Everything `Block.Sum` writes to the hash state, in order. -/
def PbBlock.preimage (data : PbBlock) : Bytes :=
  Bytes.bigEndian 4 data.view.toNat ++
    (Bytes.bigEndian 8 data.height.toNat ++
      (data.parentHash ++
        (Bytes.bigEndian 8 data.execHeight.toNat ++
          (data.merkleRoot ++
            (Bytes.bigEndian 8 data.timestamp.toUInt64.toNat ++
              (data.transactions.flatten ++ data.certBytes))))))

/-- `Block.Sum`. -/
def PbBlock.sum (crypto : Crypto) (data : PbBlock) : Bytes := crypto.sha3 data.preimage

namespace Block

/-- `Block.setData`. -/
def setData (data : PbBlock) : Except CoreError Block := do
  let quorumCert ← data.quorumCert.mapM QuorumCert.setData
  let signature ← newSignature data.signature
  return ⟨data, quorumCert, signature⟩

def hash (blk : Block) : Bytes := blk.data.hash
def view (blk : Block) : UInt32 := blk.data.view
def height (blk : Block) : UInt64 := blk.data.height
def parentHash (blk : Block) : Bytes := blk.data.parentHash
def execHeight (blk : Block) : UInt64 := blk.data.execHeight
def merkleRoot (blk : Block) : Bytes := blk.data.merkleRoot
def transactions (blk : Block) : List Bytes := blk.data.transactions
def proposer (blk : Block) : PublicKey := blk.signature.pubKey

/-- `Block.Validate`. -/
def validate (crypto : Crypto) (blk : Block) : Program CoreError RoleStore Unit := do
  Program.throwIf (blk.data.sum crypto ≠ blk.hash) .invalidBlockHash
  match blk.quorumCert with
  | some qc => qc.validate crypto
  | none => pure () -- skip quorum cert validation for genesis block
  let sig ← ofExcept (newSignature blk.data.signature)
  let store ← Program.get
  Program.throwIf (store.isValidator sig.pubKey = false) .invalidValidator
  Program.throwIf (sig.verify crypto blk.data.hash = false) .invalidSig

/-- `Block.Vote`. -/
def vote (blk : Block) (signer : Signer) (quota : UInt64) : Vote :=
  let signature := signer.sign (appendUint64 (appendUint32 blk.hash blk.view) quota)
  { data :=
      { view := blk.view
        quota := quota
        blockHash := blk.hash
        signature := some signature.data }
    voter := signature }

/-- `Block.Sign` on a block whose contents and certificate are set. -/
def sign (crypto : Crypto) (signer : Signer) (data : PbBlock) (quorumCert : Option QuorumCert) :
    Block :=
  let signature := signer.sign (data.sum crypto)
  { data := { data with hash := data.sum crypto, signature := some signature.data }
    quorumCert := quorumCert
    signature := signature }

end Block

/-! ## Transactions -/

/-- The wire message `pb.Transaction`. -/
structure PbTransaction where
  hash : Bytes
  signature : Bytes
  nonce : Int64
  sender : Bytes
  codeAddr : Bytes
  input : Bytes
  expiry : UInt64
  deriving DecidableEq

/-- A decoded transaction. -/
structure Transaction where
  data : PbTransaction
  sender : PublicKey
  deriving DecidableEq

/-- Everything `Transaction.Sum` writes to the hash state, in order. -/
def PbTransaction.preimage (data : PbTransaction) : Bytes :=
  Bytes.bigEndian 8 data.nonce.toUInt64.toNat ++
    (data.sender ++
      (data.codeAddr ++ (data.input ++ Bytes.bigEndian 8 data.expiry.toNat)))

/-- `Transaction.Sum`. -/
def PbTransaction.sum (crypto : Crypto) (data : PbTransaction) : Bytes :=
  crypto.sha3 data.preimage

namespace Transaction

/-- `Transaction.setData`. -/
def setData (data : PbTransaction) : Except CoreError Transaction :=
  (newPublicKey data.sender).map fun sender => ⟨data, sender⟩

def hash (tx : Transaction) : Bytes := tx.data.hash
def codeAddr (tx : Transaction) : Bytes := tx.data.codeAddr
def input (tx : Transaction) : Bytes := tx.data.input
def expiry (tx : Transaction) : UInt64 := tx.data.expiry

/-- `Transaction.Validate`. -/
def validate (crypto : Crypto) (tx : Transaction) : Except CoreError Unit := do
  if tx.data.sum crypto ≠ tx.hash then throw .invalidTxHash
  let sig ← newSignature (some ⟨tx.data.sender, tx.data.signature⟩)
  if sig.verify crypto tx.data.hash = false then throw .invalidSig

end Transaction

end SvpChain.Core
