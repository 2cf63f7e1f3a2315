import SvpChain.Core.Commit
import SvpChain.Core.Message
import SvpChain.Lib.Table
import SvpChain.Merkle.Tree

/-!
# The storage

`Storage`, `stateStore`, `merkleStore` and the writing half of `chainStore` of package `storage`,
over one key-value database.  Every table has a key prefix of one byte.  Marshalling is a parameter,
since it is done by the protocol-buffer package; a database write does not fail.
-/

namespace SvpChain

open Core Merkle

namespace Storage

/-- Keys of the tables, `DataEntryPrefix` with the rest of the key. -/
inductive DataKey where
  | blockByHash (hash : Bytes)
  | blockHashByHeight (height : UInt64)
  | blockHeight
  | blockCommitByHash (hash : Bytes)
  | txByHash (hash : Bytes)
  | txCommitByHash (hash : Bytes)
  | stateValueByKey (key : Bytes)
  | merkleIndexByStateKey (key : Bytes)
  | merkleTreeHeight
  | merkleLeafCount
  | merkleNodeByPosition (position : Bytes)
  deriving DecidableEq

/-- `concatBytes(convertPrefix(..), ..)`. -/
def DataKey.bytes : DataKey → Bytes
  | blockByHash hash => 1 :: hash
  | blockHashByHeight height => 2 :: Bytes.bigEndian 8 height.toNat
  | blockHeight => [3]
  | blockCommitByHash hash => 6 :: hash
  | txByHash hash => 8 :: hash
  | txCommitByHash hash => 9 :: hash
  | stateValueByKey key => 10 :: key
  | merkleIndexByStateKey key => 11 :: key
  | merkleTreeHeight => [12]
  | merkleLeafCount => [13]
  | merkleNodeByPosition position => 14 :: position

/-- The database. -/
abbrev PersistStore := Bytes → Option Bytes

/-- The database without any key. -/
def PersistStore.empty : PersistStore := fun _ => none

/-- A failed call of `proto.Marshal`. -/
inductive StorageError where
  | marshal
  deriving DecidableEq, Repr

/-- The entry an `updateFunc` puts, or the error it returns first. -/
abbrev UpdateFunc := Except StorageError (DataKey × Bytes)

/-- `updateLevelDB`. -/
def updateLevelDB : List UpdateFunc → Program StorageError PersistStore Unit
  | [] => pure ()
  | .error reason :: _ => Program.throw reason
  | .ok (key, value) :: fns => do
      Program.modify fun store => Function.update store key.bytes (some value)
      updateLevelDB fns

/-- The marshallers of the stored records; `none` is an error. -/
structure Codec where
  block : Block → Option Bytes
  tx : Transaction → Option Bytes
  txCommit : TxCommit → Option Bytes
  blockCommit : BlockCommit → Option Bytes

/-- A put of a marshalled record. -/
def setRecord (key : DataKey) : Option Bytes → UpdateFunc
  | some value => .ok (key, value)
  | none => .error .marshal

/-- `CommitData`. -/
structure CommitData where
  block : Block
  transactions : List Transaction
  blockCommit : BlockCommit
  txCommits : List TxCommit
  merkleUpdate : Option UpdateResult

end Storage

/-- `Storage`, without its database. -/
structure Storage where
  /-- `crypto.SHA3_256`. -/
  sha3 : Bytes → Bytes
  codec : Storage.Codec
  merkleBranchFactor : UInt8
  concurrentLimit : Nat

namespace Storage

/-! ## The Merkle tables -/

/-- `merkleStore.getNode`. -/
def getNode (store : PersistStore) (position : Position) : Option Bytes :=
  store (DataKey.merkleNodeByPosition position.bytes).bytes

/-- `merkleStore.getLeafCount`. -/
def getLeafCount (store : PersistStore) : Nat :=
  ((store DataKey.merkleLeafCount.bytes).map Bytes.toNat).getD 0

/-- `merkleStore.getHeight`. -/
def getHeight (store : PersistStore) : UInt8 :=
  ((store DataKey.merkleTreeHeight.bytes).getD []).headD 0

/-- The tree store over the database. -/
def merkleStore (store : PersistStore) : Merkle.Store :=
  ⟨getLeafCount store, getHeight store, getNode store⟩

/-- `merkleStore.setNode`. -/
def setNode (node : Node) : UpdateFunc :=
  .ok (.merkleNodeByPosition node.position.bytes, node.data)

/-- `merkleStore.commitUpdate`. -/
def commitMerkleUpdate (update : UpdateResult) : List UpdateFunc :=
  update.leaves.map setNode ++ update.branches.map setNode ++
    [.ok (.merkleLeafCount, Bytes.ofNat update.leafCount), .ok (.merkleTreeHeight, [update.height])]

/-! ## The state tables -/

/-- `stateStore.getState`. -/
def getState (store : PersistStore) (key : Bytes) : Option Bytes :=
  store (DataKey.stateValueByKey key).bytes

/-- `stateStore.getMerkleIndex`. -/
def getMerkleIndex (store : PersistStore) (key : Bytes) : Option Bytes :=
  store (DataKey.merkleIndexByStateKey key).bytes

/-- `stateStore.loadPrevValues`. -/
def loadPrevValues (store : PersistStore) (changes : List StateChange) : List StateChange :=
  changes.map fun change => { change with prevValue := getState store change.key }

/-- `stateStore.loadPrevTreeIndexes`. -/
def loadPrevTreeIndexes (store : PersistStore) (changes : List StateChange) : List StateChange :=
  changes.map fun change =>
    match getMerkleIndex store change.key with
    | some index => { change with prevTreeIndex := some index }
    | none => change

/-- The changes that keep the leaf they have. -/
def keepTreeIndexes (changes : List StateChange) : List StateChange :=
  changes.map fun change =>
    match change.prevTreeIndex with
    | some index => { change with treeIndex := index }
    | none => change

/-- `newKeys`: the keys without a leaf. -/
def newKeys (changes : List StateChange) : List Bytes :=
  (changes.filter fun change => change.prevTreeIndex.isNone).map StateChange.key

/-- The order of `sort.Strings`, byte by byte. -/
def keyLE (left right : Bytes) : Bool :=
  decide (left.map UInt8.toNat ≤ right.map UInt8.toNat)

/-- `setLeafIndex` for the change that `scByKey` finds: the last one without a leaf. -/
def setLeafIndex (key : Bytes) (index : Nat) (changes : List StateChange) : List StateChange :=
  let found := changes.reverse.findIdx fun change =>
    change.prevTreeIndex.isNone && change.key == key
  (changes.reverse.modify found fun change => { change with treeIndex := indexBytes index }).reverse

/-- The loop over the sorted new keys. -/
def assignIndexes : List Bytes → Nat → List StateChange → List StateChange × Nat
  | [], leafCount, changes => (changes, leafCount)
  | key :: keys, leafCount, changes =>
      assignIndexes keys (leafCount + 1) (setLeafIndex key leafCount changes)

/-- `stateStore.setNewTreeIndexes`. -/
def setNewTreeIndexes (changes : List StateChange) (prevLeafCount : Nat) :
    List StateChange × Nat :=
  assignIndexes ((newKeys changes).mergeSort keyLE) prevLeafCount (keepTreeIndexes changes)

/-! ## The storage operations -/

section Operations

variable (strg : Storage)

/-- `stateStore.computeUpdatedTreeNodes`; without a worker the first job is never taken. -/
def computeUpdatedTreeNodes (changes : List StateChange) :
    Program StorageError PersistStore (List Node) :=
  if strg.concurrentLimit = 0 ∧ changes ≠ [] then Program.fault .diverges
  else
    pure (changes.map fun change =>
      ⟨⟨0, Bytes.toNat change.treeIndex⟩, strg.sha3 change.value⟩)

/-- `stateStore.commitStateChange`. -/
def commitStateChange (change : StateChange) : List UpdateFunc :=
  .ok (.stateValueByKey change.key, change.value) ::
    if change.prevTreeIndex = some change.treeIndex then []
    else [.ok (.merkleIndexByStateKey change.key, change.treeIndex)]

/-- The tree of the storage. -/
def merkleTree (store : PersistStore) : Tree :=
  newTree (merkleStore store) strg.sha3 strg.merkleBranchFactor

/-- `Storage.GetMerkleRoot`. -/
def getMerkleRoot (store : PersistStore) : Option Bytes :=
  (strg.merkleTree store).root.map Node.data

/-- `Storage.VerifyState`. -/
def verifyState (order : Nat → List Node → List Node) (key : Bytes) :
    Program StorageError PersistStore (Option Bytes) := do
  let store ← Program.get
  match getState store key with
  | none => pure none
  | some value =>
      match getMerkleIndex store key with
      | none => Program.fault (.panic "failed to get state merkle index")
      | some merkleIdx =>
          let node : Node := ⟨⟨0, Bytes.toNat merkleIdx⟩, strg.sha3 value⟩
          match (strg.merkleTree store).verify order [node] with
          | none => Program.fault .indexOutOfRange
          | some false => Program.fault (.panic "merkle verification failed")
          | some true => pure (some value)

/-! ## Commits -/

/-- `Storage.computeMerkleUpdate`; the state changes of the block commit are changed in place. -/
def computeMerkleUpdate (order : Nat → List Node → List Node) (data : CommitData) :
    Program StorageError PersistStore CommitData := do
  let store ← Program.get
  let loaded := loadPrevTreeIndexes store (loadPrevValues store data.blockCommit.stateChanges)
  let (changes, leafCount) := setNewTreeIndexes loaded (getLeafCount store)
  let nodes ← strg.computeUpdatedTreeNodes changes
  match (strg.merkleTree store).update order nodes leafCount with
  | none => Program.fault .indexOutOfRange
  | some update =>
      pure { data with
        merkleUpdate := some update
        blockCommit := { data.blockCommit with
          stateChanges := changes
          leafCount := Bytes.ofNat update.leafCount
          merkleRoot := update.root.data } }

/-- `Storage.writeChainData`. -/
def writeChainData (data : CommitData) : Program StorageError PersistStore Unit :=
  updateLevelDB
    ([setRecord (.blockByHash data.block.hash) (strg.codec.block data.block),
      .ok (.blockHashByHeight data.block.height, data.block.hash)] ++
      data.transactions.map (fun tx => setRecord (.txByHash tx.hash) (strg.codec.tx tx)) ++
      data.txCommits.map fun txc => setRecord (.txCommitByHash txc.hash) (strg.codec.txCommit txc))

/-- `Storage.writeBlockCommit`. -/
def writeBlockCommit (data : CommitData) : Program StorageError PersistStore Unit :=
  updateLevelDB
    [setRecord (.blockCommitByHash data.blockCommit.hash) (strg.codec.blockCommit data.blockCommit)]

/-- `Storage.writeStateMerkleTree`. -/
def writeStateMerkleTree (data : CommitData) : Program StorageError PersistStore Unit :=
  if data.blockCommit.stateChanges.length = 0 then pure ()
  else do
    let update ← Program.deref data.merkleUpdate
    updateLevelDB (data.blockCommit.stateChanges.flatMap commitStateChange ++
      commitMerkleUpdate update)

/-- `Storage.writeCommitData`. -/
def writeCommitData (data : CommitData) : Program StorageError PersistStore Unit := do
  strg.writeChainData data
  strg.writeBlockCommit data
  writeStateMerkleTree data
  updateLevelDB [.ok (.blockHeight, Bytes.bigEndian 8 data.block.height.toNat)]

/-- `Storage.Commit`. -/
def commit (order : Nat → List Node → List Node) (data : CommitData) :
    Program StorageError PersistStore Unit := do
  let data ← if 0 < data.blockCommit.stateChanges.length then strg.computeMerkleUpdate order data
    else pure data
  strg.writeCommitData data

end Operations

end Storage
end SvpChain
