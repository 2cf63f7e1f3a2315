import SvpChain.Lib.Bytes

/-!
# Commit records

State changes, block commits and transaction commits of package `core`.  The measured times they
carry are left out.
-/

namespace SvpChain.Core

/-- `StateChange`. -/
structure StateChange where
  key : Bytes
  value : Bytes
  /-- Nil for a key that had no value. -/
  prevValue : Option Bytes
  treeIndex : Bytes
  /-- Nil for a key that had no leaf. -/
  prevTreeIndex : Option Bytes
  deriving DecidableEq

/-- `NewStateChange().SetKey(key).SetValue(value)`. -/
def newStateChange (key value : Bytes) : StateChange := ⟨key, value, none, [], none⟩

/-- `BlockCommit`. -/
structure BlockCommit where
  hash : Bytes
  oldBlockTxs : List Bytes
  leafCount : Bytes
  merkleRoot : Bytes
  stateChanges : List StateChange
  deriving DecidableEq

/-- `TxCommit`; an empty error is success. -/
structure TxCommit where
  hash : Bytes
  blockHash : Bytes
  blockHeight : UInt64
  error : String
  deriving DecidableEq

end SvpChain.Core
