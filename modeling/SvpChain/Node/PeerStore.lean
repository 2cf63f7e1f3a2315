import SvpChain.Node.RoleStore

/-!
# The role store with its peer store

`AddValidator` enters a new validator into the map, the slices and the running sum before it reads the
two addresses.  An address that cannot be read ends the call with an error and leaves the validator
entered, without a peer.
-/

namespace SvpChain.Roles

open Core Program

/-- `PeerStore` of package `p2p`, without its host. -/
structure PeerStore where
  peers : List (String × Peer)
  idSet : List Bytes
  deriving DecidableEq

/-- `roleStore` with its `PeerStore`. -/
structure ConnectedTable where
  table : Table
  peerStore : PeerStore
  deriving DecidableEq

section

variable (formats : Formats) (peerID : PublicKey → Option Bytes)

/-- `PeerStore.Store`, where `peerID` is the identity that the host derives from a key. -/
def PeerStore.store (peer : Peer) (peerStore : PeerStore) : Except Fault PeerStore :=
  let keyStr := formats.string peer.pubKey
  match peerID peer.pubKey with
  | some id => .ok
      { peers := (keyStr, peer) :: peerStore.peers.filter fun entry => entry.1 ≠ keyStr
        idSet := peerStore.idSet.insert id }
  | none => .error (.panic "no peer ID")

namespace ConnectedTable

/-- `store.PeerStore.Store(peer)`. -/
def storePeer (peer : Peer) : Program RoleError ConnectedTable Unit := do
  let store ← Program.get
  match store.peerStore.store formats peerID peer with
  | .ok peerStore => Program.modify fun store => { store with peerStore := peerStore }
  | .error reason => Program.fault reason

/-- `AddValidator`. -/
def addValidator (keyStr point topic : String) (quota : UInt64) :
    Program RoleError ConnectedTable Unit := do
  Program.zoom table (fun table store => { store with table := table }) id
    (Table.addValidator formats keyStr point topic quota)
  match stringToPubKey formats keyStr with
  | .ok pubKey => storePeer formats peerID ⟨pubKey, point, topic⟩
  | .error reason => Program.fault reason

end ConnectedTable

end

variable {formats : Formats} {peerID : PublicKey → Option Bytes}

/-- A new validator with an address that cannot be read. -/
def HalfAdded (formats : Formats) (table : Table) (keyStr point topic : String) : Prop :=
  table.validatorMap.lookup keyStr = none ∧ (∃ pubKey, stringToPubKey formats keyStr = .ok pubKey) ∧
    (formats.addrError point ≠ none ∨ formats.addrError topic ≠ none)

theorem ConnectedTable.addValidator_eq (keyStr point topic : String) (quota : UInt64)
    (store : ConnectedTable) :
    ConnectedTable.addValidator formats peerID keyStr point topic quota store =
      match store.table.validatorMap.lookup keyStr, stringToPubKey formats keyStr,
        formats.addrError point, formats.addrError topic with
      | some _, _, _, _ => (.error (.error .addedRepeatedly), store)
      | none, .error reason, _, _ => (.error (.fault reason), store)
      | none, .ok pubKey, some message, _ =>
          (.error (.error (.invalidAddr message)), { store with table := store.table.push keyStr pubKey quota })
      | none, .ok pubKey, none, some message =>
          (.error (.error (.invalidAddr message)), { store with table := store.table.push keyStr pubKey quota })
      | none, .ok pubKey, none, none =>
          storePeer formats peerID ⟨pubKey, point, topic⟩ { store with
            table := (store.table.push keyStr pubKey quota).withPeers
              (store.table.peers ++ [some ⟨pubKey, point, topic⟩]) minGraceHeight } := by
  rw [addValidator, Program.bind_eq, Program.zoom, Roles.addValidator_eq]
  cases store.table.validatorMap.lookup keyStr with
  | some position => rfl
  | none =>
      cases stringToPubKey formats keyStr with
      | error reason => rfl
      | ok pubKey =>
          cases formats.addrError point with
          | some message => rfl
          | none => cases formats.addrError topic <;> rfl

theorem storePeer_no_error (peer : Peer) (store : ConnectedTable) (reason : RoleError) :
    (ConnectedTable.storePeer formats peerID peer store).1 ≠ .error (.error reason) := by
  rw [ConnectedTable.storePeer, Program.bind_eq]
  simp only [Program.get]
  cases store.peerStore.store formats peerID peer <;> simp [Program.modify, Program.fault]

theorem push_ne (keyStr : String) (pubKey : PublicKey) (quota : UInt64) (store : ConnectedTable) :
    { store with table := store.table.push keyStr pubKey quota } ≠ store := by
  intro same
  have lengths := congrArg (fun store => store.table.validators.length) same
  simp [Table.push] at lengths

/-- A call of `AddValidator` that returns an error leaves everything as it was, exactly where it is not a
new validator with an address that cannot be read. -/
theorem failed_add_unchanged_iff (keyStr point topic : String) (quota : UInt64) (store : ConnectedTable) :
    (∀ reason after, ConnectedTable.addValidator formats peerID keyStr point topic quota store =
        (.error (.error reason), after) → after = store) ↔
      ¬HalfAdded formats store.table keyStr point topic := by
  rw [ConnectedTable.addValidator_eq, HalfAdded]
  cases store.table.validatorMap.lookup keyStr with
  | some position => simp
  | none =>
      cases stringToPubKey formats keyStr with
      | error reason => simp
      | ok pubKey =>
          have entered := push_ne keyStr pubKey quota store
          cases formats.addrError point with
          | some message => simp [entered]
          | none =>
              cases formats.addrError topic with
              | some message => simp [entered]
              | none =>
                  refine iff_of_true (fun reason after stored => ?_) (by simp)
                  exact absurd (congrArg Prod.fst stored) (storePeer_no_error _ _ reason)

/-- The formats of `letterFormats`, with an address that cannot be read. -/
def addressFormats : Formats :=
  { letterFormats with addrError := fun addr => if addr = "" then some "empty multiaddr" else none }

/-- A fourth validator whose point address is empty is refused, and counted from then on. -/
theorem refused_validator_counted :
    let store : ConnectedTable := ⟨threeTable, ⟨[], []⟩⟩
    let call := ConnectedTable.addValidator addressFormats (fun pubKey => some pubKey.key) (letterText 'd') ""
      "topic" 7
    (call store).1 = .error (.error (.invalidAddr "empty multiaddr")) ∧
      (call store).2.table.isValidator (letterText 'd') = true ∧
      (call store).2.table.validators.length = 4 ∧ (call store).2.table.quotaCount = 17 ∧
      (call store).2.table.peers = threeTable.peers ∧ (call store).2.table ≠ threeTable := by
  decide +kernel

end SvpChain.Roles
