import SvpChain.Execution.Coins
import SvpChain.Execution.Isolation
import SvpChain.Lib.History
import SvpChain.Lib.Kept

/-!
# The native proxy of the EVM

`NativeProxy` of package `execution/evm`.  Contracts hold coins in `XCoin`, under addresses that `TAddr` maps to those
of the EVM.  One proxy serves all EVM transactions.  It spawns a tracker for each of the two chaincodes from the
tracker of the transaction that first needs it, and keeps it for all later ones, as it keeps the addresses that it has
looked up.  What a transaction sees is its own if the trackers and the addresses that it finds are.
-/

namespace SvpChain

namespace Execution.StateTracker

/-- What `getState` returns over a getter. -/
def view (trk : StateTracker) (below : Bytes → Option Bytes) (key : Bytes) : Option Bytes :=
  (trk.changes.lookup (trk.keyPrefix ++ key)).getD (below (trk.keyPrefix ++ key))

theorem view_setState (trk : StateTracker) (below : Bytes → Option Bytes) (key other : Bytes)
    (value : Option Bytes) :
    (trk.setState key value).view below other = if other = key then value else trk.view below other := by
  unfold view setState
  by_cases same : other = key
  · subst same
    simp
  · have full : trk.keyPrefix ++ other ≠ trk.keyPrefix ++ key := fun equal => same (List.append_cancel_left equal)
    rw [if_neg same, AList.lookup_insert_ne full]

end Execution.StateTracker

namespace Evm

open Core Execution Program

/-! ## Trackers -/

/-- The built-in chaincodes that the proxy calls. -/
inductive NativeCode where
  | xcoin
  | taddr
  deriving DecidableEq

/-- The tracker of a transaction, with the block whose root tracker it is spawned from. -/
structure TxTracker where
  trk : StateTracker
  root : ℕ

/-- A tracker of the proxy, with the transaction whose tracker it is spawned from. -/
structure Spawned where
  trk : StateTracker
  parent : ℕ

/-- `NativeProxy`. -/
structure NativeProxy where
  addr20Cache : AList fun _ : Bytes => Bytes
  addr32Cache : AList fun _ : Bytes => Bytes
  txTrk : Option ℕ
  tmpTrk : AList fun _ : NativeCode => Spawned

/-- `NewNativeProxy`. -/
def newNativeProxy : NativeProxy := ⟨∅, ∅, none, ∅⟩

/-- What the proxy does within a call. -/
inductive Reply where
  /-- `queryAddr` returns; an address that is not found is `none`. -/
  | address (addr : Bytes) (result : Option Bytes)
  /-- `QueryBalanceByAddr32` returns. -/
  | balance (addr32 : Bytes) (result : Option Bytes)
  /-- A chaincode sets a state. -/
  | wrote (code : NativeCode) (key value : Bytes)

/-- The proxy and the trackers that it may reach. -/
structure Native where
  /-- `GetState` of the state store. -/
  state : Bytes → Option Bytes
  /-- The root trackers of the blocks. -/
  roots : List StateTracker
  txTrks : List TxTracker
  proxy : NativeProxy
  /-- The replies since the last `setTxTrk`, the latest first. -/
  trace : List Reply

namespace Native

/-- What the root tracker of a block shows. -/
def rootView (n : Native) (root : ℕ) : Bytes → Option Bytes :=
  match n.roots[root]? with
  | some trk => trk.view n.state
  | none => n.state

/-- What the tracker of a transaction shows. -/
def txView (n : Native) (tx : ℕ) : Bytes → Option Bytes :=
  match n.txTrks[tx]? with
  | some tracker => tracker.trk.view (n.rootView tracker.root)
  | none => fun _ => none

/-- What a tracker of the proxy shows. -/
def spawnedView (n : Native) (spawned : Spawned) : Bytes → Option Bytes := spawned.trk.view (n.txView spawned.parent)

/-- Record a reply. -/
def record (n : Native) (reply : Reply) : Native := { n with trace := reply :: n.trace }

/-- `tmpTrk[key] = trk`. -/
def setTmpTrk (n : Native) (code : NativeCode) (spawned : Spawned) : Native :=
  { n with proxy := { n.proxy with tmpTrk := n.proxy.tmpTrk.insert code spawned } }

end Native

/-- A call of the proxy. -/
abbrev NativeCall := Program String Native

/-! ## The chaincodes behind the proxy -/

/-- `DecodeBalance`. -/
def decodeBalance {σ : Type} : Option Bytes → Program String σ UInt64
  | none => pure 0
  | some bytes =>
      if bytes.length < 8 then fault .indexOutOfRange
      else pure (UInt64.ofNat (Bytes.toNat (bytes.take 8)))

/-- `toAddr20` of package `taddr`. -/
def toAddr20 (addr : Bytes) : Bytes := addr.take 20

/-- `toAddr32` of package `taddr`, which fills up with the digit zero. -/
def toAddr32 (addr : Bytes) : Bytes := addr ++ List.replicate 12 48

section

variable (codeAddr : NativeCode → Bytes)

/-- `NativeProxy.getTrk`. -/
def getTrk (code : NativeCode) : NativeCall Spawned := do
  let n ← get
  match n.proxy.tmpTrk.lookup code with
  | some spawned => pure spawned
  | none => do
      let parent ← deref n.proxy.txTrk
      let spawned : Spawned := ⟨spawn (codeAddr code), parent⟩
      modify fun n => n.setTmpTrk code spawned
      pure spawned

/-- `SetState` of a call context with a tracker of the proxy. -/
def setState (code : NativeCode) (spawned : Spawned) (key value : Bytes) : NativeCall Unit :=
  modify fun n => (n.setTmpTrk code { spawned with trk := spawned.trk.setState key (some value) }).record
    (.wrote code key value)

/-- An address in a cache of the proxy. -/
def NativeProxy.cached (proxy : NativeProxy) (addr : Bytes) : Option Bytes :=
  if addr.length = 20 then proxy.addr20Cache.lookup addr
  else if addr.length = 32 then proxy.addr32Cache.lookup addr
  else none

/-- An address that `TAddr` has just returned is put into a cache, which takes 32 and 20 bytes of it. -/
def cacheAddr (addr result : Bytes) : NativeCall Unit := do
  if addr.length = 20 then
    if result.length < 32 then fault (.panic "cannot convert slice to array")
    else modify fun n => { n with proxy := { n.proxy with
      addr20Cache := n.proxy.addr20Cache.insert addr (result.take 32) } }
  else
    if result.length < 20 then fault (.panic "cannot convert slice to array")
    else modify fun n => { n with proxy := { n.proxy with
      addr32Cache := n.proxy.addr32Cache.insert addr (result.take 20) } }

/-- The address in a state of `TAddr`, which an empty value does not have. -/
def found : Option Bytes → Option Bytes
  | some [] => none
  | content => content

/-- `NativeProxy.queryAddr`, with `queryAddr` of package `taddr`. -/
def queryAddr (addr : Bytes) : NativeCall Bytes := do
  let n ← get
  match n.proxy.cached addr with
  | some result => do
      modify fun n => n.record (.address addr (some result))
      pure result
  | none => do
      let spawned ← getTrk codeAddr .taddr
      throwIf (addr.length ≠ 20 ∧ addr.length ≠ 32) "unexpected address length"
      let n ← get
      let result := found (n.spawnedView spawned addr)
      modify fun n => n.record (.address addr result)
      match result with
      | none => throw "address not found"
      | some result => do
          cacheAddr addr result
          pure result

/-- `NativeProxy.storeAddr`, with `storeAddr` of package `taddr`. -/
def storeAddr (addr : Bytes) : NativeCall Unit := do
  let spawned ← getTrk codeAddr .taddr
  throwIf (addr.length ≠ 20 ∧ addr.length ≠ 32) "unexpected address length"
  let destAddr := if addr.length = 20 then toAddr32 addr else toAddr20 addr
  setState .taddr spawned addr destAddr
  let spawned ← getTrk codeAddr .taddr
  setState .taddr spawned destAddr addr

/-- `AssertLength` of 32 bytes. -/
def assertLength (addr : Bytes) : NativeCall Unit :=
  throwIf (addr.length ≠ 0 ∧ addr.length ≠ 32) "unexpected address length"

/-- `NativeProxy.QueryBalanceByAddr32`, with `XCoin.Query`. -/
def queryBalanceByAddr32 (addr32 : Bytes) : NativeCall (Option Bytes) := do
  let spawned ← getTrk codeAddr .xcoin
  assertLength addr32
  let n ← get
  let result := n.spawnedView spawned addr32
  modify fun n => n.record (.balance addr32 result)
  pure result

/-- `NativeProxy.SetBalanceByAddr32`, with `invokeSet` of package `xcoin`. -/
def setBalanceByAddr32 (addr32 : Bytes) (value : UInt64) : NativeCall Unit := do
  let spawned ← getTrk codeAddr .xcoin
  assertLength addr32
  setState .xcoin spawned addr32 (encodeBalance value)

/-! ## The balance handler -/

/-- `NativeProxy.SubBalance`. -/
def subBalance (addr : Bytes) (val : ℕ) : NativeCall Unit := do
  let addr32 ← queryAddr codeAddr addr
  let balance ← queryBalanceByAddr32 codeAddr addr32
  let oldVal ← decodeBalance balance
  throwIf (oldVal < UInt64.ofNat val) "not enough balance"
  setBalanceByAddr32 codeAddr addr32 (oldVal - UInt64.ofNat val)

/-- `NativeProxy.AddBalance`. -/
def addBalance (addr : Bytes) (val : ℕ) : NativeCall Unit := do
  let addr32 ← queryAddr codeAddr addr
  let balance ← queryBalanceByAddr32 codeAddr addr32
  let oldVal ← decodeBalance balance
  setBalanceByAddr32 codeAddr addr32 (oldVal + UInt64.ofNat val)

/-- `NativeProxy.SetBalance`. -/
def setBalance (addr : Bytes) (val : ℕ) : NativeCall Unit := do
  let addr32 ← queryAddr codeAddr addr
  setBalanceByAddr32 codeAddr addr32 (UInt64.ofNat val)

/-- `NativeProxy.GetBalance`. -/
def getBalance (addr : Bytes) : NativeCall ℕ := do
  let addr32 ← queryAddr codeAddr addr
  let balance ← queryBalanceByAddr32 codeAddr addr32
  let oldVal ← decodeBalance balance
  pure oldVal.toNat

end

/-- A fresh tracker over the root tracker of a block, and `NativeProxy.setTxTrk`. -/
def Native.setTxTrk (n : Native) (root : ℕ) : Native :=
  { n with
    txTrks := n.txTrks ++ [⟨spawn [], root⟩]
    proxy := { n.proxy with txTrk := some n.txTrks.length }
    trace := [] }

/-- `NativeProxy.mergeTrks`. The map of trackers is walked in any order. -/
def mergeTrks : NativeCall Unit := do
  let n ← get
  match n.proxy.tmpTrk.entries with
  | [] => pure ()
  | trks => do
      let tx ← deref n.proxy.txTrk
      modify fun n => { n with txTrks := n.txTrks.modify tx fun tracker =>
        { tracker with trk := trks.foldl (fun trk entry => trk.merge entry.2.trk) tracker.trk } }

/-! ## What a call may see -/

/-- The value that the call has set last. -/
def lastWrite (trace : List Reply) (code : NativeCode) (key : Bytes) : Option Bytes :=
  match trace with
  | [] => none
  | .wrote code' key' value :: earlier =>
      if code = code' ∧ key = key' then some value else lastWrite earlier code key
  | _ :: earlier => lastWrite earlier code key

/-- The content of the call's own tracker: what it shows at first, with the writes of the call. -/
def own (first : NativeCode → Bytes → Option Bytes) (trace : List Reply) (code : NativeCode) (key : Bytes) :
    Option Bytes :=
  (lastWrite trace code key).or (first code key)

/-- The addresses and the balances that are returned are those of the call's own tracker. -/
def Reply.Shows (first : NativeCode → Bytes → Option Bytes) (earlier : List Reply) : Reply → Prop
  | .address addr result => found (own first earlier .taddr addr) = result
  | .balance addr32 result => own first earlier .xcoin addr32 = result
  | .wrote .. => True

instance (first : NativeCode → Bytes → Option Bytes) (earlier : List Reply) :
    (reply : Reply) → Decidable (reply.Shows first earlier)
  | .address addr result => inferInstanceAs (Decidable (found (own first earlier .taddr addr) = result))
  | .balance addr32 result => inferInstanceAs (Decidable (own first earlier .xcoin addr32 = result))
  | .wrote .. => .isTrue trivial

theorem own_wrote (first : NativeCode → Bytes → Option Bytes) (trace : List Reply) (code code' : NativeCode)
    (key key' value : Bytes) : own first (.wrote code' key' value :: trace) code key =
      if code = code' ∧ key = key' then some value else own first trace code key := by
  unfold own
  rw [lastWrite]
  split <;> rfl

section Calls

variable (codeAddr : NativeCode → Bytes)

/-- What the tracker of the call shows of a chaincode. -/
def Native.content (n : Native) (code : NativeCode) (key : Bytes) : Option Bytes :=
  match n.proxy.txTrk with
  | some tx => n.txView tx (codeAddr code ++ key)
  | none => none

/-- The tracker of the call is as it was spawned. -/
def Native.Fresh (n : Native) : Prop :=
  ∃ tx tracker, n.proxy.txTrk = some tx ∧ n.txTrks[tx]? = some tracker ∧ tracker.trk = spawn []

/-- A tracker of the proxy shows the content of the call's own tracker, and its changes are writes of the call. -/
structure Follows (first : NativeCode → Bytes → Option Bytes) (n : Native) (code : NativeCode) (spawned : Spawned) :
    Prop where
  keyPrefix_eq : spawned.trk.keyPrefix = codeAddr code
  shows : n.spawnedView spawned = own first n.trace code
  written : ∀ full value, spawned.trk.changes.lookup full = some value →
    ∃ key v, full = codeAddr code ++ key ∧ value = some v ∧ lastWrite n.trace code key = some v

/-- The trackers of the proxy belong to the call. -/
structure InCall (first : NativeCode → Bytes → Option Bytes) (n : Native) : Prop where
  fresh : n.Fresh
  content_eq : n.content codeAddr = first
  follows : ∀ code spawned, n.proxy.tmpTrk.lookup code = some spawned → Follows codeAddr first n code spawned
  unwritten : ∀ code, n.proxy.tmpTrk.lookup code = none → ∀ key, lastWrite n.trace code key = none
  sound : History.Throughout (Reply.Shows first) n.trace

/-- The addresses have the lengths that `TAddr` writes. -/
def Translates (addrs : Bytes → Option Bytes) : Prop :=
  ∀ addr result, found (addrs addr) = some result →
    (addr.length = 20 → result.length = 32) ∧ (addr.length = 32 → result.length = 20)

/-- Before an address is stored, the caches agree with the call's own tracker too. -/
structure Looking (first : NativeCode → Bytes → Option Bytes) (n : Native) : Prop extends InCall codeAddr first n where
  translates : Translates (first .taddr)
  cached : ∀ addr result, n.proxy.cached addr = some result → found (first .taddr addr) = some result
  unstored : ∀ key, lastWrite n.trace .taddr key = none

/-- Within the call, `XCoin` has these balances. -/
def Balances (first : NativeCode → Bytes → Option Bytes) (coins : Bytes → Option Bytes) (n : Native) : Prop :=
  Looking codeAddr first n ∧ own first n.trace .xcoin = coins

/-- The proxy has nothing of other transactions that differs from what the tracker of the call shows. -/
structure Clean (n : Native) : Prop where
  translates : Translates (n.content codeAddr .taddr)
  cached : ∀ addr result, n.proxy.cached addr = some result → found (n.content codeAddr .taddr addr) = some result
  unchanged : ∀ code spawned, n.proxy.tmpTrk.lookup code = some spawned →
    spawned.trk.keyPrefix = codeAddr code ∧ spawned.trk.changes = ∅
  shows : ∀ code spawned, n.proxy.tmpTrk.lookup code = some spawned →
    n.spawnedView spawned = n.content codeAddr code

variable {codeAddr} {first : NativeCode → Bytes → Option Bytes} {n : Native}

theorem fresh_setTxTrk (n : Native) (root : ℕ) : (n.setTxTrk root).Fresh :=
  ⟨n.txTrks.length, ⟨spawn [], root⟩, rfl, List.getElem?_concat_length, rfl⟩

theorem Clean.looking (clean : Clean codeAddr n) (fresh : n.Fresh) (begun : n.trace = []) :
    Looking codeAddr (n.content codeAddr) n :=
  { clean with
    fresh := fresh
    content_eq := rfl
    follows := fun code spawned found => by
      obtain ⟨keyPrefix_eq, unchanged⟩ := clean.unchanged code spawned found
      refine ⟨keyPrefix_eq, ?_, fun full value changed => ?_⟩
      · rw [clean.shows code spawned found, begun]
        rfl
      · rw [unchanged] at changed
        cases changed
    unwritten := fun _ _ _ => by
      rw [begun]
      rfl
    sound := by
      rw [begun]
      exact History.throughout_nil
    unstored := fun _ => by
      rw [begun]
      rfl }

/-! ## Trackers and replies -/

variable {code : NativeCode} {spawned : Spawned} {reply : Reply} {key value : Bytes}

theorem Follows.record (follows : Follows codeAddr first n code spawned)
    (reads : lastWrite (reply :: n.trace) code = lastWrite n.trace code) :
    Follows codeAddr first (n.record reply) code spawned where
  keyPrefix_eq := follows.keyPrefix_eq
  shows := by
    refine follows.shows.trans ?_
    change own first n.trace code = own first (reply :: n.trace) code
    unfold own
    rw [reads]
  written full value changed := by
    change ∃ key v, _ ∧ _ ∧ lastWrite (reply :: n.trace) code key = some v
    rw [reads]
    exact follows.written full value changed

theorem Follows.wrote (follows : Follows codeAddr first n code spawned) (key value : Bytes) :
    Follows codeAddr first (n.record (.wrote code key value)) code
      { spawned with trk := spawned.trk.setState key (some value) } where
  keyPrefix_eq := follows.keyPrefix_eq
  shows := by
    funext other
    change (spawned.trk.setState key (some value)).view _ other = own first (.wrote code key value :: n.trace) code other
    rw [StateTracker.view_setState, own_wrote]
    by_cases same : other = key
    · rw [if_pos same, if_pos ⟨rfl, same⟩]
    · rw [if_neg same, if_neg fun both => same both.2]
      exact congrFun follows.shows other
  written full v changed := by
    change ∃ other v', _ ∧ _ ∧ lastWrite (.wrote code key value :: n.trace) code other = some v'
    by_cases same : full = codeAddr code ++ key
    · rw [StateTracker.setState, follows.keyPrefix_eq, same, AList.lookup_insert] at changed
      refine ⟨key, value, same, (Option.some.inj changed).symm, ?_⟩
      rw [lastWrite, if_pos ⟨rfl, rfl⟩]
    · rw [StateTracker.setState, follows.keyPrefix_eq, AList.lookup_insert_ne same] at changed
      obtain ⟨other, v', full_eq, v_eq, last⟩ := follows.written full v changed
      refine ⟨other, v', full_eq, v_eq, ?_⟩
      have other_ne : ¬ (code = code ∧ other = key) := fun both => same (both.2 ▸ full_eq)
      rw [lastWrite, if_neg other_ne]
      exact last

theorem lastWrite_wrote_of_ne {code other : NativeCode} (different : other ≠ code) (trace : List Reply)
    (key value : Bytes) : lastWrite (.wrote code key value :: trace) other = lastWrite trace other := by
  funext key'
  rw [lastWrite, if_neg fun both => different both.1]

theorem InCall.record (inCall : InCall codeAddr first n) (shows : reply.Shows first n.trace)
    (reads : lastWrite (reply :: n.trace) = lastWrite n.trace) : InCall codeAddr first (n.record reply) :=
  { inCall with
    follows := fun code spawned found => (inCall.follows code spawned found).record (congrFun reads code)
    unwritten := fun code missing key => by
      change lastWrite (reply :: n.trace) code key = none
      rw [reads]
      exact inCall.unwritten code missing key
    sound := History.throughout_cons.mpr ⟨shows, inCall.sound⟩ }

theorem Looking.record (looking : Looking codeAddr first n) (shows : reply.Shows first n.trace)
    (reads : lastWrite (reply :: n.trace) = lastWrite n.trace) : Looking codeAddr first (n.record reply) :=
  { looking with
    toInCall := looking.toInCall.record shows reads
    unstored := fun key => by
      change lastWrite (reply :: n.trace) .taddr key = none
      rw [reads]
      exact looking.unstored key }

theorem InCall.spawn (inCall : InCall codeAddr first n) {parent : ℕ} (missing : n.proxy.tmpTrk.lookup code = none)
    (current : n.proxy.txTrk = some parent) :
    InCall codeAddr first (n.setTmpTrk code ⟨Execution.spawn (codeAddr code), parent⟩) :=
  { inCall with
    follows := fun other spawned found => by
      by_cases same : other = code
      · subst same
        rw [Native.setTmpTrk, AList.lookup_insert] at found
        obtain rfl := Option.some.inj found
        refine ⟨rfl, ?_, nofun⟩
        funext key
        have shown : n.txView parent (codeAddr other ++ key) = first other key := by
          rw [← inCall.content_eq, Native.content, current]
        refine shown.trans ?_
        change _ = own first n.trace other key
        rw [own, inCall.unwritten other missing key]
        rfl
      · rw [Native.setTmpTrk, AList.lookup_insert_ne same] at found
        have follows := inCall.follows other spawned found
        exact ⟨follows.keyPrefix_eq, follows.shows, follows.written⟩
    unwritten := fun other none => by
      refine inCall.unwritten other ?_
      rw [Native.setTmpTrk, AList.lookup_insert_eq_none] at none
      exact none.2 }

theorem InCall.wrote (inCall : InCall codeAddr first n) (found : n.proxy.tmpTrk.lookup code = some spawned)
    (key value : Bytes) :
    InCall codeAddr first ((n.setTmpTrk code { spawned with trk := spawned.trk.setState key (some value) }).record
      (.wrote code key value)) where
  fresh := inCall.fresh
  content_eq := inCall.content_eq
  follows other spawned' found' := by
    by_cases same : other = code
    · subst same
      change (AList.insert other _ n.proxy.tmpTrk).lookup other = some spawned' at found'
      rw [AList.lookup_insert] at found'
      obtain rfl := Option.some.inj found'
      have follows := (inCall.follows other spawned found).wrote key value
      exact ⟨follows.keyPrefix_eq, follows.shows, follows.written⟩
    · change (AList.insert code _ n.proxy.tmpTrk).lookup other = some spawned' at found'
      rw [AList.lookup_insert_ne same] at found'
      have follows := (inCall.follows other spawned' found').record (lastWrite_wrote_of_ne same n.trace key value)
      exact ⟨follows.keyPrefix_eq, follows.shows, follows.written⟩
  unwritten other none key' := by
    change (AList.insert code _ n.proxy.tmpTrk).lookup other = Option.none at none
    rw [AList.lookup_insert_eq_none] at none
    change lastWrite (.wrote code key value :: n.trace) other key' = Option.none
    rw [lastWrite_wrote_of_ne none.1]
    exact inCall.unwritten other none.2 key'
  sound := History.throughout_cons.mpr ⟨trivial, inCall.sound⟩

/-! ## The calls of the proxy -/

/-- An invariant that the questions and the writes of the balance handler keep. -/
structure KeepsProxy (codeAddr : NativeCode → Bytes) (inv : Native → Prop) : Prop where
  queryAddr : ∀ addr, Maintains inv (queryAddr codeAddr addr) fun _ _ => True
  queryBalance : ∀ addr32, Maintains inv (queryBalanceByAddr32 codeAddr addr32) fun _ _ => True
  setBalanceByAddr32 : ∀ addr32 value, Maintains inv (setBalanceByAddr32 codeAddr addr32 value) fun _ _ => True

theorem maintains_decodeBalance {inv : Native → Prop} (balance : Option Bytes) :
    Maintains inv (decodeBalance balance) fun _ _ => True := by
  intro n holds
  unfold decodeBalance
  split
  · exact ⟨holds, trivial⟩
  · split
    · exact holds
    · exact ⟨holds, trivial⟩

namespace KeepsProxy

variable {inv : Native → Prop} (keeps : KeepsProxy codeAddr inv)
include keeps

theorem subBalance (addr : Bytes) (val : ℕ) : Maintains inv (Evm.subBalance codeAddr addr val) fun _ _ => True :=
  .seq (keeps.queryAddr addr) fun addr32 => .seq (keeps.queryBalance addr32) fun _ =>
    .seq (maintains_decodeBalance _) fun _ => .seq .throwIf fun _ => keeps.setBalanceByAddr32 addr32 _

theorem addBalance (addr : Bytes) (val : ℕ) : Maintains inv (Evm.addBalance codeAddr addr val) fun _ _ => True :=
  .seq (keeps.queryAddr addr) fun addr32 => .seq (keeps.queryBalance addr32) fun _ =>
    .seq (maintains_decodeBalance _) fun _ => keeps.setBalanceByAddr32 addr32 _

theorem setBalance (addr : Bytes) (val : ℕ) : Maintains inv (Evm.setBalance codeAddr addr val) fun _ _ => True :=
  .seq (keeps.queryAddr addr) fun addr32 => keeps.setBalanceByAddr32 addr32 _

theorem getBalance (addr : Bytes) : Maintains inv (Evm.getBalance codeAddr addr) fun _ _ => True :=
  .seq (keeps.queryAddr addr) fun addr32 => .seq (keeps.queryBalance addr32) fun _ =>
    .seq (maintains_decodeBalance _) fun _ => .pure fun _ _ => trivial

end KeepsProxy

theorem maintains_getTrk {inv : Native → Prop} (code : NativeCode)
    (spawns : ∀ n parent, inv n → n.proxy.tmpTrk.lookup code = none → n.proxy.txTrk = some parent →
      inv (n.setTmpTrk code ⟨Execution.spawn (codeAddr code), parent⟩)) :
    Maintains inv (getTrk codeAddr code) fun spawned n => n.proxy.tmpTrk.lookup code = some spawned := by
  refine .get_bind fun n holds => ?_
  cases found : n.proxy.tmpTrk.lookup code with
  | some spawned => exact ⟨holds, found⟩
  | none =>
      refine (wp_bind _ _).mpr ((wp_deref _).mpr ⟨fun parent current => ?_, fun _ => holds⟩)
      exact ⟨spawns n parent holds found current, AList.lookup_insert _⟩

theorem keepsProxy_txTrk (codeAddr : NativeCode → Bytes) (txTrk : Option ℕ) :
    KeepsProxy codeAddr fun n => n.proxy.txTrk = txTrk := by
  have tracker (code : NativeCode) : Maintains (fun n : Native => n.proxy.txTrk = txTrk) (getTrk codeAddr code) _ :=
    maintains_getTrk code fun _ _ same _ _ => same
  have cached (addr result : Bytes) :
      Maintains (fun n : Native => n.proxy.txTrk = txTrk) (cacheAddr addr result) fun _ _ => True :=
    .ite (.ite .fault (.modify fun _ same => same)) (.ite .fault (.modify fun _ same => same))
  refine ⟨fun addr => .get_bind fun n same => ?_, fun addr32 => ?_, fun addr32 value => ?_⟩
  · cases n.proxy.cached addr with
    | some result => exact ⟨same, trivial⟩
    | none =>
        refine (Maintains.seq (tracker .taddr) fun spawned => .seq .throwIf fun _ => .get_bind fun n same => ?_) n same
        refine (wp_bind _ _).mpr ((wp_modify _).mpr ?_)
        cases found (n.spawnedView spawned addr) with
        | none => exact same
        | some result => exact (Maintains.seq (cached addr result) fun _ => .pure fun _ _ => trivial) _ same
  · exact .seq (tracker .xcoin) fun _ => .seq .throwIf fun _ => .get_bind fun n same => ⟨same, trivial⟩
  · exact .seq (tracker .xcoin) fun _ => .seq .throwIf fun _ => .modify fun _ same => same

theorem InCall.getTrk (code : NativeCode) : Maintains (InCall codeAddr first) (Evm.getTrk codeAddr code)
      fun spawned n => n.proxy.tmpTrk.lookup code = some spawned :=
  maintains_getTrk code fun _ _ inCall missing current => inCall.spawn missing current

variable {coins : Bytes → Option Bytes}

theorem Balances.getTrk (holds : Balances codeAddr first coins n) (code : NativeCode) : wp (Evm.getTrk codeAddr code)
      (fun spawned n' => Balances codeAddr first coins n' ∧ n'.proxy.tmpTrk.lookup code = some spawned)
      (fun _ _ => False) n := by
  rw [Evm.getTrk, wp_bind, wp_get]
  cases missing : n.proxy.tmpTrk.lookup code with
  | some spawned => exact ⟨holds, missing⟩
  | none =>
      obtain ⟨looking, same⟩ := holds
      obtain ⟨tx, tracker, current, -⟩ := id looking.fresh
      rw [current]
      exact ⟨⟨⟨looking.toInCall.spawn missing current, looking.translates, looking.cached, looking.unstored⟩, same⟩,
        AList.lookup_insert _⟩

theorem lookup_of_insert {cache : AList fun _ : Bytes => Bytes} {addr result other shown : Bytes}
    (cached : (cache.insert addr result).lookup other = some shown) :
    other = addr ∧ shown = result ∨ cache.lookup other = some shown := by
  by_cases same : other = addr
  · subst same
    rw [AList.lookup_insert] at cached
    exact Or.inl ⟨rfl, (Option.some.inj cached).symm⟩
  · rw [AList.lookup_insert_ne same] at cached
    exact Or.inr cached

theorem cached_of_addr20 {proxy : NativeProxy} {addr result other shown : Bytes}
    (cached : NativeProxy.cached { proxy with addr20Cache := proxy.addr20Cache.insert addr result } other = some shown) :
    other = addr ∧ shown = result ∨ proxy.cached other = some shown := by
  unfold NativeProxy.cached at cached ⊢
  split_ifs at cached ⊢
  exacts [lookup_of_insert cached, Or.inr cached]

theorem cached_of_addr32 {proxy : NativeProxy} {addr result other shown : Bytes}
    (cached : NativeProxy.cached { proxy with addr32Cache := proxy.addr32Cache.insert addr result } other = some shown) :
    other = addr ∧ shown = result ∨ proxy.cached other = some shown := by
  unfold NativeProxy.cached at cached ⊢
  split_ifs at cached ⊢
  exacts [Or.inr cached, lookup_of_insert cached]

theorem Looking.setProxy (looking : Looking codeAddr first n) {proxy : NativeProxy}
    (txTrk_eq : proxy.txTrk = n.proxy.txTrk) (tmpTrk_eq : proxy.tmpTrk = n.proxy.tmpTrk)
    (agree : ∀ addr result, proxy.cached addr = some result → found (first .taddr addr) = some result) :
    Looking codeAddr first { n with proxy := proxy } := by
  obtain ⟨⟨fresh, content_eq, follows, unwritten, sound⟩, translates, -, unstored⟩ := looking
  rw [← tmpTrk_eq] at follows unwritten
  rw [Native.Fresh, ← txTrk_eq] at fresh
  refine ⟨⟨fresh, ?_, fun code spawned found => ?_, unwritten, sound⟩, translates, agree, unstored⟩
  · rw [← content_eq]
    funext code key
    rw [Native.content, Native.content, txTrk_eq]
    rfl
  · have follows := follows code spawned found
    exact ⟨follows.keyPrefix_eq, follows.shows, follows.written⟩

theorem Balances.cacheAddr (holds : Balances codeAddr first coins n) {addr result : Bytes}
    (is_found : found (first .taddr addr) = some result) (length : ¬ (addr.length ≠ 20 ∧ addr.length ≠ 32)) :
    wp (Evm.cacheAddr addr result) (fun _ n' => Balances codeAddr first coins n') (fun _ _ => False) n := by
  obtain ⟨looking, same⟩ := holds
  obtain ⟨of_20, of_32⟩ := looking.translates addr result is_found
  have agree : ∀ other shown, other = addr ∧ shown = result ∨ n.proxy.cached other = some shown →
      found (first .taddr other) = some shown := by
    rintro other shown (⟨rfl, rfl⟩ | cached)
    · exact is_found
    · exact looking.cached other shown cached
  unfold Evm.cacheAddr
  by_cases short : addr.length = 20
  · have whole : result.take 32 = result := List.take_of_length_le (of_20 short).le
    rw [if_pos short, if_neg (of_20 short).not_lt, whole]
    exact ⟨looking.setProxy rfl rfl fun other shown cached => agree other shown (cached_of_addr20 cached), same⟩
  · have long : result.length = 20 := of_32 (by omega)
    have whole : result.take 20 = result := List.take_of_length_le long.le
    rw [if_neg short, if_neg long.not_lt, whole]
    exact ⟨looking.setProxy rfl rfl fun other shown cached => agree other shown (cached_of_addr32 cached), same⟩

theorem Looking.own_taddr (looking : Looking codeAddr first n) : own first n.trace .taddr = first .taddr := by
  funext addr
  rw [own, looking.unstored addr]
  rfl

theorem Balances.queryAddr (holds : Balances codeAddr first coins n) (addr : Bytes) : wp (Evm.queryAddr codeAddr addr)
      (fun result n' => Balances codeAddr first coins n' ∧ found (first .taddr addr) = some result)
      (fun halt n' => Balances codeAddr first coins n' ∧ ∃ reason, halt = .error reason ∧
        (addr.length = 20 → found (first .taddr addr) = none)) n := by
  rw [Evm.queryAddr, wp_bind, wp_get]
  cases cached : n.proxy.cached addr with
  | some result =>
      obtain ⟨looking, same⟩ := holds
      have is_found := looking.cached addr result cached
      have shows : (Reply.address addr (some result)).Shows first n.trace := by
        rw [Reply.Shows, looking.own_taddr]
        exact is_found
      exact ⟨⟨looking.record shows rfl, same⟩, is_found⟩
  | none =>
      refine wp_then (wp_mono (holds.getTrk .taddr) (fun _ _ => id) fun _ _ => False.elim) ?_
      rintro spawned n ⟨⟨looking, same⟩, spawned_eq⟩
      refine (wp_bind _ _).mpr ((wp_throwIf _ _).mpr ⟨fun invalid => ?_, fun length => ?_⟩)
      · exact ⟨⟨looking, same⟩, _, rfl, fun short => absurd short invalid.1⟩
      refine (wp_bind _ _).mpr (wp_get.mpr ?_)
      have shown : n.spawnedView spawned addr = first .taddr addr := by
        rw [(looking.follows .taddr spawned spawned_eq).shows, looking.own_taddr]
      have shows : (Reply.address addr (found (first .taddr addr))).Shows first n.trace := by
        rw [Reply.Shows, looking.own_taddr]
      rw [shown]
      refine (wp_bind _ _).mpr ((wp_modify _).mpr ?_)
      have recorded : Balances codeAddr first coins (n.record _) := ⟨looking.record shows rfl, same⟩
      cases is_found : found (first .taddr addr) with
      | none =>
          rw [is_found] at recorded
          exact ⟨recorded, _, rfl, fun _ => rfl⟩
      | some result =>
          rw [is_found] at recorded
          exact wp_then (wp_mono (recorded.cacheAddr is_found length) (fun _ _ => id) fun _ _ => False.elim)
            fun _ _ holds => ⟨holds, rfl⟩

theorem Balances.queryBalanceByAddr32 (holds : Balances codeAddr first coins n) (addr32 : Bytes) :
    wp (Evm.queryBalanceByAddr32 codeAddr addr32)
      (fun balance n' => Balances codeAddr first coins n' ∧ balance = coins addr32)
      (fun _ n' => Balances codeAddr first coins n' ∧ addr32.length ≠ 32) n := by
  refine wp_then (wp_mono (holds.getTrk .xcoin) (fun _ _ => id) fun _ _ => False.elim) ?_
  rintro spawned n ⟨⟨looking, same⟩, spawned_eq⟩
  refine (wp_bind _ _).mpr ((wp_throwIf _ _).mpr ⟨fun invalid => ⟨⟨looking, same⟩, invalid.2⟩, fun _ => ?_⟩)
  refine (wp_bind _ _).mpr (wp_get.mpr ?_)
  have shown := (looking.follows .xcoin spawned spawned_eq).shows
  have shows : (Reply.balance addr32 (n.spawnedView spawned addr32)).Shows first n.trace := by
    rw [Reply.Shows, shown]
  exact ⟨⟨looking.record shows rfl, same⟩, by rw [shown, same]⟩

theorem Balances.setBalanceByAddr32 (holds : Balances codeAddr first coins n) (addr32 : Bytes) (value : UInt64) :
    wp (Evm.setBalanceByAddr32 codeAddr addr32 value)
      (fun _ n' => Balances codeAddr first (Function.update coins addr32 (some (encodeBalance value))) n')
      (fun _ n' => Balances codeAddr first coins n' ∧ addr32.length ≠ 32) n := by
  refine wp_then (wp_mono (holds.getTrk .xcoin) (fun _ _ => id) fun _ _ => False.elim) ?_
  rintro spawned n ⟨⟨looking, same⟩, spawned_eq⟩
  refine (wp_bind _ _).mpr ((wp_throwIf _ _).mpr ⟨fun invalid => ⟨⟨looking, same⟩, invalid.2⟩, fun _ => ?_⟩)
  refine ⟨⟨looking.toInCall.wrote spawned_eq addr32 (encodeBalance value), looking.translates, looking.cached,
    fun key => ?_⟩, ?_⟩
  · have other : NativeCode.taddr ≠ .xcoin := nofun
    change lastWrite (.wrote .xcoin addr32 (encodeBalance value) :: n.trace) .taddr key = none
    rw [lastWrite_wrote_of_ne other]
    exact looking.unstored key
  · change own first (.wrote .xcoin addr32 (encodeBalance value) :: n.trace) .xcoin = _
    funext key
    simp [own_wrote, same, Function.update_apply]

theorem Looking.keepsProxy (codeAddr : NativeCode → Bytes) (first : NativeCode → Bytes → Option Bytes) :
    KeepsProxy codeAddr (Looking codeAddr first) where
  queryAddr addr _ looking := wp_mono (Balances.queryAddr ⟨looking, rfl⟩ addr) (fun _ _ after => ⟨after.1.1, trivial⟩)
    fun _ _ after => after.1.1
  queryBalance addr32 _ looking := wp_mono (Balances.queryBalanceByAddr32 ⟨looking, rfl⟩ addr32)
    (fun _ _ after => ⟨after.1.1, trivial⟩) fun _ _ after => after.1.1
  setBalanceByAddr32 addr32 value _ looking := wp_mono (Balances.setBalanceByAddr32 ⟨looking, rfl⟩ addr32 value)
    (fun _ _ after => ⟨after.1, trivial⟩) fun _ _ after => after.1.1

theorem InCall.storeAddr (addr : Bytes) :
    Maintains (InCall codeAddr first) (Evm.storeAddr codeAddr addr) fun _ _ => True := by
  refine .bind (InCall.getTrk .taddr) fun spawned n inCall spawned_eq => ?_
  refine (wp_bind _ _).mpr ((wp_throwIf _ _).mpr ⟨fun _ => inCall, fun _ => ?_⟩)
  refine (wp_bind _ _).mpr ((wp_modify _).mpr ?_)
  refine wp_then (InCall.getTrk .taddr _ (inCall.wrote spawned_eq addr _)) ?_
  rintro spawned n ⟨inCall, spawned_eq⟩
  exact ⟨inCall.wrote spawned_eq _ addr, trivial⟩

/-! ## The end of a call -/

/-- What the tracker of the transaction has got, the call has written. -/
def Native.MergedOwn (codeAddr : NativeCode → Bytes) (n : Native) : Prop :=
  ∀ tx tracker, n.proxy.txTrk = some tx → n.txTrks[tx]? = some tracker → ∀ full value,
    tracker.trk.changes.lookup full = some value →
      ∃ code key v, full = codeAddr code ++ key ∧ value = some v ∧ lastWrite n.trace code key = some v

/-- A call has shown only what its own tracker holds, and only its own writes are merged. -/
structure Native.OwnOnly (codeAddr : NativeCode → Bytes) (first : NativeCode → Bytes → Option Bytes) (n : Native) :
    Prop where
  shown : History.Throughout (Reply.Shows first) n.trace
  merged : n.MergedOwn codeAddr

theorem Native.Fresh.mergedOwn (fresh : n.Fresh) : n.MergedOwn codeAddr := by
  obtain ⟨tx, tracker, current, tracker_eq, spawned⟩ := fresh
  intro tx' tracker' current' tracker_eq' full value changed
  obtain rfl := Option.some.inj (current.symm.trans current')
  obtain rfl := Option.some.inj (tracker_eq.symm.trans tracker_eq')
  rw [spawned] at changed
  cases changed

theorem lookup_of_merges {entries : List (Sigma fun _ : NativeCode => Spawned)} {trk : StateTracker} {full : Bytes}
    {value : Option Bytes} (keyPrefix_eq : trk.keyPrefix = [])
    (merged : (entries.foldl (fun trk entry => trk.merge entry.2.trk) trk).changes.lookup full = some value) :
    (∃ entry ∈ entries, entry.2.trk.changes.lookup full = some value) ∨ trk.changes.lookup full = some value := by
  induction entries generalizing trk with
  | nil => exact Or.inr merged
  | cons entry entries ih =>
      have merge_eq := (StateTracker.merge_spec trk entry.2.trk).1.trans keyPrefix_eq
      rcases ih merge_eq merged with ⟨later, later_mem, changed⟩ | before
      · exact Or.inl ⟨later, List.mem_cons_of_mem _ later_mem, changed⟩
      · rcases StateTracker.lookup_of_merge keyPrefix_eq before with own | old
        · exact Or.inl ⟨entry, List.mem_cons_self, own⟩
        · exact Or.inr old

theorem InCall.ownOnly (inCall : InCall codeAddr first n) : n.OwnOnly codeAddr first :=
  ⟨inCall.sound, inCall.fresh.mergedOwn⟩

/-- `mergeTrks` writes what the call has written. -/
theorem InCall.mergeTrks (inCall : InCall codeAddr first n) :
    wp Evm.mergeTrks (fun _ n' => n'.OwnOnly codeAddr first) (fun _ n' => n'.OwnOnly codeAddr first) n := by
  refine (wp_bind _ _).mpr (wp_get.mpr ?_)
  cases trks_eq : n.proxy.tmpTrk.entries with
  | nil => exact inCall.ownOnly
  | cons entry entries =>
      obtain ⟨tx, tracker, current, tracker_eq, spawned⟩ := inCall.fresh
      refine (wp_bind _ _).mpr ((wp_deref _).mpr ⟨fun tx' current' => ?_, fun none => ?_⟩)
      · obtain rfl := Option.some.inj (current.symm.trans current')
        refine ⟨inCall.sound, fun tx' tracker' current' tracker_eq' full value changed => ?_⟩
        obtain rfl := Option.some.inj (current.symm.trans current')
        rw [List.getElem?_modify_eq, tracker_eq] at tracker_eq'
        obtain rfl := Option.some.inj tracker_eq'
        change ((entry :: entries).foldl _ tracker.trk).changes.lookup full = some value at changed
        rw [spawned] at changed
        rcases lookup_of_merges rfl changed with ⟨merged, merged_mem, own⟩ | before
        · rw [← trks_eq] at merged_mem
          have found : n.proxy.tmpTrk.lookup merged.1 = some merged.2 := AList.mem_lookup_iff.mpr merged_mem
          obtain ⟨key, v, full_eq, value_eq, last⟩ := (inCall.follows _ _ found).written full value own
          exact ⟨merged.1, key, v, full_eq, value_eq, last⟩
        · cases before
      · exact absurd (current.symm.trans none) nofun

end Calls

end Evm
end SvpChain
