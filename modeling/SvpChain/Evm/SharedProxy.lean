import SvpChain.Evm.Runner

/-!
# One proxy for all transactions

The trackers and the addresses of the native proxy outlive the transaction that they were made for.  A call that
begins with a proxy that holds nothing of other transactions, or nothing that differs, sees and merges only what is
its own.  Nothing clears the proxy between two calls, so a call after another one may see the balances of that one.
-/

namespace SvpChain.Evm

open Core Execution Program

variable {params : EvmParams} {first : NativeCode → Bytes → Option Bytes} {start m : Machine}
  {calls : List (Machine × EvmTx)}

/-! ## One call -/

/-- A call of the trackers' own part keeps to the call. -/
theorem wp_mergeTrks (inCall : InCall params.codeAddr first m.native) :
    wp (onNative mergeTrks) (fun _ m' => m'.native.OwnOnly params.codeAddr first)
      (fun _ m' => m'.native.OwnOnly params.codeAddr first) m := by
  refine wp_zoom.mpr (wp_mono inCall.mergeTrks (fun _ _ own => own) ?_)
  intro halt n own
  cases halt <;> exact own

theorem Looking.wp_invoke (looking : Looking params.codeAddr first m.native) (invocation : Invocation) :
    wp (invocation.invoke params) (fun _ m' => m'.native.OwnOnly params.codeAddr first)
      (fun _ m' => m'.native.OwnOnly params.codeAddr first) m := by
  have proxy := Looking.keepsProxy params.codeAddr first
  refine (wp_bind _ _).mpr (wp_mono (proxy.prepare invocation m looking) ?_ fun _ _ looking => looking.toInCall.ownOnly)
  rintro prepared m ⟨looking, -⟩
  refine (wp_bind _ _).mpr (wp_mono (proxy.callContract invocation prepared.1 prepared.2 m looking) ?_
    fun _ _ looking => looking.toInCall.ownOnly)
  rintro outcome m ⟨looking, -⟩
  exact wp_mergeTrks looking.toInCall

theorem Looking.wp_init (looking : Looking params.codeAddr first m.native) (deployment : Deployment) :
    wp (deployment.init params) (fun _ m' => m'.native.OwnOnly params.codeAddr first)
      (fun _ m' => m'.native.OwnOnly params.codeAddr first) m := by
  have proxy := Looking.keepsProxy params.codeAddr first
  refine (wp_bind _ _).mpr (wp_mono (proxy.setConfig deployment.sender m looking) ?_
    fun _ _ looking => looking.toInCall.ownOnly)
  rintro origin m ⟨looking, -⟩
  refine (wp_bind _ _).mpr (wp_mono (maintains_ofResult deployment.packed m looking) ?_
    fun _ _ looking => looking.toInCall.ownOnly)
  rintro _ m ⟨looking, -⟩
  refine (wp_bind _ _).mpr (wp_get.mpr ((wp_bind _ _).mpr ?_))
  refine wp_mono (proxy.keeps.create (proxy.keeps.interpret 1 deployment.script) 0 origin _ 0 deployment.paid m looking)
    ?_ fun _ _ looking => looking.toInCall.ownOnly
  rintro created m ⟨looking, -⟩
  -- the address is stored last, when no address is looked up any more
  have stored : Maintains (fun m => InCall params.codeAddr first m.native)
      (onNative (storeAddr params.codeAddr created.2.1)) fun _ _ => True :=
    .zoom (InCall.storeAddr created.2.1) (fun _ inCall => inCall) fun _ _ _ inCall => inCall
  refine (wp_bind _ _).mpr ((wp_bind _ _).mpr ?_)
  refine wp_mono (stored { m with db := m.db.commit } looking.toInCall) ?_ fun _ _ inCall => inCall.ownOnly
  rintro _ m ⟨inCall, -⟩
  exact wp_mergeTrks inCall

/-- Every reply of the proxy in a call is what the call's own tracker holds, and what is merged into that tracker the
call has written. -/
def CallSound (params : EvmParams) (begun : Machine) (tx : EvmTx) : Prop :=
  (final (tx.run params) begun).native.OwnOnly params.codeAddr (begun.native.content params.codeAddr)

theorem callSound_of_clean {root : ℕ} (clean : Clean params.codeAddr (m.begin root).native) (tx : EvmTx) :
    CallSound params (m.begin root) tx := by
  have looking := clean.looking (fresh_setTxTrk m.native root) rfl
  refine @final_of_wp _ _ _ _ _ (fun m' : Machine => m'.native.OwnOnly params.codeAddr _) ?_
  cases tx with
  | init deployment => exact looking.wp_init deployment
  | invoke invocation => exact looking.wp_invoke invocation

/-! ## Calls one after another -/

/-- Other transactions are merged and committed. They touch neither the proxy nor the database. -/
structure Outside (m m' : Machine) : Prop where
  db_eq : m'.db = m.db
  proxy_eq : m'.native.proxy = m.native.proxy

/-- Calls through one proxy, each with a fresh tracker, and whatever happens between them. -/
inductive CallRun (params : EvmParams) (start : Machine) : List (Machine × EvmTx) → Machine → Prop where
  | start : CallRun params start [] start
  | outside {calls : List (Machine × EvmTx)} {m m' : Machine} (run : CallRun params start calls m)
      (others : Outside m m') : CallRun params start calls m'
  | call {calls : List (Machine × EvmTx)} {m : Machine} (run : CallRun params start calls m) (root : ℕ) (tx : EvmTx) :
      CallRun params start ((m.begin root, tx) :: calls) (final (tx.run params) (m.begin root))

theorem clean_newNativeProxy {root : ℕ} (new : m.native.proxy = newNativeProxy)
    (translates : Translates ((m.begin root).native.content params.codeAddr .taddr)) :
    Clean params.codeAddr (m.begin root).native where
  translates := translates
  cached addr result cached := by
    have nothing : (m.begin root).native.proxy.cached addr = newNativeProxy.cached addr := by
      change NativeProxy.cached { m.native.proxy with txTrk := _ } addr = _
      rw [new]
      rfl
    rw [nothing, NativeProxy.cached] at cached
    split at cached
    · cases cached
    · split at cached <;> cases cached
  unchanged code spawned found := by
    change m.native.proxy.tmpTrk.lookup code = some spawned at found
    rw [new] at found
    cases found
  shows code spawned found := by
    change m.native.proxy.tmpTrk.lookup code = some spawned at found
    rw [new] at found
    cases found

/-! ## A call after another one -/

/-- An invocation whose code does nothing. It still transfers zero coins. -/
def idle : Invocation := invocationBy 7 (.finish ⟨[], none⟩)

/-- The sender has five coins, the contract none. -/
def beforeIdle : Machine := contractMachine (plainAddress 9) [(7, 5), (9, 0)]

/-- The sender has invoked the contract. In a later block the four coins are committed that it has sent away by a
native transfer. -/
def afterTransfer : Machine :=
  let m := final (idle.invoke plainParams) (beforeIdle.begin 0)
  { m with native := { m.native with
    state := (contractMachine (plainAddress 9) [(7, 1), (8, 4), (9, 0)]).native.state
    roots := m.native.roots ++ [newStateTracker []] } }

theorem translates_plainState (balances : List (UInt8 × UInt64)) :
    Translates fun addr => plainState balances ([2] ++ addr) := by
  intro addr result is_found
  have shown : plainState balances ([2] ++ addr) = some result := by
    unfold found at is_found
    split at is_found
    · cases is_found
    · exact is_found
  obtain ⟨before, after, entries_eq, -⟩ := List.lookup_eq_some_iff.mp shown
  have mem : ([2] ++ addr, result) ∈ before ++ ([2] ++ addr, result) :: after :=
    List.mem_append_right _ List.mem_cons_self
  rw [← entries_eq] at mem
  obtain ⟨entry, -, entry_mem⟩ := List.mem_flatMap.mp mem
  have short : (plainAddress entry.1).1.length = 20 := (plainAddress entry.1).2
  have long : (plainAddr32 entry.1).length = 32 := by simp [plainAddr32, toAddr32, short]
  simp only [List.mem_cons, Prod.mk.injEq, List.cons_append, List.nil_append, List.cons.injEq, List.not_mem_nil,
    or_false] at entry_mem
  rcases entry_mem with ⟨⟨other, -⟩, -⟩ | ⟨⟨-, rfl⟩, rfl⟩ | ⟨⟨-, rfl⟩, rfl⟩
  · exact absurd other (by decide)
  · exact ⟨fun _ => long, fun other => absurd (short.symm.trans other) (by decide)⟩
  · exact ⟨fun other => absurd (long.symm.trans other) (by decide), fun _ => short⟩

end SvpChain.Evm
