import SvpChain.Evm.NativeProxy

/-!
# Address translation

`TAddr` of package `native/taddr` keeps, for every address of 32 bytes that it is given, the address of 20 bytes that
the EVM uses for it, and the way back.  The short address is the front of the long one.  So two long addresses with one
front share their short address, which leads back to the one that was stored last.
-/

namespace SvpChain.Evm.TAddr

open Core Execution Program

/-! ## The chaincode -/

/-- `Input` of package `taddr`. -/
structure Input where
  method : String
  addr : Bytes

/-- The formats of the inputs, from the imported packages. -/
structure Formats where
  /-- `json.Unmarshal` of an `Input`. -/
  unmarshal : Bytes → Except String Input
  /-- `json.Unmarshal` of an `InitInput`. -/
  unmarshalInit : Bytes → Except String (List String)
  /-- `Address32ToBytes`. -/
  address32ToBytes : String → Except String Bytes

section

variable (formats : Formats)

/-- `parseInput`. -/
def parseInput (input : Bytes) : Call Input :=
  match formats.unmarshal input with
  | .error reason => throw ("failed to parse input: " ++ reason)
  | .ok input => pure input

/-- `ValidLength`. -/
def validLength (addr : Bytes) : Call Unit :=
  throwIf (addr.length ≠ 20 ∧ addr.length ≠ 32) "unexpected address length"

/-- The states of an address and of the one that it is translated to. -/
def setPair (addr destAddr : Bytes) : Call Unit := do
  Contract.setState addr destAddr
  Contract.setState destAddr addr

/-- The loop of `Init`. -/
def setValues : List String → Call Unit
  | [] => pure ()
  | v :: values =>
      match formats.address32ToBytes v with
      | .error reason => throw ("init taddr chaincode failed: " ++ reason)
      | .ok addr => do
          Execution.assertLength addr 32
          -- an empty address passes, and has no first 20 bytes
          if addr.length < 20 then fault .indexOutOfRange
          else do
            setPair addr (toAddr20 addr)
            setValues values

/-- `TAddr.Init`. -/
def init (ctx : CallContext) : Call Unit := do
  throwIf (ctx.blockHeight ≠ 0) "taddr chaincode must init at genesis"
  match formats.unmarshalInit ctx.input with
  | .error reason => throw ("failed to parse init input: " ++ reason)
  | .ok values => setValues formats values

/-- `storeAddr`. -/
def storeAddr (ctx : CallContext) (input : Input) : Call Unit := do
  throwIf (ctx.sender ≠ []) "method must be internal"
  validLength input.addr
  setPair input.addr (if input.addr.length = 20 then toAddr32 input.addr else toAddr20 input.addr)

/-- `TAddr.Invoke`. -/
def invoke (ctx : CallContext) : Call Unit := do
  let input ← parseInput formats ctx.input
  if input.method = "store" then storeAddr ctx input else throw "method not found"

/-- `queryAddr`. -/
def queryAddr (addr : Bytes) : Call Bytes := do
  validLength addr
  match found (← Contract.getState addr) with
  | none => throw "address not found"
  | some destAddr => pure destAddr

/-- `TAddr.Query`. -/
def query (ctx : CallContext) : Call Bytes := do
  let input ← parseInput formats ctx.input
  if input.method = "query" then queryAddr input.addr else throw "method not found"

/-- `Init` and the invocations after it, as long as they succeed. -/
def run (ctx : CallContext) (calls : List CallContext) : Call Unit := do
  init formats ctx
  calls.forM (invoke formats)

end

/-- Every address that is found leads back. -/
def Symmetric (store : Contract) : Prop :=
  ∀ addr dest, (queryAddr addr store).1 = .ok dest → (queryAddr dest store).1 = .ok addr

/-- No two of the long addresses that are found have the same front. -/
def DistinctFronts (store : Contract) : Prop :=
  ∀ addr ∈ store, ∀ other ∈ store, addr.length = 32 → other.length = 32 → toAddr20 addr = toAddr20 other → addr = other

/-! ## Fronts -/

/-- A long address leads to its front, and a front back to a long address with this front. -/
structure Paired (store : Contract) : Prop where
  long : ∀ addr ∈ store, addr.length = 32 → store.lookup addr = some (toAddr20 addr) ∧ toAddr20 addr ∈ store
  short : ∀ addr dest, addr.length = 20 → store.lookup addr = some dest →
    dest.length = 32 ∧ toAddr20 dest = addr ∧ dest ∈ store

variable {formats : Formats} {store store' : Contract}

theorem length_toAddr20 {addr : Bytes} (long : addr.length = 32) : (toAddr20 addr).length = 20 := by
  simp [toAddr20, long]

theorem Paired.insert (paired : Paired store) {addr : Bytes} (size : addr.length = 32)
    (lookups : ∀ key, store'.lookup key =
      if key = addr then some (toAddr20 addr) else if key = toAddr20 addr then some addr else store.lookup key) :
    Paired store' := by
  have front := length_toAddr20 size
  have mem_iff (key : Bytes) : key ∈ store' ↔ key = addr ∨ key = toAddr20 addr ∨ key ∈ store := by
    rw [← AList.lookup_isSome, ← AList.lookup_isSome, lookups]
    split_ifs with own other <;> simp [*]
  refine ⟨fun key mem long => ?_, fun key dest short found => ?_⟩
  · by_cases own : key = addr
    · simp [lookups, mem_iff, own]
    · have other : key ≠ toAddr20 addr := fun same => by simp [same, front] at long
      have old := paired.long key (((mem_iff key).mp mem).resolve_left own |>.resolve_left other) long
      simp [lookups, mem_iff, own, other, old]
  · have other : key ≠ addr := fun same => by simp [same, size] at short
    rw [lookups, if_neg other] at found
    by_cases own : key = toAddr20 addr
    · obtain rfl : addr = dest := by simpa [own] using found
      simp [mem_iff, size, own]
    · rw [if_neg own] at found
      obtain ⟨length_eq, front_eq, mem⟩ := paired.short key dest short found
      exact ⟨length_eq, front_eq, (mem_iff dest).mpr (.inr (.inr mem))⟩

theorem Paired.setPair (paired : Paired store) {addr : Bytes} (size : addr.length = 32) :
    wp (setPair addr (toAddr20 addr)) (fun _ store' => Paired store') (fun _ _ => True) store ∧
      wp (TAddr.setPair (toAddr20 addr) addr) (fun _ store' => Paired store') (fun _ _ => True) store := by
  have apart : addr ≠ toAddr20 addr := fun same => by
    have front := length_toAddr20 size
    rw [← same] at front
    omega
  constructor <;> refine paired.insert size fun key => ?_
  all_goals
    rcases eq_or_ne key addr with rfl | own
    · simp [AList.lookup_insert_ne apart]
    · rcases eq_or_ne key (toAddr20 addr) with rfl | other
      · simp [AList.lookup_insert_ne apart.symm, apart.symm]
      · simp [AList.lookup_insert_ne own, AList.lookup_insert_ne other, own, other]

theorem Paired.setValues (values : List String) (paired : Paired store) :
    wp (setValues formats values) (fun _ store' => Paired store') (fun _ _ => True) store := by
  induction values generalizing store with
  | nil => exact paired
  | cons v values ih =>
      rw [TAddr.setValues]
      cases formats.address32ToBytes v with
      | error reason => trivial
      | ok addr =>
          rw [wp_bind, Execution.assertLength, wp_throwIf, wp_ite]
          refine ⟨fun _ => trivial, fun passes => ⟨fun _ => trivial, fun long => ?_⟩⟩
          have size : addr.length = 32 := by omega
          exact wp_then (paired.setPair size).1 fun _ _ paired => ih paired

theorem Paired.invoke (ctx : CallContext) (paired : Paired store) :
    wp (invoke formats ctx) (fun _ store' => Paired store') (fun _ _ => True) store := by
  rw [TAddr.invoke, wp_bind, parseInput]
  cases formats.unmarshal ctx.input with
  | error reason => trivial
  | ok input =>
      rw [wp_pure, wp_ite, storeAddr, wp_bind, wp_throwIf, wp_bind, validLength, wp_throwIf]
      refine ⟨fun _ => ⟨fun _ => trivial, fun _ => ⟨fun _ => trivial, fun valid => ?_⟩⟩, fun _ => trivial⟩
      by_cases short : input.addr.length = 20
      · have size : (toAddr32 input.addr).length = 32 := by simp [toAddr32, short]
        have front : toAddr20 (toAddr32 input.addr) = input.addr := by simp [toAddr20, toAddr32, ← short]
        simpa [short, front] using (paired.setPair size).2
      · rw [if_neg short]
        exact (paired.setPair (by omega)).1

theorem paired_run (ctx : CallContext) (calls : List CallContext) :
    wp (run formats ctx calls) (fun _ store => Paired store) (fun _ _ => True) ∅ := by
  have invoked {store : Contract} (paired : Paired store) :
      wp (calls.forM (invoke formats)) (fun _ store => Paired store) (fun _ _ => True) store := by
    induction calls generalizing store with
    | nil => exact paired
    | cons call calls ih => exact wp_then (paired.invoke call) fun _ _ paired => ih paired
  have empty : Paired ∅ := ⟨fun _ mem => absurd mem (AList.notMem_empty _), by simp⟩
  rw [run, wp_bind, init, wp_bind, wp_throwIf]
  refine ⟨fun _ => trivial, fun _ => ?_⟩
  cases formats.unmarshalInit ctx.input with
  | error reason => trivial
  | ok values => exact wp_mono (empty.setValues values) (fun _ _ paired => invoked paired) fun _ _ _ => trivial

/-! ## Queries -/

theorem queryAddr_eq_ok_iff {addr dest : Bytes} : (queryAddr addr store).1 = .ok dest ↔
    (addr.length = 20 ∨ addr.length = 32) ∧ dest ≠ [] ∧ store.lookup addr = some dest := by
  have returned : (queryAddr addr store).1 = if addr.length ≠ 20 ∧ addr.length ≠ 32
      then .error (.error "unexpected address length")
      else match found (store.lookup addr) with
        | none => .error (.error "address not found")
        | some destAddr => .ok destAddr := by
    unfold queryAddr validLength throwIf
    split
    · rfl
    · change ((match found (store.lookup addr) with
        | none => Program.throw "address not found"
        | some destAddr => pure destAddr : Call Bytes) store).1 = _
      cases found (store.lookup addr) <;> rfl
  rw [returned]
  split
  next invalid => simp [invalid]
  next valid =>
    have valid : addr.length = 20 ∨ addr.length = 32 := by omega
    rcases store.lookup addr with _ | _ | _
    · simp [found]
    · simp [found]
    · simp +contextual [found, valid, eq_comm]

theorem Paired.symmetric_iff (paired : Paired store) : Symmetric store ↔ DistinctFronts store := by
  simp only [Symmetric, queryAddr_eq_ok_iff]
  constructor
  · intro symmetric addr mem other other_mem size other_size same
    have front_ne : toAddr20 addr ≠ [] := fun empty => by simpa [empty] using length_toAddr20 size
    have back := symmetric addr _ ⟨.inr size, front_ne, (paired.long addr mem size).1⟩
    have other_back := symmetric other _ ⟨.inr other_size, same ▸ front_ne, (paired.long other other_mem other_size).1⟩
    rw [← same] at other_back
    exact Option.some.inj (back.2.2.symm.trans other_back.2.2)
  · rintro distinct addr dest ⟨size | size, -, found⟩
    · obtain ⟨length_eq, rfl, mem⟩ := paired.short addr dest size found
      exact ⟨.inr length_eq, fun empty => by simp [empty] at size, (paired.long dest mem length_eq).1⟩
    · have mem : addr ∈ store := AList.lookup_isSome.mp (by simp [found])
      obtain ⟨front, front_mem⟩ := paired.long addr mem size
      obtain rfl := Option.some.inj (found.symm.trans front)
      obtain ⟨back, back_eq⟩ := Option.isSome_iff_exists.mp (AList.lookup_isSome.mpr front_mem)
      obtain ⟨back_size, same, back_mem⟩ := paired.short _ back (length_toAddr20 size) back_eq
      obtain rfl := distinct back back_mem addr mem back_size size same
      exact ⟨.inl (length_toAddr20 size), fun empty => by simp [empty] at size, back_eq⟩

/-- After `Init` and any calls of `store`, addresses are translated both ways exactly as long as no two of the long
addresses that are kept have the same first 20 bytes. -/
theorem translation_symmetric_iff {ctx : CallContext} {calls : List CallContext}
    (succeeds : run formats ctx calls ∅ = (.ok (), store)) : Symmetric store ↔ DistinctFronts store := by
  have paired := @paired_run formats ctx calls
  rw [wp, succeeds] at paired
  exact paired.symmetric_iff

/-- Formats for the texts of two addresses that differ in their last byte. -/
def frontFormats : Formats where
  unmarshal addr := .ok ⟨"store", addr⟩
  unmarshalInit _ := .ok ["A", "B"]
  address32ToBytes text := .ok (List.replicate 31 1 ++ [if text = "A" then 1 else 2])

def frontContext : CallContext := ⟨[], [], [], 0, List.replicate 20 3⟩

theorem translation_symmetric_iff_frontFormats :
    ∃ store, run frontFormats frontContext [frontContext] ∅ = (.ok (), store) ∧
      (Symmetric store ↔ DistinctFronts store) :=
  ⟨_, rfl, translation_symmetric_iff (rfl : run frontFormats frontContext [frontContext] ∅ = _)⟩

/-- The first of two addresses with one front is translated, and its translation leads to the second. -/
theorem shared_front_leads_away : ∃ store, run frontFormats frontContext [] ∅ = (.ok (), store) ∧
    (queryAddr (List.replicate 32 1) store).1 = .ok (List.replicate 20 1) ∧
      (queryAddr (List.replicate 20 1) store).1 = .ok (List.replicate 31 1 ++ [2]) :=
  ⟨_, rfl, rfl, rfl⟩

end SvpChain.Evm.TAddr
