import SvpChain.Execution.TxExecutor
import SvpChain.Lib.Ledger

/-!
# The coin chaincodes

`XCoin` of package `native/xcoin`, and the parts that `PCoin` of package `native/pcoin` has in common
with it.  Balances are unsigned 64-bit integers that are added without a check, so transfers keep the
supply exactly as long as the supply itself fits into 64 bits.
-/

namespace SvpChain.Execution

open Core Program Ledger

/-! ## Call contexts -/

/-- What a chaincode has set, as its call context shows it. -/
abbrev Contract := AList fun _ : Bytes => Bytes

/-- A call of a chaincode. Its errors are texts. -/
abbrev Call := Program String Contract

namespace Contract

/-- `GetState` of the call context. -/
def getState (key : Bytes) : Call (Option Bytes) := gets fun store => store.lookup key

/-- `SetState` of the call context. -/
def setState (key value : Bytes) : Call Unit := modify fun store => store.insert key value

/-- The state after a transaction: `executeChaincode` recovers panics, and only a call without an error
is merged. -/
def commit (call : Call Unit) (store : Contract) : Contract :=
  match call store with
  | (.ok _, store') => store'
  | (.error _, _) => store

end Contract

/-- The call context of a transaction, whose sender is a public key. -/
structure TxCall extends CallContext where
  sender_size : sender.length = 32

/-! ## Balances -/

/-- `EncodeBalance`. -/
def encodeBalance (value : UInt64) : Bytes := Bytes.bigEndian 8 value.toNat

/-- `DecodeBalance`; `binary.BigEndian.Uint64` panics on less than eight bytes. -/
def decodeBalance : Option Bytes → Call UInt64
  | none => pure 0
  | some bytes =>
      if bytes.length < 8 then fault .indexOutOfRange
      else pure (UInt64.ofNat (Bytes.toNat (bytes.take 8)))

/-- `AssertLength`. -/
def assertLength (addr : Bytes) (l : ℕ) : Call Unit :=
  throwIf (addr.length ≠ 0 ∧ addr.length ≠ l) "unexpected address length"

/-! ## Inputs -/

/-- `Input` of packages `xcoin` and `pcoin`. -/
structure CoinInput where
  method : String
  dest : Bytes
  value : UInt64

/-- The formats of the inputs, from the imported packages. -/
structure CoinFormats where
  /-- `json.Unmarshal` of an `Input`. -/
  unmarshal : Bytes → Except String CoinInput
  /-- `json.Unmarshal` of an `InitInput`, in the order in which the map is iterated over. -/
  unmarshalInit : Bytes → Except String (List (String × UInt64))
  /-- `Address32ToBytes`. -/
  address32ToBytes : String → Except String Bytes

variable (formats : CoinFormats)

/-- `parseInput`. -/
def parseInput (input : Bytes) : Call CoinInput :=
  match formats.unmarshal input with
  | .error reason => throw ("failed to parse input: " ++ reason)
  | .ok input => pure input

/-- `invokeTransfer` of both packages. -/
def invokeTransfer (ctx : CallContext) (input : CoinInput) : Call Unit := do
  throwIf (ctx.sender = input.dest) "self-transfer is prohibited"
  let bsctx ← decodeBalance (← Contract.getState ctx.sender)
  throwIf (bsctx < input.value) "not enough balance"
  let bdes ← decodeBalance (← Contract.getState input.dest)
  Contract.setState ctx.sender (encodeBalance (bsctx - input.value))
  Contract.setState input.dest (encodeBalance (bdes + input.value))

namespace XCoin

/-- The loop of `Init`. -/
def setValues : List (String × UInt64) → Call Unit
  | [] => pure ()
  | (k, v) :: values =>
      match formats.address32ToBytes k with
      | .error reason => throw ("init xcoin failed: " ++ reason)
      | .ok owner => do
          assertLength owner 32
          Contract.setState owner (encodeBalance v)
          setValues values

/-- `XCoin.Init`. -/
def init (ctx : CallContext) : Call Unit := do
  throwIf (ctx.blockHeight ≠ 0) "xcoin must init at genesis"
  match formats.unmarshalInit ctx.input with
  | .error reason => throw ("failed to parse init input: " ++ reason)
  | .ok values => setValues formats values

/-- `invokeSet`. -/
def invokeSet (ctx : CallContext) (input : CoinInput) : Call Unit := do
  throwIf (ctx.sender ≠ []) "method must be internal"
  Contract.setState input.dest (encodeBalance input.value)

/-- `XCoin.Invoke`. -/
def invoke (ctx : CallContext) : Call Unit := do
  let input ← parseInput formats ctx.input
  assertLength input.dest 32
  if input.method = "set" then invokeSet ctx input
  else if input.method = "transfer" then invokeTransfer ctx input
  else throw "method not found"

/-- The state after transactions that invoke the chaincode. -/
def run (calls : List TxCall) (store : Contract) : Contract :=
  calls.foldl (fun store call => Contract.commit (invoke formats call.toCallContext) store) store

end XCoin

/-! ## Amounts -/

/-- The amount in a stored value. -/
def amount (_ : Bytes) (value : Bytes) : ℕ := Bytes.toNat (value.take 8)

variable {formats} {store : Contract} {key : Bytes} {ctx : CallContext} {input : CoinInput}

@[simp]
theorem amount_encodeBalance (key : Bytes) (value : UInt64) : amount key (encodeBalance value) = value.toNat := by
  rw [amount, encodeBalance, List.take_of_length_le (Bytes.bigEndian_length 8 _).le,
    Bytes.toNat_bigEndian]
  exact Nat.mod_eq_of_lt value.toNat_lt

/-- A key under which a balance is stored, or nothing. -/
def Readable (store : Contract) (key : Bytes) : Prop :=
  ∀ value ∈ store.lookup key, ∃ balance, value = encodeBalance balance

theorem held_lt (readable : Readable store key) : held amount store key < 2 ^ 64 := by
  cases found : store.lookup key with
  | none =>
      rw [held, found]
      exact Nat.two_pow_pos 64
  | some value =>
      obtain ⟨balance, rfl⟩ := readable value found
      rw [held, found, Option.elim_some, amount_encodeBalance]
      exact balance.toNat_lt

/-- The balance under a key, as the code computes with it. -/
def balanceOf (store : Contract) (key : Bytes) : UInt64 := UInt64.ofNat (held amount store key)

theorem toNat_balanceOf (readable : Readable store key) : (balanceOf store key).toNat = held amount store key :=
  UInt64.toNat_ofNat_of_lt' (held_lt readable)

theorem wp_decodeBalance (readable : Readable store key) {post : UInt64 → Contract → Prop}
    {stop : Halt String → Contract → Prop} :
    wp (decodeBalance (store.lookup key)) post stop store ↔ post (balanceOf store key) store := by
  cases found : store.lookup key with
  | none =>
      rw [balanceOf, held, found]
      rfl
  | some value =>
      obtain ⟨balance, rfl⟩ := readable value found
      have long : ¬ (encodeBalance balance).length < 8 := by
        rw [encodeBalance, Bytes.bigEndian_length]
        exact lt_irrefl 8
      rw [decodeBalance, if_neg long, wp_pure, balanceOf, held, found, Option.elim_some, amount]

theorem Readable.insert {written : Bytes} (readable : Readable store key) (balance : UInt64) :
    Readable (store.insert written (encodeBalance balance)) key := by
  intro value found
  by_cases same : key = written
  · subst same
    rw [AList.lookup_insert] at found
    exact ⟨balance, (Option.some.inj found).symm⟩
  · rw [AList.lookup_insert_ne same] at found
    exact readable value found

/-! ## Transfers -/

/-- The state after a transfer. -/
def moved (store : Contract) (sender dest : Bytes) (value : UInt64) : Contract :=
  (store.insert sender (encodeBalance (balanceOf store sender - value))).insert dest
    (encodeBalance (balanceOf store dest + value))

/-- A transfer that returns without an error moves a value that the sender has; one that does not leaves
everything as it was. -/
theorem wp_invokeTransfer (sender : Readable store ctx.sender) (dest : Readable store input.dest) :
    wp (invokeTransfer ctx input)
      (fun _ store' => (ctx.sender ≠ input.dest ∧ input.value ≤ balanceOf store ctx.sender) ∧
        store' = moved store ctx.sender input.dest input.value)
      (fun halt store' => (∃ reason, halt = .error reason) ∧ store' = store ∧
        (ctx.sender = input.dest ∨ balanceOf store ctx.sender < input.value)) store := by
  simp only [invokeTransfer, Contract.getState, Contract.setState, wp_bind, wp_throwIf, wp_gets,
    wp_decodeBalance sender, wp_decodeBalance dest, wp_modify]
  refine ⟨fun same => ⟨⟨_, rfl⟩, trivial, Or.inl same⟩, fun different => ⟨fun poor => ?_, fun rich => ?_⟩⟩
  · exact ⟨⟨_, rfl⟩, trivial, Or.inr poor⟩
  · exact ⟨⟨different, UInt64.not_lt.mp rich⟩, rfl⟩

section

variable {sender dest : Bytes} {value : UInt64} {measure : Bytes → Bytes → ℕ}

theorem held_moved_dest : held amount (moved store sender dest value) dest = (balanceOf store dest + value).toNat := by
  rw [moved, held_insert, amount_encodeBalance]

/-- A measure that counts a key as an account. -/
def Counts (measure : Bytes → Bytes → ℕ) (key : Bytes) : Prop :=
  ∀ value, measure key value = amount key value

theorem counts_amount : Counts amount key := fun _ => rfl

theorem Counts.held_eq (counts : Counts measure key) : held measure store key = held amount store key := by
  rw [held, held]
  cases store.lookup key with
  | none => rfl
  | some value => exact counts value

theorem Counts.total_insert (counts : Counts measure key) (balance : UInt64) :
    total measure (store.insert key (encodeBalance balance)) + held amount store key =
      total measure store + balance.toNat := by
  rw [← counts.held_eq, Ledger.total_insert, counts, amount_encodeBalance]

variable (sender_readable : Readable store sender) (dest_readable : Readable store dest)
  (sender_counts : Counts measure sender) (dest_counts : Counts measure dest)
  (different : sender ≠ dest) (enough : value ≤ balanceOf store sender)
include sender_readable sender_counts dest_counts different enough

section

include dest_readable

theorem total_moved : total measure (moved store sender dest value) + held amount store dest + value.toNat =
      total measure store + (held amount store dest + value.toNat) % 2 ^ 64 := by
  have enough_nat : value.toNat ≤ held amount store sender := by
    rw [← toNat_balanceOf sender_readable]
    exact UInt64.le_iff_toNat_le.mp enough
  have taken := @Counts.total_insert store _ _ sender_counts (balanceOf store sender - value)
  rw [UInt64.toNat_sub_of_le _ _ enough, toNat_balanceOf sender_readable] at taken
  have given := @Counts.total_insert (store.insert sender (encodeBalance (balanceOf store sender - value)))
    _ _ dest_counts (balanceOf store dest + value)
  rw [held_insert_of_ne different.symm, UInt64.toNat_add, toNat_balanceOf dest_readable, ← moved] at given
  omega

/-- The total stays the same exactly if the recipient's balance does not wrap. -/
theorem total_moved_eq_iff : total measure (moved store sender dest value) = total measure store ↔
      held amount store dest + value.toNat < 2 ^ 64 := by
  have kept := total_moved sender_readable dest_readable sender_counts dest_counts different enough
  have value_lt := value.toNat_lt
  have dest_lt := held_lt dest_readable
  omega

end

theorem no_carry (fits : total measure store < 2 ^ 64) : held amount store dest + value.toNat < 2 ^ 64 := by
  have enough_nat : value.toNat ≤ held amount store sender := by
    rw [← toNat_balanceOf sender_readable]
    exact UInt64.le_iff_toNat_le.mp enough
  have both := @held_add_held_le_total _ _ _ measure store dest sender different
  rw [sender_counts.held_eq, dest_counts.held_eq] at both
  omega

end

/-! ## Invocations of XCoin -/

namespace XCoin

/-- Balances stand under addresses. -/
structure Balances (store : Contract) : Prop where
  readable : ∀ key, Readable store key
  size : ∀ key ∈ store, key.length = 0 ∨ key.length = 32

theorem Balances.insert (balances : Balances store) (size : key.length = 0 ∨ key.length = 32)
    (balance : UInt64) : Balances (store.insert key (encodeBalance balance)) where
  readable other := (balances.readable other).insert balance
  size other mem := by
    rcases (AList.mem_insert _).mp mem with rfl | old
    · exact size
    · exact balances.size other old

theorem Balances.moved {sender dest : Bytes} (balances : Balances store) (sender_size : sender.length = 32)
    (dest_size : dest.length = 0 ∨ dest.length = 32) (value : UInt64) : Balances (moved store sender dest value) :=
  (balances.insert (Or.inr sender_size) _).insert dest_size _

/-- What a transaction asks for. -/
structure Transfers (formats : CoinFormats) (store : Contract) (call : TxCall) (input : CoinInput) :
    Prop where
  parsed : formats.unmarshal call.input = .ok input
  dest_size : input.dest.length = 0 ∨ input.dest.length = 32
  method_eq : input.method = "transfer"
  different : call.sender ≠ input.dest
  enough : input.value ≤ balanceOf store call.sender

theorem wp_invoke (balances : Balances store) (call : TxCall) : wp (invoke formats call.toCallContext)
      (fun _ store' => ∃ input, Transfers formats store call input ∧
        store' = moved store call.sender input.dest input.value)
      (fun halt store' => (∃ reason, halt = .error reason) ∧ store' = store ∧
        ∀ input, ¬ Transfers formats store call input) store := by
  rw [invoke, wp_bind, parseInput]
  cases parsed : formats.unmarshal call.input with
  | error reason =>
      refine ⟨⟨_, rfl⟩, rfl, fun input transfers => ?_⟩
      rw [transfers.parsed] at parsed
      cases parsed
  | ok input =>
      have only {other : CoinInput} (transfers : Transfers formats store call other) : other = input :=
        Except.ok.inj (transfers.parsed.symm.trans parsed)
      rw [wp_pure, wp_bind, assertLength, wp_throwIf]
      refine ⟨fun wrong => ⟨⟨_, rfl⟩, rfl, fun other transfers => ?_⟩, fun size => ?_⟩
      · obtain rfl := only transfers
        rcases transfers.dest_size with empty | full
        · exact wrong.1 empty
        · exact wrong.2 full
      rw [wp_ite, wp_ite]
      refine ⟨fun is_set => ?_, fun _ => ⟨fun is_transfer => ?_, fun other_method => ?_⟩⟩
      · have external : call.sender ≠ [] := fun empty => by
          have size := call.sender_size
          rw [empty] at size
          cases size
        rw [invokeSet, wp_bind, wp_throwIf]
        refine ⟨fun _ => ⟨⟨_, rfl⟩, rfl, fun other transfers => ?_⟩, fun internal => absurd external internal⟩
        obtain rfl := only transfers
        exact absurd (is_set.symm.trans transfers.method_eq) (by decide)
      · refine wp_mono (wp_invokeTransfer (balances.readable _) (balances.readable _)) ?_ ?_
        · rintro _ store' ⟨⟨different, enough⟩, rfl⟩
          exact ⟨input, ⟨parsed, by tauto, is_transfer, different, enough⟩, rfl⟩
        · rintro halt store' ⟨is_error, rfl, refused⟩
          refine ⟨is_error, rfl, fun other transfers => ?_⟩
          obtain rfl := only transfers
          rcases refused with same | poor
          · exact transfers.different same
          · exact UInt64.not_lt.mpr transfers.enough poor
      · refine ⟨⟨_, rfl⟩, rfl, fun other transfers => ?_⟩
        obtain rfl := only transfers
        exact other_method transfers.method_eq

theorem commit_cases (balances : Balances store) (call : TxCall) : (∃ input, Transfers formats store call input ∧
        (invoke formats call.toCallContext store).1 = .ok () ∧
        Contract.commit (invoke formats call.toCallContext) store = moved store call.sender input.dest input.value) ∨
      (∀ input, ¬ Transfers formats store call input) ∧
        (∃ reason, (invoke formats call.toCallContext store).1 = .error (.error reason)) ∧
        (invoke formats call.toCallContext).final store = store ∧
        Contract.commit (invoke formats call.toCallContext) store = store := by
  have spec := @wp_invoke formats store balances call
  unfold wp at spec
  unfold Contract.commit final
  rcases ending : invoke formats call.toCallContext store with ⟨_ | _, store'⟩
  · rw [ending] at spec
    obtain ⟨⟨reason, rfl⟩, rfl, refused⟩ := spec
    exact Or.inr ⟨refused, ⟨reason, rfl⟩, rfl, rfl⟩
  · rw [ending] at spec
    obtain ⟨input, transfers, rfl⟩ := spec
    exact Or.inl ⟨input, transfers, rfl, rfl⟩

theorem Balances.commit (balances : Balances store) (call : TxCall) :
    Balances (Contract.commit (invoke formats call.toCallContext) store) := by
  rcases @commit_cases formats store balances call with ⟨input, transfers, -, moved_eq⟩ | ⟨-, -, -, same⟩
  · rw [moved_eq]
    exact balances.moved call.sender_size transfers.dest_size input.value
  · rw [same]
    exact balances

theorem Balances.run (balances : Balances store) (calls : List TxCall) : Balances (run formats calls store) := by
  induction calls generalizing store with
  | nil => exact balances
  | cons call calls ih => exact ih (balances.commit call)

/-! ## Conservation -/

/-- The supply is there, and no transaction that comes next lowers the balance of its recipient or fails
and changes a balance. -/
structure Sound (formats : CoinFormats) (supply : ℕ) (store : Contract) : Prop where
  supply_eq : total amount store = supply
  recipient : ∀ (call : TxCall) (input : CoinInput), formats.unmarshal call.input = .ok input →
    (invoke formats call.toCallContext store).1 = .ok () → held amount store input.dest ≤
      held amount (Contract.commit (invoke formats call.toCallContext) store) input.dest
  failure : ∀ (call : TxCall) (halt : Halt String),
    (invoke formats call.toCallContext store).1 = .error halt →
      (invoke formats call.toCallContext).final store = store ∧
        Contract.commit (invoke formats call.toCallContext) store = store

theorem sound_of_fits {supply : ℕ} (balances : Balances store) (supply_eq : total amount store = supply)
    (fits : supply < 2 ^ 64) : Sound formats supply store where
  supply_eq := supply_eq
  recipient call input parsed returned := by
    rcases @commit_cases formats store balances call with
      ⟨other, transfers, -, moved_eq⟩ | ⟨-, ⟨reason, raised⟩, -⟩
    · obtain rfl := Except.ok.inj (transfers.parsed.symm.trans parsed)
      have room := no_carry (balances.readable _) counts_amount counts_amount transfers.different
        transfers.enough (supply_eq ▸ fits)
      rw [moved_eq, held_moved_dest, UInt64.toNat_add, toNat_balanceOf (balances.readable _),
        Nat.mod_eq_of_lt room]
      exact Nat.le_add_right _ _
    · rw [returned] at raised
      cases raised
  failure call halt raised := by
    rcases @commit_cases formats store balances call with ⟨_, _, returned, -⟩ | ⟨-, -, unchanged⟩
    · rw [returned] at raised
      cases raised
    · exact unchanged

theorem total_commit (balances : Balances store) (fits : total amount store < 2 ^ 64) (call : TxCall) :
    total amount (Contract.commit (invoke formats call.toCallContext) store) = total amount store := by
  rcases @commit_cases formats store balances call with ⟨input, transfers, -, moved_eq⟩ | ⟨-, -, -, same⟩
  · rw [moved_eq]
    exact (total_moved_eq_iff (balances.readable _) (balances.readable _) counts_amount counts_amount
      transfers.different transfers.enough).mpr (no_carry (balances.readable _) counts_amount counts_amount
        transfers.different transfers.enough fits)
  · rw [same]

theorem total_run (balances : Balances store) (fits : total amount store < 2 ^ 64) (calls : List TxCall) :
    total amount (run formats calls store) = total amount store := by
  induction calls generalizing store with
  | nil => rfl
  | cons call calls ih =>
      have kept := @total_commit formats store balances fits call
      exact (ih (balances.commit call) (kept ▸ fits)).trans kept

/-- Every transfer can be written down. -/
def HasTexts (formats : CoinFormats) : Prop :=
  ∀ dest value, ∃ text, formats.unmarshal text = .ok ⟨"transfer", dest, value⟩

/-- If the supply does not fit into 64 bits, transfers to the empty address carry over in the end. -/
theorem exists_loss (texts : HasTexts formats) (balances : Balances store) (large : 2 ^ 64 ≤ total amount store) :
    ∃ calls, total amount (run formats calls store) ≠ total amount store := by
  -- the balance of the empty address grows with every transfer
  induction room : 2 ^ 64 - held amount store [] using Nat.strong_induction_on generalizing store with
  | _ gap ih =>
      have dest_lt := held_lt (balances.readable [])
      obtain ⟨sender, different, present, positive⟩ := exists_held_of_lt (dest_lt.trans_le large)
      have sender_size : sender.length = 32 := by
        rcases balances.size sender present with empty | full
        · exact absurd (List.length_eq_zero_iff.mp empty) different
        · exact full
      obtain ⟨text, parsed⟩ := texts [] (balanceOf store sender)
      let call : TxCall := ⟨⟨sender, [], [], 0, text⟩, sender_size⟩
      have transfers : Transfers formats store call ⟨"transfer", [], balanceOf store sender⟩ :=
        ⟨parsed, Or.inl rfl, rfl, different, UInt64.le_refl _⟩
      have moved_eq : Contract.commit (invoke formats call.toCallContext) store =
          moved store sender [] (balanceOf store sender) := by
        rcases @commit_cases formats store balances call with ⟨other, is_other, -, moved_eq⟩ | ⟨refused, -⟩
        · obtain rfl := Except.ok.inj (is_other.parsed.symm.trans parsed)
          exact moved_eq
        · exact absurd transfers (refused _)
      have balances' := @Balances.commit formats store balances call
      rw [moved_eq] at balances'
      by_cases kept : total amount (moved store sender [] (balanceOf store sender)) = total amount store
      · have fits := (total_moved_eq_iff (balances.readable _) (balances.readable _) counts_amount
          counts_amount different transfers.enough).mp kept
        rw [toNat_balanceOf (balances.readable _)] at fits
        have grown : held amount (moved store sender [] (balanceOf store sender)) [] =
            held amount store [] + held amount store sender := by
          rw [held_moved_dest, UInt64.toNat_add, toNat_balanceOf (balances.readable _),
            toNat_balanceOf (balances.readable _), Nat.mod_eq_of_lt fits]
        obtain ⟨calls, lost⟩ := ih _ (by omega) balances' (kept ▸ large) rfl
        refine ⟨call :: calls, ?_⟩
        change total amount (run formats calls (Contract.commit _ store)) ≠ _
        rw [moved_eq, ← kept]
        exact lost
      · refine ⟨[call], ?_⟩
        change total amount (Contract.commit _ store) ≠ _
        rw [moved_eq]
        exact kept

/-! ## The genesis values -/

/-- The owner of a genesis value, where its address can be decoded. -/
def owner (formats : CoinFormats) (address : String) : Bytes :=
  match formats.address32ToBytes address with
  | .ok owner => owner
  | .error _ => []

/-- The writes of `Init`. -/
def genesisWrites (formats : CoinFormats) (values : List (String × UInt64)) : List (Bytes × Bytes) :=
  values.map fun value => (owner formats value.1, encodeBalance value.2)

theorem wp_setValues (values : List (String × UInt64)) (balances : Balances store) : wp (setValues formats values)
      (fun _ store' => Balances store' ∧ store' = insertAll (genesisWrites formats values) store ∧
        ∀ value ∈ values, formats.address32ToBytes value.1 = .ok (owner formats value.1)) (fun _ _ => True) store := by
  induction values generalizing store with
  | nil => exact ⟨balances, rfl, fun _ mem => absurd mem List.not_mem_nil⟩
  | cons value values ih =>
      obtain ⟨address, amount⟩ := value
      rw [setValues]
      cases decoded : formats.address32ToBytes address with
      | error reason => trivial
      | ok bytes =>
          have owner_eq : owner formats address = bytes := by rw [owner, decoded]
          simp only [wp_bind, assertLength, wp_throwIf, Contract.setState, wp_modify]
          refine ⟨fun _ => trivial, fun size => ?_⟩
          refine wp_mono (ih (balances.insert (by tauto) amount)) ?_ fun _ _ _ => trivial
          rintro _ store' ⟨balances', rfl, owners⟩
          refine ⟨balances', ?_, List.forall_mem_cons.mpr ⟨?_, owners⟩⟩
          · rw [← owner_eq]
            rfl
          · rw [owner_eq, decoded]

theorem balances_empty : Balances ∅ where
  readable key value found := by cases found
  size key mem := absurd mem (AList.notMem_empty key)

theorem sum_genesisWrites (values : List (String × UInt64)) :
    ((genesisWrites formats values).map fun write => amount write.1 write.2).sum =
      (values.map fun value => value.2.toNat).sum := by
  rw [genesisWrites, List.map_map]
  congr 1
  refine List.map_congr_left fun value _ => ?_
  rw [Function.comp_apply, amount_encodeBalance]

/-- `Init` stores the genesis values under their owners. -/
theorem deployed_cases {values : List (String × UInt64)} {genesis : Contract}
    (parsed : formats.unmarshalInit ctx.input = .ok values) (deployed : init formats ctx ∅ = (.ok (), genesis)) :
    Balances genesis ∧ genesis = insertAll (genesisWrites formats values) ∅ ∧
      ∀ value ∈ values, formats.address32ToBytes value.1 = .ok (owner formats value.1) := by
  have spec : wp (init formats ctx)
      (fun _ store' => Balances store' ∧ store' = insertAll (genesisWrites formats values) ∅ ∧
        ∀ value ∈ values, formats.address32ToBytes value.1 = .ok (owner formats value.1))
      (fun _ _ => True) ∅ := by
    rw [init, wp_bind, wp_throwIf, parsed]
    exact ⟨fun _ => trivial, fun _ => wp_setValues values balances_empty⟩
  unfold wp at spec
  rwa [deployed] at spec

/-- `Init` stores the whole supply exactly if no value is lost to a later one for the same address. -/
theorem total_genesis_iff {values : List (String × UInt64)}
    (owners : ∀ value ∈ values, formats.address32ToBytes value.1 = .ok (owner formats value.1)) :
    total amount (insertAll (genesisWrites formats values) ∅) = (values.map fun value => value.2.toNat).sum ↔
      values.Pairwise fun earlier later =>
        formats.address32ToBytes earlier.1 = formats.address32ToBytes later.1 → earlier.2 = 0 := by
  have written := @total_insertAll_eq_iff _ _ _ amount (genesisWrites formats values) ∅
  rw [total_empty, Nat.zero_add, sum_genesisWrites] at written
  rw [written, genesisWrites, List.pairwise_map]
  refine (and_iff_right fun _ _ => held_empty).trans (List.Pairwise.iff_of_mem ?_)
  intro earlier later earlier_mem later_mem
  rw [owners earlier earlier_mem, owners later later_mem, amount_encodeBalance, Except.ok.injEq,
    ← UInt64.toNat_inj]
  rfl

/-- `XCoin` conserves the supply in every sequence of transactions exactly if no genesis value other than
zero is overwritten by a later value for the same address, and the genesis values together fit into
64 bits. -/
theorem conserves_iff (texts : HasTexts formats) {values : List (String × UInt64)} {genesis : Contract}
    (parsed : formats.unmarshalInit ctx.input = .ok values)
    (deployed : init formats ctx ∅ = (.ok (), genesis)) :
    (∀ calls, Sound formats (values.map fun value => value.2.toNat).sum (run formats calls genesis)) ↔
      (values.Pairwise fun earlier later =>
        formats.address32ToBytes earlier.1 = formats.address32ToBytes later.1 → earlier.2 = 0) ∧
      (values.map fun value => value.2.toNat).sum < 2 ^ 64 := by
  obtain ⟨balances, genesis_eq, owners⟩ := deployed_cases parsed deployed
  rw [← total_genesis_iff owners, ← genesis_eq]
  constructor
  · intro sound
    have stored := (sound []).supply_eq
    refine ⟨stored, ?_⟩
    by_contra large
    obtain ⟨calls, lost⟩ := exists_loss texts balances (stored ▸ not_lt.mp large)
    exact lost ((sound calls).supply_eq.trans stored.symm)
  · rintro ⟨stored, fits⟩ calls
    have kept := @total_run formats genesis balances (stored ▸ fits) calls
    exact sound_of_fits (balances.run calls) (kept.trans stored) fits

/-! ## A supply of 2 ^ 64 -/

/-- Formats in which a transfer is its value and its destination, and the length of a genesis address
stands for a key. -/
def plainFormats (values : List (String × UInt64)) : CoinFormats where
  unmarshal text :=
    if text.length < 8 then .error "unexpected end of JSON input"
    else .ok ⟨"transfer", text.drop 8, UInt64.ofNat (Bytes.toNat (text.take 8))⟩
  unmarshalInit _ := .ok values
  address32ToBytes address := .ok (List.replicate 32 (UInt8.ofNat address.length))

theorem plainFormats_hasTexts (values : List (String × UInt64)) : HasTexts (plainFormats values) := by
  intro dest value
  have length_eq : (encodeBalance value).length = 8 := Bytes.bigEndian_length 8 _
  have long : ¬ (encodeBalance value ++ dest).length < 8 := by
    rw [List.length_append, length_eq]
    omega
  have read : Bytes.toNat ((encodeBalance value ++ dest).take 8) = value.toNat := by
    rw [List.take_left' length_eq, encodeBalance, Bytes.toNat_bigEndian]
    exact Nat.mod_eq_of_lt value.toNat_lt
  refine ⟨encodeBalance value ++ dest, ?_⟩
  simp only [plainFormats]
  rw [if_neg long, read, UInt64.ofNat_toNat, List.drop_left' length_eq]

/-- The call of `Init` in the genesis block. -/
def genesisCall : CallContext := ⟨[], [], [], 0, []⟩

/-- A transfer of the first owner to the second one. -/
def plainTransfer (value : UInt64) : TxCall :=
  ⟨⟨List.replicate 32 1, [], [], 0, encodeBalance value ++ List.replicate 32 2⟩, rfl⟩

/-- The largest balance and one more unit. -/
def overfull : List (String × UInt64) := [("A", UInt64.ofNat (2 ^ 64 - 1)), ("BB", 1)]

/-- The genesis values and the balances of an allocation. -/
def allocation (values : List (String × UInt64)) : Contract :=
  insertAll (genesisWrites (plainFormats values) values) ∅

/-- One transfer of everything to an owner of one unit leaves nothing: the recipient's balance wraps. -/
theorem transfer_loses_supply :
    init (plainFormats overfull) genesisCall ∅ = (.ok (), allocation overfull) ∧
    (overfull.map fun value => value.2.toNat).sum = 2 ^ 64 ∧
    held amount (allocation overfull) (List.replicate 32 2) = 1 ∧
    total amount (run (plainFormats overfull) [plainTransfer (UInt64.ofNat (2 ^ 64 - 1))]
      (allocation overfull)) = 0 ∧
    ¬ Sound (plainFormats overfull) (2 ^ 64) (run (plainFormats overfull)
      [plainTransfer (UInt64.ofNat (2 ^ 64 - 1))] (allocation overfull)) := by
  have lost : total amount (run (plainFormats overfull) [plainTransfer (UInt64.ofNat (2 ^ 64 - 1))]
      (allocation overfull)) = 0 := by decide +kernel
  refine ⟨rfl, by decide +kernel, by decide +kernel, lost, fun sound => ?_⟩
  exact absurd (lost.symm.trans sound.supply_eq) (by decide)

/-- An allocation of five units. -/
theorem conserves_iff_five :
    init (plainFormats [("A", 3), ("BB", 2)]) genesisCall ∅ = (.ok (), allocation [("A", 3), ("BB", 2)]) ∧
      ∀ calls, Sound (plainFormats [("A", 3), ("BB", 2)]) 5
        (run (plainFormats [("A", 3), ("BB", 2)]) calls (allocation [("A", 3), ("BB", 2)])) := by
  have deployed : init (plainFormats [("A", 3), ("BB", 2)]) genesisCall ∅ =
      (.ok (), allocation [("A", 3), ("BB", 2)]) := rfl
  refine ⟨deployed, (conserves_iff (plainFormats_hasTexts _) rfl deployed).mpr ⟨?_, by decide⟩⟩
  decide

end XCoin

end SvpChain.Execution
