import SvpChain.Execution.Coins

/-!
# The minted coin

`PCoin` of package `native/pcoin`.  The deployer mints coins and `total` counts them.  Minting adds the
value to `total` and to one balance, both without a check of the carry; they stay in step exactly if
either both additions carry or none does.
-/

namespace SvpChain.Execution

open Core Program Ledger

namespace PCoin

/-- `keyMinter`, the text `minter`. -/
def keyMinter : Bytes := [0x6d, 0x69, 0x6e, 0x74, 0x65, 0x72]

/-- `keyTotal`, the text `total`. -/
def keyTotal : Bytes := [0x74, 0x6f, 0x74, 0x61, 0x6c]

/-- `PCoin.Init`. -/
def init (ctx : CallContext) : Call Unit := Contract.setState keyMinter ctx.sender

/-- `invokeMint`. -/
def invokeMint (ctx : CallContext) (input : CoinInput) : Call Unit := do
  let minter ← Contract.getState keyMinter
  -- `bytes.Equal` takes nil as empty
  throwIf (minter.getD [] ≠ ctx.sender) "sender must be minter"
  let total ← decodeBalance (← Contract.getState keyTotal)
  let balance ← decodeBalance (← Contract.getState input.dest)
  Contract.setState keyTotal (encodeBalance (total + input.value))
  Contract.setState input.dest (encodeBalance (balance + input.value))

variable (formats : CoinFormats)

/-- `PCoin.Invoke`. -/
def invoke (ctx : CallContext) : Call Unit := do
  let input ← parseInput formats ctx.input
  assertLength input.dest 32
  if input.method = "mint" then invokeMint ctx input
  else if input.method = "transfer" then invokeTransfer ctx input
  else throw "method not found"

/-- The state after the deployment. -/
def deployed (deploy : TxCall) : Contract := Contract.commit (init deploy.toCallContext) ∅

/-- The state after a transaction that invokes the chaincode. -/
def transact (call : TxCall) (store : Contract) : Contract :=
  Contract.commit (invoke formats call.toCallContext) store

/-- The state after transactions. -/
def run (calls : List TxCall) (store : Contract) : Contract :=
  calls.foldl (fun store call => transact formats call store) store

/-! ## Accounts -/

/-- The amount of a balance: the minter and the total are not balances. -/
def balanceAmount (key value : Bytes) : ℕ :=
  if key = keyMinter ∨ key = keyTotal then 0 else amount key value

variable {formats} {store : Contract} {minter key : Bytes} {call : TxCall} {input : CoinInput}

/-- The keys of balances. -/
def IsAddress (key : Bytes) : Prop := key.length = 0 ∨ key.length = 32

instance : DecidablePred IsAddress := fun key =>
  inferInstanceAs (Decidable (key.length = 0 ∨ key.length = 32))

theorem IsAddress.ne_keyMinter (address : IsAddress key) : key ≠ keyMinter := by
  rintro rfl
  exact absurd address (by decide)

theorem IsAddress.ne_keyTotal (address : IsAddress key) : key ≠ keyTotal := by
  rintro rfl
  exact absurd address (by decide)

theorem IsAddress.counts (address : IsAddress key) : Counts balanceAmount key := by
  intro value
  rw [balanceAmount, if_neg]
  rintro (same | same)
  · exact address.ne_keyMinter same
  · exact address.ne_keyTotal same

theorem isAddress_sender (call : TxCall) : IsAddress call.sender := Or.inr call.sender_size

/-- The minter is the one of the deployment, and everything else can be read as a balance. -/
structure Minted (minter : Bytes) (store : Contract) : Prop where
  minter_eq : store.lookup keyMinter = some minter
  readable : ∀ key, key ≠ keyMinter → Readable store key

theorem Minted.insert (minted : Minted minter store) (different : key ≠ keyMinter) (balance : UInt64) :
    Minted minter (store.insert key (encodeBalance balance)) where
  minter_eq := (AList.lookup_insert_ne different.symm).trans minted.minter_eq
  readable other not_minter := (minted.readable other not_minter).insert balance

/-! ## Invocations -/

/-- The state after minting. -/
def mintedTo (store : Contract) (dest : Bytes) (value : UInt64) : Contract :=
  (store.insert keyTotal (encodeBalance (balanceOf store keyTotal + value))).insert dest
    (encodeBalance (balanceOf store dest + value))

/-- A transaction of the minter that mints. -/
structure Mints (formats : CoinFormats) (minter : Bytes) (call : TxCall) (input : CoinInput) : Prop where
  parsed : formats.unmarshal call.input = .ok input
  dest_size : IsAddress input.dest
  method_eq : input.method = "mint"
  sender_eq : call.sender = minter

/-- A transaction that transfers. -/
structure Transfers (formats : CoinFormats) (store : Contract) (call : TxCall) (input : CoinInput) :
    Prop where
  parsed : formats.unmarshal call.input = .ok input
  dest_size : IsAddress input.dest
  method_eq : input.method = "transfer"
  different : call.sender ≠ input.dest
  enough : input.value ≤ balanceOf store call.sender

theorem wp_invokeMint (minted : Minted minter store) (address : IsAddress input.dest) (ctx : CallContext) :
    wp (invokeMint ctx input) (fun _ store' => ctx.sender = minter ∧ store' = mintedTo store input.dest input.value)
      (fun _ _ => ctx.sender ≠ minter) store := by
  have total_readable : Readable store keyTotal := minted.readable keyTotal (by decide)
  have dest_readable : Readable store input.dest := minted.readable _ address.ne_keyMinter
  simp only [invokeMint, Contract.getState, Contract.setState, wp_bind, wp_gets, wp_throwIf,
    wp_decodeBalance total_readable, wp_decodeBalance dest_readable, wp_modify, minted.minter_eq,
    Option.getD_some]
  exact ⟨fun other => Ne.symm other, fun same => ⟨(not_not.mp same).symm, rfl⟩⟩

/-- What a transaction does. -/
inductive Effect (formats : CoinFormats) (minter : Bytes) (store : Contract) (call : TxCall) :
    Contract → Prop where
  | mint {input : CoinInput} (mints : Mints formats minter call input) :
      Effect formats minter store call (mintedTo store input.dest input.value)
  | transfer {input : CoinInput} (transfers : Transfers formats store call input) :
      Effect formats minter store call (moved store call.sender input.dest input.value)
  | fail (refused : ∀ input, ¬ Mints formats minter call input) : Effect formats minter store call store

theorem wp_invoke (minted : Minted minter store) (call : TxCall) : wp (invoke formats call.toCallContext)
      (fun _ store' => Effect formats minter store call store')
      (fun _ _ => ∀ input, ¬ Mints formats minter call input) store := by
  rw [invoke, wp_bind, parseInput]
  cases parsed : formats.unmarshal call.input with
  | error reason =>
      intro input mints
      rw [mints.parsed] at parsed
      cases parsed
  | ok input =>
      have only {other : CoinInput} (mints : Mints formats minter call other) : other = input :=
        Except.ok.inj (mints.parsed.symm.trans parsed)
      rw [wp_pure, wp_bind, assertLength, wp_throwIf]
      refine ⟨fun wrong other mints => ?_, fun size => ?_⟩
      · obtain rfl := only mints
        exact absurd mints.dest_size (by rintro (empty | full) <;> tauto)
      have address : IsAddress input.dest := by unfold IsAddress; tauto
      rw [wp_ite, wp_ite]
      refine ⟨fun is_mint => ?_, fun not_mint => ⟨fun is_transfer => ?_, fun _ other mints => ?_⟩⟩
      · refine wp_mono (wp_invokeMint minted address _) ?_ ?_
        · rintro _ _ ⟨sender_eq, rfl⟩
          exact .mint ⟨parsed, address, is_mint, sender_eq⟩
        · exact fun _ _ other_sender _ mints => other_sender mints.sender_eq
      · have sender_readable := minted.readable _ (isAddress_sender call).ne_keyMinter
        refine wp_mono (wp_invokeTransfer sender_readable (minted.readable _ address.ne_keyMinter)) ?_ ?_
        · rintro _ _ ⟨⟨different, enough⟩, rfl⟩
          exact .transfer ⟨parsed, address, is_transfer, different, enough⟩
        · intro _ _ _ other mints
          obtain rfl := only mints
          exact not_mint mints.method_eq
      · obtain rfl := only mints
        exact not_mint mints.method_eq

theorem effect_transact (minted : Minted minter store) (call : TxCall) :
    Effect formats minter store call (transact formats call store) := by
  have spec := @wp_invoke formats store minter minted call
  unfold wp at spec
  unfold transact Contract.commit
  rcases ending : invoke formats call.toCallContext store with ⟨_ | _, store'⟩
  · rw [ending] at spec
    exact .fail spec
  · rw [ending] at spec
    exact spec

theorem Minted.effect {store' : Contract} (minted : Minted minter store)
    (effect : Effect formats minter store call store') : Minted minter store' := by
  cases effect with
  | mint mints =>
      exact (minted.insert (by decide) _).insert mints.dest_size.ne_keyMinter _
  | transfer transfers =>
      exact (minted.insert (isAddress_sender call).ne_keyMinter _).insert
        transfers.dest_size.ne_keyMinter _
  | fail => exact minted

theorem Minted.run (minted : Minted minter store) (calls : List TxCall) : Minted minter (run formats calls store) := by
  induction calls generalizing store with
  | nil => exact minted
  | cons call calls ih => exact ih (minted.effect (effect_transact minted call))

theorem minted_deployed (deploy : TxCall) : Minted deploy.sender (deployed deploy) where
  minter_eq := AList.lookup_insert ∅
  readable key different value found := by
    have missing : (deployed deploy).lookup key = none := AList.lookup_insert_ne different
    rw [missing] at found
    cases found

/-! ## The total -/

/-- The sum of the balances is under `total`. -/
def InStep (store : Contract) : Prop := held amount store keyTotal = total balanceAmount store

/-- Minting does not bring the total and the balances out of step: the total does not wrap, or the
balance wraps with it. -/
def Fits (formats : CoinFormats) (minter : Bytes) (store : Contract) (call : TxCall) : Prop :=
  ∀ input, Mints formats minter call input →
    held amount store keyTotal + input.value.toNat < 2 ^ 64 ∨
      2 ^ 64 ≤ held amount store input.dest + input.value.toNat

theorem total_mintedTo (minted : Minted minter store) {dest : Bytes} (address : IsAddress dest) (value : UInt64) :
    total balanceAmount (mintedTo store dest value) + held amount store dest =
      total balanceAmount store + (held amount store dest + value.toNat) % 2 ^ 64 := by
  have uncounted : ∀ other, balanceAmount keyTotal other = 0 := fun _ => if_pos (Or.inr rfl)
  have nothing : held balanceAmount store keyTotal = 0 := by
    rw [held]
    cases store.lookup keyTotal with
    | none => rfl
    | some other => exact uncounted other
  have counted := @Ledger.total_insert _ _ _ balanceAmount store keyTotal
    (encodeBalance (balanceOf store keyTotal + value))
  have given := @Counts.total_insert
    (store.insert keyTotal (encodeBalance (balanceOf store keyTotal + value))) _ _ address.counts
    (balanceOf store dest + value)
  rw [nothing, uncounted] at counted
  rw [held_insert_of_ne address.ne_keyTotal, UInt64.toNat_add,
    toNat_balanceOf (minted.readable _ address.ne_keyMinter), ← mintedTo] at given
  omega

theorem held_mintedTo (minted : Minted minter store) {dest : Bytes} (address : IsAddress dest) (value : UInt64) :
    held amount (mintedTo store dest value) keyTotal = (held amount store keyTotal + value.toNat) % 2 ^ 64 := by
  have total_readable : Readable store keyTotal := minted.readable keyTotal (by decide)
  rw [mintedTo, held_insert_of_ne address.ne_keyTotal.symm, held_insert, amount_encodeBalance,
    UInt64.toNat_add, toNat_balanceOf total_readable]

theorem inStep_mintedTo_iff (minted : Minted minter store) (inStep : InStep store) {dest : Bytes}
    (address : IsAddress dest) (value : UInt64) : InStep (mintedTo store dest value) ↔
      held amount store keyTotal + value.toNat < 2 ^ 64 ∨ 2 ^ 64 ≤ held amount store dest + value.toNat := by
  have total_lt := held_lt (minted.readable keyTotal (by decide))
  have part := @held_le_total _ _ _ balanceAmount store dest
  have given := total_mintedTo minted address value
  have value_lt := value.toNat_lt
  rw [address.counts.held_eq, ← inStep] at part
  rw [← inStep] at given
  rw [InStep, held_mintedTo minted address]
  omega

/-- A transfer changes neither the total nor the sum of the balances, which leaves it room. -/
theorem inStep_moved (minted : Minted minter store) (inStep : InStep store)
    (transfers : Transfers formats store call input) : InStep (moved store call.sender input.dest input.value) := by
  have sender := isAddress_sender call
  have dest := transfers.dest_size
  have fits : total balanceAmount store < 2 ^ 64 := by
    rw [← inStep]
    exact held_lt (minted.readable keyTotal (by decide))
  have sender_readable := minted.readable _ sender.ne_keyMinter
  have room := no_carry sender_readable sender.counts dest.counts transfers.different transfers.enough fits
  have kept := (total_moved_eq_iff sender_readable (minted.readable _ dest.ne_keyMinter) sender.counts
    dest.counts transfers.different transfers.enough).mpr room
  rw [InStep, kept, ← inStep, moved, held_insert_of_ne dest.ne_keyTotal.symm,
    held_insert_of_ne sender.ne_keyTotal.symm]

theorem inStep_transact_iff (minted : Minted minter store) (inStep : InStep store) (call : TxCall) :
    InStep (transact formats call store) ↔ Fits formats minter store call := by
  have effect := @effect_transact formats store minter minted call
  generalize transact formats call store = store' at effect ⊢
  cases effect with
  | @mint input mints =>
      rw [inStep_mintedTo_iff minted inStep mints.dest_size]
      refine ⟨fun fits other others => ?_, fun fits => fits input mints⟩
      obtain rfl := Except.ok.inj (others.parsed.symm.trans mints.parsed)
      exact fits
  | @transfer input transfers =>
      refine iff_of_true (inStep_moved minted inStep transfers) fun other mints => ?_
      obtain rfl := Except.ok.inj (mints.parsed.symm.trans transfers.parsed)
      exact absurd (mints.method_eq.symm.trans transfers.method_eq) (by decide)
  | fail refused => exact iff_of_true inStep fun input mints => absurd mints (refused input)

/-- All transactions fit in their turn. -/
def FitsAll (formats : CoinFormats) (minter : Bytes) : List TxCall → Contract → Prop
  | [], _ => True
  | call :: calls, store =>
      Fits formats minter store call ∧ FitsAll formats minter calls (transact formats call store)

theorem inStep_run (minted : Minted minter store) (inStep : InStep store) (calls : List TxCall)
    (fits : FitsAll formats minter calls store) : InStep (run formats calls store) := by
  induction calls generalizing store with
  | nil => exact inStep
  | cons call calls ih =>
      obtain ⟨fits_call, fits_rest⟩ := fits
      exact ih (minted.effect (effect_transact minted call))
        ((inStep_transact_iff minted inStep call).mpr fits_call) fits_rest

/-! ## The keys of the chaincode -/

/-- A balance key never reaches the minter or the total: the minter stays the deployer, and the total
changes by the value that the minter mints. -/
structure Guarded (formats : CoinFormats) (minter : Bytes) (store : Contract) : Prop where
  minter_eq : store.lookup keyMinter = some minter
  only_mints : ∀ call, (transact formats call store).lookup keyTotal ≠ store.lookup keyTotal →
    ∃ input, Mints formats minter call input ∧ (transact formats call store).lookup keyTotal =
      some (encodeBalance (balanceOf store keyTotal + input.value))

theorem Minted.guarded (minted : Minted minter store) : Guarded formats minter store where
  minter_eq := minted.minter_eq
  only_mints call := by
    have effect := @effect_transact formats store minter minted call
    generalize transact formats call store = store' at effect ⊢
    intro changed
    cases effect with
    | @mint input mints =>
        refine ⟨input, mints, ?_⟩
        rw [mintedTo, AList.lookup_insert_ne mints.dest_size.ne_keyTotal.symm, AList.lookup_insert]
    | @transfer input transfers =>
        refine absurd ?_ changed
        rw [moved, AList.lookup_insert_ne transfers.dest_size.ne_keyTotal.symm,
          AList.lookup_insert_ne (isAddress_sender call).ne_keyTotal.symm]
    | fail => exact absurd rfl changed

/-- After any transactions the minter and the total are written by the chaincode itself alone.  After
transactions that all fit, the next one leaves the sum of all balances under `total` exactly if it fits
as well. -/
theorem total_in_step_iff (deploy : TxCall) (calls : List TxCall) :
    Guarded formats deploy.sender (run formats calls (deployed deploy)) ∧
      (FitsAll formats deploy.sender calls (deployed deploy) →
        InStep (run formats calls (deployed deploy)) ∧ ∀ call,
          InStep (transact formats call (run formats calls (deployed deploy))) ↔
            Fits formats deploy.sender (run formats calls (deployed deploy)) call) := by
  have minted := minted_deployed deploy
  have minted_run := @Minted.run formats _ _ minted calls
  refine ⟨minted_run.guarded, fun fits => ?_⟩
  have initial : InStep (deployed deploy) := by
    have missing : (deployed deploy).lookup keyTotal = none := AList.lookup_insert_ne (by decide)
    rw [InStep, held, missing]
    rfl
  have inStep := inStep_run minted initial calls fits
  exact ⟨inStep, inStep_transact_iff minted_run inStep⟩

/-! ## A total that wraps -/

/-- Formats in which a text that starts with zero mints and any other one transfers. -/
def mintFormats : CoinFormats where
  unmarshal
    | 0 :: text => .ok ⟨"mint", text.drop 8, UInt64.ofNat (Bytes.toNat (text.take 8))⟩
    | _ :: text => .ok ⟨"transfer", text.drop 8, UInt64.ofNat (Bytes.toNat (text.take 8))⟩
    | [] => .error "unexpected end of JSON input"
  unmarshalInit _ := .error "not used"
  address32ToBytes _ := .error "not used"

/-- The deployment by the key of one byte. -/
def mintDeploy : TxCall := ⟨⟨List.replicate 32 1, [], [], 1, []⟩, rfl⟩

/-- The minter mints for the key of one byte. -/
def mintFor (byte : UInt8) (value : UInt64) : TxCall :=
  ⟨⟨List.replicate 32 1, [], [], 2, 0 :: encodeBalance value ++ List.replicate 32 byte⟩, rfl⟩

/-- The state after two mints. -/
def mintedTwice (first second : UInt64) : Contract :=
  run mintFormats [mintFor 2 first, mintFor 3 second] (deployed mintDeploy)

/-- The largest amount for one owner and one unit for another leave nothing under `total`. -/
theorem minted_total_wraps :
    held amount (mintedTwice (UInt64.ofNat (2 ^ 64 - 1)) 1) keyTotal = 0 ∧
    total balanceAmount (mintedTwice (UInt64.ofNat (2 ^ 64 - 1)) 1) = 2 ^ 64 ∧
    ¬ InStep (mintedTwice (UInt64.ofNat (2 ^ 64 - 1)) 1) := by
  have nothing : held amount (mintedTwice (UInt64.ofNat (2 ^ 64 - 1)) 1) keyTotal = 0 := by decide +kernel
  have all : total balanceAmount (mintedTwice (UInt64.ofNat (2 ^ 64 - 1)) 1) = 2 ^ 64 := by decide +kernel
  refine ⟨nothing, all, fun inStep => ?_⟩
  rw [InStep, nothing, all] at inStep
  exact absurd inStep (by decide)

/-- Three units and two more. -/
theorem total_in_step_iff_five :
    InStep (mintedTwice 3 2) ∧ held amount (mintedTwice 3 2) keyTotal = 5 := by
  refine ⟨?_, by decide +kernel⟩
  refine ((total_in_step_iff mintDeploy [mintFor 2 3, mintFor 3 2]).2 ⟨?_, ?_, trivial⟩).1
  · rintro input ⟨parsed, -⟩
    obtain rfl := Except.ok.inj parsed.symm
    exact Or.inl (by decide +kernel)
  · rintro input ⟨parsed, -⟩
    obtain rfl := Except.ok.inj parsed.symm
    exact Or.inl (by decide +kernel)

end PCoin

end SvpChain.Execution
