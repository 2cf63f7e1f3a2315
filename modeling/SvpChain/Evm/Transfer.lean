import SvpChain.Evm.SharedProxy

/-!
# Transfers of coins

`Transfer` of package `runtime` is `SubBalance` of the sender and `AddBalance` of the recipient, whose errors the
database only remembers.  An amount has 256 bits, a balance 64.
-/

namespace SvpChain.Evm

open Core Execution Program Ledger

section

/-- The balances after `SubBalance`, for the account that the address is translated to. -/
def debit (value : ℕ) (store : Contract) : Option Bytes → Contract
  | none => store
  | some addr32 =>
      if balanceOf store addr32 < UInt64.ofNat value then store
      else store.insert addr32 (encodeBalance (balanceOf store addr32 - UInt64.ofNat value))

/-- The balances after `AddBalance`. -/
def credit (value : ℕ) (store : Contract) : Option Bytes → Contract
  | none => store
  | some addr32 => store.insert addr32 (encodeBalance (balanceOf store addr32 + UInt64.ofNat value))

variable {params : EvmParams} {first : NativeCode → Bytes → Option Bytes} {store : Contract} {m : Machine}
  {addr : Address} {value : ℕ}

theorem lookup_insert_eq_update (key balance : Bytes) :
    (store.insert key balance).lookup = Function.update store.lookup key (some balance) := by
  funext other
  by_cases same : other = key
  · subst same
    simp
  · simp [same]

section

variable (readable : ∀ key, Readable store key)
include readable

/-- The steps that `SubBalance`, `AddBalance` and `GetBalance` begin with. -/
theorem wp_balance {α : Type} {next : Bytes → UInt64 → NativeCall α} {post : α → Native → Prop}
    {stop : Halt String → Native → Prop} {n : Native} (holds : Balances params.codeAddr first store.lookup n)
    (unknown : ∀ reason n', found (first .taddr addr.1) = none → Balances params.codeAddr first store.lookup n' →
      stop (.error reason) n')
    (known : ∀ addr32 n', found (first .taddr addr.1) = some addr32 → addr32.length = 32 →
      Balances params.codeAddr first store.lookup n' → wp (next addr32 (balanceOf store addr32)) post stop n') :
    wp (do
      let addr32 ← queryAddr params.codeAddr addr.1
      let balance ← queryBalanceByAddr32 params.codeAddr addr32
      let oldVal ← decodeBalance balance
      next addr32 oldVal) post stop n := by
  refine (wp_bind _ _).mpr (wp_mono (holds.queryAddr addr.1) ?_ ?_)
  · rintro addr32 n1 ⟨holds, is_found⟩
    have size : addr32.length = 32 := (holds.1.translates _ _ is_found).1 addr.2
    refine (wp_bind _ _).mpr (wp_mono (holds.queryBalanceByAddr32 addr32) ?_ fun _ _ wrong => absurd size wrong.2)
    rintro _ n2 ⟨holds, rfl⟩
    have spec := known addr32 n2 is_found size holds
    rw [wp_bind]
    unfold balanceOf held at spec
    cases stored : store.lookup addr32 with
    | none => simpa [decodeBalance, stored] using spec
    | some bytes =>
        obtain ⟨balance, rfl⟩ := readable addr32 bytes stored
        simpa [decodeBalance, encodeBalance, Bytes.bigEndian_length, stored, amount] using spec
  · rintro _ n1 ⟨holds, reason, rfl, missing⟩
    exact unknown reason n1 (missing addr.2) holds

theorem wp_subBalance (holds : Balances params.codeAddr first store.lookup m.native) :
    wp (StateDB.subBalance params addr value) (fun _ m' => Balances params.codeAddr first
      (debit value store (found (first .taddr addr.1))).lookup m'.native) (fun _ _ => False) m := by
  rw [StateDB.subBalance, wp_discardError, onNative, wp_zoom]
  refine wp_balance readable holds (fun _ _ missing holds => ?_) fun addr32 n is_found size holds => ?_
  · rwa [missing]
  · rw [is_found, debit, wp_bind, wp_throwIf]
    refine ⟨fun low => ?_, fun enough => ?_⟩
    · rwa [if_pos low]
    · rw [if_neg enough, lookup_insert_eq_update]
      exact wp_mono (holds.setBalanceByAddr32 addr32 _) (fun _ _ => id) fun _ _ wrong => absurd size wrong.2

theorem wp_addBalance (holds : Balances params.codeAddr first store.lookup m.native) :
    wp (StateDB.addBalance params addr value) (fun _ m' => Balances params.codeAddr first
      (credit value store (found (first .taddr addr.1))).lookup m'.native) (fun _ _ => False) m := by
  rw [StateDB.addBalance, wp_discardError, onNative, wp_zoom]
  refine wp_balance readable holds (fun _ _ missing holds => ?_) fun addr32 n is_found size holds => ?_
  · rwa [missing]
  · rw [is_found, credit, lookup_insert_eq_update]
    exact wp_mono (holds.setBalanceByAddr32 addr32 _) (fun _ _ => id) fun _ _ wrong => absurd size wrong.2

theorem readable_debit (sender : Option Bytes) (key : Bytes) : Readable (debit value store sender) key := by
  unfold debit
  split
  · exact readable key
  · split
    · exact readable key
    · exact (readable key).insert _

theorem wp_transfer {sender recipient : Address} (holds : Balances params.codeAddr first store.lookup m.native) :
    wp (transfer params sender recipient value) (fun _ m' => Balances params.codeAddr first
      (credit value (debit value store (found (first .taddr sender.1))) (found (first .taddr recipient.1))).lookup
        m'.native) (fun _ _ => False) m := by
  refine wp_then (wp_subBalance readable holds) fun _ m1 holds => ?_
  refine wp_then (wp_addBalance (readable_debit readable _) holds) fun _ m2 holds => ?_
  rw [makeOngTransferLog, when, wp_ite]
  exact ⟨fun _ => holds, fun _ => holds⟩

theorem le_of_canTransfer (holds : Balances params.codeAddr first store.lookup m.native)
    (able : (canTransfer params addr value m).1 = .ok true) :
    value = 0 ∨ ∃ addr32 ∈ found (first .taddr addr.1), value ≤ held amount store addr32 := by
  have spec : wp (canTransfer params addr value) (fun able _ => able = true →
      value = 0 ∨ ∃ addr32 ∈ found (first .taddr addr.1), value ≤ held amount store addr32) (fun _ _ => True) m := by
    rw [canTransfer, wp_bind, StateDB.getBalance, wp_orElse, onNative, wp_zoom]
    refine wp_balance readable holds (fun _ _ _ _ able => ?_) fun addr32 n is_found _ _ able => ?_
    · exact .inl (Nat.le_zero.mp (of_decide_eq_true able))
    · refine .inr ⟨addr32, is_found, ?_⟩
      rw [← toNat_balanceOf (readable addr32)]
      exact of_decide_eq_true able
  rw [wp] at spec
  revert able spec
  rcases canTransfer params addr value m with ⟨result, m'⟩
  rintro rfl spec
  exact spec rfl

/-- The sender has paid where it can. -/
theorem debit_spec {sender : Option Bytes} (able : value = 0 ∨ ∃ addr32 ∈ sender, value ≤ held amount store addr32) :
    total amount (debit value store sender) + value = total amount store ∧ ∀ key,
      held amount (debit value store sender) key + (if key ∈ sender then value else 0) = held amount store key := by
  cases sender with
  | none => simpa [debit] using able
  | some payer =>
      have enough : value ≤ held amount store payer := by
        rcases able with rfl | ⟨_, ⟨⟩, enough⟩
        exacts [Nat.zero_le _, enough]
      have same := toNat_balanceOf (readable payer)
      have small := UInt64.toNat_ofNat_of_lt' (enough.trans_lt (held_lt (readable payer)))
      have le : UInt64.ofNat value ≤ balanceOf store payer := by rwa [UInt64.le_iff_toNat_le, small, same]
      have left := UInt64.toNat_sub_of_le _ _ le
      have changed := @Counts.total_insert store payer _ counts_amount (balanceOf store payer - UInt64.ofNat value)
      rw [debit, if_neg (UInt64.not_lt.mpr le)]
      refine ⟨by omega, fun key => ?_⟩
      by_cases paid : key = payer
      · subst paid
        rw [held_insert, amount_encodeBalance, if_pos (Option.mem_some_self key)]
        omega
      · rw [held_insert_of_ne paid, if_neg (by simpa using Ne.symm paid), Nat.add_zero]

theorem total_credit_iff {recipient : Option Bytes} (small : value < 2 ^ 64) :
    total amount (credit value store recipient) = total amount store + value ↔
      value = 0 ∨ ∃ addr32 ∈ recipient, held amount store addr32 + value < 2 ^ 64 := by
  cases recipient with
  | none => simp [credit]
  | some payee =>
      have changed := @Counts.total_insert store payee _ counts_amount (balanceOf store payee + UInt64.ofNat value)
      have bound := held_lt (readable payee)
      rw [UInt64.toNat_add, toNat_balanceOf (readable payee), UInt64.toNat_ofNat_of_lt' small] at changed
      rw [credit]
      simp only [Option.mem_some_iff, exists_eq_left']
      omega

end

end

/-- One account has five coins. -/
def fiveCoins : Contract := (∅ : Contract).insert (plainAddr32 7) (encodeBalance 5)

/-- `TAddr` knows this account and another one. -/
def fiveState : Bytes → Option Bytes
  | 1 :: addr32 => fiveCoins.lookup addr32
  | key => plainState [(7, 0), (9, 0)] key

/-- A transaction has just begun. -/
def fiveMachine : Machine :=
  Machine.begin 0 ⟨(plainMachine []).db, ⟨fiveState, [newStateTracker []], [], newNativeProxy, []⟩⟩

end SvpChain.Evm
