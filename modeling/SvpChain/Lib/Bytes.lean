import Mathlib.Data.Nat.Digits.Lemmas
import Mathlib.Tactic

/-!
# Byte strings

Fixed-width big- and little-endian integers, minimal big-endian naturals, and the splitting
lemmas used to read a concatenation of fields back.  A fixed-width field at either end of a
concatenation is determined by the whole string; a variable-length field is determined only
together with its length.
-/

namespace SvpChain

/-- A byte string. -/
abbrev Bytes := List UInt8

instance Bytes.instLawfulBEq : LawfulBEq Bytes := inferInstance

namespace Bytes

/-- The `width` low base-256 digits of a natural number, most significant first. -/
def bigEndian : Nat → Nat → Bytes
  | 0, _ => []
  | width + 1, value => bigEndian width (value / 256) ++ [UInt8.ofNat value]

/-- The `width` low base-256 digits of a natural number, least significant first. -/
def littleEndian : Nat → Nat → Bytes
  | 0, _ => []
  | width + 1, value => UInt8.ofNat value :: littleEndian width (value / 256)

/-- The natural number written by a big-endian byte string. -/
def toNat (bytes : Bytes) : Nat :=
  bytes.foldl (fun value byte => value * 256 + byte.toNat) 0

@[simp]
theorem bigEndian_length (width value : Nat) : (bigEndian width value).length = width := by
  induction width generalizing value with
  | zero => rfl
  | succ width ih => simp [bigEndian, ih]

@[simp]
theorem toNat_nil : toNat [] = 0 := rfl

@[simp]
theorem toNat_append_singleton (bytes : Bytes) (byte : UInt8) :
    toNat (bytes ++ [byte]) = toNat bytes * 256 + byte.toNat := by
  simp [toNat]

theorem toNat_bigEndian (width value : Nat) : toNat (bigEndian width value) = value % 256 ^ width := by
  induction width generalizing value with
  | zero => simp [bigEndian, Nat.mod_one]
  | succ width ih =>
      have low : (UInt8.ofNat value).toNat = value % 256 := UInt8.toNat_ofNat'
      rw [bigEndian, toNat_append_singleton, ih, low, pow_succ, Nat.mul_comm (256 ^ width) 256,
        Nat.mod_mul]
      omega

theorem bigEndian_toNat (bytes : Bytes) : bigEndian bytes.length (toNat bytes) = bytes := by
  induction bytes using List.reverseRecOn with
  | nil => rfl
  | append_singleton bytes byte ih =>
      have high : (toNat bytes * 256 + byte.toNat) / 256 = toNat bytes := by
        have := byte.toNat_lt
        omega
      have low : UInt8.ofNat (toNat bytes * 256 + byte.toNat) = byte := by
        apply UInt8.toNat_inj.mp
        rw [UInt8.toNat_ofNat']
        have := byte.toNat_lt
        omega
      rw [List.length_append, List.length_singleton, bigEndian, toNat_append_singleton, high, low, ih]

theorem toNat_lt (bytes : Bytes) : toNat bytes < 256 ^ bytes.length := by
  have reduced := toNat_bigEndian bytes.length (toNat bytes)
  rw [bigEndian_toNat] at reduced
  exact reduced ▸ Nat.mod_lt _ (by positivity)

/-- Fixed-width big-endian fields determine every value that fits in them. -/
theorem bigEndian_inj {width left right : Nat} (left_lt : left < 256 ^ width)
    (right_lt : right < 256 ^ width) (equal : bigEndian width left = bigEndian width right) : left = right := by
  have values := congrArg toNat equal
  rwa [toNat_bigEndian, toNat_bigEndian, Nat.mod_eq_of_lt left_lt,
    Nat.mod_eq_of_lt right_lt] at values

/-- The minimal big-endian digits of a natural number; zero has none. -/
def ofNat (value : Nat) : Bytes :=
  ((Nat.digits 256 value).map UInt8.ofNat).reverse

private theorem map_toNat_digits (value : Nat) :
    ((Nat.digits 256 value).map UInt8.ofNat).map UInt8.toNat = Nat.digits 256 value := by
  rw [List.map_map]
  conv_rhs => rw [← List.map_id (Nat.digits 256 value)]
  apply List.map_congr_left
  intro digit member
  have digit_lt : digit < 256 := Nat.digits_lt_base (by norm_num) member
  simp only [Function.comp_apply, id_eq, UInt8.toNat_ofNat']
  omega

private theorem toNat_reverse (bytes : Bytes) : toNat bytes.reverse = Nat.ofDigits 256 (bytes.map UInt8.toNat) := by
  induction bytes with
  | nil => rfl
  | cons byte bytes ih =>
      rw [List.reverse_cons, toNat_append_singleton, ih, List.map_cons, Nat.ofDigits_cons]
      ring

@[simp]
theorem toNat_ofNat (value : Nat) : toNat (ofNat value) = value := by
  rw [ofNat, toNat_reverse, map_toNat_digits, Nat.ofDigits_digits]

theorem ofNat_injective : Function.Injective ofNat :=
  Function.LeftInverse.injective toNat_ofNat

@[simp]
theorem ofNat_eq_nil_iff (value : Nat) : ofNat value = [] ↔ value = 0 := by
  simp [ofNat, Nat.digits_eq_nil_iff_eq_zero]

theorem flatten_inj_of_lengths {left right : List Bytes} {leftTail rightTail : Bytes}
    (lengths : left.map List.length = right.map List.length)
    (equal : left.flatten ++ leftTail = right.flatten ++ rightTail) : left = right ∧ leftTail = rightTail := by
  induction left generalizing right with
  | nil =>
      obtain rfl : right = [] := by simpa using lengths.symm
      exact ⟨rfl, by simpa using equal⟩
  | cons field left ih =>
      cases right with
      | nil => simp at lengths
      | cons field' right =>
          simp only [List.map_cons, List.cons.injEq] at lengths
          simp only [List.flatten_cons, List.append_assoc] at equal
          obtain ⟨rfl, rest⟩ := List.append_inj equal lengths.1
          obtain ⟨rfl, rfl⟩ := ih lengths.2 rest
          exact ⟨rfl, rfl⟩

end Bytes

end SvpChain
