import CocoonFs.Codes
import Mathlib.Data.Nat.ModEq
import Mathlib.Tactic.Ring

namespace CocoonFs.BigEndian

open Codes Nat BitVec

/-- The number a byte string stands for, its most significant byte first. -/
def value : List Byte → Nat
  | [] => 0
  | b :: bs => b.toNat * 256 ^ bs.length + value bs

def bytes : Nat → Nat → List Byte
  | 0, _ => []
  | len + 1, n => BitVec.ofNat 8 (n / 256 ^ len) :: bytes len n

@[simp] theorem length_bytes (len n : Nat) : (bytes len n).length = len := by
  induction len with
  | zero => rfl
  | succ len ih => rw [bytes, List.length_cons, ih]

theorem value_lt (bs : List Byte) : value bs < 256 ^ bs.length := by
  induction bs with
  | nil => exact one_pos
  | cons b bs ih =>
    have hb : b.toNat + 1 ≤ 256 := b.isLt
    calc value (b :: bs) < b.toNat * 256 ^ bs.length + 256 ^ bs.length := Nat.add_lt_add_left ih _
      _ = (b.toNat + 1) * 256 ^ bs.length := (succ_mul _ _).symm
      _ ≤ 256 * 256 ^ bs.length := Nat.mul_le_mul_right _ hb
      _ = 256 ^ (b :: bs).length := by rw [List.length_cons, pow_succ, mul_comm]

theorem value_bytes_mod (len n : Nat) : value (bytes len n) = n % 256 ^ len := by
  induction len with
  | zero => rw [bytes, value, pow_zero, mod_one]
  | succ len ih =>
    rw [bytes, value, length_bytes, ih, toNat_ofNat, pow_succ 256, mod_mul, add_comm, mul_comm]

theorem value_bytes {len n : Nat} (h : n < 256 ^ len) : value (bytes len n) = n := by
  rw [value_bytes_mod, mod_eq_of_lt h]

theorem bytes_add_mul (len k n : Nat) : bytes len (k * 256 ^ len + n) = bytes len n := by
  induction len generalizing k n with
  | zero => rfl
  | succ len ih =>
    have hsplit : k * 256 ^ (len + 1) + n = k * 256 * 256 ^ len + n := by rw [pow_succ]; ring
    rw [bytes, bytes, hsplit, ih]
    congr 1
    apply eq_of_toNat_eq
    rw [toNat_ofNat, toNat_ofNat, add_comm,
      add_mul_div_right _ _ (Nat.pow_pos (by decide)), add_mul_mod_self_right]

theorem bytes_mod (len n : Nat) : bytes len (n % 256 ^ len) = bytes len n := by
  conv_rhs => rw [← div_add_mod' n (256 ^ len), bytes_add_mul]

theorem bytes_mod_add (len m n : Nat) : bytes len (m % 256 ^ len + n) = bytes len (m + n) := by
  rw [← bytes_mod len (m % _ + n), mod_add_mod, bytes_mod]

theorem bytes_value (bs : List Byte) : bytes bs.length (value bs) = bs := by
  induction bs with
  | nil => rfl
  | cons b bs ih =>
    rw [List.length_cons, bytes, value, bytes_add_mul, ih, add_comm,
      add_mul_div_right _ _ (Nat.pow_pos (by decide)), div_eq_of_lt (value_lt bs),
      zero_add, ofNat_toNat, setWidth_eq]

end CocoonFs.BigEndian
