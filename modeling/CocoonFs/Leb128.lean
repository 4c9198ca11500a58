import CocoonFs.Checked
import CocoonFs.Codes
import Mathlib.Tactic.IntervalCases

namespace CocoonFs.Leb128

open Checked Codes BitVec

def leadingZeros {w : Nat} (x : BitVec w) : Nat :=
  if x = 0 then w else w - 1 - x.toNat.log2

def significantBitsU64 (value : BitVec 64) : Nat := 64 - leadingZeros (value ||| 1)

/-- Inverts the value if negative and counts one bit for the sign. -/
def invertIfNegative (value : BitVec 64) : BitVec 64 := value ^^^ (0#64 - value >>> 63)

def significantBitsI64 (value : BitVec 64) : Nat := 64 - (leadingZeros (invertIfNegative value) - 1)

def signExtendU8 (value : Byte) (signBitPos : Nat) : Byte :=
  (value <<< (8 - signBitPos - 1)).sshiftRight (8 - signBitPos - 1)

def leb128sI64EncodedLen (value : BitVec 64) : Nat := divCeil (significantBitsI64 value) 7

def leb128uU64EncodedLen (value : BitVec 64) : Nat := divCeil (significantBitsU64 value) 7

/-- The common loop of the two encoders: seven bits at a time, each with the
continuation bit set. The encoders fix up the last byte afterwards. -/
def groups : Nat → BitVec 64 → List Byte
  | 0, _ => []
  | n + 1, value => ((value &&& 0x7f).setWidth 8 ||| 0x80) :: groups n (value >>> 7)

def leb128sI64Encode (value : BitVec 64) : List Byte :=
  let significandBits := significantBitsI64 value
  let encodedLen := divCeil significandBits 7
  let encodedBits := 7 * encodedLen
  (groups encodedLen value).modify (encodedLen - 1)
    (fun last => signExtendU8 last (7 - (encodedBits - significandBits) - 1) &&& 0x7f)

def leb128uU64Encode (value : BitVec 64) : List Byte :=
  let encodedLen := leb128uU64EncodedLen value
  (groups encodedLen value).modify (encodedLen - 1) (fun last => last ^^^ 0x80)

theorem length_groups (n : Nat) (value : BitVec 64) : (groups n value).length = n := by
  induction n generalizing value with
  | zero => rfl
  | succ n ih => simp [groups, ih]

theorem groups_getElem? (n i : Nat) (hi : i < n) (value : BitVec 64) :
    (groups n value)[i]? = some (((value >>> (7 * i)) &&& 0x7f).setWidth 8 ||| 0x80) := by
  induction n generalizing i value with
  | zero => omega
  | succ n ih =>
    cases i with
    | zero => simp [groups]
    | succ i =>
      have h := ih i (by omega) (value >>> 7)
      simp only [groups, List.getElem?_cons_succ, h, ← shiftRight_add]
      rw [show 7 * (i + 1) = 7 + 7 * i by omega]

section

variable (value : BitVec 64)
include value

theorem getLsbD_group (i j : Nat) (hj : j < 7) :
    (((value >>> (7 * i)) &&& 0x7f).setWidth 8 ||| 0x80 : Byte).getLsbD j =
      value.getLsbD (7 * i + j) := by
  have h80 : (0x80 : Byte).getLsbD j = false := by
    interval_cases j <;> rfl
  have h7f : (0x7f : BitVec 64).getLsbD j = true := by
    interval_cases j <;> rfl
  rw [getLsbD_or, h80, Bool.or_false, getLsbD_setWidth, getLsbD_and, h7f, getLsbD_ushiftRight]
  simp [show j < 8 by omega]

theorem significantBitsU64_spec :
    value.toNat < 2 ^ significantBitsU64 value ∧ 0 < significantBitsU64 value := by
  have hne : value ||| 1 ≠ 0 := by
    intro h
    have hb := congrArg (fun x : BitVec 64 => x.getLsbD 0) h
    simp at hb
  have hpos : (value ||| 1).toNat ≠ 0 := fun h => hne (eq_of_toNat_eq h)
  have hlog : (value ||| 1).toNat.log2 < 64 := (Nat.log2_lt hpos).mpr (value ||| 1).isLt
  have hsig : significantBitsU64 value = (value ||| 1).toNat.log2 + 1 := by
    rw [significantBitsU64, leadingZeros, if_neg hne]
    omega
  have hle : value.toNat ≤ (value ||| 1).toNat := by
    rw [toNat_or]
    exact Nat.left_le_or
  refine ⟨?_, by omega⟩
  rw [hsig]
  exact lt_of_le_of_lt hle ((Nat.log2_lt hpos).mp (Nat.lt_succ_self _))

theorem getLsbD_of_significantBitsU64_le (k : Nat)
    (hk : significantBitsU64 value ≤ k) : value.getLsbD k = false := by
  apply Nat.testBit_lt_two_pow
  exact lt_of_lt_of_le (significantBitsU64_spec value).1 (Nat.pow_le_pow_right (by decide) hk)

theorem invertIfNegative_eq :
    invertIfNegative value = if value.msb then ~~~value else value := by
  cases hm : value.msb with
  | false =>
    have hlt : value.toNat < 2 ^ 63 := by
      simpa [msb_eq_decide] using hm
    have hz : value >>> 63 = 0 := by
      apply eq_of_toNat_eq
      rw [toNat_ushiftRight, Nat.shiftRight_eq_div_pow]
      exact Nat.div_eq_of_lt hlt
    rw [invertIfNegative, hz]
    simp
  | true =>
    have hge : 2 ^ 63 ≤ value.toNat := by
      simpa [msb_eq_decide] using hm
    have ho : value >>> 63 = 1 := by
      apply eq_of_toNat_eq
      rw [toNat_ushiftRight, Nat.shiftRight_eq_div_pow]
      change value.toNat / 2 ^ 63 = 1
      omega
    rw [invertIfNegative, ho, show (0#64 - 1 : BitVec 64) = BitVec.allOnes 64 by decide]
    exact xor_allOnes

theorem significantBitsI64_spec :
    (invertIfNegative value).toNat < 2 ^ (significantBitsI64 value - 1) ∧
      0 < significantBitsI64 value := by
  have hlt : (invertIfNegative value).toNat < 2 ^ 63 := by
    have hmsb : (invertIfNegative value).msb = false := by
      rw [invertIfNegative_eq]
      cases hm : value.msb <;> simp [hm]
    simpa [msb_eq_decide] using hmsb
  rw [significantBitsI64, leadingZeros]
  by_cases hz : invertIfNegative value = 0
  · rw [if_pos hz, hz]
    decide
  · have hpos : (invertIfNegative value).toNat ≠ 0 := fun h => hz (eq_of_toNat_eq h)
    have hlog : (invertIfNegative value).toNat.log2 < 63 := (Nat.log2_lt hpos).mpr hlt
    rw [if_neg hz]
    refine ⟨?_, by omega⟩
    rw [show 64 - (64 - 1 - (invertIfNegative value).toNat.log2 - 1) - 1 =
      (invertIfNegative value).toNat.log2 + 1 by omega]
    exact (Nat.log2_lt hpos).mp (Nat.lt_succ_self _)

theorem getLsbD_of_significantBitsI64_le (k : Nat) (hk : k < 64)
    (hs : significantBitsI64 value ≤ k + 1) : value.getLsbD k = value.msb := by
  have hspec := significantBitsI64_spec value
  have hf : (invertIfNegative value).getLsbD k = false := by
    apply Nat.testBit_lt_two_pow
    exact lt_of_lt_of_le hspec.1 (Nat.pow_le_pow_right (by decide) (by omega))
  rw [invertIfNegative_eq] at hf
  cases hm : value.msb with
  | false => simpa [hm] using hf
  | true => simpa [hm, hk] using hf

end

theorem divCeil_seven_spec (n : Nat) (hn : 0 < n) :
    n ≤ 7 * divCeil n 7 ∧ 7 * (divCeil n 7 - 1) < n ∧ 0 < divCeil n 7 := by
  rw [divCeil]
  omega

theorem getLsbD_signExtendU8 (value : Byte) (p j : Nat) (hp : p < 7) (hj : j < 7) :
    (signExtendU8 value p &&& 0x7f).getLsbD j = value.getLsbD (min j p) := by
  have h7f : (0x7f : Byte).getLsbD j = true := by
    interval_cases j <;> rfl
  rw [getLsbD_and, h7f, Bool.and_true, signExtendU8, getLsbD_sshiftRight]
  by_cases hjp : j ≤ p
  · have hlt : 8 - p - 1 + j < 8 := by omega
    have hnlt : ¬ (8 - p - 1 + j < 8 - p - 1) := by omega
    simp only [show ¬ 8 ≤ j by omega, decide_false, Bool.not_false, hlt, if_true, Bool.true_and,
      getLsbD_shiftLeft, decide_true, hnlt, Nat.add_sub_cancel_left, min_eq_left hjp]
  · have hlt : ¬ 8 - p - 1 + j < 8 := by omega
    have hsub : 8 - 1 - (8 - p - 1) = p := by omega
    simp only [show ¬ 8 ≤ j by omega, decide_false, Bool.not_false, hlt, if_false, Bool.true_and,
      msb_eq_getLsbD_last, getLsbD_shiftLeft,
      show (8 - 1 < 8) by omega, decide_true, show ¬ 8 - 1 < 8 - p - 1 by omega, hsub,
      min_eq_right (by omega : p ≤ j)]

def finish (n : Nat) (value : BitVec 64) (f : Byte → Byte) : List Byte :=
  (groups n value).modify (n - 1) f

theorem finish_getElem? (n i : Nat) (hi : i < n) (value : BitVec 64) (f : Byte → Byte) :
    (finish n value f)[i]? = some (if i = n - 1 then
      f (((value >>> (7 * i)) &&& 0x7f).setWidth 8 ||| 0x80)
      else ((value >>> (7 * i)) &&& 0x7f).setWidth 8 ||| 0x80) := by
  rw [finish, List.getElem?_modify, groups_getElem? n i hi]
  by_cases h : i = n - 1
  · simp [h]
  · simp [h, Ne.symm h]

theorem length_finish (n : Nat) (value : BitVec 64) (f : Byte → Byte) :
    (finish n value f).length = n := by
  rw [finish, List.length_modify, length_groups]

theorem marked_finish (n : Nat) (hn : 0 < n) (value : BitVec 64) (f : Byte → Byte)
    (hf : ∀ b : Byte, b.getLsbD 7 = true → (f b).getLsbD 7 = false) :
    Marked (fun b : Byte => b.getLsbD 7) (finish n value f) := by
  have hcont (i : Nat) :
      (((value >>> (7 * i)) &&& 0x7f).setWidth 8 ||| 0x80 : Byte).getLsbD 7 = true := by
    rw [getLsbD_or]
    simp
  refine ⟨?_, ?_, ?_⟩
  · intro h
    have := congrArg List.length h
    rw [length_finish] at this
    exact absurd this (by simpa using hn.ne')
  · intro i b hi hb
    rw [length_finish] at hi
    rw [finish_getElem? n i (by omega), if_neg (by omega)] at hb
    exact Option.some.inj hb ▸ hcont i
  · intro b hb
    rw [length_finish, finish_getElem? n _ (by omega), if_pos rfl] at hb
    exact Option.some.inj hb ▸ hf _ (hcont _)

section

variable (value : BitVec 64)
include value

theorem leb128sI64Encode_eq :
    leb128sI64Encode value = finish (leb128sI64EncodedLen value) value (fun last =>
      signExtendU8 last (significantBitsI64 value - 7 * (leb128sI64EncodedLen value - 1) - 1) &&&
        0x7f) := by
  have hs := divCeil_seven_spec _ (significantBitsI64_spec value).2
  rw [leb128sI64Encode, finish, leb128sI64EncodedLen]
  rw [show 7 - (7 * divCeil (significantBitsI64 value) 7 - significantBitsI64 value) - 1 =
    significantBitsI64 value - 7 * (divCeil (significantBitsI64 value) 7 - 1) - 1 by omega]

theorem length_leb128sI64Encode :
    (leb128sI64Encode value).length = leb128sI64EncodedLen value := by
  rw [leb128sI64Encode_eq, length_finish]

theorem length_leb128uU64Encode :
    (leb128uU64Encode value).length = leb128uU64EncodedLen value :=
  length_finish _ _ _

theorem leb128sI64EncodedLen_spec :
    significantBitsI64 value ≤ 7 * leb128sI64EncodedLen value ∧
      7 * (leb128sI64EncodedLen value - 1) < significantBitsI64 value ∧
      0 < leb128sI64EncodedLen value :=
  divCeil_seven_spec _ (significantBitsI64_spec value).2

theorem leb128uU64EncodedLen_spec :
    significantBitsU64 value ≤ 7 * leb128uU64EncodedLen value ∧
      7 * (leb128uU64EncodedLen value - 1) < significantBitsU64 value ∧
      0 < leb128uU64EncodedLen value :=
  divCeil_seven_spec _ (significantBitsU64_spec value).2

/-- The bits of the value that an encoding stores, in the sign padding as well. -/
theorem getLsbD_leb128sI64Encode (i j : Nat)
    (hi : i < leb128sI64EncodedLen value) (hj : j < 7) (hij : 7 * i + j < 64) :
    ∃ b, (leb128sI64Encode value)[i]? = some b ∧ b.getLsbD j = value.getLsbD (7 * i + j) := by
  have hs := leb128sI64EncodedLen_spec value
  rw [leb128sI64Encode_eq, finish_getElem? _ i hi]
  refine ⟨_, rfl, ?_⟩
  split
  · rename_i hlast
    rw [getLsbD_signExtendU8 _ _ _ (by omega) hj, getLsbD_group _ _ _ (by omega)]
    by_cases hjp : j ≤ significantBitsI64 value - 7 * (leb128sI64EncodedLen value - 1) - 1
    · rw [min_eq_left hjp]
    · -- Beyond the sign bit of the last group both positions hold the sign.
      rw [min_eq_right (by omega), getLsbD_of_significantBitsI64_le _ _ (by omega) (by omega),
        getLsbD_of_significantBitsI64_le _ _ hij (by omega)]
  · exact getLsbD_group _ _ _ hj

theorem getLsbD_leb128uU64Encode (i j : Nat) (hi : i < leb128uU64EncodedLen value) (hj : j < 7) :
    ∃ b, (leb128uU64Encode value)[i]? = some b ∧ b.getLsbD j = value.getLsbD (7 * i + j) := by
  have h80 : (0x80 : Byte).getLsbD j = false := by
    interval_cases j <;> rfl
  refine ⟨_, finish_getElem? _ i hi _ _, ?_⟩
  split
  · rw [getLsbD_xor, getLsbD_group _ _ _ hj, h80, Bool.xor_false]
  · exact getLsbD_group _ _ _ hj

end

theorem leb128sI64Encode_injective : Function.Injective leb128sI64Encode := by
  intro v w h
  have hlen : leb128sI64EncodedLen v = leb128sI64EncodedLen w := by
    rw [← length_leb128sI64Encode, ← length_leb128sI64Encode, h]
  have hv := leb128sI64EncodedLen_spec v
  have hw := leb128sI64EncodedLen_spec w
  have hstored (k : Nat) (hk : k < 64) (hn : k < 7 * leb128sI64EncodedLen v) :
      v.getLsbD k = w.getLsbD k := by
    obtain ⟨b, hb, hbv⟩ := getLsbD_leb128sI64Encode v (k / 7) (k % 7) (by omega) (by omega) (by omega)
    obtain ⟨c, hc, hcw⟩ := getLsbD_leb128sI64Encode w (k / 7) (k % 7) (by omega) (by omega) (by omega)
    rw [h, hc] at hb
    rw [show k = 7 * (k / 7) + k % 7 by omega, ← hbv, ← hcw, Option.some.inj hb]
  apply eq_of_getLsbD_eq
  intro k hk
  by_cases hn : k < 7 * leb128sI64EncodedLen v
  · exact hstored k hk hn
  · have hsign := hstored (7 * leb128sI64EncodedLen v - 1) (by omega) (by omega)
    rw [getLsbD_of_significantBitsI64_le v _ (by omega) (by omega),
      getLsbD_of_significantBitsI64_le w _ (by omega) (by omega)] at hsign
    rw [getLsbD_of_significantBitsI64_le v k hk (by omega),
      getLsbD_of_significantBitsI64_le w k hk (by omega), hsign]

theorem leb128uU64Encode_injective : Function.Injective leb128uU64Encode := by
  intro v w h
  have hlen : leb128uU64EncodedLen v = leb128uU64EncodedLen w := by
    rw [← length_leb128uU64Encode, ← length_leb128uU64Encode, h]
  have hv := leb128uU64EncodedLen_spec v
  have hw := leb128uU64EncodedLen_spec w
  apply eq_of_getLsbD_eq
  intro k hk
  by_cases hn : k < 7 * leb128uU64EncodedLen v
  · obtain ⟨b, hb, hbv⟩ := getLsbD_leb128uU64Encode v (k / 7) (k % 7) (by omega) (by omega)
    obtain ⟨c, hc, hcw⟩ := getLsbD_leb128uU64Encode w (k / 7) (k % 7) (by omega) (by omega)
    rw [h, hc] at hb
    rw [show k = 7 * (k / 7) + k % 7 by omega, ← hbv, ← hcw, Option.some.inj hb]
  · rw [getLsbD_of_significantBitsU64_le v k (by omega),
      getLsbD_of_significantBitsU64_le w k (by omega)]

theorem delimited_leb128sI64Encode : Delimited (fun _ => True) leb128sI64Encode := by
  apply delimited_of_marked (fun b : Byte => b.getLsbD 7)
  · intro v _
    rw [leb128sI64Encode_eq]
    apply marked_finish _ (leb128sI64EncodedLen_spec v).2.2
    intro b _
    rw [getLsbD_and]
    simp
  · exact fun v w _ _ h => leb128sI64Encode_injective h

theorem delimited_leb128uU64Encode : Delimited (fun _ => True) leb128uU64Encode := by
  apply delimited_of_marked (fun b : Byte => b.getLsbD 7)
  · intro v _
    apply marked_finish _ (leb128uU64EncodedLen_spec v).2.2
    intro b hb
    rw [getLsbD_xor, hb]
    simp
  · exact fun v w _ _ h => leb128uU64Encode_injective h

end CocoonFs.Leb128
