import Mathlib.Data.Nat.ModEq

/-!
# Lanes of a bit vector

A bit vector packs fields of a fixed width, its lanes. Bitwise operations act on
each lane by itself. Additions and subtractions do as long as no lane carries or
borrows, and shifts by a multiple of the lane width move whole lanes.
-/

namespace CocoonFs.Lanes

open Nat
open BitVec (eq_of_getLsbD_eq getLsbD_and getLsbD_not getLsbD_of_ge getLsbD_or getLsbD_xor
  getLsbD_zero msb_eq_decide msb_eq_getLsbD_last ofNat toNat_add toNat_ofNat)

variable {m : Nat} {w i : Nat}

def lane (w : Nat) (x : BitVec m) (i : Nat) : BitVec w := x.extractLsb' (w * i) w

theorem getLsbD_lane (x : BitVec m) (i j : Nat) :
    (lane w x i).getLsbD j = (decide (j < w) && x.getLsbD (w * i + j)) :=
  BitVec.getLsbD_extractLsb' _ _ _ _

theorem toNat_lane (x : BitVec m) (i : Nat) :
    (lane w x i).toNat = x.toNat / 2 ^ (w * i) % 2 ^ w := by
  rw [lane, BitVec.extractLsb'_toNat, shiftRight_eq_div_pow]

variable {x y : BitVec m} {n : Nat}

theorem lane_ext (hm : m ≤ w * n) (h : ∀ i, i < n → lane w x i = lane w y i) : x = y := by
  apply eq_of_getLsbD_eq
  intro k hk
  have hw : 0 < w := by
    rcases Nat.eq_zero_or_pos w with rfl | hw
    · omega
    · exact hw
  have hi : k / w < n := (Nat.div_lt_iff_lt_mul hw).mpr (by rw [mul_comm]; omega)
  have hbit := congrArg (fun l => l.getLsbD (k % w)) (h (k / w) hi)
  simp only [getLsbD_lane, mod_lt k hw, decide_true, Bool.true_and, div_add_mod] at hbit
  exact hbit

@[simp] theorem lane_and (x y : BitVec m) (i : Nat) :
    lane w (x &&& y) i = lane w x i &&& lane w y i := by
  apply eq_of_getLsbD_eq
  intro j hj
  simp only [getLsbD_lane, getLsbD_and, hj, decide_true, Bool.true_and]

@[simp] theorem lane_or (x y : BitVec m) (i : Nat) :
    lane w (x ||| y) i = lane w x i ||| lane w y i := by
  apply eq_of_getLsbD_eq
  intro j hj
  simp only [getLsbD_lane, getLsbD_or, hj, decide_true, Bool.true_and]

@[simp] theorem lane_xor (x y : BitVec m) (i : Nat) :
    lane w (x ^^^ y) i = lane w x i ^^^ lane w y i := by
  apply eq_of_getLsbD_eq
  intro j hj
  simp only [getLsbD_lane, getLsbD_xor, hj, decide_true, Bool.true_and]

theorem lane_not (x : BitVec m) (h : w * i + w ≤ m) : lane w (~~~x) i = ~~~lane w x i := by
  apply eq_of_getLsbD_eq
  intro j hj
  have hlt : w * i + j < m := by omega
  simp only [getLsbD_lane, getLsbD_not, hj, hlt, decide_true, Bool.true_and]

@[simp] theorem lane_zero (i : Nat) : lane w (0#m) i = 0#w := by
  apply eq_of_getLsbD_eq
  intro j hj
  rw [getLsbD_lane, getLsbD_zero, getLsbD_zero, Bool.and_false]

theorem lane_of_le (x : BitVec m) (h : m ≤ w * i) : lane w x i = 0#w := by
  apply eq_of_getLsbD_eq
  intro j hj
  rw [getLsbD_lane, getLsbD_of_ge x (w * i + j) (by omega), getLsbD_zero,
    Bool.and_false]

theorem lane_shiftLeft (x : BitVec m) (k : Nat) (h : w * i + w ≤ m) :
    lane w (x <<< (w * k)) i = if i < k then 0#w else lane w x (i - k) := by
  apply eq_of_getLsbD_eq
  intro j hj
  have hlt : w * i + j < m := by omega
  by_cases hik : i < k
  · have : w * i + j < w * k := by
      calc w * i + j < w * i + w := by omega
        _ = w * (i + 1) := by rw [mul_succ]
        _ ≤ w * k := Nat.mul_le_mul_left w hik
    simp only [getLsbD_lane, BitVec.getLsbD_shiftLeft, hik, this, if_true, decide_true,
      Bool.not_true, Bool.and_false, Bool.false_and, getLsbD_zero]
  · have hle : w * k ≤ w * i := Nat.mul_le_mul_left w (not_lt.mp hik)
    have hsub : w * i + j - w * k = w * (i - k) + j := by
      rw [Nat.mul_sub]
      omega
    have hge : ¬ w * i + j < w * k := by omega
    simp only [getLsbD_lane, BitVec.getLsbD_shiftLeft, hik, hj, hlt, hge, hsub, if_false,
      decide_true, decide_false, Bool.not_false, Bool.and_true, Bool.true_and]

theorem lane_ushiftRight (x : BitVec m) (k : Nat) : lane w (x >>> (w * k)) i = lane w x (k + i) := by
  apply eq_of_getLsbD_eq
  intro j hj
  rw [getLsbD_lane, getLsbD_lane, BitVec.getLsbD_ushiftRight, mul_add, add_assoc]

theorem lane_shiftLeft_one (x : BitVec m) (h : w * i + w ≤ m) :
    lane w (x <<< w) i = if i = 0 then 0#w else lane w x (i - 1) := by
  have hshift := lane_shiftLeft x 1 h
  rw [mul_one] at hshift
  rw [hshift]
  simp only [lt_one_iff]

theorem lane_ushiftRight_one (x : BitVec m) : lane w (x >>> w) i = lane w x (i + 1) := by
  have hshift := lane_ushiftRight (w := w) (i := i) x 1
  rwa [mul_one, add_comm] at hshift

section Arithmetic

theorem mod_pow_div {z a b : Nat} (h : a + b ≤ m) : z % 2 ^ m / 2 ^ a % 2 ^ b = z / 2 ^ a % 2 ^ b := by
  apply eq_of_testBit_eq
  intro j
  by_cases hj : j < b
  · have : a + j < m := by omega
    simp [testBit_mod_two_pow, testBit_div_two_pow, hj, add_comm j a, this]
  · simp [testBit_mod_two_pow, hj]

theorem mod_pow_succ (z i : Nat) :
    z % 2 ^ (w * (i + 1)) = z % 2 ^ (w * i) + 2 ^ (w * i) * (z / 2 ^ (w * i) % 2 ^ w) := by
  rw [mul_succ, pow_add, mod_mul]

theorem low_add_lt (h : ∀ j, j < i → (lane w x j).toNat + (lane w y j).toNat < 2 ^ w) :
    x.toNat % 2 ^ (w * i) + y.toNat % 2 ^ (w * i) < 2 ^ (w * i) := by
  induction i with
  | zero => simp [mod_one]
  | succ i ih =>
    have hlow := ih (fun j hj => h j (by omega))
    have htop := h i (by omega)
    rw [toNat_lane, toNat_lane] at htop
    rw [mod_pow_succ, mod_pow_succ]
    have hmul : 2 ^ (w * i) * (x.toNat / 2 ^ (w * i) % 2 ^ w + y.toNat / 2 ^ (w * i) % 2 ^ w + 1) ≤
        2 ^ (w * i) * 2 ^ w := Nat.mul_le_mul_left _ htop
    rw [mul_succ w i, pow_add]
    rw [mul_add, mul_add, mul_one] at hmul
    omega

theorem lane_add_of_low (hi : w * i + w ≤ m)
    (h : x.toNat % 2 ^ (w * i) + y.toNat % 2 ^ (w * i) < 2 ^ (w * i)) :
    lane w (x + y) i = lane w x i + lane w y i := by
  apply BitVec.eq_of_toNat_eq
  rw [toNat_lane, toNat_add, toNat_add, toNat_lane, toNat_lane, mod_pow_div hi,
    add_div_eq_of_add_mod_lt h, ← add_mod]

theorem lane_add (hi : w * i + w ≤ m)
    (h : ∀ j, j < i → (lane w x j).toNat + (lane w y j).toNat < 2 ^ w) :
    lane w (x + y) i = lane w x i + lane w y i :=
  lane_add_of_low hi (low_add_lt h)

theorem lane_sub (hi : w * i + w ≤ m) (h : ∀ j, j < i → (lane w y j).toNat ≤ (lane w x j).toNat) :
    lane w (x - y) i = lane w x i - lane w y i := by
  induction i using Nat.strong_induction_on with
  | _ i ih =>
    have hcarry : ∀ j, j < i → (lane w (x - y) j).toNat + (lane w y j).toNat < 2 ^ w := by
      intro j hj
      have hle : w * j + w ≤ m := by
        have : w * j ≤ w * i := Nat.mul_le_mul_left w hj.le
        omega
      have hj' := h j hj
      rw [ih j hj hle (fun k hk => h k (hk.trans hj)), BitVec.toNat_sub_of_le hj']
      omega
    have hadd := lane_add hi hcarry
    rw [BitVec.sub_add_cancel] at hadd
    rw [hadd, BitVec.add_sub_cancel]

theorem toNat_add_lt {x y : BitVec (w * n)}
    (h : ∀ j, j < n → (lane w x j).toNat + (lane w y j).toNat < 2 ^ w) :
    x.toNat + y.toNat < 2 ^ (w * n) := by
  have hlt := low_add_lt h
  rwa [mod_eq_of_lt x.isLt, mod_eq_of_lt y.isLt] at hlt

theorem low_le (h : ∀ j, j < i → (lane w y j).toNat ≤ (lane w x j).toNat) :
    y.toNat % 2 ^ (w * i) ≤ x.toNat % 2 ^ (w * i) := by
  induction i with
  | zero => simp [mod_one]
  | succ i ih =>
    have htop := h i (lt_succ_self i)
    rw [toNat_lane, toNat_lane] at htop
    rw [mod_pow_succ, mod_pow_succ]
    exact Nat.add_le_add (ih (fun j hj => h j (by omega))) (Nat.mul_le_mul_left _ htop)

theorem toNat_le {x y : BitVec (w * n)}
    (h : ∀ j, j < n → (lane w y j).toNat ≤ (lane w x j).toNat) : y.toNat ≤ x.toNat := by
  have hle := low_le h
  rwa [mod_eq_of_lt x.isLt, mod_eq_of_lt y.isLt] at hle

end Arithmetic

section Borrows

/-- A lane's most significant bit guards the others against a borrow from the
next lane. -/
def guardBit (w : Nat) : BitVec w := BitVec.twoPow w (w - 1)

section

variable (hw : 0 < w)
include hw

theorem getLsbD_guardBit (j : Nat) : (guardBit w).getLsbD j = decide (j = w - 1) := by
  rw [guardBit, BitVec.getLsbD_twoPow, decide_eq_true (sub_lt hw one_pos), Bool.true_and]
  exact decide_eq_decide.mpr eq_comm

theorem toNat_or_guardBit (x : BitVec w) :
    (x ||| guardBit w).toNat = 2 ^ (w - 1) + x.toNat % 2 ^ (w - 1) := by
  have hor := two_pow_add_eq_or_of_lt (mod_lt x.toNat (Nat.two_pow_pos (w - 1))) 1
  rw [mul_one] at hor
  rw [hor]
  apply eq_of_testBit_eq
  intro j
  change (x ||| guardBit w).getLsbD j = _
  rw [getLsbD_or, getLsbD_guardBit hw, testBit_or, testBit_two_pow, testBit_mod_two_pow]
  change (x.getLsbD j || _) = (_ || (_ && x.getLsbD j))
  rcases lt_trichotomy j (w - 1) with hlt | rfl | hgt
  · simp [hlt, hlt.ne, hlt.ne']
  · simp
  · rw [getLsbD_of_ge x j (by omega)]
    simp [hgt.ne, hgt.ne']

theorem toNat_and_not_guardBit (y : BitVec w) :
    (y &&& ~~~guardBit w).toNat = y.toNat % 2 ^ (w - 1) := by
  apply eq_of_testBit_eq
  intro j
  change (y &&& ~~~guardBit w).getLsbD j = _
  rw [getLsbD_and, getLsbD_not, getLsbD_guardBit hw, testBit_mod_two_pow]
  change _ = (_ && y.getLsbD j)
  rcases lt_trichotomy j (w - 1) with hlt | rfl | hgt
  · simp [hlt, hlt.ne, show j < w by omega]
  · simp
  · rw [getLsbD_of_ge y j (by omega)]
    simp

theorem two_mul_guard : 2 ^ w = 2 * 2 ^ (w - 1) := by
  rw [← Nat.pow_succ', succ_eq_add_one, Nat.sub_add_cancel hw]

theorem toNat_guarded_sub (x y : BitVec w) :
    ((x ||| guardBit w) - (y &&& ~~~guardBit w)).toNat =
      2 ^ (w - 1) + x.toNat % 2 ^ (w - 1) - y.toNat % 2 ^ (w - 1) := by
  rw [BitVec.toNat_sub_of_le, toNat_or_guardBit hw, toNat_and_not_guardBit hw]
  rw [BitVec.le_def, toNat_or_guardBit hw, toNat_and_not_guardBit hw]
  omega

theorem toNat_eq_guard (x : BitVec w) :
    x.getLsbD (w - 1) = true ∧ x.toNat = 2 ^ (w - 1) + x.toNat % 2 ^ (w - 1) ∨
      x.getLsbD (w - 1) = false ∧ x.toNat = x.toNat % 2 ^ (w - 1) := by
  have hlt := x.isLt
  rw [two_mul_guard hw] at hlt
  have hmsb : x.getLsbD (w - 1) = decide (2 ^ (w - 1) ≤ x.toNat) := by
    rw [← msb_eq_getLsbD_last, msb_eq_decide]
  rcases lt_or_ge x.toNat (2 ^ (w - 1)) with hlow | hhigh
  · right
    rw [mod_eq_of_lt hlow, hmsb, decide_eq_false (Nat.not_le_of_lt hlow)]
    exact ⟨rfl, rfl⟩
  · left
    rw [mod_eq_sub_mod hhigh, mod_eq_of_lt (by omega), hmsb, decide_eq_true hhigh]
    exact ⟨rfl, by omega⟩

theorem getLsbD_guarded_sub (x y : BitVec w) :
    ((x ||| guardBit w) - (y &&& ~~~guardBit w)).getLsbD (w - 1) =
      decide (y.toNat % 2 ^ (w - 1) ≤ x.toNat % 2 ^ (w - 1)) := by
  rw [← msb_eq_getLsbD_last, msb_eq_decide, toNat_guarded_sub hw, decide_eq_decide]
  omega

theorem sub_of_guarded (x y : BitVec w) :
    ~~~(((x ^^^ y) ||| ~~~guardBit w) ^^^ ((x ||| guardBit w) - (y &&& ~~~guardBit w))) = x - y := by
  have hd := toNat_guarded_sub hw x y
  have hmsb := getLsbD_guarded_sub hw x y
  generalize (x ||| guardBit w) - (y &&& ~~~guardBit w) = d at hd hmsb
  have hx := toNat_eq_guard hw x
  have hy := toNat_eq_guard hw y
  have hpow := two_mul_guard hw
  have hdiff := BitVec.toNat_sub x y
  rw [hpow] at hdiff
  apply eq_of_getLsbD_eq
  intro j hj
  rw [getLsbD_not, getLsbD_xor, getLsbD_or, getLsbD_xor,
    getLsbD_not, getLsbD_guardBit hw, decide_eq_true hj, Bool.true_and, Bool.true_and]
  rcases lt_or_eq_of_le (le_sub_one_of_lt hj) with hlt | rfl
  · -- The lower bits agree, as the difference is off by the guard at most.
    have hlow : d.toNat % 2 ^ (w - 1) = (x - y).toNat % 2 ^ (w - 1) := by
      rw [hdiff, mod_mul_left_mod, hd]
      rcases hx with ⟨-, hx⟩ | ⟨-, hx⟩ <;> rcases hy with ⟨-, hy⟩ | ⟨-, hy⟩
      · rw [show 2 * 2 ^ (w - 1) - y.toNat + x.toNat = 2 ^ (w - 1) + x.toNat % 2 ^ (w - 1) -
          y.toNat % 2 ^ (w - 1) + 2 ^ (w - 1) by omega, add_mod_right]
      · rw [show 2 * 2 ^ (w - 1) - y.toNat + x.toNat = 2 ^ (w - 1) + x.toNat % 2 ^ (w - 1) -
          y.toNat % 2 ^ (w - 1) + 2 ^ (w - 1) + 2 ^ (w - 1) by omega, add_mod_right,
          add_mod_right]
      · rw [show 2 * 2 ^ (w - 1) - y.toNat + x.toNat = 2 ^ (w - 1) + x.toNat % 2 ^ (w - 1) -
          y.toNat % 2 ^ (w - 1) by omega]
      · rw [show 2 * 2 ^ (w - 1) - y.toNat + x.toNat = 2 ^ (w - 1) + x.toNat % 2 ^ (w - 1) -
          y.toNat % 2 ^ (w - 1) + 2 ^ (w - 1) by omega, add_mod_right]
    have hbit : d.getLsbD j = (x - y).getLsbD j := by
      have hd' := testBit_mod_two_pow d.toNat (w - 1) j
      have hxy' := testBit_mod_two_pow (x - y).toNat (w - 1) j
      rw [hlow, hxy', decide_eq_true hlt, Bool.true_and, Bool.true_and] at hd'
      exact hd'.symm
    rw [decide_eq_false hlt.ne, Bool.not_false, Bool.or_true, Bool.true_xor, Bool.not_not, hbit]
  · have hmsb' : (x - y).getLsbD (w - 1) = decide (2 ^ (w - 1) ≤ (x - y).toNat) := by
      rw [← msb_eq_getLsbD_last, msb_eq_decide]
    have hwrap : (2 * 2 ^ (w - 1) - y.toNat + x.toNat) % (2 * 2 ^ (w - 1)) =
        if y.toNat ≤ x.toNat then x.toNat - y.toNat else 2 * 2 ^ (w - 1) - y.toNat + x.toNat := by
      split
      · rw [show 2 * 2 ^ (w - 1) - y.toNat + x.toNat = x.toNat - y.toNat + 2 * 2 ^ (w - 1) by omega,
          add_mod_right, mod_eq_of_lt (by omega)]
      · exact mod_eq_of_lt (by omega)
    rw [hmsb, hmsb', decide_eq_true rfl, Bool.not_true, Bool.or_false, hdiff, hwrap]
    rcases hx with ⟨hx1, hx⟩ | ⟨hx1, hx⟩ <;> rcases hy with ⟨hy1, hy⟩ | ⟨hy1, hy⟩ <;> rw [hx1, hy1]
    · rw [Bool.true_xor, Bool.not_true, Bool.false_xor, ← decide_not, decide_eq_decide]
      split <;> omega
    · rw [Bool.xor_false, Bool.true_xor, Bool.not_not, decide_eq_decide]
      split <;> omega
    · rw [Bool.false_xor, Bool.true_xor, Bool.not_not, decide_eq_decide]
      split <;> omega
    · rw [Bool.false_xor, Bool.false_xor, ← decide_not, decide_eq_decide]
      split <;> omega

theorem guarded_geq (x y : BitVec w) :
    ((x ||| (~~~y &&& ((x ||| guardBit w) - (y &&& ~~~guardBit w)))) &&&
      (~~~y ||| ((x ||| guardBit w) - (y &&& ~~~guardBit w)))).getLsbD (w - 1) =
        decide (y.toNat ≤ x.toNat) := by
  have hmsb := getLsbD_guarded_sub hw x y
  rw [getLsbD_and, getLsbD_or, getLsbD_and, getLsbD_or,
    getLsbD_not, hmsb, decide_eq_true (sub_lt hw one_pos), Bool.true_and]
  rcases toNat_eq_guard hw x with ⟨hx1, hx⟩ | ⟨hx1, hx⟩ <;>
    rcases toNat_eq_guard hw y with ⟨hy1, hy⟩ | ⟨hy1, hy⟩ <;> rw [hx1, hy1]
  · rw [Bool.true_or, Bool.true_and, Bool.not_true, Bool.false_or, decide_eq_decide]
    omega
  · rw [Bool.true_or, Bool.true_and, Bool.not_false, Bool.true_or, eq_comm, decide_eq_true_eq]
    omega
  · rw [Bool.false_or, Bool.not_true, Bool.false_and, Bool.false_and, eq_comm,
      decide_eq_false_iff_not]
    omega
  · rw [Bool.false_or, Bool.not_false, Bool.true_and, Bool.true_or, Bool.and_true, decide_eq_decide]
    omega

end

end Borrows
section TrailingZeros

theorem ctz_zero : (0#m).ctz.toNat = m := by
  have hclz : (0#m).reverse.clz = ofNat m m :=
    BitVec.clz_eq_iff_eq_zero.mpr (BitVec.reverse_eq_zero_iff.mpr rfl)
  rw [BitVec.ctz_eq_reverse_clz, hclz, toNat_ofNat, mod_eq_of_lt Nat.lt_two_pow_self]

theorem ctz_lt {x : BitVec m} (hx : x ≠ 0#m) : x.ctz.toNat < m := by
  have h := BitVec.ctz_lt_iff_ne_zero.mpr hx
  rw [BitVec.lt_def, BitVec.natCast_eq_ofNat, toNat_ofNat,
    mod_eq_of_lt Nat.lt_two_pow_self] at h
  exact h

theorem ctz_div_spec (hw : 0 < w) {x : BitVec m} (hm : m = w * n) :
    (x.ctz.toNat / w < n ∧ lane w x (x.ctz.toNat / w) ≠ 0#w ∧
      ∀ j, j < x.ctz.toNat / w → lane w x j = 0#w) ∨
    (x.ctz.toNat / w = n ∧ ∀ j, lane w x j = 0#w) := by
  by_cases hx : x = 0#m
  · right
    rw [hx, ctz_zero]
    exact ⟨by rw [hm, Nat.mul_div_cancel_left n hw], fun j => lane_zero j⟩
  · left
    have hlt := ctz_lt hx
    refine ⟨(Nat.div_lt_iff_lt_mul hw).mpr (by rw [mul_comm, ← hm]; exact hlt), ?_, ?_⟩
    · intro hzero
      have hbit := congrArg (fun l => l.getLsbD (x.ctz.toNat % w)) hzero
      simp only [getLsbD_lane, getLsbD_zero, mod_lt _ hw, decide_true, Bool.true_and,
        div_add_mod, BitVec.getLsbD_true_ctz_of_ne_zero hx] at hbit
      cases hbit
    · intro j hj
      apply eq_of_getLsbD_eq
      intro k hk
      have hbelow : w * j + k < x.ctz.toNat := by
        calc w * j + k < w * (j + 1) := by rw [mul_succ]; omega
          _ ≤ w * (x.ctz.toNat / w) := Nat.mul_le_mul_left w hj
          _ ≤ x.ctz.toNat := mul_div_le _ _
      rw [getLsbD_lane, BitVec.getLsbD_false_of_lt_ctz hbelow, getLsbD_zero, Bool.and_false]

end TrailingZeros

end CocoonFs.Lanes
