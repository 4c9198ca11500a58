import CocoonFs.CacheSet
import Mathlib.Tactic.IntervalCases

namespace CocoonFs.CacheRows

open Checked CacheSet Lanes BitVec

section Words

variable {m : Nat} (pr : Profile)

theorem fitting_ok {α : Type} {fits : Prop} [Decidable fits] (h : fits) (a : α) :
    fitting pr fits a = .ok a := if_pos h

theorem shl_ok (x : BitVec m) {n : Nat} (h : n < m) : shl pr x n = .ok (x <<< n) := by
  rw [shl, fitting_ok pr h, Nat.mod_eq_of_lt h]

theorem shr_ok (x : BitVec m) {n : Nat} (h : n < m) : shr pr x n = .ok (x >>> n) := by
  rw [shr, fitting_ok pr h, Nat.mod_eq_of_lt h]

variable {x y : BitVec m}

theorem add_ok (h : x.toNat + y.toNat < 2 ^ m) : add pr x y = .ok (x + y) :=
  fitting_ok pr h _

theorem sub_ok (h : y.toNat ≤ x.toNat) : sub pr x y = .ok (x - y) :=
  fitting_ok pr h _

theorem mul_ok (h : x.toNat * y.toNat < 2 ^ m) : mul pr x y = .ok (x * y) :=
  fitting_ok pr h _

theorem subU32_ok {a b : Nat} (h : b ≤ a) (ha : a < 2 ^ 32) : subU32 pr a b = .ok (a - b) := by
  rw [subU32, fitting_ok pr h, show a + 2 ^ 32 - b = a - b + 2 ^ 32 by omega, Nat.add_mod_right,
    Nat.mod_eq_of_lt (by omega)]

end Words

section ZeroSubwords

variable {w n : Nat} (pr : Profile)

def isZeroMsb (w : Nat) (v : BitVec w) : BitVec w :=
  ~~~((v &&& ~~~(1#w <<< (w - 1))) + ~~~(1#w <<< (w - 1)) ||| v ||| ~~~(1#w <<< (w - 1)))

theorem subwordsMaskIsZeroMsb_spec (maskLsb x : BitVec (w * n))
    (hmask : ∀ i, i < n → lane w (~~~(maskLsb <<< (w - 1))) i = ~~~(1#w <<< (w - 1)))
    (hcarry : ∀ v : BitVec w, (v &&& ~~~(1#w <<< (w - 1))).toNat +
      (~~~(1#w <<< (w - 1))).toNat < 2 ^ w) :
    ∃ z, subwordsMaskIsZeroMsb pr w maskLsb x = .ok z ∧
      ∀ i, i < n → lane w z i = isZeroMsb w (lane w x i) := by
  have hlanes : ∀ j, j < n → (lane w (x &&& ~~~(maskLsb <<< (w - 1))) j).toNat +
      (lane w (~~~(maskLsb <<< (w - 1))) j).toNat < 2 ^ w := by
    intro j hj
    rw [lane_and, hmask j hj]
    exact hcarry _
  refine ⟨_, by rw [subwordsMaskIsZeroMsb, add_ok pr (toNat_add_lt hlanes)]; rfl, ?_⟩
  intro i hi
  have hle : w * i + w ≤ w * n := by
    rw [← Nat.mul_succ]
    exact Nat.mul_le_mul_left w hi
  rw [lane_not _ hle, lane_or, lane_or, lane_add hle (fun j hj => hlanes j (hj.trans hi)), lane_and,
    hmask i hi, isZeroMsb]

theorem isZeroMsb_8 : ∀ v : BitVec 8, isZeroMsb 8 v = 0#8 ↔ v ≠ 0#8 := by decide

theorem isZeroMsb_4 : ∀ v : BitVec 4, isZeroMsb 4 v = 0#4 ↔ v ≠ 0#4 := by decide

def IsFirstZero (w n : Nat) {m : Nat} (x : BitVec m) (i : Nat) : Prop :=
  i < n ∧ lane w x i = 0#w ∧ (∀ j, j < i → lane w x j ≠ 0#w) ∨
    i = n ∧ ∀ j, j < n → lane w x j ≠ 0#w

theorem isFirstZero_ctz (hw : 0 < w) {x z : BitVec (w * n)}
    (hz : ∀ i, i < n → (lane w z i = 0#w ↔ lane w x i ≠ 0#w)) :
    IsFirstZero w n x (z.ctz.toNat / w) := by
  rcases ctz_div_spec hw (x := z) rfl with ⟨hlt, hne, hbelow⟩ | ⟨heq, hall⟩
  · left
    refine ⟨hlt, ?_, ?_⟩
    · by_contra h
      exact hne ((hz _ hlt).mpr h)
    · intro j hj
      exact (hz j (hj.trans hlt)).mp (hbelow j hj)
  · right
    exact ⟨heq, fun j hj => (hz j hj).mp (hall j)⟩

theorem findLeastSignificantZeroByte_spec (x : BitVec 64) :
    ∃ i, findLeastSignificantZeroByte pr x = .ok i ∧ IsFirstZero 8 8 x i := by
  obtain ⟨z, hz, hlane⟩ := subwordsMaskIsZeroMsb_spec (w := 8) (n := 8) pr
    subwords8MaskLsb x (by decide) (by decide)
  refine ⟨z.ctz.toNat / 8, ?_, ?_⟩
  · rw [findLeastSignificantZeroByte, subwords8MaskIsZeroMsb]
    exact congrArg (· >>= _) hz
  · apply isFirstZero_ctz (n := 8) (by decide)
    intro i hi
    rw [hlane i hi, isZeroMsb_8]

theorem findLeastSignificantZeroNibble_spec (x : BitVec 32) :
    ∃ i, findLeastSignificantZeroNibble pr x = .ok i ∧ IsFirstZero 4 8 x i := by
  obtain ⟨z, hz, hlane⟩ := subwordsMaskIsZeroMsb_spec (w := 4) (n := 8) pr
    subwords4MaskLsb x (by decide) (by decide)
  refine ⟨z.ctz.toNat / 4, ?_, ?_⟩
  · rw [findLeastSignificantZeroNibble, subwords4MaskIsZeroMsb]
    exact congrArg (· >>= _) hz
  · apply isFirstZero_ctz (n := 8) (by decide)
    intro i hi
    rw [hlane i hi, isZeroMsb_4]

end ZeroSubwords

section Rows

variable (pr : Profile)

def row (x : BitVec 64) (r : Nat) : BitVec 8 := lane 8 x r

def allOnes : BitVec 8 := 0xff#8

theorem row_ext {x y : BitVec 64} (h : ∀ r, r < 8 → row x r = row y r) : x = y :=
  lane_ext (n := 8) le_rfl h

theorem getLsbD_maskLsb : ∀ i < 8, ∀ j < 8, subwords8MaskLsb.getLsbD (8 * i + j) = decide (j = 0) := by
  decide

theorem eq_allOnes_iff (v : BitVec 8) : v = allOnes ↔ ∀ j, j < 8 → v.getLsbD j = true := by
  revert v
  decide

theorem all_set_doubled {m d : Nat} {x y : BitVec m}
    (h : ∀ k, y.getLsbD k = true ↔ ∀ j, j < d → x.getLsbD (k + j) = true) (k : Nat) :
    (y &&& y >>> d).getLsbD k = true ↔ ∀ j, j < d + d → x.getLsbD (k + j) = true := by
  rw [getLsbD_and, getLsbD_ushiftRight, Bool.and_eq_true, h, h]
  constructor
  · rintro ⟨hlow, hhigh⟩ j hj
    by_cases hjd : j < d
    · exact hlow j hjd
    · have := hhigh (j - d) (by omega)
      rwa [show d + k + (j - d) = k + j by omega] at this
  · intro hall
    refine ⟨fun j hj => hall j (by omega), fun j hj => ?_⟩
    rw [show d + k + j = k + (d + j) by omega]
    exact hall (d + j) (by omega)

variable {r : Nat}

theorem getLsbD_maskAllSetLsb (x : BitVec 64) (hr : r < 8) (j : Nat) (hj : j < 8) :
    (subwords8MaskAllSetLsb x).getLsbD (8 * r + j) = (decide (j = 0) && decide (row x r = allOnes)) := by
  have hone : ∀ k, x.getLsbD k = true ↔ ∀ j, j < 1 → x.getLsbD (k + j) = true := by
    intro k
    simp
  have hrun := all_set_doubled (all_set_doubled (all_set_doubled hone)) (8 * r)
  have hrow : row x r = allOnes ↔ ∀ j, j < 8 → x.getLsbD (8 * r + j) = true := by
    rw [eq_allOnes_iff]
    apply forall_congr'
    intro j
    apply imp_congr_right
    intro hj
    rw [row, getLsbD_lane, decide_eq_true hj, Bool.true_and]
  rw [subwords8MaskAllSetLsb, getLsbD_and, getLsbD_maskLsb r hr j hj, Bool.and_comm]
  by_cases hj0 : j = 0
  · subst hj0
    rw [decide_eq_true rfl, Bool.true_and, Bool.true_and, Bool.eq_iff_iff, decide_eq_true_iff, hrow]
    exact hrun
  · rw [decide_eq_false hj0, Bool.false_and, Bool.false_and]

theorem row_maskAllSetLsb (x : BitVec 64) (hr : r < 8) :
    row (subwords8MaskAllSetLsb x) r = if row x r = allOnes then 1#8 else 0#8 := by
  apply eq_of_getLsbD_eq
  intro j hj
  rw [row, getLsbD_lane, decide_eq_true hj, Bool.true_and, getLsbD_maskAllSetLsb x hr j hj]
  by_cases h : row x r = allOnes
  · rw [if_pos h, decide_eq_true h, Bool.and_true]
    revert j
    decide
  · rw [if_neg h, decide_eq_false h, Bool.and_false, getLsbD_zero]

theorem row_shiftLeft_seven {x : BitVec 64} (h : ∀ r, r < 8 → row x r = 1#8 ∨ row x r = 0#8)
    (hr : r < 8) : row (x <<< 7) r = row x r <<< 7 := by
  have hbit (r j : Nat) (hr : r < 8) (hj : j < 8) (hj0 : j ≠ 0) : x.getLsbD (8 * r + j) = false := by
    have hrow : (row x r).getLsbD j = x.getLsbD (8 * r + j) := by
      rw [row, getLsbD_lane, decide_eq_true hj, Bool.true_and]
    rw [← hrow]
    rcases h r hr with h1 | h0
    · have hone : ∀ j, j < 8 → j ≠ 0 → (1#8).getLsbD j = false := by decide
      rw [h1, hone j hj hj0]
    · rw [h0, getLsbD_zero]
  apply eq_of_getLsbD_eq
  intro j hj
  have hlt : 8 * r + j < 64 := by omega
  rw [row, getLsbD_lane, getLsbD_shiftLeft, getLsbD_shiftLeft, row, getLsbD_lane]
  by_cases hj7 : j = 7
  · subst hj7
    simp [hlt]
  · have hjlt : j < 7 := by omega
    simp only [hj, hjlt, decide_true, Bool.true_and, Bool.not_true, Bool.and_false, Bool.false_and]
    rcases Nat.eq_zero_or_pos r with rfl | hpos
    · simp [hjlt]
    · have hprev := hbit (r - 1) (j + 1) (by omega) (by omega) (by omega)
      rw [show 8 * r + j - 7 = 8 * (r - 1) + (j + 1) by omega, hprev, Bool.and_false]

theorem subwords8MaskAllSet_spec (x : BitVec 64) :
    ∃ z, subwords8MaskAllSet pr x = .ok z ∧
      ∀ r, r < 8 → row z r = if row x r = allOnes then allOnes else 0#8 := by
  have hlsb (r : Nat) (hr : r < 8) := row_maskAllSetLsb x hr
  have hmsb (r : Nat) (hr : r < 8) : row (subwords8MaskAllSetLsb x <<< 7) r =
      if row x r = allOnes then 0x80#8 else 0#8 := by
    rw [row_shiftLeft_seven _ hr, hlsb r hr]
    · split <;> decide
    · intro r hr
      rw [hlsb r hr]
      split
      · exact Or.inl rfl
      · exact Or.inr rfl
  have hle (r : Nat) (hr : r < 8) : (row (subwords8MaskAllSetLsb x) r).toNat ≤
      (row (subwords8MaskAllSetLsb x <<< 7) r).toNat := by
    rw [hlsb r hr, hmsb r hr]
    split <;> decide
  refine ⟨_, by rw [subwords8MaskAllSet, sub_ok pr (toNat_le (w := 8) (n := 8) hle)]; rfl, ?_⟩
  intro r hr
  have hsub := lane_sub (w := 8) (i := r) (x := subwords8MaskAllSetLsb x <<< 7)
    (y := subwords8MaskAllSetLsb x) (by omega) (fun j hj => hle j (hj.trans hr))
  change lane 8 _ r = _
  rw [lane_or, hsub]
  change row _ r ||| (row _ r - row _ r) = _
  rw [hmsb r hr, hlsb r hr]
  split <;> decide

theorem row_and (x y : BitVec 64) (r : Nat) : row (x &&& y) r = row x r &&& row y r := lane_and x y r

theorem row_or (x y : BitVec 64) (r : Nat) : row (x ||| y) r = row x r ||| row y r := lane_or x y r

theorem row_not (x : BitVec 64) (hr : r < 8) : row (~~~x) r = ~~~row x r :=
  lane_not x (by omega)

def ones (capacity : Nat) : BitVec 8 := BitVec.ofNat 8 (2 ^ capacity - 1)

theorem row_ff : ∀ slot < 8, ∀ r < 8, row (0xff#64 <<< (8 * slot)) r =
    if r = slot then allOnes else 0#8 := by
  decide

theorem row_column : ∀ slot < 8, ∀ r < 8, row (subwords8MaskLsb <<< slot) r = 1#8 <<< slot := by
  decide

theorem referencedSlotMask_spec : ∀ pr : Profile, ∀ capacity < 9, ∀ slot < 8,
    referencedSlotMask pr capacity slot = .ok ((1#64 <<< capacity - 1#64) <<< (8 * slot)) := by
  intro pr capacity hcap slot hslot
  have hle : ∀ capacity < 9, (1#64).toNat ≤ (1#64 <<< capacity).toNat := by decide
  rw [referencedSlotMask, shl_ok pr _ (by omega), ok_bind, sub_ok pr (hle capacity hcap), ok_bind,
    shl_ok pr _ (by omega)]

theorem row_referencedSlotMask : ∀ capacity < 9, ∀ slot < 8, ∀ r < 8,
    row ((1#64 <<< capacity - 1#64) <<< (8 * slot)) r = if r = slot then ones capacity else 0#8 := by
  decide

/-- The row of another slot when a slot is referenced. Unoccupied slots don't age. -/
def aged (slot : Nat) (v : BitVec 8) : BitVec 8 := if v = allOnes then v else v &&& ~~~(1#8 <<< slot)

theorem and_age_mask : ∀ v : BitVec 8, ∀ slot < 8,
    (v &&& (~~~(1#8 <<< slot) ||| if v = allOnes then allOnes else 0#8)) = aged slot v := by
  decide

variable {capacity slot : Nat} (hcap : capacity ≤ 8) (hslot : slot < 8) (matrix : BitVec 64)

include hcap hslot

theorem lruReferenceSlotLocked_spec :
    ∃ z, lruReferenceSlotLocked pr matrix capacity slot = .ok z ∧
      row z slot = ones capacity &&& ~~~(1#8 <<< slot) ∧
      ∀ r, r < 8 → r ≠ slot → row z r = aged slot (row matrix r) := by
  obtain ⟨u, hu, hrow⟩ := subwords8MaskAllSet_spec pr (matrix &&& ~~~(0xff#64 <<< (8 * slot)))
  have hcleared (r : Nat) (hr : r < 8) : row (matrix &&& ~~~(0xff#64 <<< (8 * slot))) r =
      if r = slot then 0#8 else row matrix r := by
    rw [row_and, row_not _ hr, row_ff slot hslot r hr]
    split
    · exact (and_zero : row matrix r &&& 0#8 = 0#8)
    · exact (and_allOnes : row matrix r &&& BitVec.allOnes 8 = _)
  refine ⟨(matrix &&& ~~~(0xff#64 <<< (8 * slot)) ||| (1#64 <<< capacity - 1#64) <<< (8 * slot)) &&&
    (~~~(subwords8MaskLsb <<< slot) ||| u), ?_, ?_, ?_⟩
  · rw [lruReferenceSlotLocked, shl_ok pr _ (by omega), ok_bind]
    dsimp only
    rw [hu, ok_bind,
      referencedSlotMask_spec pr capacity (by omega) slot hslot, ok_bind, shl_ok pr _ (by omega),
      ok_bind, pure_eq_ok]
  · rw [row_and, row_or, row_or, row_not _ hslot, row_column slot hslot slot hslot,
      row_referencedSlotMask capacity (by omega) slot hslot slot hslot, if_pos rfl,
      hrow slot hslot, hcleared slot hslot, if_pos rfl, if_neg (by decide), zero_or,
      or_zero]
  · intro r hr hne
    rw [row_and, row_or, row_or, row_not _ hr, row_column slot hslot r hr,
      row_referencedSlotMask capacity (by omega) slot hslot r hr, if_neg hne,
      hrow r hr, hcleared r hr, if_neg hne, or_zero, and_age_mask _ slot hslot]

theorem lruReferenceSlotSyncOr_spec :
    ∃ z mask, lruReferenceSlotSyncOr pr matrix capacity slot = .ok (z, mask) ∧
      row z slot = row matrix slot ||| ones capacity ∧
      (∀ r, r < 8 → r ≠ slot → row z r = row matrix r) ∧
      ∀ r, r < 8 → row mask r =
        if row matrix r = allOnes then allOnes else ~~~(1#8 <<< slot) := by
  obtain ⟨u, hu, hrow⟩ := subwords8MaskAllSet_spec pr matrix
  refine ⟨matrix ||| (1#64 <<< capacity - 1#64) <<< (8 * slot),
    ~~~(subwords8MaskLsb <<< slot) ||| u, ?_, ?_, ?_, ?_⟩
  · rw [lruReferenceSlotSyncOr, referencedSlotMask_spec pr capacity (by omega) slot hslot, ok_bind,
      hu, ok_bind, shl_ok pr _ (by omega), ok_bind, pure_eq_ok]
  · rw [row_or, row_referencedSlotMask capacity (by omega) slot hslot slot hslot, if_pos rfl]
  · intro r hr hne
    rw [row_or, row_referencedSlotMask capacity (by omega) slot hslot r hr, if_neg hne,
      or_zero]
  · intro r hr
    rw [row_or, row_not _ hr, row_column slot hslot r hr, hrow r hr]
    split
    · exact (or_allOnes : _ ||| BitVec.allOnes 8 = _)
    · rw [or_zero]

end Rows

end CocoonFs.CacheRows
