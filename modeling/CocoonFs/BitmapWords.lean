import CocoonFs.Bitmap
import CocoonFs.CacheRows
import Mathlib.Tactic.Ring

namespace CocoonFs.BitmapWords

open Bitmap Checked Lanes Nat
open BitVec (eq_of_getLsbD_eq getLsbD_and getLsbD_of_ge getLsbD_shiftLeft getLsbD_ushiftRight
  getLsbD_xor getLsbD_zero toNat_add toNat_allOnes toNat_ofNat toNat_twoPow toNat_ushiftRight)
open Nat (le_of_not_lt two_pow_pos)
open Bool (and_eq_true eq_false_iff)
open CacheSet (add sub)

def lsbsMaskAfter : Nat → BitmapWord
  | 0 => 1
  | n + 1 => lsbsMaskAfter n ||| lsbsMaskAfter n <<< 2 ^ (6 - (n + 1))

def getBlocksLsbsMask (blockAllocationBlocksLog2 : Nat) : Comp BitmapWord :=
  if blockAllocationBlocksLog2 = 0 then .ok (~~~0)
  else if blockAllocationBlocksLog2 = 6 then .ok 1
  else if blockAllocationBlocksLog2 < 6 then .ok (lsbsMaskAfter (6 - blockAllocationBlocksLog2))
  else panic .indexOutOfBounds

def nonzeroBlocksLsbs (pr : Profile) (w : BitmapWord) (log2 : Nat) (lsbsMask : BitmapWord) :
    Comp BitmapWord := do
  let carried ← add pr ((w &&& ~~~lsbsMask) >>> 1) (~~~lsbsMask >>> 1)
  pure ((carried >>> (2 ^ log2 - 1) ||| w) &&& lsbsMask)

def freeBlocksLsbs (pr : Profile) (w : BitmapWord) (log2 : Nat) (lsbsMask : BitmapWord) :
    Comp BitmapWord := do
  let nonzero ← nonzeroBlocksLsbs pr w log2 lsbsMask
  pure (nonzero ^^^ lsbsMask)

def blocksSelectMask (pr : Profile) (log2 : Nat) (selectedLsbs : BitmapWord) : Comp BitmapWord := do
  let selectedMsbs := selectedLsbs <<< (2 ^ log2 - 1)
  let low ← sub pr selectedMsbs selectedLsbs
  pure (low ||| selectedMsbs)

def filterBlocksWithFreeBuddyLsbs (pr : Profile) (candidatesLsbs freeLsbs : BitmapWord) (log2 : Nat)
    (doubleLsbsMask : BitmapWord) : Comp BitmapWord := do
  debugAssert pr (2 ^ log2 < 64)
  let t₁ := (freeLsbs ^^^ freeLsbs >>> 2 ^ log2) &&& doubleLsbsMask
  let t₂ := t₁ <<< 2 ^ log2
  let swapped := freeLsbs ^^^ t₁ ^^^ t₂
  pure (candidatesLsbs &&& ~~~swapped)

/-- The search for the smallest free block among the ones not contained in a
larger free block. -/
def splitBlockSizeLog2From (pr : Profile) (maxLog2 : Nat) :
    Nat → Nat → BitmapWord → Comp Nat
  | 0, log2, _ => .ok log2
  | rounds + 1, log2, freeLsbs => do
    if maxLog2 ≤ log2 then pure log2
    else do
      let doubleLsbsMask ← getBlocksLsbsMask (log2 + 1)
      let unpaired ← filterBlocksWithFreeBuddyLsbs pr freeLsbs freeLsbs log2 doubleLsbsMask
      if unpaired ≠ 0 then pure log2
      else do
        let freeLsbs := (freeLsbs &&& freeLsbs >>> 2 ^ log2) &&& doubleLsbsMask
        debugAssert pr (freeLsbs ≠ 0)
        splitBlockSizeLog2From pr maxLog2 rounds (log2 + 1) freeLsbs

/-- Not all the blocks of the word are free, so there is none larger than half of it. -/
def maxSplitLog2 : Option Nat → Nat
  | some m => min m 5
  | none => 5

def blockAllocSplitBlockSizeLog2 (pr : Profile) (freeLsbs : BitmapWord) (maxLog2 : Option Nat)
    (log2 : Nat) (lsbsMask : BitmapWord) : Comp Nat := do
  debugAssert pr (log2 ≠ 6)
  let mask ← getBlocksLsbsMask log2
  debugAssert pr (lsbsMask = mask)
  debugAssert pr (freeLsbs &&& ~~~lsbsMask = 0)
  debugAssert pr (freeLsbs ≠ 0)
  debugAssert pr (freeLsbs ≠ lsbsMask)
  splitBlockSizeLog2From pr (maxSplitLog2 maxLog2) 6 log2 freeLsbs

/-- The blocks are not to be filtered if a larger block would be the whole word. -/
def unpairedBlocksLsbs (pr : Profile) (freeLsbs : BitmapWord) (log2 : Nat) : Comp BitmapWord :=
  if log2 < 5 then do
    let doubleLsbsMask ← getBlocksLsbsMask (log2 + 1)
    filterBlocksWithFreeBuddyLsbs pr freeLsbs freeLsbs log2 doubleLsbsMask
  else .ok freeLsbs

/-- The block size is assumed to be that of the smallest free block already. -/
def assertSplitSize (pr : Profile) (freeLsbs : BitmapWord) (log2 : Nat) (lsbsMask : BitmapWord) :
    Comp Unit :=
  match pr with
  | .release => .ok ()
  | .debug =>
    if log2 = 6 then .ok ()
    else do
      let splitLog2 ← blockAllocSplitBlockSizeLog2 .debug freeLsbs none log2 lsbsMask
      debugAssert .debug (log2 = splitLog2)

def blockAllocSelectBlock (pr : Profile) (freeLsbs : BitmapWord) (log2 : Nat)
    (lsbsMask : BitmapWord) : Comp Nat := do
  let mask ← getBlocksLsbsMask log2
  debugAssert pr (lsbsMask = mask)
  debugAssert pr (freeLsbs &&& ~~~lsbsMask = 0)
  assertSplitSize pr freeLsbs log2 lsbsMask
  let freeLsbs ← unpairedBlocksLsbs pr freeLsbs log2
  debugAssert pr (freeLsbs ≠ 0)
  pure freeLsbs.ctz.toNat

/-- The rounds of the string search, each of which covers the first half of what
is left of the length. -/
def findStrRounds : Nat → Nat → BitmapWord → BitmapWord
  | 0, _, w => w
  | rounds + 1, n, w =>
    if n ≤ 1 then w else findStrRounds rounds (n - n / 2) (w &&& w <<< (n / 2))

def findStrWithMinLen (pr : Profile) (w : BitmapWord) (minStrLen alignmentLog2 : Nat)
    (anchorsMask : BitmapWord) : Comp (Option Nat) := do
  debugAssert pr (alignmentLog2 < 6)
  debugAssert pr (minStrLen % 2 ^ alignmentLog2 = 0)
  debugAssert pr (minStrLen < 64)
  let w := findStrRounds minStrLen minStrLen w &&& anchorsMask <<< (2 ^ alignmentLog2 - 1)
  if w ≠ 0 then do
    let tail ← CacheSet.subU32 pr minStrLen 1
    let begin ← CacheSet.subU32 pr w.ctz.toNat tail
    pure (some begin)
  else pure none

/-- The least significant bits of the blocks in which the first word's field is
not less than the second one's. -/
def blocksFieldsGeqLsbs (pr : Profile) (x y : BitmapWord) (log2 : Nat) (lsbsMask : BitmapWord) :
    Comp BitmapWord := do
  let msbsMask := lsbsMask <<< (2 ^ log2 - 1)
  let d ← sub pr (x ||| msbsMask) (y &&& ~~~msbsMask)
  let noBorrowMsbs := (x ||| (~~~y &&& d)) &&& (~~~y ||| d)
  pure (noBorrowMsbs >>> (2 ^ log2 - 1) &&& lsbsMask)

def blocksFieldsSub (pr : Profile) (x y : BitmapWord) (log2 : Nat) (lsbsMask : BitmapWord) :
    Comp BitmapWord := do
  let msbsMask := lsbsMask <<< (2 ^ log2 - 1)
  let d ← sub pr (x ||| msbsMask) (y &&& ~~~msbsMask)
  pure (~~~(((x ^^^ y) ||| ~~~msbsMask) ^^^ d))

theorem fitting_eq_ok {α : Type} {pr : Profile} {fits : Prop} [Decidable fits] {a b : α}
    (h : CacheSet.fitting pr fits a = .ok b) : b = a := by
  unfold CacheSet.fitting at h
  split at h
  · exact (Except.ok.inj h).symm
  · cases pr with
    | debug => cases h
    | release => exact (Except.ok.inj h).symm

structure IsLsbsMask (log2 : Nat) (mask : BitmapWord) : Prop where
  log2_le : log2 ≤ 6
  bits : ∀ p < 64, mask.getLsbD p = decide (p % 2 ^ log2 = 0)

variable {log2 : Nat}

theorem getBlocksLsbsMask_ok (h : log2 ≤ 6) :
    ∃ mask, getBlocksLsbsMask log2 = .ok mask ∧ IsLsbsMask log2 mask := by
  interval_cases log2
  · exact ⟨_, rfl, by decide, by decide⟩
  · exact ⟨_, rfl, by decide, by decide⟩
  · exact ⟨_, rfl, by decide, by decide⟩
  · exact ⟨_, rfl, by decide, by decide⟩
  · exact ⟨_, rfl, by decide, by decide⟩
  · exact ⟨_, rfl, by decide, by decide⟩
  · exact ⟨_, rfl, by decide, by decide⟩

variable {mask : BitmapWord}

theorem isLsbsMask_of_ok (h : getBlocksLsbsMask log2 = .ok mask) :
    IsLsbsMask log2 mask := by
  have hle : log2 ≤ 6 := by
    by_contra hgt
    rw [getBlocksLsbsMask, if_neg (by omega), if_neg (by omega), if_neg (by omega)] at h
    cases h
  obtain ⟨mask', hmask', hbits⟩ := getBlocksLsbsMask_ok hle
  cases hmask'.symm.trans h
  exact hbits

/-- The least significant bits of the blocks that are free in a word. -/
def IsFreeLsbs (w : BitmapWord) (log2 : Nat) (freeLsbs : BitmapWord) : Prop :=
  ∀ p, freeLsbs.getLsbD p = true ↔
    p < 64 ∧ p % 2 ^ log2 = 0 ∧ ∀ j < 2 ^ log2, w.getLsbD (p + j) = false

variable {x : BitmapWord}

section Blocks

variable {log2 : Nat} {mask w : BitmapWord}

theorem IsLsbsMask.words_split (h : IsLsbsMask log2 mask) : 64 = 2 ^ log2 * 2 ^ (6 - log2) := by
  rw [← Nat.pow_add, Nat.add_sub_cancel' h.log2_le]

variable {k : Nat} {doubleMask freeLsbs : BitmapWord}

section

variable (h : IsLsbsMask log2 mask)
include h

theorem IsLsbsMask.block_le (hk : k < 2 ^ (6 - log2)) :
    2 ^ log2 * k + 2 ^ log2 ≤ 64 := by
  have hmul := Nat.mul_le_mul_left (2 ^ log2) (succ_le_of_lt hk)
  rw [← h.words_split, mul_succ] at hmul
  exact hmul

theorem IsLsbsMask.getLsbD_lsb {j : Nat} (hk : k < 2 ^ (6 - log2))
    (hj : j < 2 ^ log2) : mask.getLsbD (2 ^ log2 * k + j) = decide (j = 0) := by
  have hle := h.block_le hk
  rw [h.bits _ (by omega), mul_add_mod, mod_eq_of_lt hj]

theorem shifted_lane (w : BitmapWord) (hk : k < 2 ^ (6 - log2)) :
    lane (2 ^ log2) ((w &&& ~~~mask) >>> 1) k = lane (2 ^ log2) w k >>> 1 := by
  have hle := h.block_le hk
  apply eq_of_getLsbD_eq
  intro j hj
  rw [getLsbD_lane, getLsbD_ushiftRight, getLsbD_ushiftRight, getLsbD_lane,
    decide_eq_true hj, Bool.true_and, getLsbD_and]
  by_cases hlast : 1 + j < 2 ^ log2
  · have hbit := h.getLsbD_lsb hk hlast
    have hpos : 1 + (2 ^ log2 * k + j) = 2 ^ log2 * k + (1 + j) := by omega
    rw [hpos, BitVec.getLsbD_not, hbit, decide_eq_true (by omega), decide_eq_true hlast,
      decide_eq_false (show ¬ 1 + j = 0 by omega), Bool.not_false, Bool.and_true, Bool.and_true,
      Bool.true_and]
  · -- What is shifted in from the next block has been masked off.
    have hpos : 1 + (2 ^ log2 * k + j) = 2 ^ log2 * (k + 1) := by
      rw [mul_succ]
      omega
    rw [hpos, decide_eq_false hlast, Bool.false_and, Bool.and_eq_false_iff]
    by_cases hword : 2 ^ log2 * (k + 1) < 64
    · right
      rw [BitVec.getLsbD_not, h.bits _ hword, mul_mod_right, decide_eq_true rfl, Bool.not_true,
        Bool.and_false]
    · left
      exact getLsbD_of_ge w _ (le_of_not_lt hword)

theorem allOnes_lane (hk : k < 2 ^ (6 - log2)) :
    lane (2 ^ log2) (~~~mask >>> 1) k = BitVec.allOnes (2 ^ log2) >>> 1 := by
  have hshift := shifted_lane h (BitVec.allOnes 64) hk
  have hones : lane (2 ^ log2) (BitVec.allOnes 64) k = BitVec.allOnes (2 ^ log2) := by
    have hle := h.block_le hk
    apply eq_of_getLsbD_eq
    intro j hj
    rw [getLsbD_lane, BitVec.getLsbD_allOnes, BitVec.getLsbD_allOnes, decide_eq_true hj,
      decide_eq_true (by omega), Bool.true_and]
  rw [BitVec.allOnes_and, hones] at hshift
  exact hshift

end

/-- Adding all ones but the most significant one carries into that one from any
block with a bit set. -/
theorem toNat_carried_lane (l : BitVec (2 ^ log2)) :
    (l >>> 1).toNat + (BitVec.allOnes (2 ^ log2) >>> 1).toNat < 2 ^ 2 ^ log2 ∧
      (2 ^ (2 ^ log2 - 1) ≤ (l >>> 1).toNat + (BitVec.allOnes (2 ^ log2) >>> 1).toNat ↔
        2 ≤ l.toNat) := by
  have hpos := two_pow_pos log2
  have hpow : 2 ^ 2 ^ log2 = 2 * 2 ^ (2 ^ log2 - 1) := by
    rw [← Nat.pow_succ', succ_eq_add_one, Nat.sub_add_cancel hpos]
  rw [toNat_ushiftRight, toNat_ushiftRight, toNat_allOnes,
    shiftRight_eq_div_pow, shiftRight_eq_div_pow, pow_one, hpow]
  omega

theorem carried_ok (pr : Profile) (h : IsLsbsMask log2 mask) (w : BitmapWord) :
    ∃ carried, add pr ((w &&& ~~~mask) >>> 1) (~~~mask >>> 1) = .ok carried ∧
      ∀ k < 2 ^ (6 - log2), carried.getLsbD (2 ^ log2 * k + (2 ^ log2 - 1)) =
        decide (2 ≤ (lane (2 ^ log2) w k).toNat) := by
  have hpos := two_pow_pos log2
  have hsum : ∀ k < 2 ^ (6 - log2), (lane (2 ^ log2) ((w &&& ~~~mask) >>> 1) k).toNat +
      (lane (2 ^ log2) (~~~mask >>> 1) k).toNat < 2 ^ 2 ^ log2 := by
    intro k hk
    rw [shifted_lane h w hk, allOnes_lane h hk]
    exact (toNat_carried_lane _).1
  have hfits : ((w &&& ~~~mask) >>> 1).toNat + (~~~mask >>> 1).toNat < 2 ^ 64 := by
    have hlow := low_add_lt hsum
    rw [← h.words_split, mod_eq_of_lt (BitVec.isLt _), mod_eq_of_lt (BitVec.isLt _)] at hlow
    exact hlow
  refine ⟨_, CacheRows.add_ok pr hfits, fun k hk => ?_⟩
  have hlane := lane_add (h.block_le hk) (fun j hj => hsum j (lt_trans hj hk))
  rw [shifted_lane h w hk, allOnes_lane h hk] at hlane
  obtain ⟨hlt, hiff⟩ := toNat_carried_lane (lane (2 ^ log2) w k)
  have hbit := getLsbD_lane (w := 2 ^ log2) ((w &&& ~~~mask) >>> 1 + ~~~mask >>> 1) k (2 ^ log2 - 1)
  rw [decide_eq_true (sub_lt hpos one_pos), Bool.true_and, hlane] at hbit
  rw [← hbit, ← BitVec.msb_eq_getLsbD_last, BitVec.msb_eq_decide, toNat_add,
    mod_eq_of_lt hlt, decide_eq_decide]
  exact hiff

theorem IsLsbsMask.exists_block (h : IsLsbsMask log2 mask) {p : Nat} (hp : p < 64)
    (hmod : p % 2 ^ log2 = 0) : ∃ k < 2 ^ (6 - log2), p = 2 ^ log2 * k := by
  obtain ⟨k, rfl⟩ := dvd_of_mod_eq_zero hmod
  rw [h.words_split] at hp
  exact ⟨k, Nat.lt_of_mul_lt_mul_left hp, rfl⟩

theorem lane_ne_zero_iff (w : BitmapWord) (k : Nat) :
    (lane (2 ^ log2) w k).toNat ≠ 0 ↔ ∃ j < 2 ^ log2, w.getLsbD (2 ^ log2 * k + j) = true := by
  constructor
  · intro hne
    by_contra hnone
    apply hne
    have hzero : lane (2 ^ log2) w k = 0#(2 ^ log2) := by
      apply eq_of_getLsbD_eq
      intro j hj
      rw [getLsbD_lane, getLsbD_zero, decide_eq_true hj, Bool.true_and]
      exact eq_false_iff.mpr (fun hbit => hnone ⟨j, hj, hbit⟩)
    rw [hzero, toNat_ofNat, zero_mod]
  · rintro ⟨j, hj, hbit⟩ hzero
    have hlane := getLsbD_lane (w := 2 ^ log2) w k j
    rw [hbit, decide_eq_true hj, BitVec.getLsbD, hzero, zero_testBit] at hlane
    cases hlane

/-- A block shifted by one has the next one's least significant bit shifted in. -/
theorem toNat_lane_ushiftRight_bit (y : BitmapWord) (k : Nat) :
    (lane (2 ^ log2) (y >>> 1) k).toNat =
      (lane (2 ^ log2) y k).toNat / 2 +
        if y.getLsbD (2 ^ log2 * (k + 1)) = true then 2 ^ (2 ^ log2 - 1) else 0 := by
  have hpos := two_pow_pos log2
  have hhalf := two_pow_pos (2 ^ log2 - 1)
  have hbit : y.getLsbD (2 ^ log2 * (k + 1)) = true ↔
      y.toNat / 2 ^ (2 ^ log2 * k) / (2 * 2 ^ (2 ^ log2 - 1)) % 2 = 1 := by
    rw [BitVec.getLsbD, testBit_eq_decide_div_mod_eq, decide_eq_true_eq, mul_succ,
      pow_add, ← Nat.div_div_eq_div_mul, two_mul_guard hpos]
  simp only [toNat_lane, toNat_ushiftRight, shiftRight_eq_div_pow, pow_one, hbit]
  rw [Nat.div_div_eq_div_mul, mul_comm 2, ← Nat.div_div_eq_div_mul, two_mul_guard hpos]
  generalize y.toNat / 2 ^ (2 ^ log2 * k) = z
  generalize 2 ^ (2 ^ log2 - 1) = half at *
  have hz := div_add_mod z (2 * half)
  have hr := mod_lt z (show 0 < 2 * half by omega)
  have hq := div_add_mod (z / (2 * half)) 2
  generalize z / (2 * half) = q at *
  generalize z % (2 * half) = r at *
  have hsplit : z / 2 = 2 * half * (q / 2) + (half * (q % 2) + r / 2) := by
    have hmul : half * q = 2 * half * (q / 2) + half * (q % 2) := by
      calc half * q = half * (2 * (q / 2) + q % 2) := by rw [hq]
        _ = 2 * half * (q / 2) + half * (q % 2) := by ring
    rw [mul_assoc] at hz
    omega
  rw [hsplit, mul_add_mod]
  rcases mod_two_eq_zero_or_one q with hzero | hone
  · rw [hzero, if_neg (by omega), mul_zero, zero_add, add_zero,
      mod_eq_of_lt (by omega)]
  · rw [hone, if_pos rfl, mul_one, mod_eq_of_lt (by omega), add_comm]

/-- The next block's least significant bit flips what the sum tells about whether
there is a bit set in the block. -/
theorem getLsbD_carried (h : IsLsbsMask log2 mask) {y : BitmapWord}
    (hk : k < 2 ^ (6 - log2)) (hlsb : y.getLsbD (2 ^ log2 * k) = false) :
    (y >>> 1 + ~~~mask >>> 1).getLsbD (2 ^ log2 * k + (2 ^ log2 - 1)) =
      (decide (∃ j < 2 ^ log2, y.getLsbD (2 ^ log2 * k + j) = true) ^^
        y.getLsbD (2 ^ log2 * (k + 1))) := by
  have hpos := two_pow_pos log2
  have hle := h.block_le hk
  have htop (z : BitmapWord) (hz : z.getLsbD (2 ^ log2 * k) = false) (hk0 : 0 < 2 ^ log2 * k) :
      (z >>> 1).toNat % 2 ^ (2 ^ log2 * k) < 2 ^ (2 ^ log2 * k - 1) := by
    apply lt_pow_two_of_testBit
    intro i hi
    rw [testBit_mod_two_pow, Bool.and_eq_false_iff]
    rcases lt_or_ge i (2 ^ log2 * k) with hlt | hge
    · right
      change (z >>> 1).getLsbD i = false
      rw [getLsbD_ushiftRight, show 1 + i = 2 ^ log2 * k by omega, hz]
    · left
      exact decide_eq_false (Nat.not_lt_of_le hge)
  have hlow : (y >>> 1).toNat % 2 ^ (2 ^ log2 * k) + (~~~mask >>> 1).toNat % 2 ^ (2 ^ log2 * k) <
      2 ^ (2 ^ log2 * k) := by
    rcases Nat.eq_zero_or_pos (2 ^ log2 * k) with hzero | hk0
    · rw [hzero]
      omega
    · have hclear : (~~~mask).getLsbD (2 ^ log2 * k) = false := by
        have hbit := h.getLsbD_lsb hk hpos
        rw [add_zero, decide_eq_true rfl] at hbit
        rw [BitVec.getLsbD_not, hbit, Bool.not_true, Bool.and_false]
      have hy := htop y hlsb hk0
      have hm := htop (~~~mask) hclear hk0
      have hdouble := two_mul_guard hk0
      omega
  have hlane := congrArg BitVec.toNat (lane_add_of_low hle hlow)
  rw [toNat_add, toNat_lane_ushiftRight_bit, allOnes_lane h hk, toNat_ushiftRight,
    toNat_allOnes, shiftRight_eq_div_pow, pow_one, two_mul_guard hpos] at hlane
  have hbit := getLsbD_lane (w := 2 ^ log2) (y >>> 1 + ~~~mask >>> 1) k (2 ^ log2 - 1)
  have hzero := getLsbD_lane (w := 2 ^ log2) y k 0
  rw [decide_eq_true (sub_lt hpos one_pos), Bool.true_and] at hbit
  rw [decide_eq_true hpos, Bool.true_and, add_zero, hlsb, BitVec.getLsbD, testBit_zero,
    decide_eq_false_iff_not] at hzero
  have hlt := (lane (2 ^ log2) y k).isLt
  rw [two_mul_guard hpos] at hlt
  have hex : decide (∃ j < 2 ^ log2, y.getLsbD (2 ^ log2 * k + j) = true) =
      decide ((lane (2 ^ log2) y k).toNat ≠ 0) := decide_eq_decide.mpr (lane_ne_zero_iff y k).symm
  rw [← hbit, ← BitVec.msb_eq_getLsbD_last, BitVec.msb_eq_decide, hlane, hex]
  cases y.getLsbD (2 ^ log2 * (k + 1)) with
  | false =>
    rw [if_neg Bool.false_ne_true, Bool.xor_false, decide_eq_decide, mod_eq_of_lt (by omega)]
    omega
  | true =>
    rw [if_pos rfl, Bool.xor_true, ← decide_not, decide_eq_decide, not_not]
    rcases Nat.eq_zero_or_pos (lane (2 ^ log2) y k).toNat with heq | hne
    · rw [heq, mod_eq_of_lt (by omega)]
      omega
    · rw [mod_eq_sub_mod (by omega), mod_eq_of_lt (by omega)]
      omega

theorem nonzeroBlocksLsbs_ok (pr : Profile) (h : IsLsbsMask log2 mask) (w : BitmapWord) :
    ∃ nonzero, nonzeroBlocksLsbs pr w log2 mask = .ok nonzero ∧
      ∀ p < 64, nonzero.getLsbD p = (decide (p % 2 ^ log2 = 0) &&
        decide (∃ j < 2 ^ log2, w.getLsbD (p + j) = true)) := by
  obtain ⟨carried, hcarried, hbits⟩ := carried_ok pr h w
  refine ⟨_, by rw [nonzeroBlocksLsbs, hcarried, ok_bind]; rfl, fun p hp => ?_⟩
  rw [getLsbD_and, BitVec.getLsbD_or, getLsbD_ushiftRight, h.bits p hp, Bool.and_comm]
  by_cases hmod : p % 2 ^ log2 = 0
  · obtain ⟨k, hk, rfl⟩ := h.exists_block hp hmod
    have hpos := two_pow_pos log2
    have hlsb := getLsbD_lane (w := 2 ^ log2) w k 0
    rw [decide_eq_true hpos, Bool.true_and, add_zero, BitVec.getLsbD, testBit_zero] at hlsb
    have hiff : (lane (2 ^ log2) w k).toNat ≠ 0 ↔ _ := lane_ne_zero_iff w k
    rw [decide_eq_true hmod, Bool.true_and, Bool.true_and, add_comm (2 ^ log2 - 1), hbits k hk,
      ← hlsb, ← Bool.decide_or, decide_eq_decide, ← hiff]
    omega
  · rw [decide_eq_false hmod, Bool.false_and, Bool.false_and]

theorem freeBlocksLsbs_ok (pr : Profile) (h : IsLsbsMask log2 mask) (w : BitmapWord) :
    ∃ freeLsbs, freeBlocksLsbs pr w log2 mask = .ok freeLsbs ∧ IsFreeLsbs w log2 freeLsbs := by
  obtain ⟨nonzero, hnonzero, hbits⟩ := nonzeroBlocksLsbs_ok pr h w
  refine ⟨_, by rw [freeBlocksLsbs, hnonzero, ok_bind]; rfl, fun p => ?_⟩
  by_cases hp : p < 64
  · rw [getLsbD_xor, hbits p hp, h.bits p hp]
    by_cases hmod : p % 2 ^ log2 = 0
    · simp [hp, hmod]
    · simp [hmod]
  · rw [getLsbD_of_ge _ _ (le_of_not_lt hp)]
    simp [hp]

def buddy (log2 p : Nat) : Nat := if p % 2 ^ (log2 + 1) = 0 then p + 2 ^ log2 else p - 2 ^ log2

theorem filterBlocksWithFreeBuddyLsbs_ok (pr : Profile)
    (hlog2 : log2 < 6) (hdouble : IsLsbsMask (log2 + 1) doubleMask)
    (hfree : ∀ p, freeLsbs.getLsbD p = true → p % 2 ^ log2 = 0) :
    ∃ unpaired, filterBlocksWithFreeBuddyLsbs pr freeLsbs freeLsbs log2 doubleMask = .ok unpaired ∧
      ∀ p, unpaired.getLsbD p = (freeLsbs.getLsbD p && !freeLsbs.getLsbD (buddy log2 p)) := by
  have hsize : 2 ^ log2 < 64 := Nat.pow_lt_pow_right (by decide) hlog2
  refine ⟨_, by rw [filterBlocksWithFreeBuddyLsbs, debugAssert_ok pr hsize, ok_bind]; rfl,
    fun p => ?_⟩
  by_cases hp : p < 64
  · have hsucc : 2 ^ (log2 + 1) = 2 * 2 ^ log2 := Nat.pow_succ'
    have hpos := two_pow_pos log2
    cases hbit : freeLsbs.getLsbD p with
    | false => rw [getLsbD_and, hbit, Bool.false_and, Bool.false_and]
    | true =>
      have hmod := hfree p hbit
      obtain ⟨k, hk⟩ := dvd_of_mod_eq_zero hmod
      rw [getLsbD_and, BitVec.getLsbD_not, getLsbD_xor, getLsbD_xor,
        getLsbD_shiftLeft, getLsbD_and, getLsbD_and, getLsbD_xor,
        getLsbD_xor, getLsbD_ushiftRight, getLsbD_ushiftRight,
        hdouble.bits p hp, hbit, decide_eq_true hp, buddy, Bool.true_and, Bool.true_and,
        Bool.true_and]
      rcases mod_two_eq_zero_or_one k with heven | hodd
      · -- A block in the lower half of the pair.
        obtain ⟨m, rfl⟩ : ∃ m, k = 2 * m := ⟨k / 2, by omega⟩
        have hlow : p % 2 ^ (log2 + 1) = 0 := by
          rw [hk, hsucc, ← mul_assoc, mul_comm 2, mul_mod_right]
        have hprev : (!decide (p < 2 ^ log2) && ((freeLsbs.getLsbD (p - 2 ^ log2) ^^
            freeLsbs.getLsbD (2 ^ log2 + (p - 2 ^ log2))) && doubleMask.getLsbD (p - 2 ^ log2))) =
              false := by
          by_cases hlt : p < 2 ^ log2
          · rw [decide_eq_true hlt, Bool.not_true, Bool.false_and]
          · have hne : (p - 2 ^ log2) % 2 ^ (log2 + 1) ≠ 0 := by
              intro hzero
              have hdvd := (dvd_sub_iff_right (le_of_not_lt hlt)
                (dvd_of_mod_eq_zero hlow)).mp (dvd_of_mod_eq_zero hzero)
              have := le_of_dvd hpos hdvd
              omega
            rw [hdouble.bits _ (by omega), decide_eq_false hne, Bool.and_false, Bool.and_false]
        rw [hprev, if_pos hlow, decide_eq_true hlow, add_comm (2 ^ log2)]
        cases freeLsbs.getLsbD (p + 2 ^ log2) <;> rfl
      · obtain ⟨m, rfl⟩ : ∃ m, k = 2 * m + 1 := ⟨k / 2, by omega⟩
        have hbegin : p = 2 ^ (log2 + 1) * m + 2 ^ log2 := by
          rw [hk, hsucc]
          ring
        have hmodp : p % 2 ^ (log2 + 1) = 2 ^ log2 := by
          rw [hbegin, mul_add_mod, mod_eq_of_lt (by omega)]
        have hhigh : ¬ p % 2 ^ (log2 + 1) = 0 := by omega
        have hlower : (p - 2 ^ log2) % 2 ^ (log2 + 1) = 0 := by
          rw [hbegin, Nat.add_sub_cancel, mul_mod_right]
        rw [if_neg hhigh, decide_eq_false hhigh, hdouble.bits _ (by omega), hlower,
          Nat.add_sub_cancel' (by omega), hbit, decide_eq_false (by omega)]
        simp
  · rw [getLsbD_of_ge _ _ (le_of_not_lt hp), getLsbD_of_ge _ _ (le_of_not_lt hp),
      Bool.false_and]

theorem IsFreeLsbs.mod_eq (h : IsFreeLsbs w log2 freeLsbs) (p : Nat)
    (hp : freeLsbs.getLsbD p = true) : p % 2 ^ log2 = 0 := ((h p).mp hp).2.1

theorem IsFreeLsbs.double (h : IsFreeLsbs w log2 freeLsbs)
    (hdouble : IsLsbsMask (log2 + 1) doubleMask) :
    IsFreeLsbs w (log2 + 1) ((freeLsbs &&& freeLsbs >>> 2 ^ log2) &&& doubleMask) := by
  have hdvd : 2 ^ log2 ∣ 2 ^ (log2 + 1) := pow_dvd_pow 2 (le_succ _)
  intro p
  rw [getLsbD_and, getLsbD_and, getLsbD_ushiftRight, and_eq_true,
    and_eq_true, add_comm (2 ^ log2) p, h p, h (p + 2 ^ log2)]
  constructor
  · rintro ⟨⟨⟨hp, -, hlow⟩, -, -, hhigh⟩, hmask⟩
    rw [hdouble.bits p hp, decide_eq_true_eq] at hmask
    refine ⟨hp, hmask, fun j hj => ?_⟩
    by_cases hhalf : j < 2 ^ log2
    · exact hlow j hhalf
    · have hbit := hhigh (j - 2 ^ log2) (by omega)
      rwa [add_assoc, Nat.add_sub_cancel' (le_of_not_lt hhalf)] at hbit
  · rintro ⟨hp, hmod, hall⟩
    have hmask : doubleMask.getLsbD p = true := by
      rw [hdouble.bits p hp, decide_eq_true_eq]
      exact hmod
    have hpd := dvd_of_mod_eq_zero hmod
    have hword : p + 2 ^ log2 < 64 := by
      have hsplit := hdouble.words_split
      obtain ⟨k, rfl⟩ := hpd
      rw [hsplit] at hp
      have hle := hdouble.block_le (Nat.lt_of_mul_lt_mul_left hp)
      omega
    refine ⟨⟨⟨hp, mod_eq_zero_of_dvd (dvd_trans hdvd hpd), fun j hj => hall j (by omega)⟩, hword,
      ?_, fun j hj => ?_⟩, hmask⟩
    · exact mod_eq_zero_of_dvd (Nat.dvd_add (dvd_trans hdvd hpd) (dvd_refl _))
    · rw [add_assoc]
      exact hall (2 ^ log2 + j) (by omega)

theorem IsFreeLsbs.unique {f g : BitmapWord} (hf : IsFreeLsbs w log2 f) (hg : IsFreeLsbs w log2 g) :
    f = g := by
  apply eq_of_getLsbD_eq
  intro p _
  rw [Bool.eq_iff_iff, hf p, hg p]

theorem exists_bit (h : x ≠ 0) : ∃ p < 64, x.getLsbD p = true := by
  by_contra hnone
  apply h
  apply eq_of_getLsbD_eq
  intro p hp
  rw [show (0 : BitmapWord).getLsbD p = false from getLsbD_zero]
  exact eq_false_iff.mpr (fun hbit => hnone ⟨p, hp, hbit⟩)

theorem ne_zero_of_bit {p : Nat} (h : x.getLsbD p = true) : x ≠ 0 := by
  rintro rfl
  rw [show (0 : BitmapWord).getLsbD p = false from getLsbD_zero] at h
  cases h

/-- If every free block has got a free buddy, there is a free block of twice the
size. -/
theorem IsFreeLsbs.double_ne_zero
    (h : IsFreeLsbs w log2 freeLsbs) (hdouble : IsLsbsMask (log2 + 1) doubleMask)
    (hne : freeLsbs ≠ 0)
    (hpaired : ∀ p, freeLsbs.getLsbD p = true → freeLsbs.getLsbD (buddy log2 p) = true) :
    (freeLsbs &&& freeLsbs >>> 2 ^ log2) &&& doubleMask ≠ 0 := by
  obtain ⟨p, hp, hbit⟩ := exists_bit hne
  have hbuddy := hpaired p hbit
  have hsucc : 2 ^ (log2 + 1) = 2 * 2 ^ log2 := Nat.pow_succ'
  obtain ⟨k, hk⟩ := dvd_of_mod_eq_zero (h.mod_eq p hbit)
  have hpair (q : Nat) (hq : q < 64) (hlow : freeLsbs.getLsbD q = true)
      (hhigh : freeLsbs.getLsbD (q + 2 ^ log2) = true) (hmod : q % 2 ^ (log2 + 1) = 0) :
      (freeLsbs &&& freeLsbs >>> 2 ^ log2) &&& doubleMask ≠ 0 := by
    apply ne_zero_of_bit (p := q)
    rw [getLsbD_and, getLsbD_and, getLsbD_ushiftRight, hdouble.bits q hq,
      add_comm, hlow, hhigh, decide_eq_true hmod]
    rfl
  rw [buddy] at hbuddy
  split at hbuddy
  · rename_i hmod
    exact hpair p hp hbit hbuddy hmod
  · rename_i hmod
    have hge : 2 ^ log2 ≤ p := by
      by_contra hlt
      have hzero : k = 0 := by
        by_contra hpos
        have := Nat.le_mul_of_pos_right (2 ^ log2) (pos_of_ne_zero hpos)
        omega
      rw [hk, hzero, mul_zero, zero_mod] at hmod
      exact hmod rfl
    refine hpair (p - 2 ^ log2) (by omega) hbuddy (by rwa [Nat.sub_add_cancel hge]) ?_
    have hodd : k % 2 = 1 := by
      by_contra heven
      obtain ⟨m, rfl⟩ : ∃ m, k = 2 * m := ⟨k / 2, by omega⟩
      rw [hk, hsucc, ← mul_assoc, mul_comm 2, mul_mod_right] at hmod
      exact hmod rfl
    obtain ⟨m, rfl⟩ : ∃ m, k = 2 * m + 1 := ⟨k / 2, by omega⟩
    have hprev : p - 2 ^ log2 = 2 ^ (log2 + 1) * m := by
      rw [hk, hsucc, mul_succ, Nat.add_sub_cancel]
      ring
    rw [hprev, mul_mod_right]

end Blocks

section SplitBlocks

variable {pr : Profile} {w : BitmapWord}

structure SplitSize (w : BitmapWord) (maxLog2 log2 splitLog2 : Nat) : Prop where
  ge : log2 ≤ splitLog2
  le : splitLog2 = log2 ∨ splitLog2 ≤ maxLog2
  free : ∃ freeLsbs, IsFreeLsbs w splitLog2 freeLsbs ∧ freeLsbs ≠ 0 ∧
    (splitLog2 < maxLog2 → ∃ p, freeLsbs.getLsbD p = true ∧
      freeLsbs.getLsbD (buddy splitLog2 p) = false)

variable {freeLsbs : BitmapWord}

theorem paired_of_unpaired_zero {unpaired : BitmapWord}
    (hbits : ∀ p, unpaired.getLsbD p = (freeLsbs.getLsbD p && !freeLsbs.getLsbD (buddy log2 p)))
    (hzero : ¬ unpaired ≠ 0) (p : Nat) (hp : freeLsbs.getLsbD p = true) :
    freeLsbs.getLsbD (buddy log2 p) = true := by
  have hbit := hbits p
  rw [not_not.mp hzero, show (0 : BitmapWord).getLsbD p = false from getLsbD_zero, hp,
    Bool.true_and] at hbit
  simpa using hbit.symm

theorem splitBlockSizeLog2From_of_ok {maxLog2 : Nat} (hmax : maxLog2 ≤ 5) (rounds log2 : Nat)
    {splitLog2 : Nat} (hrounds : maxLog2 ≤ log2 + rounds)
    (hfree : IsFreeLsbs w log2 freeLsbs) (hne : freeLsbs ≠ 0)
    (h : splitBlockSizeLog2From pr maxLog2 rounds log2 freeLsbs = .ok splitLog2) :
    SplitSize w maxLog2 log2 splitLog2 := by
  induction rounds generalizing log2 freeLsbs with
  | zero =>
    cases h
    exact ⟨le_refl _, .inl rfl, freeLsbs, hfree, hne, fun hlt => by omega⟩
  | succ rounds ih =>
    rw [splitBlockSizeLog2From] at h
    split at h
    · cases h
      exact ⟨le_refl _, .inl rfl, freeLsbs, hfree, hne, fun hlt => by omega⟩
    · rename_i hlt
      obtain ⟨doubleMask, hdouble, h⟩ := bind_eq_ok h
      have hmask := isLsbsMask_of_ok hdouble
      obtain ⟨unpaired, hunpaired, hbits⟩ :=
        filterBlocksWithFreeBuddyLsbs_ok pr (by omega) hmask hfree.mod_eq
      rw [hunpaired, ok_bind] at h
      split at h
      · rename_i hsome
        cases h
        obtain ⟨p, -, hp⟩ := exists_bit hsome
        rw [hbits, and_eq_true, Bool.not_eq_true'] at hp
        exact ⟨le_refl _, .inl rfl, freeLsbs, hfree, hne, fun _ => ⟨p, hp⟩⟩
      · rename_i hzero
        obtain ⟨-, -, h⟩ := bind_eq_ok h
        obtain ⟨hge, hle, hfound⟩ := ih (log2 + 1) (by omega) (hfree.double hmask)
          (hfree.double_ne_zero hmask hne (paired_of_unpaired_zero hbits hzero)) h
        exact ⟨by omega, .inr (by omega), hfound⟩

theorem maxSplitLog2_le (m : Option Nat) : maxSplitLog2 m ≤ 5 := by
  cases m with
  | none => exact le_refl 5
  | some m => exact min_le_right m 5

theorem blockAllocSplitBlockSizeLog2_of_ok
    {maxLog2 : Option Nat} {splitLog2 : Nat} (hfree : IsFreeLsbs w log2 freeLsbs)
    (hne : freeLsbs ≠ 0)
    (h : blockAllocSplitBlockSizeLog2 pr freeLsbs maxLog2 log2 mask = .ok splitLog2) :
    SplitSize w (maxSplitLog2 maxLog2) log2 splitLog2 := by
  obtain ⟨-, -, h⟩ := bind_eq_ok h
  obtain ⟨mask', -, h⟩ := bind_eq_ok h
  obtain ⟨-, -, h⟩ := bind_eq_ok h
  obtain ⟨-, -, h⟩ := bind_eq_ok h
  obtain ⟨-, -, h⟩ := bind_eq_ok h
  obtain ⟨-, -, h⟩ := bind_eq_ok h
  have hmax := maxSplitLog2_le maxLog2
  exact splitBlockSizeLog2From_of_ok hmax 6 log2 (by omega) hfree hne h

theorem splitBlockSizeLog2From_ok (pr : Profile) {maxLog2 : Nat} (hmax : maxLog2 ≤ 5)
    (rounds log2 : Nat) (hfree : IsFreeLsbs w log2 freeLsbs) (hne : freeLsbs ≠ 0) :
    ∃ splitLog2, splitBlockSizeLog2From pr maxLog2 rounds log2 freeLsbs = .ok splitLog2 := by
  induction rounds generalizing log2 freeLsbs with
  | zero => exact ⟨log2, rfl⟩
  | succ rounds ih =>
    rw [splitBlockSizeLog2From]
    split
    · exact ⟨log2, rfl⟩
    · rename_i hlt
      obtain ⟨doubleMask, hdouble, hmask⟩ := getBlocksLsbsMask_ok (show log2 + 1 ≤ 6 by omega)
      obtain ⟨unpaired, hunpaired, hbits⟩ :=
        filterBlocksWithFreeBuddyLsbs_ok pr (by omega) hmask hfree.mod_eq
      rw [hdouble, ok_bind, hunpaired, ok_bind]
      split
      · exact ⟨log2, rfl⟩
      · rename_i hzero
        have hdouble_ne := hfree.double_ne_zero hmask hne (paired_of_unpaired_zero hbits hzero)
        dsimp only
        rw [debugAssert_ok pr hdouble_ne, ok_bind]
        exact ih (log2 + 1) (hfree.double hmask) hdouble_ne

theorem IsFreeLsbs.sub_mask (h : IsFreeLsbs w log2 freeLsbs) (hmask : IsLsbsMask log2 mask)
    (hsub : ∀ p, x.getLsbD p = true → freeLsbs.getLsbD p = true) : x &&& ~~~mask = 0 := by
  apply eq_of_getLsbD_eq
  intro p hp
  rw [getLsbD_and, BitVec.getLsbD_not, hmask.bits p hp, decide_eq_true hp, Bool.true_and,
    show (0 : BitmapWord).getLsbD p = false from getLsbD_zero]
  apply eq_false_iff.mpr
  intro hbit
  rw [and_eq_true, Bool.not_eq_true', decide_eq_false_iff_not] at hbit
  exact hbit.2 (h.mod_eq p (hsub p hbit.1))

theorem IsLsbsMask.unique {mask mask' : BitmapWord} (h : IsLsbsMask log2 mask)
    (h' : IsLsbsMask log2 mask') : mask = mask' := by
  apply eq_of_getLsbD_eq
  intro p hp
  rw [h.bits p hp, h'.bits p hp]

theorem IsFreeLsbs.ne_mask
    (h : IsFreeLsbs w log2 freeLsbs) (hmask : IsLsbsMask log2 mask) (hw : w ≠ 0) :
    freeLsbs ≠ mask := by
  rintro rfl
  obtain ⟨p, hp, hbit⟩ := exists_bit hw
  rw [hmask.words_split] at hp
  have hlsb := hmask.getLsbD_lsb (Nat.div_lt_of_lt_mul hp) (two_pow_pos log2)
  rw [add_zero, decide_eq_true rfl] at hlsb
  have hclear := ((h _).mp hlsb).2.2 _ (mod_lt p (two_pow_pos log2))
  rw [div_add_mod, hbit] at hclear
  cases hclear

theorem blockAllocSplitBlockSizeLog2_ok (pr : Profile)
    (maxLog2 : Option Nat) (hmask : IsLsbsMask log2 mask) (hlt : log2 < 6)
    (hfree : IsFreeLsbs w log2 freeLsbs) (hne : freeLsbs ≠ 0) (hw : w ≠ 0) :
    ∃ splitLog2, blockAllocSplitBlockSizeLog2 pr freeLsbs maxLog2 log2 mask = .ok splitLog2 := by
  obtain ⟨mask', hok, hmask'⟩ := getBlocksLsbsMask_ok hlt.le
  rw [blockAllocSplitBlockSizeLog2, debugAssert_ok pr (show log2 ≠ 6 by omega), ok_bind, hok, ok_bind,
    debugAssert_ok pr (hmask.unique hmask'), ok_bind,
    debugAssert_ok pr (hfree.sub_mask hmask (fun _ => id)), ok_bind, debugAssert_ok pr hne, ok_bind,
    debugAssert_ok pr (hfree.ne_mask hmask hw), ok_bind]
  exact splitBlockSizeLog2From_ok pr (maxSplitLog2_le maxLog2) 6 log2 hfree hne

theorem unpairedBlocksLsbs_ok (pr : Profile)
    (hfree : ∀ p, freeLsbs.getLsbD p = true → p % 2 ^ log2 = 0) :
    ∃ unpaired, unpairedBlocksLsbs pr freeLsbs log2 = .ok unpaired ∧
      ∀ p, unpaired.getLsbD p = (freeLsbs.getLsbD p &&
        (decide (5 ≤ log2) || !freeLsbs.getLsbD (buddy log2 p))) := by
  rw [unpairedBlocksLsbs]
  split
  · rename_i hlt
    obtain ⟨doubleMask, hdouble, hmask⟩ := getBlocksLsbsMask_ok (show log2 + 1 ≤ 6 by omega)
    obtain ⟨unpaired, hfilter, hbits⟩ :=
      filterBlocksWithFreeBuddyLsbs_ok pr (by omega) hmask hfree
    refine ⟨unpaired, by rw [hdouble, ok_bind, hfilter], fun p => ?_⟩
    rw [hbits, decide_eq_false (by omega), Bool.false_or]
  · rename_i hge
    refine ⟨freeLsbs, rfl, fun p => ?_⟩
    rw [decide_eq_true (by omega), Bool.true_or, Bool.and_true]

/-- The block selected is a free one, as long as there is one without a free
buddy. -/
theorem blockAllocSelectBlock_of_ok {log2 b : Nat} {lsbsMask candidates : BitmapWord}
    (hfree : IsFreeLsbs w log2 freeLsbs) (hsub : ∀ p, candidates.getLsbD p = true →
      freeLsbs.getLsbD p = true)
    (hne : ∃ p, candidates.getLsbD p = true ∧
      (log2 < 5 → candidates.getLsbD (buddy log2 p) = false))
    (h : blockAllocSelectBlock pr candidates log2 lsbsMask = .ok b) : freeLsbs.getLsbD b = true := by
  obtain ⟨p, hp, hunpaired⟩ := hne
  obtain ⟨mask, -, h⟩ := bind_eq_ok h
  obtain ⟨-, -, h⟩ := bind_eq_ok h
  obtain ⟨-, -, h⟩ := bind_eq_ok h
  obtain ⟨-, -, h⟩ := bind_eq_ok h
  obtain ⟨selected, hselected, hbits⟩ :=
    unpairedBlocksLsbs_ok pr (fun q hq => hfree.mod_eq q (hsub q hq))
  rw [hselected, ok_bind] at h
  obtain ⟨-, -, h⟩ := bind_eq_ok h
  cases h
  have hne : selected ≠ 0 := by
    apply ne_zero_of_bit (p := p)
    rw [hbits, hp, Bool.true_and]
    by_cases hlt : log2 < 5
    · rw [hunpaired hlt, Bool.not_false, Bool.or_true]
    · rw [decide_eq_true (le_of_not_lt hlt), Bool.true_or]
  have hctz := BitVec.getLsbD_true_ctz_of_ne_zero hne
  rw [hbits, and_eq_true] at hctz
  exact hsub _ hctz.1

/-- A block is selected from among the candidates if one of these has no other one for
its buddy. -/
theorem blockAllocSelectBlock_ok (pr : Profile) {mask candidates : BitmapWord}
    (hmask : IsLsbsMask log2 mask) (hle : log2 ≤ 6) (hfree : IsFreeLsbs w log2 freeLsbs)
    (hsub : ∀ p, candidates.getLsbD p = true → freeLsbs.getLsbD p = true)
    (hne : ∃ p, candidates.getLsbD p = true ∧
      (log2 < 5 → candidates.getLsbD (buddy log2 p) = false)) (hw : log2 = 6 ∨ w ≠ 0) :
    ∃ b, blockAllocSelectBlock pr candidates log2 mask = .ok b := by
  obtain ⟨p, hp, hunpaired⟩ := hne
  obtain ⟨mask', hok, hmask'⟩ := getBlocksLsbsMask_ok hle
  have hmod (q : Nat) (hq : candidates.getLsbD q = true) := hfree.mod_eq q (hsub q hq)
  have hassert : assertSplitSize pr candidates log2 mask = .ok () := by
    cases pr with
    | release => rfl
    | debug =>
      rw [assertSplitSize]
      split
      · rfl
      · rename_i hne
        have hcandidates : candidates ≠ mask := by
          rintro rfl
          refine hfree.ne_mask hmask (hw.resolve_left hne) ?_
          apply eq_of_getLsbD_eq
          intro q hq
          rw [Bool.eq_iff_iff]
          refine ⟨fun hbit => ?_, hsub q⟩
          rw [hmask.bits q hq, decide_eq_true_eq]
          exact hfree.mod_eq q hbit
        have hsplit : splitBlockSizeLog2From .debug 5 6 log2 candidates = .ok log2 := by
          rw [splitBlockSizeLog2From]
          split
          · rfl
          · rename_i hlt
            obtain ⟨doubleMask, hdouble, hdoubleMask⟩ :=
              getBlocksLsbsMask_ok (show log2 + 1 ≤ 6 by omega)
            obtain ⟨unpaired, hok', hbits⟩ :=
              filterBlocksWithFreeBuddyLsbs_ok .debug (by omega) hdoubleMask hmod
            have hset : unpaired.getLsbD p = true := by
              rw [hbits, hp, hunpaired (by omega), Bool.not_false, Bool.and_self]
            rw [hdouble, ok_bind, hok', ok_bind, if_pos (ne_zero_of_bit hset)]
            rfl
        rw [blockAllocSplitBlockSizeLog2, debugAssert_ok .debug hne, ok_bind, hok, ok_bind,
          debugAssert_ok .debug (hmask.unique hmask'), ok_bind,
          debugAssert_ok .debug (hfree.sub_mask hmask hsub), ok_bind,
          debugAssert_ok .debug (ne_zero_of_bit hp), ok_bind, debugAssert_ok .debug hcandidates,
          ok_bind, maxSplitLog2, hsplit, ok_bind]
        exact debugAssert_ok .debug rfl
  obtain ⟨selected, hselected, hbits⟩ := unpairedBlocksLsbs_ok pr hmod
  have hset : selected.getLsbD p = true := by
    rw [hbits, hp, Bool.true_and]
    by_cases hlt : log2 < 5
    · rw [hunpaired hlt, Bool.not_false, Bool.or_true]
    · rw [decide_eq_true (le_of_not_lt hlt), Bool.true_or]
  rw [blockAllocSelectBlock, hok, ok_bind, debugAssert_ok pr (hmask.unique hmask'), ok_bind,
    debugAssert_ok pr (hfree.sub_mask hmask hsub), ok_bind, hassert, ok_bind, hselected, ok_bind,
    debugAssert_ok pr (ne_zero_of_bit hset), ok_bind]
  exact ⟨_, rfl⟩

end SplitBlocks

section Strings

theorem getLsbD_findStrRounds (rounds n : Nat) (w : BitmapWord) (p : Nat) (hp : p < 64)
    (hrounds : n ≤ rounds) (hn : 0 < n) :
    (findStrRounds rounds n w).getLsbD p = true ↔
      n ≤ p + 1 ∧ ∀ j < n, w.getLsbD (p - j) = true := by
  induction rounds generalizing n w with
  | zero => omega
  | succ rounds ih =>
    rw [findStrRounds]
    split
    · rename_i hle
      obtain rfl : n = 1 := by omega
      constructor
      · intro hbit
        refine ⟨by omega, fun j hj => ?_⟩
        obtain rfl : j = 0 := by omega
        exact hbit
      · rintro ⟨-, hall⟩
        exact hall 0 one_pos
    · rename_i hgt
      have hstep (q : Nat) (hq : q < 64) : (w &&& w <<< (n / 2)).getLsbD q = true ↔
          w.getLsbD q = true ∧ n / 2 ≤ q ∧ w.getLsbD (q - n / 2) = true := by
        rw [getLsbD_and, getLsbD_shiftLeft, decide_eq_true hq]
        by_cases hlt : q < n / 2
        · simp [hlt]
        · simp [hlt, le_of_not_lt hlt]
      rw [ih (n - n / 2) _ (by omega) (by omega)]
      constructor
      · rintro ⟨hle, hall⟩
        have htail := (hstep _ (by omega)).mp (hall (n - n / 2 - 1) (by omega))
        refine ⟨by omega, fun j hj => ?_⟩
        by_cases hlow : j < n - n / 2
        · exact ((hstep _ (by omega)).mp (hall j hlow)).1
        · have hbit := ((hstep _ (by omega)).mp (hall (j - n / 2) (by omega))).2.2
          rwa [show p - (j - n / 2) - n / 2 = p - j by omega] at hbit
      · rintro ⟨hle, hall⟩
        refine ⟨by omega, fun j hj => (hstep _ (by omega)).mpr ⟨hall j (by omega), by omega, ?_⟩⟩
        rw [show p - j - n / 2 = p - (j + n / 2) by omega]
        exact hall (j + n / 2) (by omega)

theorem findStrWithMinLen_of_ok {pr : Profile} {w anchorsMask : BitmapWord} {n log2 b : Nat}
    (hanchors : IsLsbsMask log2 anchorsMask) (hn : 0 < n) (hmod : n % 2 ^ log2 = 0)
    (h : findStrWithMinLen pr w n log2 anchorsMask = .ok (some b)) :
    b % 2 ^ log2 = 0 ∧ b + n ≤ 64 ∧ ∀ j < n, w.getLsbD (b + j) = true := by
  obtain ⟨-, -, h⟩ := bind_eq_ok h
  obtain ⟨-, -, h⟩ := bind_eq_ok h
  obtain ⟨-, -, h⟩ := bind_eq_ok h
  dsimp only at h
  split at h
  · rename_i hne
    have hlt := ctz_lt hne
    have hbit := BitVec.getLsbD_true_ctz_of_ne_zero hne
    generalize BitVec.toNat (BitVec.ctz _) = p at *
    rw [getLsbD_and, and_eq_true, getLsbD_findStrRounds n n w p hlt (le_refl n) hn]
      at hbit
    obtain ⟨⟨hle, hall⟩, hanchor⟩ := hbit
    obtain ⟨tail, htail, h⟩ := bind_eq_ok h
    obtain rfl : tail = n - 1 := by
      rw [CacheRows.subU32_ok pr hn (by omega)] at htail
      exact (Except.ok.inj htail).symm
    obtain ⟨begin, hbegin, h⟩ := bind_eq_ok h
    obtain rfl : begin = p - (n - 1) := by
      rw [CacheRows.subU32_ok pr (by omega) (by omega)] at hbegin
      exact (Except.ok.inj hbegin).symm
    cases Except.ok.inj h
    refine ⟨?_, by omega, fun j hj => ?_⟩
    · rw [getLsbD_shiftLeft, and_eq_true, and_eq_true, Bool.not_eq_true',
        decide_eq_false_iff_not, hanchors.bits _ (by omega)] at hanchor
      obtain ⟨⟨-, hge⟩, hzero⟩ := hanchor
      have hend : 2 ^ log2 ∣ p + 1 := by
        have hsplit : p + 1 = p - (2 ^ log2 - 1) + 2 ^ log2 := by omega
        rw [hsplit]
        exact Nat.dvd_add (dvd_of_mod_eq_zero (of_decide_eq_true hzero)) (Nat.dvd_refl _)
      have hsub := Nat.dvd_sub hend (dvd_of_mod_eq_zero hmod)
      rw [show p - (n - 1) = p + 1 - n by omega]
      exact mod_eq_zero_of_dvd hsub
    · have hbit := hall (n - 1 - j) (by omega)
      rwa [show p - (n - 1 - j) = p - (n - 1) + j by omega] at hbit
  · cases h

end Strings

section Fields

variable {log2 : Nat} {mask : BitmapWord}

def LsbsOnly (log2 : Nat) (x : BitmapWord) : Prop := ∀ p, x.getLsbD p = true → p % 2 ^ log2 = 0

theorem IsLsbsMask.lsbsOnly (h : IsLsbsMask log2 mask) : LsbsOnly log2 mask := by
  intro p hp
  rwa [h.bits p (BitVec.lt_of_getLsbD hp), decide_eq_true_eq] at hp

def SelectsBlocks (log2 : Nat) (x : BitmapWord) (select : Nat → Prop) : Prop :=
  ∀ p, x.getLsbD p = true ↔ ∃ k < 2 ^ (6 - log2), p = 2 ^ log2 * k ∧ select k

variable {x : BitmapWord} {select : Nat → Prop} {k : Nat}

theorem SelectsBlocks.lsbsOnly (h : SelectsBlocks log2 x select) : LsbsOnly log2 x := by
  intro p hp
  obtain ⟨k, -, rfl, -⟩ := (h p).mp hp
  exact mul_mod_right _ _

theorem SelectsBlocks.getLsbD (h : SelectsBlocks log2 x select) (hk : k < 2 ^ (6 - log2)) :
    x.getLsbD (2 ^ log2 * k) = true ↔ select k := by
  rw [h]
  constructor
  · rintro ⟨i, -, hi, hselect⟩
    rwa [Nat.eq_of_mul_eq_mul_left (two_pow_pos log2) hi]
  · exact fun hselect => ⟨k, hk, rfl, hselect⟩

section

variable (h : IsLsbsMask log2 mask)
include h

theorem IsLsbsMask.selectsBlocks
    (hx : ∀ k < 2 ^ (6 - log2), x.getLsbD (2 ^ log2 * k) = true ↔ select k) :
    SelectsBlocks log2 (x &&& mask) select := by
  intro p
  rw [getLsbD_and, and_eq_true]
  constructor
  · rintro ⟨hbit, hlsb⟩
    have hlt : p < 64 := BitVec.lt_of_getLsbD hlsb
    rw [h.bits p hlt, decide_eq_true_eq] at hlsb
    obtain ⟨k, hk, rfl⟩ := h.exists_block hlt hlsb
    exact ⟨k, hk, rfl, (hx k hk).mp hbit⟩
  · rintro ⟨k, hk, rfl, hselect⟩
    have hlsb := h.getLsbD_lsb hk (two_pow_pos log2)
    exact ⟨(hx k hk).mpr hselect, hlsb⟩

theorem lane_lsbs_shiftLeft (hx : LsbsOnly log2 x)
    {t : Nat} (ht : t < 2 ^ log2) (hk : k < 2 ^ (6 - log2)) :
    lane (2 ^ log2) (x <<< t) k =
      if x.getLsbD (2 ^ log2 * k) = true then BitVec.twoPow (2 ^ log2) t else 0#(2 ^ log2) := by
  have hle := h.block_le hk
  apply eq_of_getLsbD_eq
  intro j hj
  rw [getLsbD_lane, decide_eq_true hj, Bool.true_and, getLsbD_shiftLeft,
    decide_eq_true (show 2 ^ log2 * k + j < 64 by omega), Bool.true_and]
  by_cases hjt : j = t
  · subst hjt
    rw [Nat.add_sub_cancel, decide_eq_false (by omega), Bool.not_false, Bool.true_and]
    split
    · rename_i hbit
      rw [hbit, BitVec.getLsbD_twoPow, decide_eq_true hj, decide_eq_true rfl, Bool.and_true]
    · rename_i hbit
      rw [getLsbD_zero, eq_false_iff.mpr hbit]
  · -- The bit shifted here is not a least significant one.
    have hclear : (!decide (2 ^ log2 * k + j < t) && x.getLsbD (2 ^ log2 * k + j - t)) = false := by
      rw [Bool.and_eq_false_iff]
      by_cases hlt : 2 ^ log2 * k + j < t
      · left
        rw [decide_eq_true hlt, Bool.not_true]
      · right
        apply eq_false_iff.mpr
        intro hbit
        obtain ⟨i, hi⟩ := dvd_of_mod_eq_zero (hx _ hbit)
        have hsplit : 2 ^ log2 * k + j = 2 ^ log2 * i + t := by omega
        have hmod := congrArg (· % 2 ^ log2) hsplit
        simp only [mul_add_mod, mod_eq_of_lt hj, mod_eq_of_lt ht] at hmod
        exact hjt hmod
    rw [hclear]
    split
    · rw [BitVec.getLsbD_twoPow, decide_eq_false (Ne.symm hjt), Bool.and_false]
    · rw [getLsbD_zero]

theorem IsLsbsMask.lane_msbs (hk : k < 2 ^ (6 - log2)) :
    lane (2 ^ log2) (mask <<< (2 ^ log2 - 1)) k = guardBit (2 ^ log2) := by
  have hpos := two_pow_pos log2
  have hlsb := h.getLsbD_lsb hk hpos
  rw [add_zero, decide_eq_true rfl] at hlsb
  rw [lane_lsbs_shiftLeft h h.lsbsOnly (by omega) hk, if_pos hlsb, guardBit]

theorem IsLsbsMask.toNat_lane_mul {n : Nat} (hn : n < 2 ^ 2 ^ log2) (hk : k < 2 ^ (6 - log2)) :
    (lane (2 ^ log2) (mask * BitVec.ofNat 64 n) k).toNat = n := by
  have hone (j : Nat) (hj : j < 2 ^ (6 - log2)) : (lane (2 ^ log2) mask j).toNat = 1 := by
    have hpos := two_pow_pos log2
    have hlane := lane_lsbs_shiftLeft h h.lsbsOnly hpos hj
    have hlsb := h.getLsbD_lsb hj hpos
    rw [add_zero, decide_eq_true rfl] at hlsb
    rw [BitVec.shiftLeft_zero, if_pos hlsb] at hlane
    rw [hlane, toNat_twoPow, pow_zero, mod_eq_of_lt (Nat.one_lt_two_pow hpos.ne')]
  induction n generalizing k with
  | zero =>
    rw [BitVec.mul_zero, lane_zero]
    rfl
  | succ n ih =>
    have hsum (j : Nat) (hj : j < 2 ^ (6 - log2)) :
        (lane (2 ^ log2) (mask * BitVec.ofNat 64 n) j).toNat + (lane (2 ^ log2) mask j).toNat <
          2 ^ 2 ^ log2 := by
      rw [ih (by omega) hj, hone j hj]
      exact hn
    rw [BitVec.ofNat_add, BitVec.mul_add, BitVec.mul_one,
      lane_add (h.block_le hk) (fun j hj => hsum j (lt_trans hj hk)), toNat_add,
      mod_eq_of_lt (hsum k hk), ih (by omega) hk, hone k hk]

theorem IsLsbsMask.toNat_mul_lt {n : Nat} (hn : n < 2 ^ 2 ^ log2) :
    mask.toNat * n < 2 ^ 64 := by
  induction n with
  | zero => exact two_pow_pos 64
  | succ n ih =>
    have hlt := ih (by omega)
    have hsum (j : Nat) (hj : j < 2 ^ (6 - log2)) :
        (lane (2 ^ log2) (mask * BitVec.ofNat 64 n) j).toNat + (lane (2 ^ log2) mask j).toNat <
          2 ^ 2 ^ log2 := by
      have hone := h.toNat_lane_mul (Nat.one_lt_two_pow (two_pow_pos log2).ne') hj
      rw [BitVec.mul_one] at hone
      rw [h.toNat_lane_mul (by omega) hj, hone]
      exact hn
    have hle : 2 ^ log2 ≤ 2 ^ 6 := Nat.pow_le_pow_right (by omega) h.log2_le
    have hpow : 2 ^ 2 ^ log2 ≤ 2 ^ 2 ^ 6 := Nat.pow_le_pow_right (by omega) hle
    have hn64 : n < 2 ^ 64 := by omega
    have hlow := low_add_lt hsum
    rw [← h.words_split, mod_eq_of_lt (BitVec.isLt _), mod_eq_of_lt (BitVec.isLt _),
      BitVec.toNat_mul, toNat_ofNat, mod_eq_of_lt hn64, mod_eq_of_lt hlt] at hlow
    rwa [mul_succ]

end

theorem toNat_field (x : BitmapWord) (hlog2 : log2 ≤ 6) (k : Nat) :
    (x >>> (2 ^ log2 * k) &&& trailingBitsMask (2 ^ log2)).toNat = (lane (2 ^ log2) x k).toNat := by
  have hle : 2 ^ log2 ≤ 2 ^ 6 := Nat.pow_le_pow_right (by omega) hlog2
  have hpow : 2 ^ 2 ^ log2 ≤ 2 ^ 64 := Nat.pow_le_pow_right (by omega) hle
  rw [trailingBitsMask_eq hle, BitVec.toNat_and, toNat_ushiftRight, toNat_ofNat,
    mod_eq_of_lt (by omega), and_two_pow_sub_one_eq_mod, shiftRight_eq_div_pow, toNat_lane]

section

variable (pr : Profile) (h : IsLsbsMask log2 mask)
include pr h

/-- A block is selected with all its bits if its least significant one is set. -/
theorem blocksSelectMask_ok (hx : LsbsOnly log2 x) :
    ∃ z, blocksSelectMask pr log2 x = .ok z ∧
      ∀ k < 2 ^ (6 - log2), ∀ j < 2 ^ log2,
        z.getLsbD (2 ^ log2 * k + j) = x.getLsbD (2 ^ log2 * k) := by
  have hpos := two_pow_pos log2
  have hmsbs (k : Nat) (hk : k < 2 ^ (6 - log2)) := lane_lsbs_shiftLeft h hx
    (show 2 ^ log2 - 1 < 2 ^ log2 by omega) hk
  have hlsbs (k : Nat) (hk : k < 2 ^ (6 - log2)) := lane_lsbs_shiftLeft h hx hpos hk
  simp only [BitVec.shiftLeft_zero] at hlsbs
  have htop : 2 ^ (2 ^ log2 - 1) < 2 ^ 2 ^ log2 := Nat.pow_lt_pow_right (by omega) (by omega)
  have hone : 2 ^ 0 ≤ 2 ^ (2 ^ log2 - 1) := Nat.pow_le_pow_right (by omega) (zero_le _)
  have hle (k : Nat) (hk : k < 2 ^ (6 - log2)) : (lane (2 ^ log2) x k).toNat ≤
      (lane (2 ^ log2) (x <<< (2 ^ log2 - 1)) k).toNat := by
    rw [hmsbs k hk, hlsbs k hk]
    split
    · rw [toNat_twoPow, toNat_twoPow, mod_eq_of_lt htop,
        mod_eq_of_lt (by omega)]
      exact hone
    · exact le_refl _
  have hfits : x.toNat ≤ (x <<< (2 ^ log2 - 1)).toNat := by
    have hlow := low_le hle
    rwa [← h.words_split, mod_eq_of_lt (BitVec.isLt _), mod_eq_of_lt (BitVec.isLt _)] at hlow
  refine ⟨_, by rw [blocksSelectMask, CacheRows.sub_ok pr hfits, ok_bind]; rfl, fun k hk j hj => ?_⟩
  have hlane : lane (2 ^ log2) (x <<< (2 ^ log2 - 1) - x ||| x <<< (2 ^ log2 - 1)) k =
      if x.getLsbD (2 ^ log2 * k) = true then BitVec.allOnes (2 ^ log2) else 0#(2 ^ log2) := by
    rw [lane_or, lane_sub (h.block_le hk) (fun i hi => hle i (lt_trans hi hk)), hmsbs k hk,
      hlsbs k hk]
    split
    · apply BitVec.eq_of_toNat_eq
      have hor := two_pow_add_eq_or_of_lt (i := 2 ^ log2 - 1) (b := 2 ^ (2 ^ log2 - 1) - 1)
        (by omega) 1
      rw [BitVec.toNat_or, BitVec.toNat_sub_of_le, toNat_twoPow, toNat_twoPow,
        mod_eq_of_lt htop, mod_eq_of_lt (show 2 ^ 0 < 2 ^ 2 ^ log2 by omega),
        toNat_allOnes, Nat.or_comm]
      · rw [mul_one] at hor
        rw [pow_zero, ← hor, two_mul_guard hpos]
        omega
      · rw [BitVec.le_def, toNat_twoPow, toNat_twoPow, mod_eq_of_lt htop,
          mod_eq_of_lt (by omega)]
        exact hone
    · rw [BitVec.sub_zero, BitVec.or_zero]
  have hbit := getLsbD_lane (x <<< (2 ^ log2 - 1) - x ||| x <<< (2 ^ log2 - 1)) k j (w := 2 ^ log2)
  rw [decide_eq_true hj, Bool.true_and, hlane] at hbit
  rw [← hbit]
  split
  · rename_i hset
    rw [hset, BitVec.getLsbD_allOnes, decide_eq_true hj]
  · rename_i hclear
    rw [getLsbD_zero, eq_false_iff.mpr hclear]

/-- The differences of the blocks' fields, each one guarded against a borrow. -/
theorem guarded_sub_ok (x y : BitmapWord) :
    ∃ d, sub pr (x ||| mask <<< (2 ^ log2 - 1)) (y &&& ~~~(mask <<< (2 ^ log2 - 1))) = .ok d ∧
      ∀ k < 2 ^ (6 - log2), lane (2 ^ log2) d k =
        (lane (2 ^ log2) x k ||| guardBit (2 ^ log2)) -
          (lane (2 ^ log2) y k &&& ~~~guardBit (2 ^ log2)) := by
  have hpos := two_pow_pos log2
  have hlanes (k : Nat) (hk : k < 2 ^ (6 - log2)) :
      lane (2 ^ log2) (x ||| mask <<< (2 ^ log2 - 1)) k =
          lane (2 ^ log2) x k ||| guardBit (2 ^ log2) ∧
        lane (2 ^ log2) (y &&& ~~~(mask <<< (2 ^ log2 - 1))) k =
          lane (2 ^ log2) y k &&& ~~~guardBit (2 ^ log2) := by
    rw [lane_or, lane_and, lane_not _ (h.block_le hk), h.lane_msbs hk]
    exact ⟨rfl, rfl⟩
  have hle (k : Nat) (hk : k < 2 ^ (6 - log2)) :
      (lane (2 ^ log2) (y &&& ~~~(mask <<< (2 ^ log2 - 1))) k).toNat ≤
        (lane (2 ^ log2) (x ||| mask <<< (2 ^ log2 - 1)) k).toNat := by
    rw [(hlanes k hk).1, (hlanes k hk).2, toNat_or_guardBit hpos, toNat_and_not_guardBit hpos]
    omega
  have hfits : (y &&& ~~~(mask <<< (2 ^ log2 - 1))).toNat ≤ (x ||| mask <<< (2 ^ log2 - 1)).toNat := by
    have hlow := low_le hle
    rwa [← h.words_split, mod_eq_of_lt (BitVec.isLt _), mod_eq_of_lt (BitVec.isLt _)] at hlow
  refine ⟨_, CacheRows.sub_ok pr hfits, fun k hk => ?_⟩
  rw [lane_sub (h.block_le hk) (fun j hj => hle j (lt_trans hj hk)), (hlanes k hk).1,
    (hlanes k hk).2]

theorem blocksFieldsSub_ok (x y : BitmapWord) :
    ∃ z, blocksFieldsSub pr x y log2 mask = .ok z ∧
      ∀ k < 2 ^ (6 - log2), lane (2 ^ log2) z k = lane (2 ^ log2) x k - lane (2 ^ log2) y k := by
  obtain ⟨d, hd, hlanes⟩ := guarded_sub_ok pr h x y
  refine ⟨_, by rw [blocksFieldsSub, hd, ok_bind]; rfl, fun k hk => ?_⟩
  have hle := h.block_le hk
  rw [lane_not _ hle, lane_xor, lane_or, lane_xor, lane_not _ hle, h.lane_msbs hk, hlanes k hk,
    sub_of_guarded (two_pow_pos log2)]

theorem blocksFieldsGeqLsbs_ok (x y : BitmapWord) :
    ∃ z, blocksFieldsGeqLsbs pr x y log2 mask = .ok z ∧
      SelectsBlocks log2 z
        (fun k => (lane (2 ^ log2) y k).toNat ≤ (lane (2 ^ log2) x k).toNat) := by
  have hpos := two_pow_pos log2
  obtain ⟨d, hd, hlanes⟩ := guarded_sub_ok pr h x y
  refine ⟨_, by rw [blocksFieldsGeqLsbs, hd, ok_bind]; rfl, h.selectsBlocks fun k hk => ?_⟩
  have hgeq := guarded_geq hpos (lane (2 ^ log2) x k) (lane (2 ^ log2) y k)
  rw [← hlanes k hk, ← lane_not _ (h.block_le hk), ← lane_and, ← lane_or, ← lane_or, ← lane_and,
    getLsbD_lane, decide_eq_true (sub_lt hpos one_pos), Bool.true_and] at hgeq
  rw [getLsbD_ushiftRight, add_comm, hgeq, decide_eq_true_eq]

end

end Fields

end CocoonFs.BitmapWords
