import CocoonFs.Checked
import CocoonFs.IoSteps
import Mathlib.Tactic.Ring

namespace CocoonFs.IoRegion

open Checked IoSteps Nat
open Yields (bind liftExcept pure)

inductive ChunkedIoRegionError where
  | chunkSizeOverflow
  | invalidBounds
  | chunkIndexOverflow
  | regionUnaligned
  deriving DecidableEq, Repr

/-- Mapping between the equally sized chunks of a request and a contiguous range of
physical storage. The indices are 64 bits wide, as are positions on storage. -/
structure ChunkedIoRegion where
  physicalBegin128b : Nat
  physicalEnd128b : Nat
  chunkSize128bLog2 : Nat
  chunkIndexOffset : Nat
  deriving DecidableEq, Repr

def isAlignedPow2 (value pow2Log2 : Nat) : Bool := value % 2 ^ pow2Log2 == 0

def roundDownPow2 (value pow2Log2 : Nat) : Nat := value / 2 ^ pow2Log2 * 2 ^ pow2Log2

def roundUpPow2 (value pow2Log2 : Nat) : Option Nat :=
  if value + (2 ^ pow2Log2 - 1) < 2 ^ 64 then
    some ((value + (2 ^ pow2Log2 - 1)) / 2 ^ pow2Log2 * 2 ^ pow2Log2)
  else none

def new (physicalBegin128b physicalEnd128b chunkSize128bLog2 : Nat) :
    Except ChunkedIoRegionError ChunkedIoRegion :=
  if 64 - 7 ≤ chunkSize128bLog2 ∨ 64 ≤ chunkSize128bLog2 then .error .chunkSizeOverflow
  else if physicalEnd128b < physicalBegin128b then .error .invalidBounds
  else if 2 ^ 64 ≤ (physicalEnd128b - physicalBegin128b) / 2 ^ chunkSize128bLog2 then
    .error .chunkIndexOverflow
  else if ¬isAlignedPow2 (physicalEnd128b - physicalBegin128b) chunkSize128bLog2 then
    .error .regionUnaligned
  else .ok ⟨physicalBegin128b, physicalEnd128b, chunkSize128bLog2, 0⟩

def isAligned (region : ChunkedIoRegion) (alignment128bLog2 : Nat) : Bool :=
  if 64 ≤ alignment128bLog2 then false
  else isAlignedPow2 region.physicalBegin128b alignment128bLog2 &&
    isAlignedPow2 region.physicalEnd128b alignment128bLog2

def chunksCount (region : ChunkedIoRegion) : Nat :=
  (region.physicalEnd128b - region.physicalBegin128b) / 2 ^ region.chunkSize128bLog2

def alignedBody (region : ChunkedIoRegion) (alignment128bLog2 : Nat) : Option (Nat × Nat) :=
  if 64 ≤ alignment128bLog2 then none
  else
    let alignedPhysicalEnd128b := roundDownPow2 region.physicalEnd128b alignment128bLog2
    let alignedPhysicalBegin128b :=
      (roundUpPow2 region.physicalBegin128b alignment128bLog2).getD alignedPhysicalEnd128b
    if alignedPhysicalEnd128b ≤ alignedPhysicalBegin128b then none
    else some (alignedPhysicalBegin128b, alignedPhysicalEnd128b)

def alignTo (region : ChunkedIoRegion) (alignment128bLog2 : Nat) :
    ChunkedIoRegion × Option (ChunkedIoRegion × ChunkedIoRegion) :=
  match alignedBody region alignment128bLog2 with
  | none => (region, none)
  | some (alignedPhysicalBegin128b, alignedPhysicalEnd128b) =>
    let unalignedHead : ChunkedIoRegion :=
      { region with physicalEnd128b := alignedPhysicalBegin128b }
    let aligned : ChunkedIoRegion :=
      { region with
        physicalBegin128b := alignedPhysicalBegin128b
        physicalEnd128b := alignedPhysicalEnd128b
        chunkIndexOffset := region.chunkIndexOffset + chunksCount unalignedHead }
    let unalignedTail : ChunkedIoRegion :=
      { region with
        physicalBegin128b := alignedPhysicalEnd128b
        chunkIndexOffset := aligned.chunkIndexOffset + chunksCount aligned }
    (unalignedHead, some (aligned, unalignedTail))

structure ChunkRange where
  chunk : Nat
  rangeBegin : Nat
  rangeEnd : Nat
  deriving DecidableEq, Repr

/-- The second-level iterator, over the chunk ranges of one block. -/
structure BlockChunksIter where
  region : ChunkedIoRegion
  blockSize128bLog2 : Nat
  physicalPos128b : Option Nat

def addChecked (a b : Nat) : Except Panic Nat :=
  if a + b < 2 ^ 64 then .ok (a + b) else .error .overflow

def check (p : Panic) (c : Prop) [Decidable c] : Except Panic Unit :=
  if c then .ok () else .error p

def BlockChunksIter.next (it : BlockChunksIter) :
    Except Panic (Option ((Nat × ChunkRange) × BlockChunksIter)) :=
  match it.physicalPos128b with
  | none => .ok none
  | some cur => do
    let chunkSizeLog2 := it.region.chunkSize128bLog2
    let rangeSize128b := 2 ^ min it.blockSize128bLog2 chunkSizeLog2
    check .debugAssert (it.blockSize128bLog2 < 64)
    let nextPos ← addChecked cur rangeSize128b
    let physicalPos128b :=
      if nextPos % 2 ^ it.blockSize128bLog2 ≠ 0 then some nextPos else none
    let offsetInBlock128b := cur % 2 ^ it.blockSize128bLog2
    check .overflow (it.region.physicalBegin128b ≤ cur)
    let chunkIndex ← addChecked ((cur - it.region.physicalBegin128b) / 2 ^ chunkSizeLog2)
      it.region.chunkIndexOffset
    let rangeBegin128b := (cur - it.region.physicalBegin128b) % 2 ^ chunkSizeLog2
    let rangeEnd128b := rangeBegin128b + rangeSize128b
    check .debugAssert (rangeEnd128b ≤ 2 ^ chunkSizeLog2)
    .ok (some ((offsetInBlock128b, ⟨chunkIndex, rangeBegin128b * 2 ^ 7, rangeEnd128b * 2 ^ 7⟩),
      { it with physicalPos128b := physicalPos128b }))

structure BlocksIter where
  region : ChunkedIoRegion
  blockSize128bLog2 : Nat
  physicalPos128b : Nat

def alignedBlocksIter (region : ChunkedIoRegion) (blockSize128bLog2 : Nat) :
    Except ChunkedIoRegionError BlocksIter :=
  if ¬isAligned region blockSize128bLog2 then .error .regionUnaligned
  else .ok ⟨region, blockSize128bLog2, region.physicalBegin128b⟩

def BlocksIter.next (it : BlocksIter) :
    Except Panic (Option ((Nat × BlockChunksIter) × BlocksIter)) :=
  if it.physicalPos128b = it.region.physicalEnd128b then .ok none
  else do
    let nextPos ← addChecked it.physicalPos128b (2 ^ it.blockSize128bLog2)
    .ok (some ((it.physicalPos128b / 2 ^ it.blockSize128bLog2,
        ⟨it.region, it.blockSize128bLog2, some it.physicalPos128b⟩),
      { it with physicalPos128b := nextPos }))

variable {E σ : Type}

def forChunks (body : Nat → ChunkRange → IoM Panic E σ Unit) :
    Nat → BlockChunksIter → IoM Panic E σ Unit
  | 0, _ => panic .outOfFuel
  | n + 1, it => do
    match ← liftExcept it.next with
    | none => pure ()
    | some ((offsetInBlock128b, chunkRange), it) =>
      body offsetInBlock128b chunkRange
      forChunks body n it

def forBlocks (body : Nat → Nat → ChunkRange → IoM Panic E σ Unit) :
    Nat → BlocksIter → IoM Panic E σ Unit
  | 0, _ => panic .outOfFuel
  | n + 1, it => do
    match ← liftExcept it.next with
    | none => pure ()
    | some ((physicalBlockIndex, blockChunks), it) =>
      forChunks (body physicalBlockIndex) (2 ^ blockChunks.blockSize128bLog2 + 1) blockChunks
      forBlocks body n it

/-- The part of its chunk that stands at a position of the region's storage. -/
def chunkRangeAt (region : ChunkedIoRegion) (rangeSize128b pos : Nat) : ChunkRange :=
  { chunk := (pos - region.physicalBegin128b) / 2 ^ region.chunkSize128bLog2 +
      region.chunkIndexOffset
    rangeBegin := (pos - region.physicalBegin128b) % 2 ^ region.chunkSize128bLog2 * 2 ^ 7
    rangeEnd := ((pos - region.physicalBegin128b) % 2 ^ region.chunkSize128bLog2 +
      rangeSize128b) * 2 ^ 7 }

structure Walkable (region : ChunkedIoRegion) (blockSize128bLog2 : Nat) : Prop where
  blockSize : blockSize128bLog2 < 64
  ordered : region.physicalBegin128b ≤ region.physicalEnd128b
  begin_dvd : 2 ^ blockSize128bLog2 ∣ region.physicalBegin128b
  end_dvd : 2 ^ blockSize128bLog2 ∣ region.physicalEnd128b
  end_lt : region.physicalEnd128b < 2 ^ 64
  chunks_lt : chunksCount region + region.chunkIndexOffset < 2 ^ 64

variable {region : ChunkedIoRegion} {blockSize128bLog2 : Nat}

theorem Walkable.isAligned
    (h : Walkable region blockSize128bLog2) : isAligned region blockSize128bLog2 = true := by
  have hb := mod_eq_zero_of_dvd h.begin_dvd
  have he := mod_eq_zero_of_dvd h.end_dvd
  simp [IoRegion.isAligned, isAlignedPow2, hb, he, not_le.mpr h.blockSize]

theorem alignedBlocksIter_eq (h : Walkable region blockSize128bLog2) :
    alignedBlocksIter region blockSize128bLog2 =
      .ok ⟨region, blockSize128bLog2, region.physicalBegin128b⟩ := by
  rw [alignedBlocksIter, if_neg (by simp [h.isAligned])]

theorem mod_add_le_of_dvd {a d n : Nat} (hd : d ∣ n) (ha : d ∣ a) (hn : 0 < n) :
    a % n + d ≤ n := by
  have hmod : d ∣ a % n := (dvd_mod_iff hd).mpr ha
  have hlt := mod_lt a hn
  obtain ⟨k, rfl⟩ := hd
  obtain ⟨j, hj⟩ := hmod
  have hjk : j < k := by
    rw [hj] at hlt
    exact Nat.lt_of_mul_lt_mul_left hlt
  calc a % (d * k) + d = d * (j + 1) := by rw [hj, mul_succ]
    _ ≤ d * k := Nat.mul_le_mul_left d hjk

theorem mod_add_ne_zero {pos d n : Nat} (hd : d ∣ n) (hpos : d ∣ pos) (hlt : pos % n + d ≠ n)
    (hd0 : 0 < d) (hn : 0 < n) : (pos + d) % n ≠ 0 := by
  have hle := mod_add_le_of_dvd hd hpos hn
  have hmod : (pos + d) % n = pos % n + d := by
    rw [← mod_add_mod]
    exact mod_eq_of_lt (Nat.lt_of_le_of_ne hle hlt)
  omega

section Walk

variable {E σ : Type} {region : ChunkedIoRegion} {blockSize128bLog2 : Nat}

theorem BlockChunksIter.next_eq (h : Walkable region blockSize128bLog2) {m pos : Nat}
    (hm : m = min blockSize128bLog2 region.chunkSize128bLog2)
    (hge : region.physicalBegin128b ≤ pos) (hlt : pos + 2 ^ m ≤ region.physicalEnd128b)
    (hdvd : 2 ^ m ∣ pos) :
    BlockChunksIter.next ⟨region, blockSize128bLog2, some pos⟩ =
      .ok (some ((pos % 2 ^ blockSize128bLog2, chunkRangeAt region (2 ^ m) pos),
        ⟨region, blockSize128bLog2,
          if (pos + 2 ^ m) % 2 ^ blockSize128bLog2 ≠ 0 then some (pos + 2 ^ m) else none⟩)) := by
  have hmB : 2 ^ m ∣ 2 ^ blockSize128bLog2 :=
    pow_dvd_pow 2 (hm ▸ min_le_left _ _)
  have hmc : 2 ^ m ∣ 2 ^ region.chunkSize128bLog2 :=
    pow_dvd_pow 2 (hm ▸ min_le_right _ _)
  have hbegin : 2 ^ m ∣ region.physicalBegin128b := hmB.trans h.begin_dvd
  have hrange := mod_add_le_of_dvd hmc (Nat.dvd_sub hdvd hbegin)
    (Nat.pow_pos (n := region.chunkSize128bLog2) two_pos)
  have hindex : (pos - region.physicalBegin128b) / 2 ^ region.chunkSize128bLog2 +
      region.chunkIndexOffset < 2 ^ 64 := by
    have := Nat.div_le_div_right (c := 2 ^ region.chunkSize128bLog2)
      (show pos - region.physicalBegin128b ≤ region.physicalEnd128b - region.physicalBegin128b by
        omega)
    exact lt_of_le_of_lt (Nat.add_le_add_right this _) h.chunks_lt
  have hnext : pos + 2 ^ m < 2 ^ 64 := lt_of_le_of_lt hlt h.end_lt
  simp only [BlockChunksIter.next, ← hm, check, addChecked, h.blockSize, hnext, hge, hindex,
    hrange, if_true, chunkRangeAt]
  rfl

variable {I : Nat → σ → Prop} {m : Nat}

theorem forChunks_yields (h : Walkable region blockSize128bLog2)
    (hm : m = min blockSize128bLog2 region.chunkSize128bLog2)
    (body : Nat → ChunkRange → IoM Panic E σ Unit) (k : Nat)
    (hbody : ∀ pos s, region.physicalBegin128b ≤ pos → pos + 2 ^ m ≤ region.physicalEnd128b →
      2 ^ m ∣ pos → pos / 2 ^ blockSize128bLog2 = k → I pos s →
      ∃ s', Yields (body (pos % 2 ^ blockSize128bLog2) (chunkRangeAt region (2 ^ m) pos)) s () s' ∧
        I (pos + 2 ^ m) s')
    (j fuel pos : Nat) (hfuel : j + 1 < fuel) (hge : region.physicalBegin128b ≤ pos)
    (hend : (k + 1) * 2 ^ blockSize128bLog2 ≤ region.physicalEnd128b)
    (hdvd : 2 ^ m ∣ pos) (hk : pos / 2 ^ blockSize128bLog2 = k)
    (hj : pos % 2 ^ blockSize128bLog2 + (j + 1) * 2 ^ m = 2 ^ blockSize128bLog2)
    (s : σ) (hI : I pos s) :
    ∃ s', Yields (forChunks body fuel ⟨region, blockSize128bLog2, some pos⟩) s () s' ∧
      I ((k + 1) * 2 ^ blockSize128bLog2) s' := by
  have hB : 0 < 2 ^ blockSize128bLog2 := Nat.pow_pos two_pos
  have hmpos : 0 < 2 ^ m := Nat.pow_pos two_pos
  have hmB : 2 ^ m ∣ 2 ^ blockSize128bLog2 := pow_dvd_pow 2 (hm ▸ min_le_left _ _)
  induction j generalizing fuel pos s with
  | zero =>
    obtain ⟨fuel, rfl⟩ : ∃ n, fuel = n + 2 := ⟨fuel - 2, by omega⟩
    have hpos : pos + 2 ^ m = (k + 1) * 2 ^ blockSize128bLog2 := by
      have := div_add_mod pos (2 ^ blockSize128bLog2)
      rw [hk] at this
      rw [succ_mul, mul_comm k]
      omega
    obtain ⟨s', hs', hI'⟩ := hbody pos s hge (by omega) hdvd hk hI
    refine ⟨s', ?_, hpos ▸ hI'⟩
    refine bind (liftExcept (BlockChunksIter.next_eq h hm hge (by omega) hdvd) s) ?_
    refine bind hs' ?_
    rw [if_neg (by rw [hpos, mul_mod_left]; exact not_not.mpr rfl)]
    exact bind (liftExcept rfl s') (pure () s')
  | succ j ih =>
    obtain ⟨fuel, rfl⟩ : ∃ n, fuel = n + 1 := ⟨fuel - 1, by omega⟩
    have hsplit : (j + 1 + 1) * 2 ^ m = 2 ^ m + (j + 1) * 2 ^ m := by ring
    have hjpos : 0 < (j + 1) * 2 ^ m := mul_pos (succ_pos j) hmpos
    have hne : pos % 2 ^ blockSize128bLog2 + 2 ^ m ≠ 2 ^ blockSize128bLog2 := by omega
    have hmod : (pos + 2 ^ m) % 2 ^ blockSize128bLog2 =
        pos % 2 ^ blockSize128bLog2 + 2 ^ m := by
      rw [add_mod, mod_eq_of_lt (show 2 ^ m < 2 ^ blockSize128bLog2 by omega)]
      exact mod_eq_of_lt (by omega)
    have hdiv : (pos + 2 ^ m) / 2 ^ blockSize128bLog2 = k := by
      have hold := div_add_mod pos (2 ^ blockSize128bLog2)
      rw [hk] at hold
      rw [Nat.div_eq_iff hB]
      rw [mul_comm] at hold
      omega
    have hroom : pos + 2 ^ m ≤ region.physicalEnd128b := by
      have hlt := (Nat.div_lt_iff_lt_mul hB).mp (lt_succ_of_le (le_of_eq hdiv))
      exact le_trans (le_of_lt hlt) hend
    obtain ⟨s', hs', hI'⟩ := hbody pos s hge hroom hdvd hk hI
    obtain ⟨s'', hs'', hI''⟩ := ih fuel (pos + 2 ^ m) (by omega) (by omega)
      (Nat.dvd_add hdvd (dvd_refl _)) hdiv (by rw [hmod]; omega) s' hI'
    refine ⟨s'', ?_, hI''⟩
    refine bind (liftExcept (BlockChunksIter.next_eq h hm hge hroom hdvd) s) ?_
    refine bind hs' ?_
    rw [if_pos (mod_add_ne_zero hmB hdvd hne hmpos hB)]
    exact hs''

variable (h : Walkable region blockSize128bLog2)
  (hm : m = min blockSize128bLog2 region.chunkSize128bLog2)
  (body : Nat → Nat → ChunkRange → IoM Panic E σ Unit)
  (hbody : ∀ pos s, region.physicalBegin128b ≤ pos → pos + 2 ^ m ≤ region.physicalEnd128b →
    2 ^ m ∣ pos → I pos s →
    ∃ s', Yields (body (pos / 2 ^ blockSize128bLog2) (pos % 2 ^ blockSize128bLog2)
      (chunkRangeAt region (2 ^ m) pos)) s () s' ∧ I (pos + 2 ^ m) s')
include h hm hbody

theorem forBlocks_from (n fuel pos : Nat) (hfuel : n < fuel) (hge : region.physicalBegin128b ≤ pos)
    (hdvd : 2 ^ blockSize128bLog2 ∣ pos)
    (hn : pos + n * 2 ^ blockSize128bLog2 = region.physicalEnd128b) (s : σ) (hI : I pos s) :
    ∃ s', Yields (forBlocks body fuel ⟨region, blockSize128bLog2, pos⟩) s () s' ∧
      I region.physicalEnd128b s' := by
  have hB : 0 < 2 ^ blockSize128bLog2 := Nat.pow_pos two_pos
  induction n generalizing fuel pos s with
  | zero =>
    obtain ⟨fuel, rfl⟩ : ∃ n, fuel = n + 1 := ⟨fuel - 1, by omega⟩
    obtain rfl : pos = region.physicalEnd128b := by omega
    refine ⟨s, bind (liftExcept (a := none) ?_ s) (pure () s), hI⟩
    exact if_pos rfl
  | succ n ih =>
    obtain ⟨fuel, rfl⟩ : ∃ n, fuel = n + 1 := ⟨fuel - 1, by omega⟩
    rw [succ_mul] at hn
    have hnext : BlocksIter.next ⟨region, blockSize128bLog2, pos⟩ =
        .ok (some ((pos / 2 ^ blockSize128bLog2, ⟨region, blockSize128bLog2, some pos⟩),
          ⟨region, blockSize128bLog2, pos + 2 ^ blockSize128bLog2⟩)) := by
      have hlt := h.end_lt
      rw [BlocksIter.next, if_neg (show ¬pos = region.physicalEnd128b by omega)]
      simp only [addChecked, if_pos (show pos + 2 ^ blockSize128bLog2 < 2 ^ 64 by omega)]
      rfl
    have hmB : 2 ^ m ∣ 2 ^ blockSize128bLog2 := pow_dvd_pow 2 (hm ▸ min_le_left _ _)
    have hmod := mod_eq_zero_of_dvd hdvd
    have hdiv := Nat.div_mul_cancel hdvd
    have hsucc : (pos / 2 ^ blockSize128bLog2 + 1) * 2 ^ blockSize128bLog2 =
        pos + 2 ^ blockSize128bLog2 := by rw [succ_mul, hdiv]
    have hcount : (2 ^ blockSize128bLog2 / 2 ^ m - 1 + 1) * 2 ^ m = 2 ^ blockSize128bLog2 := by
      have : 0 < 2 ^ blockSize128bLog2 / 2 ^ m :=
        Nat.div_pos (le_of_dvd hB hmB) (Nat.pow_pos two_pos)
      rw [Nat.sub_add_cancel this, Nat.div_mul_cancel hmB]
    obtain ⟨s', hs', hI'⟩ := forChunks_yields h hm (body (pos / 2 ^ blockSize128bLog2))
      (pos / 2 ^ blockSize128bLog2)
      (fun q s hq hroom hqdvd hqk hIq => hqk ▸ hbody q s hq hroom hqdvd hIq)
      (2 ^ blockSize128bLog2 / 2 ^ m - 1) (2 ^ blockSize128bLog2 + 1) pos
      (by have := Nat.div_le_self (2 ^ blockSize128bLog2) (2 ^ m); omega)
      hge (by omega) (hmB.trans hdvd) rfl (by rw [hmod, hcount, zero_add]) s hI
    rw [hsucc] at hI'
    obtain ⟨s'', hs'', hI''⟩ := ih fuel (pos + 2 ^ blockSize128bLog2) (by omega) (by omega)
      (Nat.dvd_add hdvd (Nat.dvd_refl _)) (by omega) s' hI'
    exact ⟨s'', bind (liftExcept hnext s) (bind hs' hs''), hI''⟩

/-- What holds at a position and is carried over each chunk range holds in the end. -/
theorem forBlocks_yields (s : σ) (hI : I region.physicalBegin128b s) :
    ∃ s', Yields (forBlocks body (region.physicalEnd128b - region.physicalBegin128b + 1)
        ⟨region, blockSize128bLog2, region.physicalBegin128b⟩) s () s' ∧
      I region.physicalEnd128b s' := by
  have hlen := Nat.div_mul_cancel (Nat.dvd_sub h.end_dvd h.begin_dvd)
  have hle := Nat.div_le_self (region.physicalEnd128b - region.physicalBegin128b)
    (2 ^ blockSize128bLog2)
  have hord := h.ordered
  refine forBlocks_from h hm body hbody
    ((region.physicalEnd128b - region.physicalBegin128b) / 2 ^ blockSize128bLog2) _ _ (by omega)
    (le_refl _) h.begin_dvd (by omega) s hI

end Walk

end CocoonFs.IoRegion
