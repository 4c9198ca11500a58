import CocoonFs.MaxstrMaximum
import CocoonFs.SubwordChunkSafety

namespace CocoonFs.SubwordChunkAsserts

open Bitmap BitmapWordIters BitmapWords Checked Extents FindFreeSubwordChunk FreeChunks IoRegion List BitVec
  Lanes MaxstrLens SubwordChunkSafety
open FindFreeBlock (Outcome)
open CacheSet (subU32)
open TreeShape (significantBits)
open BitVec (getLsbD_not ofNat)
open CacheRows (shr_ok subU32_ok)

/-- No assertion fails, and nothing that is assumed to be unreachable is reached. -/
def AssertsHold (b : SearchedBitmap) (req : ChunkRequest) : Prop :=
  findFreeSubwordChunk .debug b req ≠ panic .debugAssert ∧
    findFreeSubwordChunk .debug b req ≠ panic .unreachable

/-- No assertion fails in a computation, although it might overflow. -/
def Settles {α : Type} (x : Comp α) (p : α → Prop) : Prop :=
  (∃ r, x = .ok r ∧ p r) ∨ x = panic .overflow

theorem Settles.bind {α β : Type} {x : Comp α} {f : α → Comp β} {p : α → Prop} {q : β → Prop}
    (h : Settles x p) (hf : ∀ r, p r → Settles (f r) q) : Settles (x >>= f) q := by
  rcases h with ⟨r, rfl, hr⟩ | rfl
  · exact hf r hr
  · exact .inr rfl

/-- The blocks of a word that are not free have no string longer than the chunk, and none
of the strings' lengths is off. -/
def TightWord (req : ChunkRequest) (log2 : Nat) (w : BitmapWord) : Prop :=
  ∀ k < 2 ^ (6 - log2), (req.chunkAlignmentAllocationBlocksLog2 = 0 → ¬ Disturbed (~~~w) log2 k) ∧
    (blockMaxstrLen (~~~w) log2 req.chunkAlignmentAllocationBlocksLog2 k ≤ req.chunkAllocationBlocks ∨
      blockMaxstrLen (~~~w) log2 req.chunkAlignmentAllocationBlocksLog2 k = 2 ^ log2)

def Tight (b : SearchedBitmap) (req : ChunkRequest) (log2 : Nat) : Prop :=
  ∀ i < b.imageBitmapWords, TightWord req log2 (b.imageWord i (b.word i))

/-- A chunk one less than a block, with no more than two of these in a word. -/
def AlmostBlock (req : ChunkRequest) (log2 : Nat) : Prop :=
  req.chunkAllocationBlocks + 1 = 2 ^ log2 ∧ req.chunkAlignmentAllocationBlocksLog2 = 0 ∧ 5 ≤ log2

section Lengths

variable {w mask lens : BitmapWord} {log2 a k maxLen : Nat} {req : ChunkRequest}

theorem free_of_blockMaxstrLen (hlen : 2 ^ log2 ≤ blockMaxstrLen (~~~w) log2 a k) {j : Nat}
    (hj : j < 2 ^ log2) : w.getLsbD (2 ^ log2 * k + j) = false := by
  obtain ⟨-, b, -, -, hend, hall⟩ := hasAlignedString_maxstrLen (~~~w) (2 ^ log2 * k) (2 ^ log2) a
  rw [← blockMaxstrLen] at hend hall
  obtain rfl : b = 0 := by omega
  have hbit := hall j (by omega)
  rw [getLsbD_not, Bool.and_eq_true, Bool.not_eq_true'] at hbit
  exact hbit.2

/-- What the lengths found for the blocks of a word are good for. -/
structure LengthsFit (req : ChunkRequest) (log2 : Nat) (w : BitmapWord) (maxLen : Nat)
    (lens : BitmapWord) : Prop where
  string : ∀ k < 2 ^ (6 - log2), req.chunkAllocationBlocks ≤ (lane (2 ^ log2) lens k).toNat →
    (lane (2 ^ log2) lens k).toNat ≤ 2 ^ log2 → (lane (2 ^ log2) lens k).toNat ≤
      blockMaxstrLen (~~~w) log2 req.chunkAlignmentAllocationBlocksLog2 k
  free : maxLen = 2 ^ log2 → ∀ k < 2 ^ (6 - log2),
    blockMaxstrLen (~~~w) log2 req.chunkAlignmentAllocationBlocksLog2 k = 2 ^ log2 →
      (lane (2 ^ log2) lens k).toNat = 2 ^ log2
  tight : ∀ k < 2 ^ (6 - log2), req.chunkAllocationBlocks ≤ (lane (2 ^ log2) lens k).toNat →
    (lane (2 ^ log2) lens k).toNat ≤ 2 ^ log2 → (maxLen = 2 ^ log2 →
      blockMaxstrLen (~~~w) log2 req.chunkAlignmentAllocationBlocksLog2 k ≠ 2 ^ log2) →
      (lane (2 ^ log2) lens k).toNat = req.chunkAllocationBlocks ∧
        (req.chunkAlignmentAllocationBlocksLog2 ≠ 0 → blockMaxstrLen (~~~w) log2
          req.chunkAlignmentAllocationBlocksLog2 k ≤ req.chunkAllocationBlocks)

variable (hfound : ∀ k < 2 ^ (6 - log2), LengthFound (~~~w) log2
    req.chunkAlignmentAllocationBlocksLog2 k (lane (2 ^ log2) lens k).toNat)
  (hle : ∀ k < 2 ^ (6 - log2), (lane (2 ^ log2) lens k).toNat ≤ maxLen)
  (hattained : maxLen ≠ 0 → ∃ k < 2 ^ (6 - log2), (lane (2 ^ log2) lens k).toNat = maxLen)
include hfound hle hattained

theorem TightWord.lengthsFit (h : TightWord req log2 w) : LengthsFit req log2 w maxLen lens := by
  have hexact (k : Nat) (hk : k < 2 ^ (6 - log2)) : (lane (2 ^ log2) lens k).toNat =
      blockMaxstrLen (~~~w) log2 req.chunkAlignmentAllocationBlocksLog2 k := by
    rcases hfound k hk with ⟨heq, -⟩ | ⟨hzero, hdist, -⟩
    · exact heq
    · exact absurd hdist ((h k hk).1 hzero)
  refine ⟨fun k hk _ _ => (hexact k hk).le, fun _ k hk hfree => (hexact k hk).trans hfree,
    fun k hk hge _ hfree => ?_⟩
  have hne : blockMaxstrLen (~~~w) log2 req.chunkAlignmentAllocationBlocksLog2 k ≠ 2 ^ log2 := by
    -- There is no longer string than that of a free block.
    intro heq
    have hmax := hle k hk
    rw [hexact k hk, heq] at hmax
    obtain ⟨m, hm, hlane⟩ := hattained (by omega)
    rw [hexact m hm] at hlane
    have hblock : blockMaxstrLen (~~~w) log2 req.chunkAlignmentAllocationBlocksLog2 m ≤ 2 ^ log2 :=
      maxstrLen_le _ _ _ _
    exact hfree (by omega) heq
  have hshort := (h k hk).2.resolve_right hne
  rw [hexact k hk] at hge ⊢
  exact ⟨by omega, fun _ => hshort⟩

/-- Only the first one of two blocks may be disturbed, and then there is not much in the
second one. -/
theorem AlmostBlock.lengthsFit (h : AlmostBlock req log2) (hlog2 : log2 ≤ 6) :
    LengthsFit req log2 w maxLen lens := by
  obtain ⟨hchunk, hzero, hge⟩ := h
  rw [hzero] at hfound
  have hblock : 2 ^ 5 ≤ 2 ^ log2 := Nat.pow_le_pow_right (by omega) hge
  have htwo : 2 ^ (6 - log2) ≤ 2 ^ 1 := Nat.pow_le_pow_right (by omega) (by omega)
  have hdisturbed (k : Nat) (hk : k < 2 ^ (6 - log2)) (hdist : Disturbed (~~~w) log2 k) :
      k = 0 ∧ ∀ m < 2 ^ (6 - log2), m ≠ 0 → (lane (2 ^ log2) lens m).toNat = 1 ∧
        blockMaxstrLen (~~~w) log2 0 m = 1 := by
    obtain ⟨t, -, hlsb, hone, -⟩ := hdist
    have hnext : 2 ^ log2 * (k + 1) < 64 := lt_of_getLsbD hlsb
    have hk0 : k = 0 := by
      by_contra hne
      have hmul : 2 ^ 5 * 2 ≤ 2 ^ log2 * (k + 1) := Nat.mul_le_mul hblock (by omega)
      omega
    subst hk0
    refine ⟨rfl, fun m hm hne => ?_⟩
    obtain rfl : m = 0 + 1 := by omega
    rcases hfound _ hm with ⟨heq, -⟩ | ⟨-, ⟨t', -, hlsb', -⟩, -⟩
    · exact ⟨heq.trans hone, hone⟩
    · have hnext' : 2 ^ log2 * (0 + 1 + 1) < 64 := lt_of_getLsbD hlsb'
      omega
  have hstring (k : Nat) (hk : k < 2 ^ (6 - log2))
      (hfit : req.chunkAllocationBlocks ≤ (lane (2 ^ log2) lens k).toNat)
      (hfit' : (lane (2 ^ log2) lens k).toNat ≤ 2 ^ log2) :
      (lane (2 ^ log2) lens k).toNat ≤ blockMaxstrLen (~~~w) log2 0 k := by
    rcases hfound k hk with ⟨heq, -⟩ | ⟨-, -, hlt | ⟨-, hbound⟩⟩
    · exact heq.le
    · exact hlt.le
    · omega
  refine ⟨fun k hk hfit hfit' => ?_, fun hmax k hk hfree => ?_, fun k hk hfit hfit' hfree => ?_⟩
  · rw [hzero]
    exact hstring k hk hfit hfit'
  · rw [hzero] at hfree
    rcases hfound k hk with ⟨heq, -⟩ | ⟨-, hdist, -⟩
    · exact heq.trans hfree
    · obtain ⟨rfl, hother⟩ := hdisturbed k hk hdist
      obtain ⟨m, hm, hlane⟩ := hattained (by omega)
      by_cases hm0 : m = 0
      · rw [← hm0, hlane, hmax]
      · have hone := (hother m hm hm0).1
        omega
  · refine ⟨?_, fun hne => absurd hzero hne⟩
    rw [hzero] at hfree
    have hstr := hstring k hk hfit hfit'
    by_contra hne
    have hle' : blockMaxstrLen (~~~w) log2 0 k ≤ 2 ^ log2 := maxstrLen_le _ _ _ _
    have hmax := hle k hk
    -- Some length is more than that of the block.
    obtain ⟨m, hm, hlane⟩ := hattained (by omega)
    have hle'' : blockMaxstrLen (~~~w) log2 0 m ≤ 2 ^ log2 := maxstrLen_le _ _ _ _
    rcases hfound m hm with ⟨heq, -⟩ | ⟨-, hdist, -⟩
    · omega
    · obtain ⟨rfl, hother⟩ := hdisturbed m hm hdist
      by_cases hk0 : k = 0
      · rw [hk0] at hfit'
        omega
      · have hone := (hother k hk hk0).1
        omega

end Lengths
section Search

variable {pr : Profile} {b : SearchedBitmap} {req : ChunkRequest} {blocks : ContainingBlocks}
  {s : ChunkSearch} {i : Nat} {w lens : BitmapWord}

structure FreeCandidate (c : FoundCandidate) : Prop where
  free : ∃ block, c = .freeContainingBlock block ∧ Splittable block.bitmapWord block.splitLog2 ∧
    block.splitLog2 ≤ 6 ∧ (block.splitLog2 = 6 ∨ block.bitmapWord ≠ 0)

/-- What holds before the word `i` is examined. The excess is the worst one still. -/
structure Unimproved (b : SearchedBitmap) (req : ChunkRequest) (log2 i : Nat) (s : ChunkSearch) :
    Prop where
  left : s.allocatedFullwordChunks = req.allocatedFullwordChunks ∨ s.allocatedFullwordChunks = none
  excess : s.bestExcess + req.chunkAllocationBlocks = 2 ^ log2
  excess_lens : ∀ k < 2 ^ (6 - log2), (lane (2 ^ log2) s.maxExcessLen k).toNat = s.bestExcess
  best : ∀ c ∈ s.best, FreeCandidate c
  distance_pos : 0 < s.remainingDistance
  distance : s.best = none → b.imageBitmapWords < s.remainingDistance + i

def OutcomeFits (b : SearchedBitmap) (req : ChunkRequest) (log2 i : Nat) :
    Outcome ChunkSearch → Prop
  | .found _ => True
  | .stop s => ∀ c ∈ s.best, FreeCandidate c
  | .next s => Unimproved b req log2 i s

theorem ilog2_ok {x : BitmapWord} (h : x ≠ 0) : ilog2 x = .ok x.toNat.log2 := by
  rw [ilog2, if_neg h]

theorem Unimproved.armed_pos {log2 : Nat} (h : Unimproved b req log2 i s) : 0 < s.armed := by
  rw [ChunkSearch.armed]
  split
  · exact Nat.succ_pos 15
  · exact h.distance_pos

/-- With nothing to be moved, the excess space's blocks are subtracted from zero. -/
theorem alignedBlocksSet_overflow {pos : Nat} (hpos : 0 < pos) (hlt : pos < 2 ^ 32) :
    alignedBlocksSet .debug pos 0 0 = panic .overflow := by
  have hset : (ofNat 32 pos ||| -ofNat 32 0) + ofNat 32 0 =
      ofNat 32 pos := by
    simp
  have hsub : CacheSet.sub .debug (ofNat 32 0) (ofNat 32 pos) = panic .overflow := by
    rw [CacheSet.sub, CacheSet.fitting.eq_def, if_neg]
    rw [toNat_ofNat, toNat_ofNat, Nat.mod_eq_of_lt hlt]
    omega
  rw [alignedBlocksSet]
  rw [hset, hsub]
  rfl

section Blocks

variable (hblocks : blocks.Valid req)
include hblocks

/-- The longest string begins before the aligned one, if there is an alignment. -/
theorem maxstrBegin_ok (pr : Profile) {k alignedBegin : Nat} (hk : k < 2 ^ (6 - blocks.log2))
    (hbegin : alignedBegin + req.chunkAllocationBlocks ≤ 2 ^ blocks.log2)
    (hmod : (alignedBegin + req.chunkAllocationBlocks) % 2 ^ req.chunkAlignmentAllocationBlocksLog2 = 0)
    (hstr : IsString (~~~w) (2 ^ blocks.log2 * k + alignedBegin) req.chunkAllocationBlocks)
    (hlen : req.chunkAlignmentAllocationBlocksLog2 ≠ 0 → blockMaxstrLen (~~~w) blocks.log2
      req.chunkAlignmentAllocationBlocksLog2 k ≤ req.chunkAllocationBlocks) :
    ∃ strBegin ≤ alignedBegin, maxstrBegin pr req.chunkAlignmentAllocationBlocksLog2
      (2 ^ blocks.log2 * k) alignedBegin w = .ok strBegin ∧
        (req.chunkAlignmentAllocationBlocksLog2 = 0 → strBegin = alignedBegin) := by
  have hblock := hblocks.lsbs.block_le hk
  rw [maxstrBegin]
  split
  · exact ⟨alignedBegin, le_refl _, rfl, fun _ => rfl⟩
  · rename_i hne
    have hbits (q : Nat) : (w >>> (2 ^ blocks.log2 * k) &&& trailingBitsMask alignedBegin).getLsbD q =
        (decide (q < alignedBegin) && w.getLsbD (2 ^ blocks.log2 * k + q)) :=
      getLsbD_masked (by omega) w _ q
    dsimp only
    split
    · rename_i hhead
      obtain ⟨hset, -⟩ := ilog2_of_ok (ilog2_ok hhead)
      rw [ilog2_ok hhead, ok_bind]
      rw [hbits, Bool.and_eq_true, decide_eq_true_eq] at hset
      exact ⟨_, hset.1, rfl, fun hzero => absurd hzero hne⟩
    · rename_i hhead
      have hzero : alignedBegin = 0 := by
        -- The string would be longer if it did not begin with the block.
        have hrun : HasAlignedString (~~~w) (2 ^ blocks.log2 * k) (2 ^ blocks.log2)
            req.chunkAlignmentAllocationBlocksLog2 (alignedBegin + req.chunkAllocationBlocks) := by
          refine ⟨hmod, 0, Nat.succ_pos _, Nat.zero_mod _, by omega, fun j hj => ?_⟩
          rcases lt_or_ge j alignedBegin with hlt | hge
          · have hbit := hbits j
            rw [not_not.mp hhead, show (0 : BitmapWord).getLsbD j = false from getLsbD_zero,
              decide_eq_true hlt, Bool.true_and] at hbit
            rw [getLsbD_not, add_zero, ← hbit, Bool.not_false, Bool.and_true,
              decide_eq_true_eq]
            omega
          · have hbit := hstr (j - alignedBegin) (by omega)
            rwa [show 2 ^ blocks.log2 * k + alignedBegin + (j - alignedBegin) =
              2 ^ blocks.log2 * k + 0 + j by omega] at hbit
        have hmax := le_trans ((hasAlignedString_iff hmod).mp hrun) (hlen hne)
        omega
      rw [debugAssert_ok pr hzero, ok_bind]
      exact ⟨alignedBegin, le_refl _, rfl, fun _ => rfl⟩

variable {m : Nat}

/-- A string of just the chunk's length is a perfect fit, unless it is longer with the
alignment left aside. -/
theorem examineCandidate_settles {k : Nat} (hs : Unimproved b req blocks.log2 m s)
    (hk : k < 2 ^ (6 - blocks.log2))
    (hlane : (lane (2 ^ blocks.log2) lens k).toNat = req.chunkAllocationBlocks)
    (hlen : req.chunkAllocationBlocks ≤
      blockMaxstrLen (~~~w) blocks.log2 req.chunkAlignmentAllocationBlocksLog2 k)
    (hlen' : req.chunkAlignmentAllocationBlocksLog2 ≠ 0 → blockMaxstrLen (~~~w) blocks.log2
      req.chunkAlignmentAllocationBlocksLog2 k ≤ req.chunkAllocationBlocks) :
    Settles (examineCandidate .debug req blocks i w lens (stringEnds (blocks.log2 - 1) 0 (~~~w))
      (2 ^ blocks.log2 * k) s) (OutcomeFits b req blocks.log2 m) := by
  have hlog2 := hblocks.lsbs.log2_le
  have hblock := hblocks.lsbs.block_le hk
  have hhalf := hblocks.half_lt
  have hchunk := hblocks.chunk_lt
  have hpos := hblocks.chunk_pos
  have hlong : 2 ^ blocks.log2 < 2 * blockMaxstrLen (~~~w) blocks.log2
      req.chunkAlignmentAllocationBlocksLog2 k := by omega
  have hends : stringEnds (blocks.log2 - 1) 0 (~~~w) >>> (2 ^ blocks.log2 * k) &&&
      trailingBitsMask (2 ^ blocks.log2) ≠ 0 := by
    obtain ⟨-, strBegin, -, -, hend, hall⟩ := hasAlignedString_maxstrLen (~~~w) (2 ^ blocks.log2 * k)
      (2 ^ blocks.log2) req.chunkAlignmentAllocationBlocksLog2
    rw [← blockMaxstrLen] at hend hall
    exact ne_zero_of_bit ((getLsbD_blockEnds hblocks.lsbs hk (by omega)).mpr
      (endsString_of_string hblocks.pos hlong hall))
  have hlast := ilog2_ok hends
  rw [examineCandidate]
  dsimp only
  rw [toNat_field lens hlog2 k, hlane, Nat.mod_eq_of_lt (show _ < 2 ^ 32 by omega),
    debugAssert_ok .debug hchunk, ok_bind, debugAssert_ok .debug (le_refl _), ok_bind,
    debugAssert_ok .debug hends, ok_bind, hlast, ok_bind]
  generalize (stringEnds (blocks.log2 - 1) 0 (~~~w) >>> (2 ^ blocks.log2 * k) &&&
    trailingBitsMask (2 ^ blocks.log2)).toNat.log2 = last at hlast ⊢
  obtain ⟨hlt, hle, hall⟩ := longest_string hblocks.lsbs hblocks.pos hk hlong hlast
  have hdown : roundDownPow2 (last + 1) req.chunkAlignmentAllocationBlocksLog2 ≤ last + 1 :=
    Nat.div_mul_le_self _ _
  have hround : req.chunkAlignmentAllocationBlocksLog2 = 0 →
      roundDownPow2 (last + 1) req.chunkAlignmentAllocationBlocksLog2 = last + 1 := by
    intro hzero
    rw [hzero, roundDownPow2, pow_zero, Nat.div_one, mul_one]
  have hmod : roundDownPow2 (last + 1) req.chunkAlignmentAllocationBlocksLog2 %
      2 ^ req.chunkAlignmentAllocationBlocksLog2 = 0 := Nat.mul_mod_left _ _
  generalize roundDownPow2 (last + 1) req.chunkAlignmentAllocationBlocksLog2 = strEnd
    at hle hall hdown hround hmod ⊢
  have hstr : IsString (~~~w) (2 ^ blocks.log2 * k + (strEnd - req.chunkAllocationBlocks))
      req.chunkAllocationBlocks := by
    intro j hj
    have hbit := hall (blockMaxstrLen (~~~w) blocks.log2 req.chunkAlignmentAllocationBlocksLog2 k -
      req.chunkAllocationBlocks + j) (by omega)
    rwa [show 2 ^ blocks.log2 * k + (strEnd - blockMaxstrLen (~~~w) blocks.log2
      req.chunkAlignmentAllocationBlocksLog2 k) + (blockMaxstrLen (~~~w) blocks.log2
      req.chunkAlignmentAllocationBlocksLog2 k - req.chunkAllocationBlocks + j) =
      2 ^ blocks.log2 * k + (strEnd - req.chunkAllocationBlocks) + j by omega] at hbit
  obtain ⟨strBegin, hbeginLe, hbegin, hbegin'⟩ := maxstrBegin_ok hblocks .debug hk (by omega)
    (by rwa [Nat.sub_add_cancel (by omega)]) hstr hlen'
  rw [debugAssert_ok .debug (show req.chunkAllocationBlocks ≤ last + 1 by omega), ok_bind,
    subU32_ok .debug (show req.chunkAllocationBlocks ≤ strEnd by omega) (by omega), ok_bind,
    hbegin, ok_bind, subU32_ok .debug (show strBegin ≤ last + 1 by omega) (by omega), ok_bind,
    subU32_ok .debug (by omega) (by omega), ok_bind]
  split
  · exact .inl ⟨_, rfl, hs⟩
  · split
    · exact .inl ⟨_, rfl, trivial⟩
    · rename_i hexcess
      right
      rw [subU32_ok .debug hbeginLe (by omega), ok_bind,
        subU32_ok .debug hdown (by omega), ok_bind,
        subU32_ok .debug (le_refl _) (by omega), ok_bind, Nat.sub_self,
        debugAssert_ok .debug (by omega), ok_bind]
      rw [show nextPowerOfTwo (0 + 1) / 2 = 0 by decide]
      rcases Nat.eq_zero_or_pos (strEnd - req.chunkAllocationBlocks) with hzero | hbeginPos
      · rw [hzero, show alignedBlocksSet .debug 0 0 0 = .ok 0 by decide, ok_bind, addU32,
          CacheSet.fitting.eq_def, if_pos (by omega), ok_bind, zero_add,
          Nat.mod_eq_of_lt (show req.chunkAllocationBlocks < 2 ^ 32 by omega),
          alignedBlocksSet_overflow hpos (by omega)]
        rfl
      · rw [alignedBlocksSet_overflow hbeginPos (by omega)]
        rfl

theorem candidatesLoop_settles (hs : Unimproved b req blocks.log2 m s) (fuel : Nat)
    {blockBegin : Nat} {candidatesLsbs : BitmapWord} (hfuel : 64 < blockBegin + fuel)
    (hbegin : blockBegin ≤ 64)
    (hcands : ∀ p, candidatesLsbs.getLsbD p = true → ∃ k < 2 ^ (6 - blocks.log2),
      blockBegin + p = 2 ^ blocks.log2 * k ∧
        (lane (2 ^ blocks.log2) lens k).toNat = req.chunkAllocationBlocks ∧
        req.chunkAllocationBlocks ≤
          blockMaxstrLen (~~~w) blocks.log2 req.chunkAlignmentAllocationBlocksLog2 k ∧
        (req.chunkAlignmentAllocationBlocksLog2 ≠ 0 → blockMaxstrLen (~~~w) blocks.log2
          req.chunkAlignmentAllocationBlocksLog2 k ≤ req.chunkAllocationBlocks)) :
    Settles (candidatesLoop .debug req blocks i w lens (stringEnds (blocks.log2 - 1) 0 (~~~w)) fuel
      blockBegin candidatesLsbs s) (OutcomeFits b req blocks.log2 m) := by
  induction fuel generalizing blockBegin candidatesLsbs s with
  | zero => omega
  | succ fuel ih =>
    rw [candidatesLoop]
    split
    · exact .inl ⟨_, rfl, hs⟩
    · rename_i hne
      obtain ⟨k, hk, hpos, hlane, hlen, hlen'⟩ := hcands _ (getLsbD_true_ctz_of_ne_zero hne)
      have hblock := hblocks.lsbs.block_le hk
      have hsize := Nat.two_pow_pos blocks.log2
      dsimp only
      generalize candidatesLsbs.ctz.toNat = offset at hpos ⊢
      -- The position the rest is looked at from is the block's end.
      obtain ⟨rest, hrest, hbits⟩ : ∃ rest, nextCandidates .debug candidatesLsbs
          (offset + 2 ^ blocks.log2) = .ok rest ∧ ∀ p, rest.getLsbD p = true →
            candidatesLsbs.getLsbD (offset + 2 ^ blocks.log2 + p) = true := by
        rw [nextCandidates]
        split
        · rw [shr_ok .debug _ (by omega)]
          refine ⟨_, rfl, fun p hp => ?_⟩
          rwa [getLsbD_ushiftRight] at hp
        · refine ⟨0, rfl, fun p hp => ?_⟩
          rw [show (0 : BitmapWord).getLsbD p = false from getLsbD_zero] at hp
          cases hp
      rw [hrest, ok_bind, hpos]
      refine (examineCandidate_settles hblocks hs hk hlane hlen hlen').bind fun outcome hok => ?_
      cases outcome with
      | next s' =>
        refine ih hok (by omega) hblock fun p hp => ?_
        obtain ⟨k', hk', hpos', hfits⟩ := hcands _ (hbits p hp)
        exact ⟨k', hk', by omega, hfits⟩
      | found chunk => exact .inl ⟨_, rfl, hok⟩
      | stop s' => exact .inl ⟨_, rfl, hok⟩

theorem examineFreeBlocks_ok {freeLsbs : BitmapWord}
    (hs : Unimproved b req blocks.log2 m s) (hlsbs : IsFreeLsbs w blocks.log2 freeLsbs)
    (hne : freeLsbs ≠ 0) (hw : w ≠ 0) :
    ∃ outcome, examineFreeBlocks pr req blocks i w freeLsbs s = .ok outcome ∧
      OutcomeFits b req blocks.log2 m outcome := by
  have hlt : blocks.log2 < 6 := by
    by_contra hge
    obtain heq : blocks.log2 = 6 := le_antisymm hblocks.lsbs.log2_le (Nat.le_of_not_lt hge)
    obtain ⟨p, -, hp⟩ := exists_bit hne
    obtain ⟨hp64, hmod, hclear⟩ := (hlsbs p).mp hp
    rw [heq] at hmod hclear
    obtain ⟨q, hq, hset⟩ := exists_bit hw
    have hbit := hclear q (by omega)
    rw [show p + q = q by omega, hset] at hbit
    cases hbit
  have hbest : ∃ bestSplit, bestSplitLog2 s.best = .ok bestSplit := by
    cases hc : s.best with
    | none => exact ⟨none, rfl⟩
    | some c =>
      obtain ⟨block, rfl, -⟩ := (hs.best c hc).free
      exact ⟨_, rfl⟩
  obtain ⟨bestSplit, hbest⟩ := hbest
  obtain ⟨splitLog2, hsplit⟩ :=
    blockAllocSplitBlockSizeLog2_ok pr bestSplit hblocks.lsbs hlt hlsbs hne hw
  have hsize := blockAllocSplitBlockSizeLog2_of_ok hlsbs hne hsplit
  rw [examineFreeBlocks, debugAssert_ok pr hlt, ok_bind, hbest, ok_bind, hsplit, ok_bind]
  split
  · rename_i hless
    have hexcess := hs.excess
    rw [debugAssert_ok pr (show s.bestExcess = 2 ^ blocks.log2 - req.chunkAllocationBlocks by omega),
      ok_bind]
    refine ⟨_, rfl, { hs with best := ?_, distance_pos := hs.armed_pos, distance := ?_ }⟩
    · rintro c hc
      obtain rfl := Option.mem_some_iff.mp hc
      refine ⟨_, rfl, splittable_of_splitSize hsize hless, ?_, .inr hw⟩
      have hmax := maxSplitLog2_le bestSplit
      dsimp only
      rcases hsize.le with heq | hle <;> omega
    · exact fun hnone => (by cases hnone)
  · exact ⟨_, rfl, hs⟩

theorem toNat_lane_sub_of_free {k : Nat} {excessLens : BitmapWord} (hk : k < 2 ^ (6 - blocks.log2))
    (hsub : lane (2 ^ blocks.log2) excessLens k =
      lane (2 ^ blocks.log2) lens k - lane (2 ^ blocks.log2) blocks.minMaxstrLen k)
    (hlane : (lane (2 ^ blocks.log2) lens k).toNat = 2 ^ blocks.log2) :
    (lane (2 ^ blocks.log2) excessLens k).toNat = 2 ^ blocks.log2 - req.chunkAllocationBlocks := by
  have hchunk := hblocks.chunk_lt
  have hpow := Nat.lt_two_pow_self (n := 2 ^ blocks.log2)
  rw [hsub, toNat_sub, hlane, hblocks.min_lens k hk]
  generalize 2 ^ 2 ^ blocks.log2 = bound at hpow ⊢
  rw [show bound - req.chunkAllocationBlocks + 2 ^ blocks.log2 =
    2 ^ blocks.log2 - req.chunkAllocationBlocks + bound by omega, Nat.add_mod_right,
    Nat.mod_eq_of_lt (by omega)]

theorem examineBlocks_settles (hs : Unimproved b req blocks.log2 m s) (hw : w ≠ 0)
    (hfit : TightWord req blocks.log2 w ∨ AlmostBlock req blocks.log2) :
    Settles (examineBlocks .debug req blocks i w s) (OutcomeFits b req blocks.log2 m) := by
  obtain ⟨maxLen, lens, hlens, hfound⟩ :=
    blocksMaxstrLens_ok .debug (~~~w) hblocks.lsbs hblocks.anchors hblocks.alignment_lt
  obtain ⟨hle, hattained⟩ :=
    blocksMaxstrLens_max hblocks.lsbs hblocks.anchors hblocks.alignment_lt hlens
  have hlengths : LengthsFit req blocks.log2 w maxLen lens := by
    rcases hfit with htight | halmost
    · exact htight.lengthsFit hfound hle hattained
    · exact halmost.lengthsFit hfound hle hattained hblocks.lsbs.log2_le
  obtain ⟨excessLens, hsub, hexcess⟩ := blocksFieldsSub_ok .debug hblocks.lsbs lens blocks.minMaxstrLen
  obtain ⟨cands, hgeq, hcands⟩ := blocksFieldsGeqLsbs_ok .debug hblocks.lsbs s.maxExcessLen excessLens
  have hworst := hs.excess
  have hchunk := hblocks.chunk_lt
  have hcand (p : Nat) (hp : cands.getLsbD p = true) : ∃ k < 2 ^ (6 - blocks.log2),
      p = 2 ^ blocks.log2 * k ∧ req.chunkAllocationBlocks ≤ (lane (2 ^ blocks.log2) lens k).toNat ∧
        (lane (2 ^ blocks.log2) lens k).toNat ≤ 2 ^ blocks.log2 := by
    obtain ⟨k, hk, rfl, hge⟩ := (hcands p).mp hp
    exact ⟨k, hk, rfl, fits_of_lane_sub hblocks hk (hexcess k hk) (hs.excess_lens k hk)
      hs.excess.le hge⟩
  have htight (k : Nat) (hk : k < 2 ^ (6 - blocks.log2))
      (hfits : req.chunkAllocationBlocks ≤ (lane (2 ^ blocks.log2) lens k).toNat ∧
        (lane (2 ^ blocks.log2) lens k).toNat ≤ 2 ^ blocks.log2)
      (hfree : maxLen = 2 ^ blocks.log2 → blockMaxstrLen (~~~w) blocks.log2
        req.chunkAlignmentAllocationBlocksLog2 k ≠ 2 ^ blocks.log2) :
      (lane (2 ^ blocks.log2) lens k).toNat = req.chunkAllocationBlocks ∧
        req.chunkAllocationBlocks ≤
          blockMaxstrLen (~~~w) blocks.log2 req.chunkAlignmentAllocationBlocksLog2 k ∧
        (req.chunkAlignmentAllocationBlocksLog2 ≠ 0 → blockMaxstrLen (~~~w) blocks.log2
          req.chunkAlignmentAllocationBlocksLog2 k ≤ req.chunkAllocationBlocks) := by
    obtain ⟨heq, hlen⟩ := hlengths.tight k hk hfits.1 hfits.2 hfree
    have hstring := hlengths.string k hk hfits.1 hfits.2
    exact ⟨heq, by omega, hlen⟩
  rw [examineBlocks, hlens, ok_bind]
  dsimp only
  split
  · exact .inl ⟨_, rfl, hs⟩
  · rw [hsub, ok_bind, hgeq, ok_bind]
    split
    · exact .inl ⟨_, rfl, hs⟩
    · rename_i hne
      split
      · rename_i hmax
        obtain ⟨freeLsbs, hlsbs, hbits⟩ := freeBlocksLsbs_ok .debug hblocks.lsbs w
        have hfreeCand (p : Nat) (hp : freeLsbs.getLsbD p = true) : cands.getLsbD p = true := by
          obtain ⟨hp64, hmod, hclear⟩ := (hbits p).mp hp
          obtain ⟨k, hk, rfl⟩ := hblocks.lsbs.exists_block hp64 hmod
          have hlane := hlengths.free hmax k hk (blockMaxstrLen_of_free hblocks.alignment_lt.le hclear
            (hblocks.lsbs.block_le hk))
          rw [hcands.getLsbD hk, toNat_lane_sub_of_free hblocks hk (hexcess k hk) hlane,
            hs.excess_lens k hk]
          omega
        have hfreeNe : freeLsbs ≠ 0 := by
          obtain ⟨k, hk, hlane⟩ := hattained (by omega)
          have hstring := hlengths.string k hk (by omega) (by omega)
          apply ne_zero_of_bit (p := 2 ^ blocks.log2 * k)
          have hblock := hblocks.lsbs.block_le hk
          have hlong : 2 ^ blocks.log2 ≤
              blockMaxstrLen (~~~w) blocks.log2 req.chunkAlignmentAllocationBlocksLog2 k := by omega
          exact (hbits _).mpr ⟨by omega, Nat.mul_mod_right _ _,
            fun j hj => free_of_blockMaxstrLen hlong hj⟩
        have hsubset : cands &&& freeLsbs = freeLsbs := by
          apply eq_of_getLsbD_eq
          intro p _
          rw [getLsbD_and, Bool.and_eq_right_iff_imp]
          exact hfreeCand p
        rw [hlsbs, ok_bind, debugAssert_ok .debug hfreeNe, ok_bind, debugAssert_ok .debug hsubset, ok_bind]
        split
        · exact .inl (examineFreeBlocks_ok hblocks hs hbits hfreeNe hw)
        · rename_i hother
          have hxor : cands ^^^ freeLsbs ≠ 0 := by
            intro hzero
            exact hother (BitVec.xor_eq_zero_iff.mp hzero).symm
          rw [debugAssert_ok .debug hxor, ok_bind]
          refine candidatesLoop_settles hblocks hs 65 (by omega) (by omega) fun p hp => ?_
          rw [getLsbD_xor] at hp
          have hset : cands.getLsbD p = true := by
            cases hfree : freeLsbs.getLsbD p with
            | true => exact hfreeCand p hfree
            | false => rwa [hfree, Bool.xor_false] at hp
          obtain ⟨k, hk, rfl, hfits⟩ := hcand p hset
          refine ⟨k, hk, zero_add _, htight k hk hfits fun _ hlen => ?_⟩
          have hblock := hblocks.lsbs.block_le hk
          have hfree := (hbits (2 ^ blocks.log2 * k)).mpr ⟨by omega, Nat.mul_mod_right _ _,
            fun j hj => free_of_blockMaxstrLen hlen.ge hj⟩
          rw [hset, hfree] at hp
          cases hp
      · rename_i hmax
        refine candidatesLoop_settles hblocks hs 65 (by omega) (by omega) fun p hp => ?_
        obtain ⟨k, hk, rfl, hfits⟩ := hcand p hp
        exact ⟨k, hk, zero_add _, htight k hk hfits fun heq => absurd heq hmax⟩

end Blocks

section Run

variable (hvalid : b.Valid) (hchunks : FullwordChunks b req.allocatedFullwordChunks)
include hvalid hchunks

theorem examineFreeWord_ok {log2 m : Nat} (hs : Unimproved b req log2 m s) :
    ∃ outcome, examineFreeWord req i s = .ok outcome ∧ OutcomeFits b req log2 m outcome := by
  rw [examineFreeWord]
  split
  · exact ⟨_, rfl, hs⟩
  · obtain ⟨next, hnext⟩ :=
      hchunks.nextFullwordChunk_ok hvalid hs.left s.nextAllocatedFullwordChunk i
    have hleft : (if next.isSome then s.allocatedFullwordChunks else none) =
        req.allocatedFullwordChunks ∨ (if next.isSome then s.allocatedFullwordChunks else none) =
          none := by
      split
      · exact hs.left
      · exact .inr rfl
    rw [hnext, ok_bind]
    dsimp only
    split
    · exact ⟨_, rfl, { hs with left := hleft }⟩
    · split
      · refine ⟨_, rfl, { hs with left := hleft, best := ?_, distance_pos := ?_, distance := ?_ }⟩
        · rintro c hc
          obtain rfl := Option.mem_some_iff.mp hc
          exact ⟨_, rfl, splittable_zero, le_refl 6, .inl rfl⟩
        · exact Nat.succ_pos 15
        · exact fun hnone => (by cases hnone)
      · exact ⟨_, rfl, trivial⟩

variable (hblocks : blocks.Valid req) (hopt : req.optimizePlacement = true)
  (hfit : Tight b req blocks.log2 ∨ AlmostBlock req blocks.log2)
include hblocks hopt hfit

theorem chunkSearchStep_settles (hi : i < b.imageBitmapWords)
    (hs : Unimproved b req blocks.log2 i s) :
    Settles (chunkSearchStep .debug b req blocks i (b.word i) s)
      (OutcomeFits b req blocks.log2 (i + 1)) := by
  have hpos := hs.distance_pos
  rw [chunkSearchStep, subU64_ok .debug (Nat.succ_le_of_lt hpos), ok_bind]
  dsimp only
  split
  · rename_i hzero
    have hbest : s.best.isSome = true := by
      rw [Option.isSome_iff_ne_none]
      intro hnone
      have hdist := hs.distance hnone
      omega
    rw [debugAssert_ok .debug ⟨hopt, hbest⟩, ok_bind]
    exact .inl ⟨_, rfl, hs.best⟩
  · rename_i hne
    have hs' : Unimproved b req blocks.log2 (i + 1)
        { s with remainingDistance := s.remainingDistance - 1 } := by
      refine { hs with distance_pos := pos_of_ne_zero hne, distance := fun hnone => ?_ }
      have hdist := hs.distance hnone
      dsimp only
      omega
    split
    · exact .inl ⟨_, rfl, hs'⟩
    · split
      · exact .inl (examineFreeWord_ok hvalid hchunks hs')
      · rename_i hw
        exact examineBlocks_settles hblocks hs' hw (hfit.imp (fun htight => htight i hi) id)

theorem chunkSearchLoop_settles {items : List (Nat × BitmapWord)} {n : Nat}
    (hitems : items = (List.range' n items.length).map (fun i => (i, b.word i)))
    (hlen : n + items.length ≤ b.imageBitmapWords) (hs : Unimproved b req blocks.log2 n s) :
    Settles (chunkSearchLoop .debug b req blocks items s)
      (fun outcome => ∃ m, OutcomeFits b req blocks.log2 m outcome) := by
  induction items generalizing n s with
  | nil => exact .inl ⟨_, rfl, n, hs⟩
  | cons item items ih =>
    obtain ⟨i, w⟩ := item
    rw [length_cons, range'_succ, map_cons, List.cons.injEq] at hitems
    obtain ⟨hitem, hitems⟩ := hitems
    obtain ⟨rfl, rfl⟩ := Prod.mk.inj hitem
    rw [length_cons] at hlen
    rw [chunkSearchLoop]
    refine (chunkSearchStep_settles hvalid hchunks hblocks hopt hfit (by omega) hs).bind
      fun outcome hok => ?_
    cases outcome with
    | next s' => exact ih hitems (by omega) hok
    | found chunk => exact .inl ⟨_, rfl, i, hok⟩
    | stop s' => exact .inl ⟨_, rfl, i, hok⟩

end Run

theorem select_ok (pr : Profile) (hbest : ∀ c ∈ s.best, FreeCandidate c) : ∃ r, s.select pr = .ok r := by
  rw [ChunkSearch.select.eq_def]
  cases hc : s.best with
  | none => exact ⟨none, rfl⟩
  | some c =>
    obtain ⟨block, rfl, hsplit, hle, hw⟩ := (hbest c hc).free
    obtain ⟨r, hr⟩ := selectSplitBlock_ok pr (i := block.bitmapWordIndex) hsplit hle hw
    dsimp only
    rw [hr, ok_bind]
    exact ⟨_, rfl⟩

theorem findFreeSubwordChunk_settles (hvalid : b.Valid)
    (hchunks : FullwordChunks b req.allocatedFullwordChunks) (hopt : req.optimizePlacement = true)
    (hlt : 3 ≤ req.chunkAllocationBlocks) (hlt' : req.chunkAllocationBlocks < 64)
    (hpow : req.chunkAllocationBlocks ≠ 2 ^ significantBits (req.chunkAllocationBlocks - 1))
    (hdvd : 2 ^ req.chunkAlignmentAllocationBlocksLog2 ∣ req.chunkAllocationBlocks)
    (hfit : Tight b req (significantBits (req.chunkAllocationBlocks - 1)) ∨
      AlmostBlock req (significantBits (req.chunkAllocationBlocks - 1))) :
    Settles (findFreeSubwordChunk .debug b req) (fun _ => True) := by
  have hlog2 : significantBits (req.chunkAllocationBlocks - 1) ≤ 6 :=
    (TreeShape.significantBits_le_iff _ _).mpr (by omega)
  have hge := le_two_pow_significantBits (n := req.chunkAllocationBlocks) (by omega)
  have hhalf := two_pow_significantBits_lt (n := req.chunkAllocationBlocks) (by omega)
  have hle := Nat.le_of_dvd (by omega) hdvd
  have halign : req.chunkAlignmentAllocationBlocksLog2 ≤ 6 := by
    by_contra hgt
    have hpow : 2 ^ 6 ≤ 2 ^ req.chunkAlignmentAllocationBlocksLog2 :=
      Nat.pow_le_pow_right (by omega) (by omega)
    omega
  rw [findFreeSubwordChunk, debugAssert_ok .debug (show req.chunkAllocationBlocks ≠ 0 by omega), ok_bind,
    debugAssert_ok .debug (Nat.mod_eq_zero_of_dvd hdvd), ok_bind, debugAssert_ok .debug halign, ok_bind,
    roundUpNextPow2U32_of_lt (by omega) hlt']
  dsimp only
  rw [Nat.log2_two_pow]
  generalize significantBits (req.chunkAllocationBlocks - 1) = log2 at hfit hlog2 hge hhalf hpow ⊢
  obtain ⟨lsbsMask, hlsbs, hmask⟩ := getBlocksLsbsMask_ok hlog2
  obtain ⟨anchorsMask, hanchors, hmask'⟩ := getBlocksLsbsMask_ok halign
  have hfits : 2 ^ log2 < 2 ^ 2 ^ log2 := Nat.lt_two_pow_self
  have hmul (n : Nat) (hn : n ≤ 2 ^ log2) : CacheSet.mul .debug lsbsMask (ofNat 64 n) =
      .ok (lsbsMask * ofNat 64 n) := by
    rw [CacheSet.mul, CacheSet.fitting.eq_def, if_pos]
    rw [toNat_ofNat, Nat.mod_eq_of_lt (show n < 2 ^ 64 by omega)]
    exact hmask.toNat_mul_lt (by omega)
  have hblocks : ContainingBlocks.Valid req ⟨log2, lsbsMask, anchorsMask,
      lsbsMask * ofNat 64 req.chunkAllocationBlocks⟩ :=
    ⟨hmask, hmask', (Nat.pow_lt_pow_iff_right (show 1 < 2 by omega)).mp (show 2 ^ _ < 2 ^ log2 by omega),
      Nat.mod_eq_zero_of_dvd hdvd, lt_of_le_of_ne hge hpow, hhalf,
      fun k hk => hmask.toNat_lane_mul (by omega) hk⟩
  have htake := (newAtBitmapWordIndex_at b.bitmap hvalid.allocs_sorted hvalid.frees_sorted 0).take
    hvalid.allocs_sorted hvalid.frees_sorted b.imageBitmapWords
  have hlen := congrArg List.length htake
  rw [length_map, length_range'] at hlen
  have hs : Unimproved b req log2 0 ⟨req.allocatedFullwordChunks, none,
      2 ^ log2 - req.chunkAllocationBlocks,
      lsbsMask * ofNat 64 (2 ^ log2 - req.chunkAllocationBlocks), none,
      b.imageBitmapWords + 1⟩ := by
    refine ⟨.inl rfl, ?_, fun k hk => ?_, fun c hc => (by cases hc), ?_, fun _ => ?_⟩
    · dsimp only
      omega
    · exact hmask.toNat_lane_mul (by omega) hk
    · exact Nat.succ_pos _
    · exact Nat.lt_succ_self _
  rw [if_neg (Ne.symm hpow), debugAssert_ok .debug hlt, ok_bind, hlsbs, ok_bind, hanchors, ok_bind,
    subU32_ok .debug hge (by omega), ok_bind, hmul _ (Nat.sub_le _ _), ok_bind, hmul _ hge,
    ok_bind]
  refine (chunkSearchLoop_settles hvalid hchunks hblocks hopt hfit (n := 0)
    (by rw [SearchedBitmap.wordIterAt, hlen, htake]; rfl)
    (by rw [SearchedBitmap.wordIterAt, hlen]; omega) hs).bind fun outcome hok => ?_
  obtain ⟨m, hok⟩ := hok
  cases outcome with
  | found chunk => exact .inl ⟨_, rfl, trivial⟩
  | stop s =>
    obtain ⟨r, hr⟩ := select_ok .debug hok
    exact .inl ⟨r, hr, trivial⟩
  | next s =>
    obtain ⟨r, hr⟩ := select_ok .debug hok.best
    exact .inl ⟨r, hr, trivial⟩

end Search

/-- The chunk is one unit of the alignment shorter than the block containing it. Where there
is no alignment, there are no more than two of these blocks in a word. -/
def AssertingRequest (n alignmentLog2 : Nat) : Prop :=
  n + 2 ^ alignmentLog2 = 2 ^ significantBits (n - 1) ∧ (alignmentLog2 = 0 → 31 ≤ n)

instance (n alignmentLog2 : Nat) : Decidable (AssertingRequest n alignmentLog2) :=
  inferInstanceAs (Decidable (_ ∧ _))

variable {alignmentLog2 n : Nat} {chunks : Option PhysicalExtents}

theorem AssertingRequest.fits
    (h : AssertingRequest n alignmentLog2) (hdvd : 2 ^ alignmentLog2 ∣ n) (b : SearchedBitmap) :
    Tight b ⟨n, alignmentLog2, chunks, true⟩ (significantBits (n - 1)) ∨
      AlmostBlock ⟨n, alignmentLog2, chunks, true⟩ (significantBits (n - 1)) := by
  obtain ⟨hlen, hlong⟩ := h
  by_cases hzero : alignmentLog2 = 0
  · subst hzero
    refine .inr ⟨hlen, rfl, ?_⟩
    have hle := hlong rfl
    by_contra hlt
    have hpow : 2 ^ significantBits (n - 1) ≤ 2 ^ 4 := Nat.pow_le_pow_right (by omega) (by omega)
    omega
  · -- The strings' lengths are multiples of the alignment.
    refine .inl fun i _ k _ => ⟨fun heq => absurd heq hzero, ?_⟩
    dsimp only
    have hmod : blockMaxstrLen (~~~b.imageWord i (b.word i)) (significantBits (n - 1)) alignmentLog2 k %
        2 ^ alignmentLog2 = 0 := maxstrLen_mod _ _ _ _
    have hle : blockMaxstrLen (~~~b.imageWord i (b.word i)) (significantBits (n - 1)) alignmentLog2 k ≤
        2 ^ significantBits (n - 1) := maxstrLen_le _ _ _ _
    refine or_iff_not_imp_right.mpr fun hne => ?_
    have hblock : 2 ^ significantBits (n - 1) % 2 ^ alignmentLog2 = 0 := by
      rw [← hlen]
      exact Nat.mod_eq_zero_of_dvd (Nat.dvd_add hdvd (dvd_refl _))
    have hless := add_le_of_mod hmod hblock (lt_of_le_of_ne hle hne)
    omega

/-- How many of the first blocks are free: an alignment's unit more than in the chunk, or
else two blocks as large as to contain the chunk along with the first one of the next. -/
def freeBlocks (n alignmentLog2 : Nat) : Nat :=
  if n + 2 ^ alignmentLog2 = 2 ^ significantBits (n - 1) then 2 * (n + 1) + 1
  else n + 2 ^ alignmentLog2

def failingBitmap (n alignmentLog2 : Nat) : SearchedBitmap :=
  ⟨⟨[-BitVec.twoPow 64 (freeBlocks n alignmentLog2)], by simp⟩, [], [], 64⟩

theorem failingBitmap_valid (n alignmentLog2 : Nat) : (failingBitmap n alignmentLog2).Valid := by
  refine ⟨fun es hes => ?_, fun es hes => ?_, le_refl _⟩
  · cases hes
  · cases hes

def Failing (n alignmentLog2 : Nat) : Prop :=
  3 ≤ n ∧ n ≠ 2 ^ significantBits (n - 1) ∧ ¬ AssertingRequest n alignmentLog2 ∧ 2 ^ alignmentLog2 ∣ n

instance (n alignmentLog2 : Nat) : Decidable (Failing n alignmentLog2) :=
  inferInstanceAs (Decidable (_ ∧ _))

theorem failingBitmap_fails : ∀ n < 64, ∀ alignmentLog2 < 6, Failing n alignmentLog2 →
    findFreeSubwordChunk .debug (failingBitmap n alignmentLog2) ⟨n, alignmentLog2, none, true⟩ =
      panic .debugAssert := by
  decide +kernel

theorem assertsHold_of_fit {b : SearchedBitmap} (hn : 3 ≤ n) (hn' : n < 64) (hpow : ∀ m, n ≠ 2 ^ m)
    (hdvd : 2 ^ alignmentLog2 ∣ n) (hvalid : b.Valid) (hchunks : FullwordChunks b chunks)
    (h : Tight b ⟨n, alignmentLog2, chunks, true⟩ (significantBits (n - 1)) ∨
      AlmostBlock ⟨n, alignmentLog2, chunks, true⟩ (significantBits (n - 1))) :
    AssertsHold b ⟨n, alignmentLog2, chunks, true⟩ := by
  rw [AssertsHold]
  rcases findFreeSubwordChunk_settles hvalid hchunks rfl hn hn' (hpow _) hdvd h with ⟨r, hr, -⟩ | hr
  · rw [hr]
    exact ⟨fun h => (by cases h), fun h => (by cases h)⟩
  · rw [hr]
    exact ⟨fun h => (by cases h), fun h => (by cases h)⟩

/-- No assertion fails for any bitmap if and only if there is nothing between the chunk's
length and the containing block's. For a given bitmap, none does if there is no string
longer than the chunk in any block that isn't free. -/
theorem findFreeSubwordChunk_asserts_iff (hn : 3 ≤ n) (hn' : n < 64)
    (hpow : ∀ m, n ≠ 2 ^ m) (hdvd : 2 ^ alignmentLog2 ∣ n) :
    ((∀ (b : SearchedBitmap) (chunks : Option PhysicalExtents), b.Valid → FullwordChunks b chunks →
      AssertsHold b ⟨n, alignmentLog2, chunks, true⟩) ↔ AssertingRequest n alignmentLog2) ∧
    ∀ (b : SearchedBitmap) (chunks : Option PhysicalExtents), b.Valid → FullwordChunks b chunks →
      Tight b ⟨n, alignmentLog2, chunks, true⟩ (significantBits (n - 1)) →
        AssertsHold b ⟨n, alignmentLog2, chunks, true⟩ := by
  refine ⟨⟨fun hall => ?_, fun hreq b chunks hvalid hchunks => ?_⟩,
    fun b chunks hvalid hchunks htight =>
      assertsHold_of_fit hn hn' hpow hdvd hvalid hchunks (.inl htight)⟩
  · by_contra hreq
    have halign : alignmentLog2 < 6 := by
      by_contra hge
      have hpow : 2 ^ 6 ≤ 2 ^ alignmentLog2 := Nat.pow_le_pow_right (by omega) (Nat.le_of_not_lt hge)
      have hle := Nat.le_of_dvd (by omega) hdvd
      omega
    exact (hall (failingBitmap n alignmentLog2) none (failingBitmap_valid n alignmentLog2)
      (fullwordChunks_none _)).1
      (failingBitmap_fails n hn' alignmentLog2 halign ⟨hn, hpow _, hreq, hdvd⟩)
  · exact assertsHold_of_fit hn hn' hpow hdvd hvalid hchunks (hreq.fits hdvd b)

theorem findFreeSubwordChunk_asserts_thirty_one :
    (∀ (b : SearchedBitmap) (chunks : Option PhysicalExtents), b.Valid → FullwordChunks b chunks →
      AssertsHold b ⟨31, 0, chunks, true⟩) ↔ AssertingRequest 31 0 :=
  (findFreeSubwordChunk_asserts_iff (by decide) (by decide)
    (fun m h => by
      have hlt : m < 5 := by
        by_contra hge
        have hpow : 2 ^ 5 ≤ 2 ^ m := Nat.pow_le_pow_right (by omega) (Nat.le_of_not_lt hge)
        omega
      interval_cases m <;> omega) (by decide)).1

/-- Six free blocks at the beginning of an image of a single word, for a chunk of five. -/
theorem subwordChunk_assert_fails :
    (failingBitmap 5 0).Valid ∧ FullwordChunks (failingBitmap 5 0) none ∧
      ¬ AssertsHold (failingBitmap 5 0) ⟨5, 0, none, true⟩ := by
  refine ⟨failingBitmap_valid 5 0, fullwordChunks_none _, fun hholds => hholds.1 ?_⟩
  decide +kernel

end CocoonFs.SubwordChunkAsserts
