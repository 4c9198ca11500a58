import CocoonFs.FindFreeBlock
import CocoonFs.IoRegion
import CocoonFs.MaxstrRefinement
import CocoonFs.TreeShape

namespace CocoonFs.FindFreeSubwordChunk

open Bitmap BitmapWordIters BitmapWords Checked Extents FindFreeBlock FreeChunks IoRegion Lanes List Nat
  MaxstrLens
open TreeShape (significantBits)
open CacheSet (fitting mul subU32)
open BitVec (getLsbD_not getLsbD_zero isLt ofNat)

/-- u32::round_up_next_pow2 -/
def roundUpNextPow2U32 (x : Nat) : Option Nat :=
  let t := (x + 2 ^ 32 - 1) % 2 ^ 32
  if t < 2 ^ 31 then some (2 ^ significantBits t)
  else if x &&& t = 0 then some t
  else none

def addU32 (pr : Profile) (a b : Nat) : Comp Nat := fitting pr (a + b < 2 ^ 32) ((a + b) % 2 ^ 32)

def ilog2 (x : BitmapWord) : Comp Nat :=
  if x = 0 then panic .nonPositiveLog else .ok x.toNat.log2

structure ChunkRequest where
  chunkAllocationBlocks : Nat
  chunkAlignmentAllocationBlocksLog2 : Nat
  allocatedFullwordChunks : Option PhysicalExtents
  optimizePlacement : Bool

structure ContainingBlocks where
  log2 : Nat
  lsbsMask : BitmapWord
  anchorsMask : BitmapWord
  minMaxstrLen : BitmapWord

inductive FoundCandidate where
  | freeContainingBlock (c : Candidate)
  | chunkInPartialContainingBlock (bitmapWordIndex chunkBegin excessAlignedBlocksSet : Nat)

structure ChunkSearch where
  allocatedFullwordChunks : Option PhysicalExtents
  nextAllocatedFullwordChunk : Option BlockRange
  bestExcess : Nat
  maxExcessLen : BitmapWord
  best : Option FoundCandidate
  remainingDistance : Nat

def ChunkSearch.armed (s : ChunkSearch) : Nat :=
  if s.best.isNone then placementOptimizationSearchDistanceBitmapWords else s.remainingDistance

def examineFreeWord (req : ChunkRequest) (i : Nat) (s : ChunkSearch) : Comp (Outcome ChunkSearch) :=
  if s.best.isSome then .ok (.next s)
  else do
    let next ← nextFullwordChunk s.allocatedFullwordChunks s.nextAllocatedFullwordChunk i
    let s := { s with
      nextAllocatedFullwordChunk := next
      allocatedFullwordChunks := if next.isSome then s.allocatedFullwordChunks else none }
    if inFullwordChunk next i then pure (.next s)
    else if req.optimizePlacement then
      pure (.next { s with
        best := some (.freeContainingBlock ⟨i, 0, 6⟩)
        remainingDistance := placementOptimizationSearchDistanceBitmapWords })
    else pure (.found (i * 64))

def bestSplitLog2 : Option FoundCandidate → Comp (Option Nat)
  | none => .ok none
  | some (.freeContainingBlock c) => .ok (some c.splitLog2)
  | some (.chunkInPartialContainingBlock ..) => panic .unreachable

def examineFreeBlocks (pr : Profile) (req : ChunkRequest) (blocks : ContainingBlocks) (i : Nat)
    (w freeLsbs : BitmapWord) (s : ChunkSearch) : Comp (Outcome ChunkSearch) := do
  debugAssert pr (blocks.log2 < 6)
  let bestSplitLog2 ← bestSplitLog2 s.best
  let splitLog2 ← blockAllocSplitBlockSizeLog2 pr freeLsbs bestSplitLog2 blocks.log2 blocks.lsbsMask
  if ∀ m ∈ bestSplitLog2, splitLog2 < m then do
    debugAssert pr (s.bestExcess = 2 ^ blocks.log2 - req.chunkAllocationBlocks)
    pure (.next { s with
      best := some (.freeContainingBlock ⟨i, w, splitLog2⟩)
      remainingDistance := s.armed })
  else pure (.next s)

/-- The ends of the strings of length two to the power of the rounds. -/
def stringEnds : Nat → Nat → BitmapWord → BitmapWord
  | 0, _, w => w
  | rounds + 1, t, w => stringEnds rounds (t + 1) (w &&& w <<< 2 ^ t)

/-- The aligned blocks of the excess space on either side of its point of maximum
alignment, for the excess space at some position. -/
def alignedBlocksSet (pr : Profile) (pos movable maxBlock : Nat) : Comp Nat := do
  let set₁ := (ofNat 32 pos ||| -ofNat 32 maxBlock) + ofNat 32 movable
  let set₀ ← CacheSet.sub pr (ofNat 32 movable) set₁
  pure (set₀ ||| set₁).toNat

def nextPowerOfTwo (x : Nat) : Nat := 2 ^ significantBits (x - 1)

def updateBest (pr : Profile) (blocks : ContainingBlocks) (i chunkBegin alignedSet excess : Nat)
    (s : ChunkSearch) : Comp (Outcome ChunkSearch) := do
  debugAssert pr (excess < 2 ^ blocks.log2)
  debugAssert pr (s.bestExcess = 2 ^ blocks.log2 ∨ s.best.isSome = true)
  if excess < s.bestExcess then do
    let maxExcessLen ← mul pr blocks.lsbsMask (ofNat 64 excess)
    pure (.next { s with
      best := some (.chunkInPartialContainingBlock i chunkBegin alignedSet)
      remainingDistance := s.armed
      bestExcess := excess
      maxExcessLen := maxExcessLen })
  else do
    debugAssert pr (s.bestExcess = excess)
    debugAssert pr (s.bestExcess < 2 ^ blocks.log2)
    debugAssert pr (s.best.isSome = true)
    match s.best with
    | none => panic .unwrapNone
    | some (.freeContainingBlock _) => panic .unreachable
    | some (.chunkInPartialContainingBlock _ _ bestAlignedSet) =>
      if bestAlignedSet < alignedSet then
        pure (.next { s with best := some (.chunkInPartialContainingBlock i chunkBegin alignedSet) })
      else pure (.next s)

def maxstrBegin (pr : Profile) (alignmentLog2 blockBegin alignedBegin : Nat) (w : BitmapWord) :
    Comp Nat :=
  if alignmentLog2 = 0 then .ok alignedBegin
  else
    let head := w >>> blockBegin &&& trailingBitsMask alignedBegin
    if head ≠ 0 then do
      let last ← ilog2 head
      pure (last + 1)
    else do
      debugAssert pr (alignedBegin = 0)
      pure alignedBegin

/-- The candidate block that begins at some position in the word, with the lengths and
the ends of the blocks' strings given. -/
def examineCandidate (pr : Profile) (req : ChunkRequest) (blocks : ContainingBlocks) (i : Nat)
    (w lens ends : BitmapWord) (blockBegin : Nat) (s : ChunkSearch) : Comp (Outcome ChunkSearch) := do
  let fieldMask := trailingBitsMask (2 ^ blocks.log2)
  let field := lens >>> blockBegin &&& fieldMask
  debugAssert pr (field.toNat < 2 ^ blocks.log2)
  let len := field.toNat % 2 ^ 32
  debugAssert pr (req.chunkAllocationBlocks ≤ len)
  let blockEnds := ends >>> blockBegin &&& fieldMask
  debugAssert pr (blockEnds ≠ 0)
  let last ← ilog2 blockEnds
  let maxstrEnd := last + 1
  debugAssert pr (len ≤ maxstrEnd)
  let alignedEnd := roundDownPow2 maxstrEnd req.chunkAlignmentAllocationBlocksLog2
  let alignedBegin ← subU32 pr alignedEnd len
  let maxstrBegin ← maxstrBegin pr req.chunkAlignmentAllocationBlocksLog2 blockBegin alignedBegin w
  let maxstrLen ← subU32 pr maxstrEnd maxstrBegin
  let excess ← subU32 pr maxstrLen req.chunkAllocationBlocks
  if s.bestExcess < excess then pure (.next s)
  else if excess = 0 then pure (.found (i * 64 + blockBegin + alignedBegin))
  else do
    let paddingHead ← subU32 pr alignedBegin maxstrBegin
    let paddingTail ← subU32 pr maxstrEnd alignedEnd
    let movable ← subU32 pr len req.chunkAllocationBlocks
    debugAssert pr (paddingHead + movable + paddingTail = excess)
    let maxMovableBlock := nextPowerOfTwo (movable + 1) / 2
    let setAfter ← alignedBlocksSet pr alignedBegin movable maxMovableBlock
    let tail ← addU32 pr alignedBegin req.chunkAllocationBlocks
    let setBefore ← alignedBlocksSet pr tail movable maxMovableBlock
    let alignedSet := max setAfter setBefore ||| (paddingHead ||| paddingTail)
    let chunkBegin ← addU32 pr alignedBegin (if setBefore < setAfter then movable else 0)
    let chunkBegin ← addU32 pr chunkBegin blockBegin
    updateBest pr blocks i chunkBegin alignedSet excess s

def nextCandidates (pr : Profile) (candidatesLsbs : BitmapWord) (distance : Nat) : Comp BitmapWord :=
  if distance ≠ 64 then CacheSet.shr pr candidatesLsbs distance else .ok 0

def candidatesLoop (pr : Profile) (req : ChunkRequest) (blocks : ContainingBlocks) (i : Nat)
    (w lens ends : BitmapWord) : Nat → Nat → BitmapWord → ChunkSearch → Comp (Outcome ChunkSearch)
  | 0, _, _, _ => panic .outOfFuel
  | fuel + 1, blockBegin, candidatesLsbs, s =>
    if candidatesLsbs = 0 then .ok (.next s)
    else do
      let offset := candidatesLsbs.ctz.toNat
      let blockBegin := blockBegin + offset
      let candidatesLsbs ← nextCandidates pr candidatesLsbs (offset + 2 ^ blocks.log2)
      let outcome ← examineCandidate pr req blocks i w lens ends blockBegin s
      match outcome with
      | .next s =>
        candidatesLoop pr req blocks i w lens ends fuel (blockBegin + 2 ^ blocks.log2)
          candidatesLsbs s
      | outcome => pure outcome

/-- At most one string in a block is long enough, and it is longer than half of the block. -/
def examineCandidates (pr : Profile) (req : ChunkRequest) (blocks : ContainingBlocks) (i : Nat)
    (w lens candidatesLsbs : BitmapWord) (s : ChunkSearch) : Comp (Outcome ChunkSearch) :=
  candidatesLoop pr req blocks i w lens (stringEnds (blocks.log2 - 1) 0 (~~~w)) 65 0 candidatesLsbs s

/-- The fully free blocks won't win if there are other candidates. -/
def examineBlocks (pr : Profile) (req : ChunkRequest) (blocks : ContainingBlocks) (i : Nat)
    (w : BitmapWord) (s : ChunkSearch) : Comp (Outcome ChunkSearch) := do
  let (maxLen, lens) ← blocksMaxstrLens pr (~~~w) blocks.log2 blocks.lsbsMask
    req.chunkAlignmentAllocationBlocksLog2 blocks.anchorsMask
  if maxLen < req.chunkAllocationBlocks then pure (.next s)
  else do
    let excessLens ← blocksFieldsSub pr lens blocks.minMaxstrLen blocks.log2 blocks.lsbsMask
    let candidatesLsbs ← blocksFieldsGeqLsbs pr s.maxExcessLen excessLens blocks.log2 blocks.lsbsMask
    if candidatesLsbs = 0 then pure (.next s)
    else if maxLen = 2 ^ blocks.log2 then do
      let freeLsbs ← freeBlocksLsbs pr w blocks.log2 blocks.lsbsMask
      debugAssert pr (freeLsbs ≠ 0)
      debugAssert pr (candidatesLsbs &&& freeLsbs = freeLsbs)
      if freeLsbs = candidatesLsbs then examineFreeBlocks pr req blocks i w freeLsbs s
      else do
        debugAssert pr (candidatesLsbs ^^^ freeLsbs ≠ 0)
        examineCandidates pr req blocks i w lens (candidatesLsbs ^^^ freeLsbs) s
    else examineCandidates pr req blocks i w lens candidatesLsbs s

def chunkSearchStep (pr : Profile) (b : SearchedBitmap) (req : ChunkRequest)
    (blocks : ContainingBlocks) (i : Nat) (w : BitmapWord) (s : ChunkSearch) :
    Comp (Outcome ChunkSearch) := do
  let remaining ← subU64 pr s.remainingDistance 1
  let s := { s with remainingDistance := remaining }
  if remaining = 0 then do
    debugAssert pr (req.optimizePlacement = true ∧ s.best.isSome = true)
    pure (.stop s)
  else
    let w := b.imageWord i w
    if w = ~~~0 then pure (.next s)
    else if w = 0 then examineFreeWord req i s
    else if req.optimizePlacement then examineBlocks pr req blocks i w s
    else do
      let pos ← findStrWithMinLen pr (~~~w) req.chunkAllocationBlocks
        req.chunkAlignmentAllocationBlocksLog2 blocks.anchorsMask
      match pos with
      | some pos => pure (.found (i * 64 + pos))
      | none => pure (.next s)

def chunkSearchLoop (pr : Profile) (b : SearchedBitmap) (req : ChunkRequest)
    (blocks : ContainingBlocks) :
    List (Nat × BitmapWord) → ChunkSearch → Comp (Outcome ChunkSearch)
  | [], s => .ok (.next s)
  | (i, w) :: items, s => do
    let outcome ← chunkSearchStep pr b req blocks i w s
    match outcome with
    | .next s => chunkSearchLoop pr b req blocks items s
    | outcome => pure outcome

def ChunkSearch.select (pr : Profile) (s : ChunkSearch) : Comp (Option Nat) :=
  match s.best with
  | none => .ok none
  | some (.chunkInPartialContainingBlock i chunkBegin _) => .ok (some (i * 64 + chunkBegin))
  | some (.freeContainingBlock c) => do
    let block ← selectSplitBlock pr c.bitmapWordIndex c.bitmapWord c.splitLog2
    pure (some block)

def findFreeSubwordChunk (pr : Profile) (b : SearchedBitmap) (req : ChunkRequest) :
    Comp (Option Nat) := do
  debugAssert pr (req.chunkAllocationBlocks ≠ 0)
  debugAssert pr (req.chunkAllocationBlocks % 2 ^ req.chunkAlignmentAllocationBlocksLog2 = 0)
  debugAssert pr (req.chunkAlignmentAllocationBlocksLog2 ≤ 6)
  match roundUpNextPow2U32 req.chunkAllocationBlocks with
  | none => panic .unwrapNone
  | some containingBlock =>
    let log2 := containingBlock.log2
    if containingBlock = req.chunkAllocationBlocks then
      findFreeBlock pr b ⟨log2, [], req.allocatedFullwordChunks, none, req.optimizePlacement⟩
    else do
      debugAssert pr (3 ≤ req.chunkAllocationBlocks)
      let lsbsMask ← getBlocksLsbsMask log2
      let anchorsMask ← getBlocksLsbsMask req.chunkAlignmentAllocationBlocksLog2
      let excess ← subU32 pr containingBlock req.chunkAllocationBlocks
      let maxExcessLen ← mul pr lsbsMask (ofNat 64 excess)
      let minMaxstrLen ← mul pr lsbsMask (ofNat 64 req.chunkAllocationBlocks)
      let outcome ← chunkSearchLoop pr b req ⟨log2, lsbsMask, anchorsMask, minMaxstrLen⟩
        (WordIter.take b.imageBitmapWords (b.wordIterAt 0))
        ⟨req.allocatedFullwordChunks, none, excess, maxExcessLen, none, b.imageBitmapWords + 1⟩
      match outcome with
      | .found chunk => pure (some chunk)
      | .stop s => s.select pr
      | .next s => s.select pr

section Strings

variable {v mask ends : BitmapWord} {log2 a k : Nat} {w : BitmapWord}

theorem getLsbD_stringEnds (rounds : Nat) {t : Nat}
    (hw : ∀ p < 64, w.getLsbD p = true ↔ EndsString v 0 0 (2 ^ t) p) {p : Nat} (hp : p < 64) :
    (stringEnds rounds t w).getLsbD p = true ↔ EndsString v 0 0 (2 ^ (t + rounds)) p := by
  induction rounds generalizing t w with
  | zero => exact hw p hp
  | succ rounds ih =>
    rw [stringEnds, show t + (rounds + 1) = t + 1 + rounds by omega]
    apply ih
    intro q hq
    rw [pow_succ, Nat.mul_two, endsString_add_iff (le_refl _) (Nat.two_pow_pos t)
      (mod_one _), ← hw q hq, ← hw (q - 2 ^ t) (lt_of_le_of_lt (sub_le q _) hq), BitVec.getLsbD_and,
      BitVec.getLsbD_shiftLeft, decide_eq_true hq, Bool.true_and]
    simp only [Bool.and_eq_true, Bool.not_eq_true', decide_eq_false_iff_not, not_lt]

theorem endsString_one {p : Nat} : EndsString v 0 0 (2 ^ 0) p ↔ v.getLsbD p = true := by
  constructor
  · exact fun h => h.2.2 0 one_pos
  · intro h
    refine ⟨by omega, mod_one _, fun j hj => ?_⟩
    rwa [show j = 0 by omega, Nat.sub_zero]

variable {last : Nat}

theorem ilog2_of_ok {x : BitmapWord} (h : ilog2 x = .ok last) :
    x.getLsbD last = true ∧ ∀ q, x.getLsbD q = true → q ≤ last := by
  rw [ilog2] at h
  split at h
  · cases h
  · rename_i hne
    cases h
    have hne' : x.toNat ≠ 0 := fun hzero => hne (BitVec.eq_of_toNat_eq hzero)
    refine ⟨testBit_log2 hne', fun q hq => ?_⟩
    by_contra hlt
    have hclear := testBit_lt_two_pow
      (lt_of_lt_of_le (lt_log2_self (n := x.toNat)) (Nat.pow_le_pow_right (by omega) (Nat.lt_of_not_le hlt)))
    rw [BitVec.getLsbD, hclear] at hq
    cases hq

theorem le_roundDownPow2 {x n : Nat} (h : x % 2 ^ a = 0) (hle : x ≤ n) : x ≤ roundDownPow2 n a := by
  obtain ⟨c, rfl⟩ := dvd_of_mod_eq_zero h
  rw [roundDownPow2, mul_comm]
  exact Nat.mul_le_mul_right _ ((Nat.le_div_iff_mul_le (Nat.two_pow_pos a)).mpr (by rwa [mul_comm]))

theorem getLsbD_blockEnds (h : IsLsbsMask log2 mask) (hk : k < 2 ^ (6 - log2)) {q : Nat}
    (hq : q < 2 ^ log2) :
    (stringEnds (log2 - 1) 0 v >>> (2 ^ log2 * k) &&& trailingBitsMask (2 ^ log2)).getLsbD q = true ↔
      EndsString v 0 0 (2 ^ (log2 - 1)) (2 ^ log2 * k + q) := by
  have hblock := h.block_le hk
  rw [getLsbD_masked (by omega), decide_eq_true hq, Bool.true_and,
    getLsbD_stringEnds _ (fun p _ => endsString_one.symm) (by omega), zero_add]

theorem two_pow_half (hpos : 0 < log2) : 2 ^ log2 = 2 ^ (log2 - 1) + 2 ^ (log2 - 1) := by
  rw [← Nat.mul_two, ← Nat.pow_succ, succ_eq_add_one, Nat.sub_add_cancel hpos]

theorem blockEnd_of_ok (h : IsLsbsMask log2 mask) (hk : k < 2 ^ (6 - log2))
    (hlast : ilog2 (stringEnds (log2 - 1) 0 v >>> (2 ^ log2 * k) &&& trailingBitsMask (2 ^ log2)) =
      .ok last) :
    last < 2 ^ log2 ∧ EndsString v 0 0 (2 ^ (log2 - 1)) (2 ^ log2 * k + last) ∧
      ∀ q < 2 ^ log2, EndsString v 0 0 (2 ^ (log2 - 1)) (2 ^ log2 * k + q) → q ≤ last := by
  have hblock := h.block_le hk
  obtain ⟨hset, hhigh⟩ := ilog2_of_ok hlast
  have hlt : last < 2 ^ log2 := by
    rw [getLsbD_masked (by omega), Bool.and_eq_true, decide_eq_true_eq] at hset
    exact hset.1
  exact ⟨hlt, (getLsbD_blockEnds h hk hlt).mp hset,
    fun q hq hend => hhigh q ((getLsbD_blockEnds h hk hq).mpr hend)⟩

theorem endsString_of_string {b len : Nat} (hpos : 0 < log2) (hlong : 2 ^ log2 < 2 * len)
    (hall : IsString v (2 ^ log2 * k + b) len) :
    EndsString v 0 0 (2 ^ (log2 - 1)) (2 ^ log2 * k + (b + len - 1)) := by
  have hhalf := two_pow_half hpos
  refine ⟨by omega, mod_one _, fun j hj => ?_⟩
  rw [show 2 ^ log2 * k + (b + len - 1) - j = 2 ^ log2 * k + b + (len - 1 - j) by omega]
  exact hall _ (by omega)

/-- A string longer than half of a block is the only such one in it, and the strings of
half the length end within it. -/
theorem longest_string (h : IsLsbsMask log2 mask) (hpos : 0 < log2)
    (hk : k < 2 ^ (6 - log2)) (hlong : 2 ^ log2 < 2 * blockMaxstrLen v log2 a k)
    (hlast : ilog2 (stringEnds (log2 - 1) 0 v >>> (2 ^ log2 * k) &&& trailingBitsMask (2 ^ log2)) =
      .ok last) :
    last < 2 ^ log2 ∧ blockMaxstrLen v log2 a k ≤ roundDownPow2 (last + 1) a ∧
      ∀ j < blockMaxstrLen v log2 a k, v.getLsbD
        (2 ^ log2 * k + (roundDownPow2 (last + 1) a - blockMaxstrLen v log2 a k) + j) = true := by
  have hhalf := two_pow_half hpos
  obtain ⟨hlt, ⟨-, -, hend⟩, hhigh⟩ := blockEnd_of_ok h hk hlast
  have hspec := hasAlignedString_maxstrLen v (2 ^ log2 * k) (2 ^ log2) a
  rw [← blockMaxstrLen] at hspec
  generalize hlen : blockMaxstrLen v log2 a k = len at hspec hlong ⊢
  obtain ⟨hmod, b, -, halign, hle, hall⟩ := hspec
  have hstr : b + len ≤ last + 1 := by
    have hle := hhigh (b + len - 1) (by omega) (endsString_of_string hpos hlong hall)
    omega
  have hdvd := Nat.dvd_add (dvd_of_mod_eq_zero halign) (dvd_of_mod_eq_zero hmod)
  have hge : b + len ≤ roundDownPow2 (last + 1) a :=
    le_roundDownPow2 (mod_eq_zero_of_dvd hdvd) hstr
  have hdown : roundDownPow2 (last + 1) a ≤ last + 1 := div_mul_le_self _ _
  -- The bits up to the last end are all set, for less than half of the block is left.
  have hrun : HasAlignedString v (2 ^ log2 * k) (2 ^ log2) a (roundDownPow2 (last + 1) a - b) := by
    refine ⟨?_, b, by omega, halign, by omega, fun j hj => ?_⟩
    · exact mod_eq_zero_of_dvd (Nat.dvd_sub (Nat.dvd_mul_left _ _) (dvd_of_mod_eq_zero halign))
    · rcases Nat.lt_or_ge j len with hj' | hj'
      · exact hall j hj'
      · have hbit' := hend (last - (b + j)) (by omega)
        rwa [show 2 ^ log2 * k + last - (last - (b + j)) = 2 ^ log2 * k + b + j by omega] at hbit'
  have hmax := (hasAlignedString_iff hrun.1).mp hrun
  rw [← blockMaxstrLen, hlen] at hmax
  refine ⟨hlt, by omega, fun j hj => ?_⟩
  rw [show roundDownPow2 (last + 1) a - len = b by omega]
  exact hall j hj

theorem blockMaxstrLen_of_free (ha : a ≤ log2)
    (hfree : ∀ j < 2 ^ log2, w.getLsbD (2 ^ log2 * k + j) = false) (hend : 2 ^ log2 * k + 2 ^ log2 ≤ 64) :
    blockMaxstrLen (~~~w) log2 a k = 2 ^ log2 := by
  apply le_antisymm (maxstrLen_le _ _ _ _)
  apply (hasAlignedString_iff (two_pow_mod ha)).mp
  refine ⟨two_pow_mod ha, 0, succ_pos _, zero_mod _, by omega, fun j hj => ?_⟩
  rw [getLsbD_not, add_zero, hfree j hj, Bool.not_false, Bool.and_true, decide_eq_true_eq]
  omega

end Strings
section Soundness

variable {pr : Profile} {b : SearchedBitmap} {req : ChunkRequest} {blocks : ContainingBlocks}
  {s : ChunkSearch} {i m : Nat} {w : BitmapWord}

structure ContainingBlocks.Valid (req : ChunkRequest) (blocks : ContainingBlocks) : Prop where
  lsbs : IsLsbsMask blocks.log2 blocks.lsbsMask
  anchors : IsLsbsMask req.chunkAlignmentAllocationBlocksLog2 blocks.anchorsMask
  alignment_lt : req.chunkAlignmentAllocationBlocksLog2 < blocks.log2
  chunk_mod : req.chunkAllocationBlocks % 2 ^ req.chunkAlignmentAllocationBlocksLog2 = 0
  chunk_lt : req.chunkAllocationBlocks < 2 ^ blocks.log2
  half_lt : 2 ^ blocks.log2 < 2 * req.chunkAllocationBlocks
  min_lens : ∀ k < 2 ^ (6 - blocks.log2),
    (lane (2 ^ blocks.log2) blocks.minMaxstrLen k).toNat = req.chunkAllocationBlocks

def FoundCandidate.Ok (b : SearchedBitmap) (req : ChunkRequest) (log2 : Nat) :
    FoundCandidate → Prop
  | .freeContainingBlock c => c.Ok b req.allocatedFullwordChunks log2
  | .chunkInPartialContainingBlock i chunkBegin _ => FreeChunk b req.allocatedFullwordChunks
      req.chunkAllocationBlocks req.chunkAlignmentAllocationBlocksLog2 (i * 64 + chunkBegin)

/-- What holds before the word `m` is examined. -/
structure ChunkSearch.Ok (b : SearchedBitmap) (req : ChunkRequest) (log2 m : Nat)
    (s : ChunkSearch) : Prop where
  next : NextChunk req.allocatedFullwordChunks s.nextAllocatedFullwordChunk m
  left : ChunksLeft req.allocatedFullwordChunks s.allocatedFullwordChunks m
  excess_le : s.bestExcess + req.chunkAllocationBlocks ≤ 2 ^ log2
  excess_lens : ∀ k < 2 ^ (6 - log2), (lane (2 ^ log2) s.maxExcessLen k).toNat = s.bestExcess
  best : ∀ c ∈ s.best, c.Ok b req log2

def OutcomeOk (b : SearchedBitmap) (req : ChunkRequest) (log2 m : Nat) :
    Outcome ChunkSearch → Prop
  | .found chunk => FreeChunk b req.allocatedFullwordChunks req.chunkAllocationBlocks
      req.chunkAlignmentAllocationBlocksLog2 chunk
  | .stop s => ∀ c ∈ s.best, c.Ok b req log2
  | .next s => s.Ok b req log2 m

theorem ChunkSearch.Ok.mono {log2 m' : Nat} (h : s.Ok b req log2 m) (hle : m ≤ m') :
    s.Ok b req log2 m' :=
  { h with next := h.next.mono hle, left := h.left.mono hle }

structure LengthOk (req : ChunkRequest) (blocks : ContainingBlocks) (w : BitmapWord) (k len : Nat) :
    Prop where
  lt : len < 2 ^ 32
  string : req.chunkAllocationBlocks ≤ len → len ≤ 2 ^ blocks.log2 →
    len ≤ blockMaxstrLen (~~~w) blocks.log2 req.chunkAlignmentAllocationBlocksLog2 k ∧
      len % 2 ^ req.chunkAlignmentAllocationBlocksLog2 = 0

variable {n : Nat}

/-- Where there is no alignment, the excess is that of the length, and a length that
is too short wraps around. -/
theorem fits_of_excess {len last bestExcess blockLen : Nat} (hlen : len < 2 ^ 32) (hn : n ≤ 64)
    (hlast : last < 64) (hle : bestExcess + n ≤ blockLen) (hblock : blockLen ≤ 64)
    (hexcess : ((last + 1 + 2 ^ 32 - (last + 1 + 2 ^ 32 - len) % 2 ^ 32) % 2 ^ 32 + 2 ^ 32 - n) %
      2 ^ 32 ≤ bestExcess) : n ≤ len ∧ len ≤ blockLen := by
  omega

variable {outcome : Outcome ChunkSearch}

theorem examineFreeBlocks_of_ok {freeLsbs : BitmapWord}
    (hs : s.Ok b req blocks.log2 m) (hfree : FreeWord b i w)
    (hapart : WordApart req.allocatedFullwordChunks i) (hlsbs : IsFreeLsbs w blocks.log2 freeLsbs)
    (hne : freeLsbs ≠ 0) (h : examineFreeBlocks pr req blocks i w freeLsbs s = .ok outcome) :
    OutcomeOk b req blocks.log2 m outcome := by
  obtain ⟨-, -, h⟩ := bind_eq_ok h
  obtain ⟨bestSplit, -, h⟩ := bind_eq_ok h
  obtain ⟨splitLog2, hsplit, h⟩ := bind_eq_ok h
  have hsize := blockAllocSplitBlockSizeLog2_of_ok hlsbs hne hsplit
  split at h
  · rename_i hless
    obtain ⟨-, -, h⟩ := bind_eq_ok h
    cases h
    refine { hs with best := ?_ }
    rintro c hc
    obtain rfl := Option.mem_some_iff.mp hc
    exact ⟨hfree, hapart, splittable_of_splitSize hsize hless, hsize.ge⟩
  · cases h
    exact hs

section Candidate

variable (hblocks : blocks.Valid req)
include hblocks

theorem ContainingBlocks.Valid.pos : 0 < blocks.log2 :=
  lt_of_le_of_lt (zero_le _) hblocks.alignment_lt

theorem ContainingBlocks.Valid.chunk_pos : 0 < req.chunkAllocationBlocks := by
  have hhalf := hblocks.half_lt
  have hpos := Nat.two_pow_pos blocks.log2
  omega

theorem freeChunk_of_string {k strBegin len d : Nat} (hfree : FreeWord b i w)
    (hapart : WordApart req.allocatedFullwordChunks i) (hk : k < 2 ^ (6 - blocks.log2))
    (hstr : ∀ j < len, (~~~w).getLsbD (2 ^ blocks.log2 * k + strBegin + j) = true)
    (halign : strBegin % 2 ^ req.chunkAlignmentAllocationBlocksLog2 = 0)
    (halign' : d % 2 ^ req.chunkAlignmentAllocationBlocksLog2 = 0)
    (hend : strBegin + len ≤ 2 ^ blocks.log2) (hd : d + req.chunkAllocationBlocks ≤ len) :
    FreeChunk b req.allocatedFullwordChunks req.chunkAllocationBlocks
      req.chunkAlignmentAllocationBlocksLog2 (i * 64 + (2 ^ blocks.log2 * k + (strBegin + d))) := by
  have hblock := hblocks.lsbs.block_le hk
  have hhalf := hblocks.half_lt
  have hlog2 := hblocks.lsbs.log2_le
  have hlt := hblocks.alignment_lt
  refine hfree.freeChunk hapart (by omega) (by omega) (by omega) ?_ (fun j hj => ?_)
  · exact mod_eq_zero_of_dvd (Nat.dvd_add (dvd_of_mod_eq_zero (block_aligned hlt.le k))
      (Nat.dvd_add (dvd_of_mod_eq_zero halign) (dvd_of_mod_eq_zero halign')))
  · have hbit := hstr (d + j) (by omega)
    rw [show 2 ^ blocks.log2 * k + strBegin + (d + j) = 2 ^ blocks.log2 * k + (strBegin + d) + j by omega,
      getLsbD_not, Bool.and_eq_true, Bool.not_eq_true'] at hbit
    exact hbit.2

variable {outcome : Outcome ChunkSearch} {lens : BitmapWord}

theorem updateBest_of_ok {chunkBegin alignedSet excess : Nat} (hs : s.Ok b req blocks.log2 m)
    (hchunk : FreeChunk b req.allocatedFullwordChunks req.chunkAllocationBlocks
      req.chunkAlignmentAllocationBlocksLog2 (i * 64 + chunkBegin))
    (h : updateBest pr blocks i chunkBegin alignedSet excess s = .ok outcome) :
    OutcomeOk b req blocks.log2 m outcome := by
  obtain ⟨-, -, h⟩ := bind_eq_ok h
  obtain ⟨-, -, h⟩ := bind_eq_ok h
  have hbest : ∀ c ∈ some (FoundCandidate.chunkInPartialContainingBlock i chunkBegin alignedSet),
      c.Ok b req blocks.log2 := by
    rintro c hc
    obtain rfl := Option.mem_some_iff.mp hc
    exact hchunk
  split at h
  · rename_i hlt
    obtain ⟨maxExcessLen, hmul, h⟩ := bind_eq_ok h
    cases h
    obtain rfl := fitting_eq_ok hmul
    have hle := hs.excess_le
    have hfits : excess < 2 ^ 2 ^ blocks.log2 :=
      lt_of_lt_of_le (by omega) (Nat.lt_two_pow_self (n := 2 ^ blocks.log2)).le
    exact { hs with
      excess_le := by dsimp only; omega
      excess_lens := fun k hk => hblocks.lsbs.toNat_lane_mul hfits hk
      best := hbest }
  · obtain ⟨-, -, h⟩ := bind_eq_ok h
    obtain ⟨-, -, h⟩ := bind_eq_ok h
    obtain ⟨-, -, h⟩ := bind_eq_ok h
    split at h
    · cases h
    · cases h
    · split at h
      · cases h
        exact { hs with best := hbest }
      · cases h
        exact hs

theorem examineCandidate_of_ok {k : Nat} (hs : s.Ok b req blocks.log2 m) (hfree : FreeWord b i w)
    (hapart : WordApart req.allocatedFullwordChunks i) (hk : k < 2 ^ (6 - blocks.log2))
    (hlen : LengthOk req blocks w k (lane (2 ^ blocks.log2) lens k).toNat)
    (hcand : req.chunkAlignmentAllocationBlocksLog2 ≠ 0 →
      req.chunkAllocationBlocks ≤ (lane (2 ^ blocks.log2) lens k).toNat ∧
        (lane (2 ^ blocks.log2) lens k).toNat ≤ 2 ^ blocks.log2)
    (h : examineCandidate pr req blocks i w lens (stringEnds (blocks.log2 - 1) 0 (~~~w))
      (2 ^ blocks.log2 * k) s = .ok outcome) : OutcomeOk b req blocks.log2 m outcome := by
  have hlog2 := hblocks.lsbs.log2_le
  have hblock := hblocks.lsbs.block_le hk
  have hhalf := hblocks.half_lt
  have hchunk := hblocks.chunk_lt
  have hexcess := hs.excess_le
  obtain ⟨-, -, h⟩ := bind_eq_ok h
  rw [toNat_field lens hlog2 k] at h
  generalize hfield : (lane (2 ^ blocks.log2) lens k).toNat = len at h hlen hcand
  rw [mod_eq_of_lt hlen.lt] at h
  obtain ⟨-, -, h⟩ := bind_eq_ok h
  obtain ⟨-, -, h⟩ := bind_eq_ok h
  obtain ⟨last, hlast, h⟩ := bind_eq_ok h
  obtain ⟨-, -, h⟩ := bind_eq_ok h
  obtain ⟨alignedBegin, hbegin, h⟩ := bind_eq_ok h
  obtain ⟨strBegin, hstrBegin, h⟩ := bind_eq_ok h
  obtain ⟨strLen, hstrLen, h⟩ := bind_eq_ok h
  obtain ⟨excess, hexcess', h⟩ := bind_eq_ok h
  have hbegin := fitting_eq_ok hbegin
  have hlt : last < 64 := BitVec.lt_of_getLsbD (ilog2_of_ok hlast).1
  split at h
  · cases h
    exact hs
  · rename_i hbest
    have hfits : req.chunkAllocationBlocks ≤ len ∧ len ≤ 2 ^ blocks.log2 := by
      by_cases halign : req.chunkAlignmentAllocationBlocksLog2 = 0
      · rw [maxstrBegin, if_pos halign] at hstrBegin
        cases hstrBegin
        obtain rfl := fitting_eq_ok hstrLen
        obtain rfl := fitting_eq_ok hexcess'
        rw [halign, roundDownPow2, pow_zero, Nat.div_one, mul_one] at hbegin
        rw [hbegin] at hbest
        exact fits_of_excess hlen.lt (by omega) hlt hexcess (by omega) (Nat.le_of_not_lt hbest)
      · exact hcand halign
    obtain ⟨hle, hmod⟩ := hlen.string hfits.1 hfits.2
    have hlong : 2 ^ blocks.log2 < 2 * blockMaxstrLen (~~~w) blocks.log2
        req.chunkAlignmentAllocationBlocksLog2 k := by omega
    obtain ⟨hlast', hend, hall⟩ := longest_string hblocks.lsbs hblocks.pos hk hlong hlast
    have hdown : roundDownPow2 (last + 1) req.chunkAlignmentAllocationBlocksLog2 ≤ last + 1 :=
      div_mul_le_self _ _
    have hdvd : 2 ^ req.chunkAlignmentAllocationBlocksLog2 ∣
      roundDownPow2 (last + 1) req.chunkAlignmentAllocationBlocksLog2 := dvd_mul_left _ _
    generalize roundDownPow2 (last + 1) req.chunkAlignmentAllocationBlocksLog2 = strEnd
      at h hbegin hend hall hdown hdvd
    obtain rfl : alignedBegin = strEnd - len := by omega
    have halign := mod_eq_zero_of_dvd (Nat.dvd_sub hdvd (dvd_of_mod_eq_zero hmod))
    have hstring (j : Nat) (hj : j < len) :
        (~~~w).getLsbD (2 ^ blocks.log2 * k + (strEnd - len) + j) = true := by
      have hbit := hall (blockMaxstrLen (~~~w) blocks.log2
        req.chunkAlignmentAllocationBlocksLog2 k - len + j) (by omega)
      rwa [show 2 ^ blocks.log2 * k + (strEnd - blockMaxstrLen (~~~w) blocks.log2
        req.chunkAlignmentAllocationBlocksLog2 k) + (blockMaxstrLen (~~~w) blocks.log2
        req.chunkAlignmentAllocationBlocksLog2 k - len + j) =
        2 ^ blocks.log2 * k + (strEnd - len) + j by omega] at hbit
    have hfound (d : Nat) (hd : d = 0 ∨ d = len - req.chunkAllocationBlocks) :
        FreeChunk b req.allocatedFullwordChunks req.chunkAllocationBlocks
          req.chunkAlignmentAllocationBlocksLog2
          (i * 64 + (2 ^ blocks.log2 * k + (strEnd - len + d))) := by
      refine freeChunk_of_string hblocks hfree hapart hk hstring halign ?_ (by omega) ?_
      · rcases hd with rfl | rfl
        · exact zero_mod _
        · exact mod_eq_zero_of_dvd (Nat.dvd_sub (dvd_of_mod_eq_zero hmod)
            (dvd_of_mod_eq_zero hblocks.chunk_mod))
      · rcases hd with rfl | rfl <;> omega
    split at h
    · cases h
      have hchunk := hfound 0 (.inl rfl)
      rwa [add_zero, ← add_assoc] at hchunk
    · obtain ⟨paddingHead, -, h⟩ := bind_eq_ok h
      obtain ⟨paddingTail, -, h⟩ := bind_eq_ok h
      obtain ⟨movable, hmovable, h⟩ := bind_eq_ok h
      obtain ⟨-, -, h⟩ := bind_eq_ok h
      obtain ⟨setAfter, -, h⟩ := bind_eq_ok h
      obtain ⟨tail, -, h⟩ := bind_eq_ok h
      obtain ⟨setBefore, -, h⟩ := bind_eq_ok h
      obtain ⟨chunkBegin, hchunkBegin, h⟩ := bind_eq_ok h
      obtain ⟨chunkBegin', hchunkBegin', h⟩ := bind_eq_ok h
      have hmovable := fitting_eq_ok hmovable
      have hchunkBegin := fitting_eq_ok hchunkBegin
      have hchunkBegin' := fitting_eq_ok hchunkBegin'
      refine updateBest_of_ok hblocks hs ?_ h
      split at hchunkBegin
      · have hchunk := hfound (len - req.chunkAllocationBlocks) (.inr rfl)
        rwa [show chunkBegin' = 2 ^ blocks.log2 * k +
          (strEnd - len + (len - req.chunkAllocationBlocks)) by omega]
      · have hchunk := hfound 0 (.inl rfl)
        rwa [show chunkBegin' = 2 ^ blocks.log2 * k + (strEnd - len + 0) by omega]

theorem candidatesLoop_of_ok (fuel : Nat)
    {blockBegin : Nat} {candidatesLsbs : BitmapWord} (hs : s.Ok b req blocks.log2 m)
    (hfree : FreeWord b i w) (hapart : WordApart req.allocatedFullwordChunks i)
    (hlens : ∀ k < 2 ^ (6 - blocks.log2),
      LengthOk req blocks w k (lane (2 ^ blocks.log2) lens k).toNat)
    (hcands : ∀ p, candidatesLsbs.getLsbD p = true →
      ∃ k < 2 ^ (6 - blocks.log2), blockBegin + p = 2 ^ blocks.log2 * k ∧
        (req.chunkAlignmentAllocationBlocksLog2 ≠ 0 →
          req.chunkAllocationBlocks ≤ (lane (2 ^ blocks.log2) lens k).toNat ∧
            (lane (2 ^ blocks.log2) lens k).toNat ≤ 2 ^ blocks.log2))
    (h : candidatesLoop pr req blocks i w lens (stringEnds (blocks.log2 - 1) 0 (~~~w)) fuel
      blockBegin candidatesLsbs s = .ok outcome) : OutcomeOk b req blocks.log2 m outcome := by
  induction fuel generalizing blockBegin candidatesLsbs s with
  | zero => cases h
  | succ fuel ih =>
    rw [candidatesLoop] at h
    split at h
    · cases h
      exact hs
    · rename_i hne
      obtain ⟨rest, hrest, h⟩ := bind_eq_ok h
      obtain ⟨outcome', hstep, h⟩ := bind_eq_ok h
      obtain ⟨k, hk, hbegin, hcand⟩ := hcands _ (BitVec.getLsbD_true_ctz_of_ne_zero hne)
      have hblock := hblocks.lsbs.block_le hk
      generalize candidatesLsbs.ctz.toNat = offset at h hrest hstep hbegin
      rw [hbegin] at h hstep
      have hok := examineCandidate_of_ok hblocks hs hfree hapart hk (hlens k hk) hcand hstep
      cases outcome' with
      | next s' =>
        refine ih hok (fun p hp => ?_) h
        -- The position the rest is looked at from is the block's end.
        have hp' : candidatesLsbs.getLsbD (offset + 2 ^ blocks.log2 + p) = true := by
          rw [nextCandidates] at hrest
          split at hrest
          · rename_i hend
            obtain rfl := fitting_eq_ok hrest
            rwa [mod_eq_of_lt (by omega), BitVec.getLsbD_ushiftRight] at hp
          · cases hrest
            rw [show (0 : BitmapWord).getLsbD p = false from getLsbD_zero] at hp
            cases hp
        obtain ⟨k', hk', hbegin', hcand'⟩ := hcands _ hp'
        exact ⟨k', hk', by omega, hcand'⟩
      | found chunk =>
        cases h
        exact hok
      | stop s' =>
        cases h
        exact hok

/-- A length of an accepted block is in the range between the chunk's and the block's. -/
theorem fits_of_lane_sub {maxExcessLen : BitmapWord} {k : Nat} {excessLens : BitmapWord}
    {bestExcess : Nat} (hk : k < 2 ^ (6 - blocks.log2))
    (hsub : lane (2 ^ blocks.log2) excessLens k =
      lane (2 ^ blocks.log2) lens k - lane (2 ^ blocks.log2) blocks.minMaxstrLen k)
    (hmax : (lane (2 ^ blocks.log2) maxExcessLen k).toNat = bestExcess)
    (hle : bestExcess + req.chunkAllocationBlocks ≤ 2 ^ blocks.log2)
    (hcand : (lane (2 ^ blocks.log2) excessLens k).toNat ≤
      (lane (2 ^ blocks.log2) maxExcessLen k).toNat) :
    req.chunkAllocationBlocks ≤ (lane (2 ^ blocks.log2) lens k).toNat ∧
      (lane (2 ^ blocks.log2) lens k).toNat ≤ 2 ^ blocks.log2 := by
  rw [hsub, BitVec.toNat_sub, hmax, hblocks.min_lens k hk] at hcand
  have hlt := (lane (2 ^ blocks.log2) lens k).isLt
  have hpow := Nat.lt_two_pow_self (n := 2 ^ blocks.log2)
  generalize (lane (2 ^ blocks.log2) lens k).toNat = len at hcand hlt ⊢
  generalize 2 ^ 2 ^ blocks.log2 = bound at hcand hlt hpow
  rcases lt_or_ge len req.chunkAllocationBlocks with hshort | hge
  · rw [mod_eq_of_lt (by omega)] at hcand
    omega
  · rw [show bound - req.chunkAllocationBlocks + len = len - req.chunkAllocationBlocks + bound by
        omega, add_mod_right, mod_eq_of_lt (by omega)] at hcand
    omega

theorem lengthOk_of_found {k len : Nat} (hk : k < 2 ^ (6 - blocks.log2))
    (hlt : len < 2 ^ 2 ^ blocks.log2)
    (hund : req.chunkAlignmentAllocationBlocksLog2 = 0 → Disturbed (~~~w) blocks.log2 k →
      3 * 2 ^ blocks.log2 < 4 * req.chunkAllocationBlocks)
    (h : LengthFound (~~~w) blocks.log2 req.chunkAlignmentAllocationBlocksLog2 k len) :
    LengthOk req blocks w k len := by
  have hmod := maxstrLen_mod (~~~w) (2 ^ blocks.log2 * k) (2 ^ blocks.log2)
    req.chunkAlignmentAllocationBlocksLog2
  have hle := maxstrLen_le (~~~w) (2 ^ blocks.log2 * k) (2 ^ blocks.log2)
    req.chunkAlignmentAllocationBlocksLog2
  have hblock := hblocks.lsbs.block_le hk
  rcases h with ⟨rfl, -⟩ | ⟨halign, hdist, h⟩
  · exact ⟨lt_of_le_of_lt (le_trans hle (show _ ≤ 64 by omega)) (by decide),
      fun _ _ => ⟨le_refl _, hmod⟩⟩
  · refine ⟨?_, fun hge hlen => ⟨?_, by rw [halign, pow_zero, mod_one]⟩⟩
    · -- There is no block after the one as large as the word.
      obtain ⟨t, -, hlsb, -⟩ := hdist
      have hend := BitVec.lt_of_getLsbD hlsb
      rw [mul_succ] at hend
      have hlog2 : blocks.log2 < 6 := by
        by_contra hge
        have hpow : 2 ^ 6 ≤ 2 ^ blocks.log2 := Nat.pow_le_pow_right (by omega) (Nat.le_of_not_lt hge)
        omega
      have hpow : 2 ^ blocks.log2 ≤ 2 ^ 5 := Nat.pow_le_pow_right (by omega) (by omega)
      exact lt_of_lt_of_le hlt (Nat.pow_le_pow_right (by omega) hpow)
    · have hfar := hund halign hdist
      omega

theorem examineBlocks_of_ok (hs : s.Ok b req blocks.log2 m)
    (hfree : FreeWord b i w) (hapart : WordApart req.allocatedFullwordChunks i)
    (hund : ∀ k < 2 ^ (6 - blocks.log2), req.chunkAlignmentAllocationBlocksLog2 = 0 →
      Disturbed (~~~w) blocks.log2 k → 3 * 2 ^ blocks.log2 < 4 * req.chunkAllocationBlocks)
    (h : examineBlocks pr req blocks i w s = .ok outcome) : OutcomeOk b req blocks.log2 m outcome := by
  obtain ⟨maxLen, lens, hlens, hfound⟩ :=
    blocksMaxstrLens_ok pr (~~~w) hblocks.lsbs hblocks.anchors hblocks.alignment_lt
  rw [examineBlocks, hlens, ok_bind] at h
  dsimp only at h
  split at h
  · cases h
    exact hs
  · obtain ⟨excessLens, hsub, hexcess⟩ := blocksFieldsSub_ok pr hblocks.lsbs lens blocks.minMaxstrLen
    obtain ⟨cands, hgeq, hcands⟩ := blocksFieldsGeqLsbs_ok pr hblocks.lsbs s.maxExcessLen excessLens
    rw [hsub, ok_bind, hgeq, ok_bind] at h
    have hok (k : Nat) (hk : k < 2 ^ (6 - blocks.log2)) :=
      lengthOk_of_found hblocks hk (isLt _) (hund k hk) (hfound k hk)
    have hcand (p : Nat) (hp : cands.getLsbD p = true) :
        ∃ k < 2 ^ (6 - blocks.log2), 0 + p = 2 ^ blocks.log2 * k ∧
          (req.chunkAlignmentAllocationBlocksLog2 ≠ 0 →
            req.chunkAllocationBlocks ≤ (lane (2 ^ blocks.log2) lens k).toNat ∧
              (lane (2 ^ blocks.log2) lens k).toNat ≤ 2 ^ blocks.log2) := by
      obtain ⟨k, hk, rfl, hle⟩ := (hcands p).mp hp
      exact ⟨k, hk, zero_add _, fun _ =>
        fits_of_lane_sub hblocks hk (hexcess k hk) (hs.excess_lens k hk) hs.excess_le hle⟩
    split at h
    · cases h
      exact hs
    · rename_i hne
      split at h
      · obtain ⟨freeLsbs, hlsbs, hbits⟩ := freeBlocksLsbs_ok pr hblocks.lsbs w
        rw [hlsbs, ok_bind] at h
        obtain ⟨-, -, h⟩ := bind_eq_ok h
        obtain ⟨-, -, h⟩ := bind_eq_ok h
        split at h
        · rename_i heq
          exact examineFreeBlocks_of_ok hs hfree hapart hbits (by rwa [heq]) h
        · obtain ⟨-, -, h⟩ := bind_eq_ok h
          refine candidatesLoop_of_ok hblocks 65 hs hfree hapart hok (fun p hp => ?_) h
          by_cases hset : cands.getLsbD p = true
          · exact hcand p hset
          · -- A free block not found to be a candidate: its length is off unless there is
            -- an alignment.
            rw [BitVec.getLsbD_xor, Bool.eq_false_iff.mpr hset, Bool.false_xor, hbits p] at hp
            obtain ⟨hp, hmod, hclear⟩ := hp
            obtain ⟨k, hk, rfl⟩ := hblocks.lsbs.exists_block hp hmod
            refine ⟨k, hk, zero_add _, fun halign => ?_⟩
            have hlen := blockMaxstrLen_of_free hblocks.alignment_lt.le hclear
              (hblocks.lsbs.block_le hk)
            rcases hfound k hk with ⟨heq, -⟩ | ⟨hzero, -⟩
            · omega
            · exact absurd hzero halign
      · exact candidatesLoop_of_ok hblocks 65 hs hfree hapart hok hcand h

theorem examineFreeWord_of_ok
    (hchunks : FullwordChunks b req.allocatedFullwordChunks) (hs : s.Ok b req blocks.log2 i)
    (hfree : FreeWord b i 0) (h : examineFreeWord req i s = .ok outcome) :
    OutcomeOk b req blocks.log2 i outcome := by
  have hlog2 := hblocks.lsbs.log2_le
  have hlt := hblocks.alignment_lt
  have hchunk := hblocks.chunk_lt
  have hpow : 2 ^ blocks.log2 ≤ 2 ^ 6 := Nat.pow_le_pow_right (by omega) hlog2
  rw [examineFreeWord] at h
  split at h
  · cases h
    exact hs
  · obtain ⟨next, hnext, h⟩ := bind_eq_ok h
    obtain ⟨hnext', hbeyond, hnone⟩ := nextFullwordChunk_of_ok hs.left hs.next hnext
    have hleft : ChunksLeft req.allocatedFullwordChunks
        (if next.isSome then s.allocatedFullwordChunks else none) i := by
      cases next with
      | none => exact .inr ⟨rfl, hnone rfl⟩
      | some r => exact hs.left
    dsimp only at h
    split at h
    · cases h
      exact { hs with next := hnext', left := hleft }
    · rename_i hin
      have hapart := hchunks.wordApart hnext' hbeyond hnone (Bool.eq_false_iff.mpr hin)
      split at h
      · cases h
        refine { hs with next := hnext', left := hleft, best := ?_ }
        rintro c hc
        obtain rfl := Option.mem_some_iff.mp hc
        exact ⟨hfree, hapart, splittable_zero, hlog2⟩
      · cases h
        have hfound := hfree.freeChunk (p := 0) (n := req.chunkAllocationBlocks) hapart (by omega)
          (by omega) (show req.chunkAlignmentAllocationBlocksLog2 ≤ 6 by omega) (zero_mod _)
          (fun j _ => getLsbD_zero)
        rwa [add_zero] at hfound

end Candidate

def Undisturbed (b : SearchedBitmap) (log2 : Nat) : Prop :=
  ∀ i < b.imageBitmapWords, ∀ k < 2 ^ (6 - log2), ¬ Disturbed (~~~b.imageWord i (b.word i)) log2 k

def ChunkRequest.Tolerant (req : ChunkRequest) (log2 : Nat) : Prop :=
  req.optimizePlacement = false ∨ req.chunkAlignmentAllocationBlocksLog2 ≠ 0 ∨
    3 * 2 ^ log2 < 4 * req.chunkAllocationBlocks

section Search

variable (hvalid : b.Valid) (hchunks : FullwordChunks b req.allocatedFullwordChunks)
  (hblocks : blocks.Valid req) (hund : req.Tolerant blocks.log2 ∨ Undisturbed b blocks.log2)
include hvalid hchunks hblocks hund

theorem chunkSearchStep_of_ok (hs : s.Ok b req blocks.log2 i) (hi : i < b.imageBitmapWords)
    (h : chunkSearchStep pr b req blocks i (b.word i) s = .ok outcome) :
    OutcomeOk b req blocks.log2 i outcome := by
  obtain ⟨remaining, -, h⟩ := bind_eq_ok h
  dsimp only at h
  have hs' : ChunkSearch.Ok b req blocks.log2 i { s with remainingDistance := remaining } :=
    { hs with }
  split at h
  · obtain ⟨-, -, h⟩ := bind_eq_ok h
    cases h
    exact hs.best
  · have hfree := hvalid.freeWord hi
    split at h
    · cases h
      exact hs'
    · split at h
      · rename_i hzero
        rw [hzero] at hfree
        exact examineFreeWord_of_ok hblocks hchunks hs' hfree h
      · rename_i hne
        have hapart := hchunks.wordApart_of_ne hvalid hne
        split at h
        · rename_i hopt
          refine examineBlocks_of_ok hblocks hs' hfree hapart (fun k hk halign hdist => ?_) h
          rcases hund with hreq | hbits
          · rcases hreq with hreq | hreq | hreq
            · rw [hopt] at hreq
              cases hreq
            · exact absurd halign hreq
            · exact hreq
          · exact absurd hdist (hbits i hi k hk)
        · obtain ⟨pos, hpos, h⟩ := bind_eq_ok h
          split at h
          · cases h
            have hpos' := hblocks.chunk_pos
            have hlog2 := hblocks.lsbs.log2_le
            have hlt := hblocks.alignment_lt
            obtain ⟨halign, hend, hstr⟩ :=
              findStrWithMinLen_of_ok hblocks.anchors hpos' hblocks.chunk_mod hpos
            refine hfree.freeChunk hapart (by omega) hend (by omega) halign (fun j hj => ?_)
            have hbit := hstr j hj
            rw [getLsbD_not, Bool.and_eq_true, Bool.not_eq_true'] at hbit
            exact hbit.2
          · cases h
            exact hs'

theorem chunkSearchLoop_of_ok {items : List (Nat × BitmapWord)} {n : Nat}
    (hitems : items = (List.range' n items.length).map (fun i => (i, b.word i)))
    (hlen : n + items.length ≤ b.imageBitmapWords) (hs : s.Ok b req blocks.log2 n)
    (h : chunkSearchLoop pr b req blocks items s = .ok outcome) :
    ∃ m, OutcomeOk b req blocks.log2 m outcome := by
  induction items generalizing n s with
  | nil =>
    cases h
    exact ⟨n, hs⟩
  | cons item items ih =>
    obtain ⟨i, w⟩ := item
    rw [length_cons, range'_succ, map_cons, List.cons.injEq] at hitems
    obtain ⟨hitem, hitems⟩ := hitems
    obtain ⟨rfl, rfl⟩ := Prod.mk.inj hitem
    rw [length_cons] at hlen
    obtain ⟨outcome', hstep, h⟩ := bind_eq_ok h
    have hok := chunkSearchStep_of_ok hvalid hchunks hblocks hund hs (by omega) hstep
    cases outcome' with
    | next s' => exact ih hitems (by omega) (ChunkSearch.Ok.mono hok (le_succ i)) h
    | found chunk =>
      obtain rfl := Except.ok.inj h
      exact ⟨i, hok⟩
    | stop s' =>
      obtain rfl := Except.ok.inj h
      exact ⟨i, hok⟩

end Search

theorem select_of_ok (hblocks : blocks.Valid req) (hbest : ∀ c ∈ s.best, c.Ok b req blocks.log2)
    {chunk : Nat} (h : s.select pr = .ok (some chunk)) :
    FreeChunk b req.allocatedFullwordChunks req.chunkAllocationBlocks
      req.chunkAlignmentAllocationBlocksLog2 chunk := by
  rw [ChunkSearch.select] at h
  split at h
  · cases h
  · rename_i hc
    cases Except.ok.inj h
    exact hbest _ hc
  · rename_i c hc
    obtain ⟨block, hselect, h⟩ := bind_eq_ok h
    cases Except.ok.inj h
    have hok : c.Ok b req.allocatedFullwordChunks blocks.log2 := hbest _ hc
    exact hok.freeChunk hblocks.chunk_lt.le hblocks.alignment_lt.le hblocks.lsbs.log2_le hselect

theorem roundUpNextPow2U32_of_lt (hpos : 0 < n) (hlt : n < 64) :
    roundUpNextPow2U32 n = some (2 ^ significantBits (n - 1)) := by
  rw [roundUpNextPow2U32, show (n + 2 ^ 32 - 1) % 2 ^ 32 = n - 1 by omega, if_pos (by omega)]

theorem le_two_pow_significantBits (hpos : 0 < n) : n ≤ 2 ^ significantBits (n - 1) := by
  have hlt := (TreeShape.significantBits_le_iff (n - 1) _).mp (le_refl _)
  omega

theorem two_pow_significantBits_lt (hlt : 1 < n) : 2 ^ significantBits (n - 1) < 2 * n := by
  cases hbits : significantBits (n - 1) with
  | zero => omega
  | succ k =>
    have hle := mt (TreeShape.significantBits_le_iff (n - 1) k).mpr (by omega)
    rw [pow_succ]
    omega

theorem findFreeSubwordChunk_of_ok (hvalid : b.Valid)
    (hchunks : FullwordChunks b req.allocatedFullwordChunks)
    (hlt : 1 < req.chunkAllocationBlocks) (hlt' : req.chunkAllocationBlocks < 64)
    (hdvd : 2 ^ req.chunkAlignmentAllocationBlocksLog2 ∣ req.chunkAllocationBlocks)
    (hund : req.chunkAllocationBlocks = 2 ^ significantBits (req.chunkAllocationBlocks - 1) ∨
      req.Tolerant (significantBits (req.chunkAllocationBlocks - 1)) ∨
      Undisturbed b (significantBits (req.chunkAllocationBlocks - 1))) {chunk : Nat}
    (h : findFreeSubwordChunk pr b req = .ok (some chunk)) :
    FreeChunk b req.allocatedFullwordChunks req.chunkAllocationBlocks
      req.chunkAlignmentAllocationBlocksLog2 chunk := by
  obtain ⟨-, -, h⟩ := bind_eq_ok h
  obtain ⟨-, -, h⟩ := bind_eq_ok h
  obtain ⟨-, -, h⟩ := bind_eq_ok h
  have hlog2 : significantBits (req.chunkAllocationBlocks - 1) ≤ 6 :=
    (TreeShape.significantBits_le_iff _ _).mpr (by omega)
  have hge := le_two_pow_significantBits (n := req.chunkAllocationBlocks) (by omega)
  have hhalf := two_pow_significantBits_lt hlt
  have hle := le_of_dvd (by omega) hdvd
  rw [roundUpNextPow2U32_of_lt (by omega) hlt'] at h
  dsimp only at h
  rw [log2_two_pow] at h
  generalize significantBits (req.chunkAllocationBlocks - 1) = log2 at h hlog2 hge hhalf hund
  split at h
  · rename_i heq
    have hblock := findFreeBlock_of_ok hvalid ⟨fun block hblock => (by cases hblock), hchunks,
      .inr ⟨rfl, rfl⟩⟩ hlog2 h
    rw [heq] at hblock
    have halign : req.chunkAlignmentAllocationBlocksLog2 ≤ log2 := by
      rw [← heq] at hle
      exact (Nat.pow_le_pow_iff_right (by omega)).mp hle
    refine { hblock with aligned := ?_ }
    exact mod_eq_zero_of_dvd
      (dvd_trans (pow_dvd_pow 2 halign) (dvd_of_mod_eq_zero hblock.aligned))
  · rename_i hne
    obtain ⟨-, -, h⟩ := bind_eq_ok h
    obtain ⟨lsbsMask, hlsbs, h⟩ := bind_eq_ok h
    obtain ⟨anchorsMask, hanchors, h⟩ := bind_eq_ok h
    obtain ⟨excess, hexcess, h⟩ := bind_eq_ok h
    obtain ⟨maxExcessLen, hmaxExcess, h⟩ := bind_eq_ok h
    obtain ⟨minMaxstrLen, hmin, h⟩ := bind_eq_ok h
    obtain ⟨outcome, hloop, h⟩ := bind_eq_ok h
    have hfits : 2 ^ log2 < 2 ^ 2 ^ log2 := Nat.lt_two_pow_self
    have hexcess := fitting_eq_ok hexcess
    obtain rfl : excess = 2 ^ log2 - req.chunkAllocationBlocks := by omega
    obtain rfl := fitting_eq_ok hmaxExcess
    obtain rfl := fitting_eq_ok hmin
    have hmask := isLsbsMask_of_ok hlsbs
    have hblocks : ContainingBlocks.Valid req ⟨log2, lsbsMask, anchorsMask,
        lsbsMask * ofNat 64 req.chunkAllocationBlocks⟩ :=
      ⟨hmask, isLsbsMask_of_ok hanchors,
        (Nat.pow_lt_pow_iff_right (show 1 < 2 by omega)).mp (show 2 ^ _ < 2 ^ log2 by omega),
        mod_eq_zero_of_dvd hdvd, lt_of_le_of_ne hge (Ne.symm hne), hhalf,
        fun k hk => hmask.toNat_lane_mul (by omega) hk⟩
    have hs : ChunkSearch.Ok b req log2 0 ⟨req.allocatedFullwordChunks, none,
        2 ^ log2 - req.chunkAllocationBlocks,
        lsbsMask * ofNat 64 (2 ^ log2 - req.chunkAllocationBlocks), none,
        b.imageBitmapWords + 1⟩ := by
      refine ⟨fun r hr => (by cases hr), .inl rfl, ?_, fun k hk => ?_, fun c hc => (by cases hc)⟩
      · exact (Nat.sub_add_cancel hge).le
      · exact hmask.toNat_lane_mul (by omega) hk
    have htake := (newAtBitmapWordIndex_at b.bitmap hvalid.allocs_sorted hvalid.frees_sorted 0).take
      hvalid.allocs_sorted hvalid.frees_sorted b.imageBitmapWords
    have hlen := congrArg List.length htake
    rw [length_map, length_range'] at hlen
    rw [SearchedBitmap.wordIterAt] at hloop
    obtain ⟨m, hok⟩ := chunkSearchLoop_of_ok hvalid hchunks hblocks (hund.resolve_left (Ne.symm hne))
      (by rw [hlen, htake]; rfl) (by omega) hs hloop
    cases outcome with
    | found chunk' =>
      cases Except.ok.inj h
      exact hok
    | stop s => exact select_of_ok hblocks hok h
    | next s => exact select_of_ok hblocks hok.best h

end Soundness

end CocoonFs.FindFreeSubwordChunk
