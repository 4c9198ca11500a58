import Mathlib
import CocoonFs.FreeChunks

namespace CocoonFs.FindFreeBlock

open Bitmap BitmapWordIters BitmapWords Checked Extents FreeChunks List Nat

/-- How the examination of a word ends: with a block found, with the search given
up, or with the search to be continued. -/
inductive Outcome (σ : Type) where
  | found (block : Nat)
  | stop (s : σ)
  | next (s : σ)

/-- Whether there is an allocated block in the word, past the ones before it. -/
def passAllocatedBlocks (i : Nat) : List Nat → Bool × List Nat
  | [] => (false, [])
  | block :: blocks =>
    match compare (block / 64) i with
    | .lt => passAllocatedBlocks i blocks
    | .eq => (true, blocks)
    | .gt => (false, block :: blocks)

def fullwordBlockLoop (chunks : Option PhysicalExtents) :
    List (Nat × BitmapWord) → List Nat → Option BlockRange → Comp (Option Nat)
  | [], _, _ => .ok none
  | (i, w) :: items, allocatedBlocks, next =>
    if w = 0 then
      let passed := passAllocatedBlocks i allocatedBlocks
      if passed.1 = true then fullwordBlockLoop chunks items passed.2 next
      else do
        let next ← nextFullwordChunk chunks next i
        if inFullwordChunk next i then fullwordBlockLoop chunks items passed.2 next
        else pure (some (i * 64))
    else fullwordBlockLoop chunks items allocatedBlocks next

def findFreeFullwordBlock (b : SearchedBitmap) (allocatedBlocks : List Nat)
    (chunks : Option PhysicalExtents) : Comp (Option Nat) :=
  fullwordBlockLoop chunks (WordIter.take (b.imageSize / 64) (b.wordIterAt 0)) allocatedBlocks none

structure BlockRequest where
  blockAllocationBlocksLog2 : Nat
  allocatedBlocks : List Nat
  allocatedFullwordChunks : Option PhysicalExtents
  searchAllocationBlocksBegin : Option Nat
  optimizePlacement : Bool

/-- Some second best fits might have been skipped over if the placement is to be
optimized. -/
def BlockRequest.searchBeginBitmapWordIndex (req : BlockRequest) : Nat :=
  match req.searchAllocationBlocksBegin with
  | none => 0
  | some block =>
    if req.optimizePlacement then
      block / 64 - (placementOptimizationSearchDistanceBitmapWords - 1)
    else block / 64

structure Candidate where
  bitmapWordIndex : Nat
  bitmapWord : BitmapWord
  splitLog2 : Nat

structure BlockSearch where
  bitmapWordsIter : WordIter
  count : Nat
  allocatedBlocks : List Nat
  nextAllocatedFullwordChunk : Option BlockRange
  best : Option Candidate
  remainingDistance : Nat

def markAllocatedBlocks (log2 i : Nat) : List Nat → BitmapWord → List Nat × BitmapWord
  | [], w => ([], w)
  | block :: blocks, w =>
    if block / 64 = i then
      markAllocatedBlocks log2 i blocks (w ||| trailingBitsMask (2 ^ log2) <<< (block % 64))
    else (block :: blocks, w)

def examineFreeWord (req : BlockRequest) (i : Nat) (s : BlockSearch) : Comp (Outcome BlockSearch) :=
  if s.best.isSome then .ok (.next s)
  else do
    let next ← nextFullwordChunk req.allocatedFullwordChunks s.nextAllocatedFullwordChunk i
    let s := { s with nextAllocatedFullwordChunk := next }
    if inFullwordChunk next i then pure (.next s)
    else if req.optimizePlacement then
      pure (.next { s with
        best := some ⟨i, 0, 6⟩
        remainingDistance := placementOptimizationSearchDistanceBitmapWords })
    else pure (.found (i * 64))

def examineWord (pr : Profile) (req : BlockRequest) (lsbsMask : BitmapWord) (i : Nat)
    (w : BitmapWord) (s : BlockSearch) : Comp (Outcome BlockSearch) := do
  let freeLsbs ← freeBlocksLsbs pr w req.blockAllocationBlocksLog2 lsbsMask
  if freeLsbs = 0 then pure (.next s)
  else if req.optimizePlacement then do
    debugAssert pr (∀ c ∈ s.best, req.blockAllocationBlocksLog2 < c.splitLog2)
    let splitLog2 ← blockAllocSplitBlockSizeLog2 pr freeLsbs (s.best.map Candidate.splitLog2)
      req.blockAllocationBlocksLog2 lsbsMask
    if splitLog2 = req.blockAllocationBlocksLog2 then do
      let pos ← blockAllocSelectBlock pr freeLsbs req.blockAllocationBlocksLog2 lsbsMask
      pure (.found (i * 64 + pos))
    else if ∀ c ∈ s.best, splitLog2 < c.splitLog2 then
      pure (.next { s with
        best := some ⟨i, w, splitLog2⟩
        remainingDistance := if s.best.isNone then placementOptimizationSearchDistanceBitmapWords
          else s.remainingDistance })
    else pure (.next s)
  else pure (.found (i * 64 + freeLsbs.ctz.toNat))

/-- The search wraps around at the last one of the image's words. -/
def BlockSearch.wrap (b : SearchedBitmap) (req : BlockRequest) (i : Nat) (s : BlockSearch) :
    BlockSearch :=
  if i + 1 = b.imageBitmapWords ∧ req.searchBeginBitmapWordIndex ≠ 0 then
    { s with
      bitmapWordsIter := b.wordIterAt 0
      count := req.searchBeginBitmapWordIndex
      allocatedBlocks := req.allocatedBlocks }
  else s

def blockSearchStep (pr : Profile) (b : SearchedBitmap) (req : BlockRequest) (lsbsMask : BitmapWord)
    (i : Nat) (w : BitmapWord) (s : BlockSearch) : Comp (Outcome BlockSearch) := do
  let remaining ← subU64 pr s.remainingDistance 1
  let s := { s with remainingDistance := remaining }
  if remaining = 0 then do
    debugAssert pr (req.optimizePlacement = true ∧ s.best.isSome = true)
    pure (.stop s)
  else
    let marked := markAllocatedBlocks req.blockAllocationBlocksLog2 i s.allocatedBlocks w
    let w := b.imageWord i marked.2
    let s := BlockSearch.wrap b req i { s with allocatedBlocks := marked.1 }
    if w = ~~~0 then pure (.next s)
    else if w = 0 then examineFreeWord req i s
    else examineWord pr req lsbsMask i w s

def blockSearchLoop (pr : Profile) (b : SearchedBitmap) (req : BlockRequest) (lsbsMask : BitmapWord) :
    Nat → BlockSearch → Comp (Outcome BlockSearch)
  | 0, _ => panic .outOfFuel
  | fuel + 1, s =>
    if s.count = 0 then .ok (.stop s)
    else
      match s.bitmapWordsIter.next with
      | (none, _) => .ok (.stop s)
      | (some (i, w), iter) => do
        let outcome ← blockSearchStep pr b req lsbsMask i w
          { s with bitmapWordsIter := iter, count := s.count - 1 }
        match outcome with
        | .next s => blockSearchLoop pr b req lsbsMask fuel s
        | outcome => pure outcome

def BlockSearch.select (pr : Profile) (s : BlockSearch) : Comp (Option Nat) :=
  match s.best with
  | none => .ok none
  | some c => do
    let block ← selectSplitBlock pr c.bitmapWordIndex c.bitmapWord c.splitLog2
    pure (some block)

/-- The search begins at some word and takes up the ones before it at last. -/
def findFreeBlock (pr : Profile) (b : SearchedBitmap) (req : BlockRequest) : Comp (Option Nat) := do
  debugAssert pr (2 ^ req.blockAllocationBlocksLog2 ≤ 64)
  if 2 ^ req.blockAllocationBlocksLog2 = 64 then
    findFreeFullwordBlock b req.allocatedBlocks req.allocatedFullwordChunks
  else do
    let searchBegin := req.searchBeginBitmapWordIndex
    debugAssert pr (searchBegin < b.imageBitmapWords)
    let lsbsMask ← getBlocksLsbsMask req.blockAllocationBlocksLog2
    let count ← subU64 pr b.imageBitmapWords searchBegin
    debugAssert pr (req.allocatedBlocks.Pairwise (· ≤ ·))
    let outcome ← blockSearchLoop pr b req lsbsMask (2 * b.bitmap.bitmap.length + 2)
      ⟨b.wordIterAt searchBegin, count,
        req.allocatedBlocks.dropWhile (fun block => decide (block / 64 < searchBegin)),
        none, none, b.imageBitmapWords + 1⟩
    match outcome with
    | .found block => pure (some block)
    | .stop s => s.select pr
    | .next s => s.select pr

section Soundness

variable {pr : Profile} {b : SearchedBitmap} {chunks : Option PhysicalExtents}

structure Candidate.Ok (b : SearchedBitmap) (chunks : Option PhysicalExtents) (log2 : Nat)
    (c : Candidate) : Prop where
  free : FreeWord b c.bitmapWordIndex c.bitmapWord
  apart : WordApart chunks c.bitmapWordIndex
  splittable : Splittable c.bitmapWord c.splitLog2
  ge : log2 ≤ c.splitLog2

theorem Candidate.Ok.freeChunk {c : Candidate} {log2 n a : Nat} (h : c.Ok b chunks log2)
    (hn : n ≤ 2 ^ log2) (ha : a ≤ log2) (hlog2 : log2 ≤ 6) {s : Nat}
    (hok : selectSplitBlock pr c.bitmapWordIndex c.bitmapWord c.splitLog2 = .ok s) :
    FreeChunk b chunks n a s := by
  obtain ⟨p, hp, rfl, hmod, hclear⟩ := selectSplitBlock_of_ok h.splittable hok
  have hsize : 2 ^ log2 ≤ 2 ^ c.splitLog2 := Nat.pow_le_pow_right (by omega) h.ge
  have hdvd := dvd_of_mod_eq_zero hmod
  have halign : p % 2 ^ a = 0 :=
    mod_eq_zero_of_dvd (dvd_trans (pow_dvd_pow 2 (le_trans ha h.ge)) hdvd)
  have hend : p + n ≤ 64 := by
    have hdvd' : 2 ^ log2 ∣ p := dvd_trans (pow_dvd_pow 2 h.ge) hdvd
    obtain ⟨k, rfl⟩ := hdvd'
    have hk : k < 2 ^ (6 - log2) := by
      rw [show 64 = 2 ^ log2 * 2 ^ (6 - log2) by rw [← Nat.pow_add, Nat.add_sub_cancel' hlog2]] at hp
      exact Nat.lt_of_mul_lt_mul_left hp
    have hmul := Nat.mul_le_mul_left (2 ^ log2) (succ_le_of_lt hk)
    rw [← pow_add, Nat.add_sub_cancel' hlog2, mul_succ] at hmul
    omega
  exact h.free.freeChunk h.apart hp hend (by omega) halign (fun j hj => hclear j (by omega))

variable {allocatedBlocks : List Nat}

theorem fullwordBlockLoop_of_ok (hchunks : FullwordChunks b chunks)
    {items : List (Nat × BitmapWord)} {n : Nat} {next : Option BlockRange} {s : Nat}
    (hitems : items = (List.range' n items.length).map (fun i => (i, b.word i)))
    (hlen : 64 * (n + items.length) ≤ b.imageSize) (hnext : NextChunk chunks next n)
    (h : fullwordBlockLoop chunks items allocatedBlocks next = .ok (some s)) :
    FreeChunk b chunks 64 6 s := by
  induction items generalizing n allocatedBlocks next with
  | nil => cases h
  | cons item items ih =>
    obtain ⟨i, w⟩ := item
    rw [length_cons, range'_succ, map_cons, List.cons.injEq] at hitems
    obtain ⟨hitem, hitems⟩ := hitems
    obtain ⟨rfl, rfl⟩ := Prod.mk.inj hitem
    rw [length_cons] at hlen
    have hnext' (next : Option BlockRange) (hnext : NextChunk chunks next i) :
        NextChunk chunks next (i + 1) := hnext.mono (le_succ i)
    rw [fullwordBlockLoop] at h
    split at h
    · rename_i hzero
      dsimp only at h
      split at h
      · exact ih hitems (by omega) (hnext' _ hnext) h
      · obtain ⟨next', hok, h⟩ := bind_eq_ok h
        obtain ⟨hnext'', hbeyond, hnone⟩ := nextFullwordChunk_of_ok (.inl rfl) hnext hok
        split at h
        · exact ih hitems (by omega) (hnext' _ hnext'') h
        · rename_i hin
          obtain rfl := Option.some.inj (Except.ok.inj h)
          have hapart := hchunks.wordApart hnext'' hbeyond hnone (Bool.eq_false_iff.mpr hin)
          have hfree := freeWord_of_le (b := b) (i := i) (by omega)
          rw [hzero] at hfree
          have hchunk := hfree.freeChunk (a := 6) (n := 64) (p := 0) hapart (by omega) (by omega)
            (le_refl 6) (zero_mod _) (fun j _ => BitVec.getLsbD_zero)
          rwa [add_zero] at hchunk
    · exact ih hitems (by omega) (hnext' _ hnext) h

theorem findFreeFullwordBlock_of_ok (hvalid : b.Valid) (hchunks : FullwordChunks b chunks) {s : Nat}
    (h : findFreeFullwordBlock b allocatedBlocks chunks = .ok (some s)) :
    FreeChunk b chunks 64 6 s := by
  have hat := newAtBitmapWordIndex_at b.bitmap hvalid.allocs_sorted hvalid.frees_sorted 0
  have htake := hat.take hvalid.allocs_sorted hvalid.frees_sorted (b.imageSize / 64)
  have hlen := congrArg List.length htake
  rw [length_map, length_range'] at hlen
  rw [findFreeFullwordBlock, SearchedBitmap.wordIterAt] at h
  refine fullwordBlockLoop_of_ok hchunks (n := 0) ?_ ?_ (fun r hr => by cases hr) h
  · rw [hlen, htake]
    rfl
  · rw [hlen]
    omega

/-- Where chunks had been allocated before, the search is for a single block, from
the image's beginning on. -/
structure BlockRequest.Valid (b : SearchedBitmap) (req : BlockRequest) : Prop where
  begin_lt : ∀ block ∈ req.searchAllocationBlocksBegin, block < b.imageSize
  chunks : FullwordChunks b req.allocatedFullwordChunks
  single : req.allocatedFullwordChunks = none ∨
    req.allocatedBlocks = [] ∧ req.searchAllocationBlocksBegin = none

/-- What holds before the word `n` is examined. -/
structure BlockSearch.Ok (b : SearchedBitmap) (req : BlockRequest) (n : Nat) (s : BlockSearch) :
    Prop where
  iter_at : s.bitmapWordsIter.At b.bitmap b.pendingAllocs b.pendingFrees n
  count_le : n + s.count ≤ b.imageBitmapWords
  next : NextChunk req.allocatedFullwordChunks s.nextAllocatedFullwordChunk n
  blocks : req.allocatedFullwordChunks = none ∨ s.allocatedBlocks = []
  best : ∀ c ∈ s.best, c.Ok b req.allocatedFullwordChunks req.blockAllocationBlocksLog2
  best_gt : ∀ c ∈ s.best, req.blockAllocationBlocksLog2 < c.splitLog2

def OutcomeOk (b : SearchedBitmap) (req : BlockRequest) : Outcome BlockSearch → Prop
  | .found block => FreeChunk b req.allocatedFullwordChunks (2 ^ req.blockAllocationBlocksLog2)
      req.blockAllocationBlocksLog2 block
  | .stop s => ∀ c ∈ s.best, c.Ok b req.allocatedFullwordChunks req.blockAllocationBlocksLog2
  | .next s => ∃ n, s.Ok b req n

variable {req : BlockRequest} {s : BlockSearch} {i n : Nat} {w : BitmapWord}

theorem markAllocatedBlocks_sub (log2 i : Nat) (blocks : List Nat) (w : BitmapWord) {p : Nat}
    (hp : w.getLsbD p = true) : (markAllocatedBlocks log2 i blocks w).2.getLsbD p = true := by
  induction blocks generalizing w with
  | nil => exact hp
  | cons block blocks ih =>
    rw [markAllocatedBlocks]
    split
    · apply ih
      rw [BitVec.getLsbD_or, hp, Bool.true_or]
    · exact hp

theorem imageWord_sub {w' : BitmapWord} (h : ∀ p, w.getLsbD p = true → w'.getLsbD p = true) (p : Nat)
    (hp : (b.imageWord i w).getLsbD p = true) : (b.imageWord i w').getLsbD p = true := by
  rw [SearchedBitmap.imageWord] at *
  split
  · rename_i hlast
    rw [if_pos hlast, BitVec.getLsbD_or, Bool.or_eq_true] at hp
    rw [BitVec.getLsbD_or, Bool.or_eq_true]
    exact hp.imp (h p) id
  · rename_i hlast
    rw [if_neg hlast] at hp
    exact h p hp

variable {lsbsMask : BitmapWord}

section Examine

variable {m : Nat} {outcome : Outcome BlockSearch}
  (hs : s.Ok b req m) (hlt : req.blockAllocationBlocksLog2 < 6)
include hs hlt

theorem examineFreeWord_of_ok (hreq : req.Valid b)
    (hpos : req.allocatedFullwordChunks = none ∨ i ≤ m)
    (hnext : NextChunk req.allocatedFullwordChunks s.nextAllocatedFullwordChunk i)
    (hfree : FreeWord b i 0) (h : examineFreeWord req i s = .ok outcome) :
    OutcomeOk b req outcome := by
  rw [examineFreeWord] at h
  split at h
  · cases h
    exact ⟨m, hs⟩
  · obtain ⟨next, hok, h⟩ := bind_eq_ok h
    obtain ⟨hnext', hbeyond, hnone⟩ := nextFullwordChunk_of_ok (.inl rfl) hnext hok
    split at h
    · cases h
      exact ⟨m, { hs with next := hnext'.move hpos }⟩
    · rename_i hin
      have hapart := hreq.chunks.wordApart hnext' hbeyond hnone (Bool.eq_false_iff.mpr hin)
      split at h
      · cases h
        refine ⟨m, { hs with next := hnext'.move hpos, best := ?_, best_gt := ?_ }⟩
        · rintro c hc
          cases hc
          exact ⟨hfree, hapart, splittable_zero, hlt.le⟩
        · rintro c hc
          cases hc
          exact hlt
      · cases h
        have hle : 2 ^ req.blockAllocationBlocksLog2 ≤ 2 ^ 6 := Nat.pow_le_pow_right (by omega) hlt.le
        have hchunk := hfree.freeChunk (p := 0) hapart (by omega) (by omega) hlt.le (zero_mod _)
          (fun j _ => BitVec.getLsbD_zero) (n := 2 ^ req.blockAllocationBlocksLog2)
        rwa [add_zero] at hchunk

theorem examineWord_of_ok (hmask : IsLsbsMask req.blockAllocationBlocksLog2 lsbsMask)
    (hfree : FreeWord b i w) (hapart : WordApart req.allocatedFullwordChunks i)
    (h : examineWord pr req lsbsMask i w s = .ok outcome) : OutcomeOk b req outcome := by
  obtain ⟨freeLsbs, hlsbs, h⟩ := bind_eq_ok h
  obtain ⟨f, hf, hbits⟩ := freeBlocksLsbs_ok pr hmask w
  obtain rfl : f = freeLsbs := Except.ok.inj (hf.symm.trans hlsbs)
  -- Any of the free blocks will do.
  have hfound (p : Nat) (hp : f.getLsbD p = true) : FreeChunk b req.allocatedFullwordChunks
      (2 ^ req.blockAllocationBlocksLog2) req.blockAllocationBlocksLog2 (i * 64 + p) := by
    obtain ⟨hp64, hmod, hclear⟩ := (hbits p).mp hp
    obtain ⟨k, hk, rfl⟩ := hmask.exists_block hp64 hmod
    exact hfree.freeChunk hapart hp64 (hmask.block_le hk) hlt.le hmod hclear
  split at h
  · cases h
    exact ⟨m, hs⟩
  · rename_i hne
    split at h
    · obtain ⟨-, -, h⟩ := bind_eq_ok h
      obtain ⟨splitLog2, hsplit, h⟩ := bind_eq_ok h
      have hsize := blockAllocSplitBlockSizeLog2_of_ok hbits hne hsplit
      split at h
      · rename_i heq
        obtain ⟨pos, hsel, h⟩ := bind_eq_ok h
        cases h
        have hsplittable : Splittable w req.blockAllocationBlocksLog2 := by
          rw [← heq]
          apply splittable_of_splitSize hsize
          rintro split hbest
          obtain ⟨c, hc, rfl⟩ := Option.map_eq_some_iff.mp hbest
          rw [heq]
          exact hs.best_gt c hc
        obtain ⟨g, hg, hunpaired⟩ := hsplittable
        obtain rfl := hg.unique hbits
        exact hfound _ (blockAllocSelectBlock_of_ok hbits (fun _ => id) hunpaired hsel)
      · rename_i hne'
        split at h
        · rename_i hless
          cases h
          refine ⟨m, { hs with best := ?_, best_gt := ?_ }⟩
          · rintro c hc
            cases hc
            refine ⟨hfree, hapart, splittable_of_splitSize hsize ?_, hsize.ge⟩
            rintro split hbest
            obtain ⟨c, hc, rfl⟩ := Option.map_eq_some_iff.mp hbest
            exact hless c hc
          · rintro c hc
            cases hc
            exact lt_of_le_of_ne hsize.ge (Ne.symm hne')
        · cases h
          exact ⟨m, hs⟩
    · cases h
      exact hfound _ (BitVec.getLsbD_true_ctz_of_ne_zero hne)

end Examine

theorem searchBegin_le (hreq : req.Valid b) :
    req.searchBeginBitmapWordIndex ≤ b.imageBitmapWords := by
  rw [BlockRequest.searchBeginBitmapWordIndex]
  split
  · exact zero_le _
  · rename_i block hblock
    have hlt := hreq.begin_lt block hblock
    rw [SearchedBitmap.imageBitmapWords]
    split <;> omega

theorem searchBegin_eq_zero (hreq : req.Valid b) (hne : req.searchBeginBitmapWordIndex ≠ 0) :
    req.allocatedFullwordChunks = none := by
  rcases hreq.single with hnone | ⟨-, hbegin⟩
  · exact hnone
  · rw [BlockRequest.searchBeginBitmapWordIndex, hbegin] at hne
    exact absurd rfl hne

section

variable (hvalid : b.Valid) (hreq : req.Valid b)
include hvalid hreq

theorem wrap_ok (hs : s.Ok b req (i + 1)) : ∃ m, (BlockSearch.wrap b req i s).Ok b req m ∧
      (req.allocatedFullwordChunks = none ∨ i ≤ m) ∧
      (BlockSearch.wrap b req i s).nextAllocatedFullwordChunk = s.nextAllocatedFullwordChunk := by
  rw [BlockSearch.wrap]
  split
  · rename_i hwrap
    have hnone := searchBegin_eq_zero hreq hwrap.2
    refine ⟨0, ⟨?_, ?_, ?_, .inl hnone, hs.best, hs.best_gt⟩, .inl hnone, rfl⟩
    · exact newAtBitmapWordIndex_at b.bitmap hvalid.allocs_sorted hvalid.frees_sorted 0
    · rw [zero_add]
      exact searchBegin_le hreq
    · exact hs.next.move (.inl hnone)
  · exact ⟨i + 1, hs, .inr (le_succ i), rfl⟩

variable {outcome : Outcome BlockSearch}

theorem blockSearchStep_of_ok (hmask : IsLsbsMask req.blockAllocationBlocksLog2 lsbsMask)
    (hlt : req.blockAllocationBlocksLog2 < 6) (hi : i < b.imageBitmapWords)
    (hs : s.Ok b req (i + 1))
    (hnext : NextChunk req.allocatedFullwordChunks s.nextAllocatedFullwordChunk i)
    (h : blockSearchStep pr b req lsbsMask i (b.word i) s = .ok outcome) : OutcomeOk b req outcome := by
  obtain ⟨remaining, -, h⟩ := bind_eq_ok h
  dsimp only at h
  split at h
  · obtain ⟨-, -, h⟩ := bind_eq_ok h
    cases h
    exact hs.best
  · generalize hmarked : markAllocatedBlocks req.blockAllocationBlocksLog2 i s.allocatedBlocks
      (b.word i) = marked at h
    have hsub (p : Nat) (hp : (b.word i).getLsbD p = true) : marked.2.getLsbD p = true := by
      rw [← hmarked]
      exact markAllocatedBlocks_sub _ i _ _ hp
    have hblocks : req.allocatedFullwordChunks = none ∨ marked = ([], b.word i) := by
      refine hs.blocks.imp id (fun hempty => ?_)
      rw [← hmarked, hempty, markAllocatedBlocks]
    have hfree := (hvalid.freeWord hi).mono (imageWord_sub hsub)
    obtain ⟨m, hs', hpos, hsame⟩ := wrap_ok hvalid hreq
      (s := { s with remainingDistance := remaining, allocatedBlocks := marked.1 })
      { hs with blocks := hblocks.imp id (fun hmarked => by rw [hmarked]) }
    generalize BlockSearch.wrap b req i _ = s' at h hs' hsame
    split at h
    · cases h
      exact ⟨m, hs'⟩
    · split at h
      · rename_i hzero
        rw [hzero] at hfree
        rw [← hsame] at hnext
        exact examineFreeWord_of_ok hs' hlt hreq hpos hnext hfree h
      · rename_i hne
        have hapart : WordApart req.allocatedFullwordChunks i := by
          rcases hblocks with hnone | hmarked
          · rw [hnone]
            intro r hr
            cases hr
          · rw [hmarked] at hne
            exact hreq.chunks.wordApart_of_ne hvalid hne
        exact examineWord_of_ok hs' hlt hmask hfree hapart h

theorem blockSearchLoop_of_ok (hmask : IsLsbsMask req.blockAllocationBlocksLog2 lsbsMask)
    (hlt : req.blockAllocationBlocksLog2 < 6) (fuel : Nat) (hs : s.Ok b req n)
    (h : blockSearchLoop pr b req lsbsMask fuel s = .ok outcome) : OutcomeOk b req outcome := by
  induction fuel generalizing n s with
  | zero => cases h
  | succ fuel ih =>
    rw [blockSearchLoop] at h
    split at h
    · cases h
      exact hs.best
    · rename_i hcount
      have hyield := hs.iter_at.next hvalid.allocs_sorted hvalid.frees_sorted
      split at hyield
      · obtain ⟨it, hit, hat⟩ := hyield
        have hle := hs.count_le
        rw [hit] at h
        obtain ⟨outcome', hstep, h⟩ := bind_eq_ok h
        have hs' : BlockSearch.Ok b req (n + 1)
            { s with bitmapWordsIter := it, count := s.count - 1 } :=
          ⟨hat, by dsimp only; omega, hs.next.mono (le_succ n), hs.blocks, hs.best, hs.best_gt⟩
        have hok := blockSearchStep_of_ok hvalid hreq hmask hlt (by omega) hs' hs.next hstep
        cases outcome' with
        | next s' =>
          obtain ⟨m, hs'⟩ := hok
          exact ih hs' h
        | found block =>
          cases h
          exact hok
        | stop s' =>
          cases h
          exact hok
      · rw [hyield] at h
        cases h
        exact hs.best

end

theorem select_of_ok (hlt : req.blockAllocationBlocksLog2 < 6)
    (hbest : ∀ c ∈ s.best, c.Ok b req.allocatedFullwordChunks req.blockAllocationBlocksLog2)
    {block : Nat} (h : s.select pr = .ok (some block)) :
    FreeChunk b req.allocatedFullwordChunks (2 ^ req.blockAllocationBlocksLog2)
      req.blockAllocationBlocksLog2 block := by
  rw [BlockSearch.select] at h
  split at h
  · cases h
  · rename_i c hc
    obtain ⟨block', hselect, h⟩ := bind_eq_ok h
    cases Except.ok.inj h
    exact (hbest c hc).freeChunk (le_refl _) (le_refl _) hlt.le hselect

theorem findFreeBlock_of_ok (hvalid : b.Valid) (hreq : req.Valid b)
    (hlog2 : req.blockAllocationBlocksLog2 ≤ 6) {block : Nat}
    (h : findFreeBlock pr b req = .ok (some block)) :
    FreeChunk b req.allocatedFullwordChunks (2 ^ req.blockAllocationBlocksLog2)
      req.blockAllocationBlocksLog2 block := by
  obtain ⟨-, -, h⟩ := bind_eq_ok h
  split at h
  · rename_i hword
    obtain hlog2 : req.blockAllocationBlocksLog2 = 6 := Nat.pow_right_injective (le_refl 2) hword
    rw [hlog2]
    exact findFreeFullwordBlock_of_ok hvalid hreq.chunks h
  · rename_i hword
    have hlt : req.blockAllocationBlocksLog2 < 6 :=
      lt_of_le_of_ne hlog2 (fun heq => hword (by rw [heq]; rfl))
    obtain ⟨-, -, h⟩ := bind_eq_ok h
    obtain ⟨lsbsMask, hmask, h⟩ := bind_eq_ok h
    obtain ⟨count, hcount, h⟩ := bind_eq_ok h
    obtain ⟨-, -, h⟩ := bind_eq_ok h
    obtain ⟨outcome, hloop, h⟩ := bind_eq_ok h
    have hok := blockSearchLoop_of_ok hvalid hreq (isLsbsMask_of_ok hmask) hlt _
      (n := req.searchBeginBitmapWordIndex) ⟨?_, ?_, ?_, ?_, ?_, ?_⟩ hloop
    · cases outcome with
      | found block' =>
        cases Except.ok.inj h
        exact hok
      | stop s => exact select_of_ok hlt hok h
      | next s =>
        obtain ⟨m, hs⟩ := hok
        exact select_of_ok hlt hs.best h
    · exact newAtBitmapWordIndex_at b.bitmap hvalid.allocs_sorted hvalid.frees_sorted _
    · have hle := searchBegin_le hreq
      rw [subU64_ok pr hle] at hcount
      cases hcount
      exact (Nat.add_sub_cancel' hle).le
    · exact fun r hr => (by cases hr)
    · refine hreq.single.imp id (fun hsingle => ?_)
      rw [hsingle.1, dropWhile_nil]
    · exact fun c hc => (by cases hc)
    · exact fun c hc => (by cases hc)

end Soundness

end CocoonFs.FindFreeBlock
