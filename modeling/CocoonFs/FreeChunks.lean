import CocoonFs.BitmapWordIters
import CocoonFs.BitmapWords
import Mathlib.Data.List.MinMax

namespace CocoonFs.FreeChunks

open Bitmap BitmapWordIters BitmapWords Checked Extents List

/-- A bitmap with what is pending, along with the size of the image. -/
structure SearchedBitmap where
  bitmap : AllocBitmap
  pendingAllocs : List (List Entry)
  pendingFrees : List (List Entry)
  imageSize : Nat

namespace SearchedBitmap

def word (b : SearchedBitmap) (i : Nat) : BitmapWord :=
  combinedWord b.bitmap b.pendingAllocs b.pendingFrees i

def imageBitmapWords (b : SearchedBitmap) : Nat := (b.imageSize + 63) / 64

def wordIterAt (b : SearchedBitmap) (bitmapWordIndexBegin : Nat) : WordIter :=
  WordIter.newAtBitmapWordIndex b.bitmap b.pendingAllocs b.pendingFrees bitmapWordIndexBegin

def IsFree (b : SearchedBitmap) (block : Nat) : Prop :=
  block < b.imageSize ∧ (b.word (block / 64)).getLsbD (block % 64) = false

instance (b : SearchedBitmap) (block : Nat) : Decidable (b.IsFree block) :=
  inferInstanceAs (Decidable (_ ∧ _))

structure Valid (b : SearchedBitmap) : Prop where
  allocs_sorted : ∀ es ∈ b.pendingAllocs, Sorted es
  frees_sorted : ∀ es ∈ b.pendingFrees, Sorted es
  covered : b.imageSize ≤ 64 * b.bitmap.bitmap.length

/-- The bits of the last word that are not backed by any storage. -/
def excessBitsMask (b : SearchedBitmap) : BitmapWord :=
  ~~~trailingBitsMask (64 - (2 ^ 64 - b.imageSize) % 2 ^ 64 % 64)

def imageWord (b : SearchedBitmap) (i : Nat) (w : BitmapWord) : BitmapWord :=
  if i + 1 = b.imageBitmapWords then w ||| b.excessBitsMask else w

end SearchedBitmap

/-- The search goes on for some more words once there is a candidate. -/
def placementOptimizationSearchDistanceBitmapWords : Nat := 16

/-- The fullword chunk up next gets searched for again only once the current one
has been passed. -/
def nextFullwordChunk (chunks : Option PhysicalExtents) (next : Option BlockRange) (i : Nat) :
    Comp (Option BlockRange) :=
  match next.filter (fun r => decide (i < r.e / 64)) with
  | some r => .ok (some r)
  | none =>
    match chunks with
    | none => .ok none
    | some extents => do
      let ranges ← extents.iter
      pure ((ranges.filter (fun r => decide (i < r.e / 64))).argmin BlockRange.e)

def inFullwordChunk (next : Option BlockRange) (i : Nat) : Bool :=
  next.any (fun r => decide (r.b / 64 ≤ i))

/-- The selection of the block to split from the candidate found. -/
def selectSplitBlock (pr : Profile) (i : Nat) (w : BitmapWord) (splitLog2 : Nat) : Comp Nat := do
  let lsbsMask ← getBlocksLsbsMask splitLog2
  let freeLsbs ← freeBlocksLsbs pr w splitLog2 lsbsMask
  let freeLsbs ← unpairedBlocksLsbs pr freeLsbs splitLog2
  debugAssert pr (freeLsbs ≠ 0)
  let pos ← blockAllocSelectBlock pr freeLsbs splitLog2 lsbsMask
  pure (i * 64 + pos)

def chunkRanges : Option PhysicalExtents → List BlockRange
  | none => []
  | some extents => extents.ranges

structure FullwordChunks (b : SearchedBitmap) (chunks : Option PhysicalExtents) : Prop where
  aligned : ∀ r ∈ chunkRanges chunks, r.b % 64 = 0 ∧ r.e % 64 = 0
  le_image : ∀ r ∈ chunkRanges chunks, r.e ≤ b.imageSize
  free : ∀ r ∈ chunkRanges chunks, ∀ i, r.b ≤ 64 * i → 64 * i < r.e → b.word i = 0
  disjoint : ∀ r ∈ chunkRanges chunks, ∀ s ∈ chunkRanges chunks, r = s ∨ r.e ≤ s.b ∨ s.e ≤ r.b

structure FreeChunk (b : SearchedBitmap) (chunks : Option PhysicalExtents) (n alignmentLog2 s : Nat) :
    Prop where
  aligned : s % 2 ^ alignmentLog2 = 0
  one_word : s % 64 + n ≤ 64
  free : ∀ j < n, b.IsFree (s + j)
  apart : ∀ r ∈ chunkRanges chunks, s + n ≤ r.b ∨ r.e ≤ s

def WordApart (chunks : Option PhysicalExtents) (i : Nat) : Prop :=
  ∀ r ∈ chunkRanges chunks, 64 * (i + 1) ≤ r.b ∨ r.e ≤ 64 * i

structure FreeWord (b : SearchedBitmap) (i : Nat) (w : BitmapWord) : Prop where
  lt : i < b.imageBitmapWords
  free : ∀ p < 64, w.getLsbD p = false → b.IsFree (64 * i + p)

section Words

variable {b : SearchedBitmap} {chunks : Option PhysicalExtents} {i : Nat} {w : BitmapWord}

theorem FreeWord.freeChunk (h : FreeWord b i w) (hapart : WordApart chunks i) {p n a : Nat}
    (hp : p < 64) (hend : p + n ≤ 64) (ha : a ≤ 6) (halign : p % 2 ^ a = 0)
    (hfree : ∀ j < n, w.getLsbD (p + j) = false) : FreeChunk b chunks n a (i * 64 + p) := by
  refine ⟨?_, by omega, fun j hj => ?_, fun r hr => ?_⟩
  · have hdvd : 2 ^ a ∣ 64 := pow_dvd_pow 2 ha
    exact Nat.mod_eq_zero_of_dvd (Nat.dvd_add (Dvd.dvd.mul_left hdvd i)
      (Nat.dvd_of_mod_eq_zero halign))
  · have hblock := h.free (p + j) (by omega) (hfree j hj)
    rwa [mul_comm, ← add_assoc] at hblock
  · rcases hapart r hr with hle | hle
    · left
      omega
    · right
      omega

theorem FreeWord.mono (h : FreeWord b i w) {w' : BitmapWord}
    (hsub : ∀ p, w.getLsbD p = true → w'.getLsbD p = true) : FreeWord b i w' := by
  refine ⟨h.lt, fun p hp hclear => h.free p hp ?_⟩
  apply Bool.eq_false_iff.mpr
  intro hset
  rw [hsub p hset] at hclear
  cases hclear

theorem getLsbD_excessBitsMask (hlt : b.imageSize ≤ 2 ^ 64) (hpos : 0 < b.imageSize) {p : Nat} (hp : p < 64) :
    b.excessBitsMask.getLsbD p =
      decide (b.imageSize ≤ 64 * (b.imageBitmapWords - 1) + p) := by
  have hneg : (2 ^ 64 - b.imageSize) % 2 ^ 64 % 64 = (64 - b.imageSize % 64) % 64 := by omega
  rw [SearchedBitmap.excessBitsMask, BitVec.getLsbD_not, decide_eq_true hp, Bool.true_and,
    getLsbD_trailingBitsMask (Nat.sub_le 64 _), ← decide_not, decide_eq_decide, hneg,
    SearchedBitmap.imageBitmapWords]
  omega

theorem freeWord_of_le (h : 64 * (i + 1) ≤ b.imageSize) : FreeWord b i (b.word i) := by
  refine ⟨by rw [SearchedBitmap.imageBitmapWords]; omega, fun p hp hclear => ?_⟩
  rw [SearchedBitmap.IsFree, show (64 * i + p) / 64 = i by omega, show (64 * i + p) % 64 = p by omega]
  exact ⟨by omega, hclear⟩

theorem SearchedBitmap.Valid.freeWord (h : b.Valid) (hi : i < b.imageBitmapWords) :
    FreeWord b i (b.imageWord i (b.word i)) := by
  have hlen := b.bitmap.length_le
  have hcovered := h.covered
  have hpos : 0 < b.imageSize := by
    rw [imageBitmapWords] at hi
    omega
  rw [imageWord]
  split
  · rename_i hlast
    refine ⟨hi, fun p hp hclear => ?_⟩
    rw [IsFree, show (64 * i + p) / 64 = i by omega, show (64 * i + p) % 64 = p by omega]
    rw [BitVec.getLsbD_or, Bool.or_eq_false_iff, getLsbD_excessBitsMask (by omega) hpos hp,
      decide_eq_false_iff_not] at hclear
    exact ⟨by omega, hclear.1⟩
  · rename_i hlast
    rw [imageBitmapWords] at hi hlast
    exact freeWord_of_le (by omega)

end Words

section Chunks

variable {b : SearchedBitmap} {chunks left : Option PhysicalExtents} {next : Option BlockRange}
  {i : Nat}

/-- The chunk up next ends the first among the ones beyond some word, as long as it
is beyond that word itself. -/
def NextChunk (chunks : Option PhysicalExtents) (next : Option BlockRange) (i : Nat) : Prop :=
  ∀ r ∈ next, r ∈ chunkRanges chunks ∧
    ∀ s ∈ chunkRanges chunks, i < s.e / 64 → i < r.e / 64 → r.e ≤ s.e

theorem NextChunk.mono (h : NextChunk chunks next i) {i' : Nat} (hle : i ≤ i') :
    NextChunk chunks next i' := by
  intro r hr
  obtain ⟨hmem, hmin⟩ := h r hr
  exact ⟨hmem, fun s hs hbeyond hbeyond' => hmin s hs (by omega) (by omega)⟩

theorem NextChunk.move {m : Nat} (h : NextChunk chunks next i)
    (hpos : chunks = none ∨ i ≤ m) : NextChunk chunks next m := by
  rcases hpos with rfl | hle
  · intro r hr
    cases (h r hr).1
  · exact h.mono hle

/-- The chunks are not searched any more once there are none left. -/
def ChunksLeft (chunks left : Option PhysicalExtents) (i : Nat) : Prop :=
  left = chunks ∨ left = none ∧ ∀ r ∈ chunkRanges chunks, r.e / 64 ≤ i

theorem ChunksLeft.mono (h : ChunksLeft chunks left i) {i' : Nat} (hle : i ≤ i') :
    ChunksLeft chunks left i' :=
  h.imp id (fun hpassed => ⟨hpassed.1, fun r hr => le_trans (hpassed.2 r hr) hle⟩)

theorem nextFullwordChunk_of_ok (hleft : ChunksLeft chunks left i) (h : NextChunk chunks next i)
    {next' : Option BlockRange} (hok : nextFullwordChunk left next i = .ok next') :
    NextChunk chunks next' i ∧ (∀ r ∈ next', i < r.e / 64) ∧
      (next' = none → ∀ r ∈ chunkRanges chunks, r.e / 64 ≤ i) := by
  rw [nextFullwordChunk.eq_def] at hok
  split at hok
  · rename_i r hr
    cases hok
    rw [Option.filter_eq_some_iff] at hr
    refine ⟨?_, ?_, fun hnone => by cases hnone⟩
    · rintro r' hr'
      obtain rfl := Option.mem_some_iff.mp hr'
      exact h r hr.1
    · rintro r' hr'
      obtain rfl := Option.mem_some_iff.mp hr'
      exact of_decide_eq_true hr.2
  · split at hok
    · cases hok
      refine ⟨fun r hr => (by cases hr), fun r hr => (by cases hr), fun _ r hr => ?_⟩
      rcases hleft with rfl | ⟨-, hpassed⟩
      · cases hr
      · exact hpassed r hr
    · rename_i extents
      obtain ⟨ranges, hranges, hok⟩ := bind_eq_ok hok
      cases hok
      rw [PhysicalExtents.iter_ok _ (PhysicalExtents.lt_of_iter _ hranges)] at hranges
      cases hranges
      obtain rfl : some extents = chunks := by
        rcases hleft with hleft | ⟨hnone, -⟩
        · exact hleft
        · cases hnone
      refine ⟨fun r hr => ?_, fun r hr => ?_, fun hnone r hr => ?_⟩
      · have hmem := mem_filter.mp (argmin_mem hr)
        refine ⟨hmem.1, fun s hs hbeyond _ => ?_⟩
        exact le_of_mem_argmin (mem_filter.mpr ⟨hs, decide_eq_true hbeyond⟩) hr
      · exact of_decide_eq_true (mem_filter.mp (argmin_mem hr)).2
      · by_contra hlt
        have hmem : r ∈ extents.ranges.filter (fun r => decide (i < r.e / 64)) :=
          mem_filter.mpr ⟨hr, decide_eq_true (Nat.lt_of_not_le hlt)⟩
        rw [argmin_eq_none.mp hnone] at hmem
        cases hmem

theorem FullwordChunks.nextFullwordChunk_ok (h : FullwordChunks b chunks) (hvalid : b.Valid)
    (hleft : left = chunks ∨ left = none) (next : Option BlockRange) (i : Nat) :
    ∃ next', nextFullwordChunk left next i = .ok next' := by
  rw [nextFullwordChunk.eq_def]
  split
  · exact ⟨_, rfl⟩
  · split
    · exact ⟨none, rfl⟩
    · rename_i extents
      obtain rfl : some extents = chunks := by
        rcases hleft with hleft | hnone
        · exact hleft
        · cases hnone
      have hlen := b.bitmap.length_le
      have hcovered := hvalid.covered
      have hlt (r : BlockRange) (hr : r ∈ extents.ranges) : r.e < 2 ^ 64 := by
        have hle := h.le_image r hr
        omega
      rw [PhysicalExtents.iter_ok extents hlt, ok_bind]
      exact ⟨_, rfl⟩

theorem lt_of_mem_chunkRanges {r : BlockRange} (hr : r ∈ chunkRanges chunks) : r.b < r.e := by
  cases chunks with
  | none => cases hr
  | some extents =>
    obtain ⟨entry, hentry, rfl⟩ := mem_map.mp hr
    exact Nat.lt_add_of_pos_right (extents.count_pos entry hentry)

theorem FullwordChunks.wordApart (h : FullwordChunks b chunks) (hnext : NextChunk chunks next i)
    (hbeyond : ∀ r ∈ next, i < r.e / 64) (hnone : next = none → ∀ r ∈ chunkRanges chunks, r.e / 64 ≤ i)
    (hin : inFullwordChunk next i = false) : WordApart chunks i := by
  intro r hr
  obtain ⟨hrb, hre⟩ := h.aligned r hr
  rcases lt_or_ge i (r.e / 64) with hlt | hge
  · cases next with
    | none =>
      have hle := hnone rfl r hr
      omega
    | some s =>
      obtain ⟨hs, hmin⟩ := hnext s rfl
      have hse := hmin r hr hlt (hbeyond s rfl)
      have hsb : i < s.b / 64 := by
        simpa [inFullwordChunk] using hin
      have hlt' := hbeyond s rfl
      left
      rcases h.disjoint r hr s hs with rfl | hle | hle
      · omega
      · have hslt := lt_of_mem_chunkRanges hs
        omega
      · omega
  · right
    omega

theorem FullwordChunks.wordApart_of_ne (h : FullwordChunks b chunks) (hvalid : b.Valid)
    (hne : b.imageWord i (b.word i) ≠ 0) : WordApart chunks i := by
  intro r hr
  obtain ⟨hrb, hre⟩ := h.aligned r hr
  have hle := h.le_image r hr
  by_contra hin
  have hzero := h.free r hr i (by omega) (by omega)
  obtain ⟨p, hp, hbit⟩ := exists_bit hne
  rw [SearchedBitmap.imageWord, hzero] at hbit
  split at hbit
  · -- The storage ends within the word, but the chunk does not.
    rename_i hlast
    have hlen := b.bitmap.length_le
    have hcovered := hvalid.covered
    rw [zero_or_word, getLsbD_excessBitsMask (by omega) (by omega) hp, decide_eq_true_eq] at hbit
    omega
  · rw [show (0 : BitmapWord).getLsbD p = false from BitVec.getLsbD_zero] at hbit
    cases hbit

end Chunks

section Split

variable {w : BitmapWord} {log2 splitLog2 : Nat}

/-- There is a free block of the size not contained in a free block of twice the size,
with the word as a whole not considered. -/
def Splittable (w : BitmapWord) (splitLog2 : Nat) : Prop :=
  ∃ freeLsbs, IsFreeLsbs w splitLog2 freeLsbs ∧ ∃ p, freeLsbs.getLsbD p = true ∧
    (splitLog2 < 5 → freeLsbs.getLsbD (buddy splitLog2 p) = false)

theorem splittable_zero : Splittable 0 6 := by
  obtain ⟨mask, -, hmask⟩ := getBlocksLsbsMask_ok (le_refl 6)
  obtain ⟨freeLsbs, -, hfree⟩ := freeBlocksLsbs_ok .release hmask 0
  refine ⟨freeLsbs, hfree, 0, (hfree 0).mpr ⟨by omega, Nat.zero_mod _, fun j _ => ?_⟩, by omega⟩
  exact BitVec.getLsbD_zero

theorem splittable_of_splitSize {maxLog2 : Option Nat}
    (h : SplitSize w (maxSplitLog2 maxLog2) log2 splitLog2)
    (hlt : ∀ m ∈ maxLog2, splitLog2 < m) : Splittable w splitLog2 := by
  obtain ⟨freeLsbs, hfree, hne, hunpaired⟩ := h.free
  by_cases hmax : splitLog2 < maxSplitLog2 maxLog2
  · obtain ⟨p, hp, hbuddy⟩ := hunpaired hmax
    exact ⟨freeLsbs, hfree, p, hp, fun _ => hbuddy⟩
  · obtain ⟨p, -, hp⟩ := exists_bit hne
    refine ⟨freeLsbs, hfree, p, hp, fun hlt5 => absurd ?_ hmax⟩
    cases maxLog2 with
    | none => exact hlt5
    | some m => exact lt_min (hlt m rfl) hlt5

theorem selectSplitBlock_of_ok {pr : Profile} {i s : Nat} (h : Splittable w splitLog2)
    (hok : selectSplitBlock pr i w splitLog2 = .ok s) :
    ∃ p < 64, s = i * 64 + p ∧ p % 2 ^ splitLog2 = 0 ∧
      ∀ j < 2 ^ splitLog2, w.getLsbD (p + j) = false := by
  obtain ⟨freeLsbs, hfree, p, hp, hunpaired⟩ := h
  obtain ⟨mask, hmask, hok⟩ := bind_eq_ok hok
  obtain ⟨freeLsbs', hfree', hok⟩ := bind_eq_ok hok
  obtain ⟨f, hf, hbits⟩ := freeBlocksLsbs_ok pr (isLsbsMask_of_ok hmask) w
  obtain rfl : freeLsbs' = freeLsbs := by
    rw [hf] at hfree'
    exact (Except.ok.inj hfree').symm.trans (hbits.unique hfree)
  obtain ⟨unpaired, hunp, hok⟩ := bind_eq_ok hok
  obtain ⟨u, hu, hubits⟩ := unpairedBlocksLsbs_ok pr hfree.mod_eq
  obtain rfl : u = unpaired := Except.ok.inj (hu.symm.trans hunp)
  obtain ⟨-, -, hok⟩ := bind_eq_ok hok
  obtain ⟨pos, hpos, hok⟩ := bind_eq_ok hok
  cases hok
  have hset : u.getLsbD p = true := by
    rw [hubits, hp, Bool.true_and]
    by_cases hlt : splitLog2 < 5
    · rw [hunpaired hlt, Bool.not_false, Bool.or_true]
    · rw [decide_eq_true (Nat.le_of_not_lt hlt), Bool.true_or]
  have hselected := blockAllocSelectBlock_of_ok hfree
    (fun q hq => by
      rw [hubits, Bool.and_eq_true] at hq
      exact hq.1)
    ⟨p, hset, fun hlt => by rw [hubits, hunpaired hlt, Bool.false_and]⟩ hpos
  obtain ⟨hlt, hmod, hclear⟩ := (hfree pos).mp hselected
  exact ⟨pos, hlt, rfl, hmod, hclear⟩

theorem selectSplitBlock_ok (pr : Profile) {i : Nat} (h : Splittable w splitLog2)
    (hle : splitLog2 ≤ 6) (hw : splitLog2 = 6 ∨ w ≠ 0) :
    ∃ s, selectSplitBlock pr i w splitLog2 = .ok s := by
  obtain ⟨freeLsbs, hfree, p, hp, hunpaired⟩ := h
  obtain ⟨mask, hok, hmask⟩ := getBlocksLsbsMask_ok hle
  obtain ⟨f, hf, hbits⟩ := freeBlocksLsbs_ok pr hmask w
  obtain rfl := hbits.unique hfree
  obtain ⟨u, hu, hubits⟩ := unpairedBlocksLsbs_ok pr hfree.mod_eq
  have hset : u.getLsbD p = true := by
    rw [hubits, hp, Bool.true_and]
    by_cases hlt : splitLog2 < 5
    · rw [hunpaired hlt, Bool.not_false, Bool.or_true]
    · rw [decide_eq_true (Nat.le_of_not_lt hlt), Bool.true_or]
  obtain ⟨pos, hpos⟩ := blockAllocSelectBlock_ok pr hmask hle hfree
    (fun q hq => by
      rw [hubits, Bool.and_eq_true] at hq
      exact hq.1)
    ⟨p, hset, fun hlt => by rw [hubits, hunpaired hlt, Bool.false_and]⟩ hw
  rw [selectSplitBlock, hok, ok_bind, hf, ok_bind, hu, ok_bind, debugAssert_ok pr (ne_zero_of_bit hset),
    ok_bind, hpos, ok_bind]
  exact ⟨_, rfl⟩

end Split

end CocoonFs.FreeChunks
