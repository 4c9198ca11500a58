import CocoonFs.BlkDevCopies

namespace CocoonFs.BlkDev

open Checked Codes IoRegion IoSteps Patches Nat
open Yields (orErr pure require)

variable {σ : Type} {ioBlockSize128bLog2 preferredIoBlocksBulkLog2 bulk : Nat}

theorem ioBlockSize_eq (hD : ioBlockSize128bLog2 < 57) :
    2 ^ ioBlockSize128bLog2 * 2 ^ 7 % 2 ^ 64 = 2 ^ ioBlockSize128bLog2 * 2 ^ 7 := by
  refine mod_eq_of_lt ?_
  rw [← pow_add]
  exact Nat.pow_lt_pow_right Nat.one_lt_two (by omega)

/-- The block and the offset of a position on storage, put together from its bulk. -/
theorem bulk_position (D bulk pos : Nat) :
    pos / 2 ^ (bulk + D) * 2 ^ bulk + pos % 2 ^ (bulk + D) / 2 ^ D = pos / 2 ^ D ∧
      pos % 2 ^ (bulk + D) % 2 ^ D = pos % 2 ^ D := by
  have hD : 0 < 2 ^ D := Nat.pow_pos two_pos
  refine ⟨?_, mod_mod_of_dvd _ (pow_dvd_pow 2 (Nat.le_add_left D bulk))⟩
  have hdm := div_add_mod pos (2 ^ (bulk + D))
  conv_rhs => rw [← hdm]
  rw [pow_add, mul_comm (2 ^ bulk) (2 ^ D), mul_assoc, mul_add_div hD, mul_comm (2 ^ bulk)]

theorem locate_yields (hD : ioBlockSize128bLog2 < 57) {m pos : Nat} (hpos : pos < 2 ^ 64)
    (hm : m ≤ bulk + ioBlockSize128bLog2) (hdvd : 2 ^ m ∣ pos) (s : σ) :
    Yields (locate ioBlockSize128bLog2 bulk (pos / 2 ^ (bulk + ioBlockSize128bLog2))
        (pos % 2 ^ (bulk + ioBlockSize128bLog2)) (2 ^ m * 2 ^ 7)) s
      (pos / 2 ^ ioBlockSize128bLog2, pos % 2 ^ ioBlockSize128bLog2 * 2 ^ 7) s := by
  obtain ⟨hidx, hoff⟩ := bulk_position ioBlockSize128bLog2 bulk pos
  have hle : pos / 2 ^ ioBlockSize128bLog2 ≤ pos := Nat.div_le_self _ _
  have hfirst : pos / 2 ^ (bulk + ioBlockSize128bLog2) * 2 ^ bulk % 2 ^ 64 =
      pos / 2 ^ (bulk + ioBlockSize128bLog2) * 2 ^ bulk :=
    mod_eq_of_lt (lt_of_le_of_lt (hidx ▸ Nat.le_add_right _ _)
      (lt_of_le_of_lt hle hpos))
  rw [locate, hfirst, hidx, hoff, ioBlockSize_eq hD]
  refine (orErr (by omega) s).bind ?_
  refine (require (by omega) s).bind ?_
  refine (require ?_ s).bind ((require ?_ s).bind (pure _ s))
  · calc 2 ^ m * 2 ^ 7 ≤ 2 ^ (bulk + ioBlockSize128bLog2) * 2 ^ 7 :=
          Nat.mul_le_mul_right _ (Nat.pow_le_pow_right two_pos hm)
      _ = 2 ^ ioBlockSize128bLog2 * 2 ^ 7 * 2 ^ bulk := by ring
  · by_cases hmD : m < ioBlockSize128bLog2
    · exact .inl ((Nat.mul_lt_mul_right (by decide)).mpr (Nat.pow_lt_pow_right Nat.one_lt_two hmD))
    · have hDm : 2 ^ ioBlockSize128bLog2 ∣ 2 ^ m := pow_dvd_pow 2 (Nat.le_of_not_lt hmD)
      refine .inr ⟨mod_eq_zero_of_dvd (Nat.mul_dvd_mul_right hDm _), ?_⟩
      rw [mod_eq_zero_of_dvd (hDm.trans hdvd), zero_mul]

/-- The position within the sequence of all chunks that a (sub)region associates with a
position on storage, both in bytes. -/
def linearAt (region : ChunkedIoRegion) (p : Nat) : Nat :=
  region.chunkIndexOffset * (2 ^ region.chunkSize128bLog2 * 2 ^ 7) +
    (p - region.physicalBegin128b * 2 ^ 7)

theorem chunkRangeAt_linear (region : ChunkedIoRegion) (size pos : Nat) :
    (chunkRangeAt region size pos).chunk * (2 ^ region.chunkSize128bLog2 * 2 ^ 7) +
        (chunkRangeAt region size pos).rangeBegin = linearAt region (pos * 2 ^ 7) := by
  have hdm := div_add_mod (pos - region.physicalBegin128b) (2 ^ region.chunkSize128bLog2)
  have hsub : pos * 2 ^ 7 - region.physicalBegin128b * 2 ^ 7 =
      (pos - region.physicalBegin128b) * 2 ^ 7 := (Nat.sub_mul _ _ _).symm
  rw [linearAt, hsub]
  conv_rhs => rw [← hdm]
  simp only [chunkRangeAt]
  ring

def Provides (chunkSize chunks : Nat) (srcAt : Nat → Byte)
    (getSourceBuffer : ChunkRange → DevM IoBlocks (List Byte)) : Prop :=
  ∀ range s, range.chunk < chunks → range.rangeBegin ≤ range.rangeEnd →
    range.rangeEnd ≤ chunkSize →
    ∃ src, Yields (getSourceBuffer range) s src s ∧
      src.length = range.rangeEnd - range.rangeBegin ∧
      ∀ k, k < src.length → src[k]? = some (srcAt (range.chunk * chunkSize + range.rangeBegin + k))

/-- A (sub)region of the device, walked in bulks of its blocks, whose chunks are among the
first so many. -/
structure Covers (ioBlockSize128bLog2 bulk chunks ioBlocks : Nat) (region : ChunkedIoRegion) :
    Prop extends Walkable region (bulk + ioBlockSize128bLog2) where
  onDevice : region.physicalEnd128b ≤ ioBlocks * 2 ^ ioBlockSize128bLog2
  inChunks : region.chunkIndexOffset * 2 ^ region.chunkSize128bLog2 +
    (region.physicalEnd128b - region.physicalBegin128b) ≤ chunks * 2 ^ region.chunkSize128bLog2

section Range

variable {chunks ioBlocks : Nat} {region : ChunkedIoRegion} {m pos : Nat}

theorem Covers.range_ok (h : Covers ioBlockSize128bLog2 bulk chunks ioBlocks region)
    (hm : m = min (bulk + ioBlockSize128bLog2) region.chunkSize128bLog2)
    (hge : region.physicalBegin128b ≤ pos) (hlt : pos + 2 ^ m ≤ region.physicalEnd128b)
    (hdvd : 2 ^ m ∣ pos) :
    (chunkRangeAt region (2 ^ m) pos).chunk < chunks ∧
      (chunkRangeAt region (2 ^ m) pos).rangeEnd =
        (chunkRangeAt region (2 ^ m) pos).rangeBegin + 2 ^ m * 2 ^ 7 ∧
      (chunkRangeAt region (2 ^ m) pos).rangeEnd ≤ 2 ^ region.chunkSize128bLog2 * 2 ^ 7 := by
  have hc : 0 < 2 ^ region.chunkSize128bLog2 := Nat.pow_pos two_pos
  have hmB : 2 ^ m ∣ 2 ^ (bulk + ioBlockSize128bLog2) :=
    pow_dvd_pow 2 (hm ▸ min_le_left _ _)
  have hmc : 2 ^ m ∣ 2 ^ region.chunkSize128bLog2 := pow_dvd_pow 2 (hm ▸ min_le_right _ _)
  have hroom := mod_add_le_of_dvd hmc (Nat.dvd_sub hdvd (hmB.trans h.begin_dvd)) hc
  refine ⟨?_, ?_, ?_⟩
  · refine Nat.lt_of_mul_lt_mul_right (a := 2 ^ region.chunkSize128bLog2) ?_
    have hdiv := div_mul_le_self (pos - region.physicalBegin128b)
      (2 ^ region.chunkSize128bLog2)
    have hin := h.inChunks
    simp only [chunkRangeAt, add_mul]
    omega
  · simp only [chunkRangeAt]
    ring
  · exact Nat.mul_le_mul_right _ hroom

end Range

theorem block_offset_position (D pos : Nat) :
    pos / 2 ^ D * (2 ^ D * 2 ^ 7) + pos % 2 ^ D * 2 ^ 7 = pos * 2 ^ 7 := by
  have hdm := div_add_mod pos (2 ^ D)
  calc pos / 2 ^ D * (2 ^ D * 2 ^ 7) + pos % 2 ^ D * 2 ^ 7
      = (2 ^ D * (pos / 2 ^ D) + pos % 2 ^ D) * 2 ^ 7 := by ring
    _ = pos * 2 ^ 7 := by rw [hdm]

variable {region : ChunkedIoRegion} {ioBlocks : IoBlocks}

theorem writeChunkedIoRegion_yields (hD : ioBlockSize128bLog2 < 57) {chunks : Nat}
    {srcAt : Nat → Byte} {getSourceBuffer : ChunkRange → DevM IoBlocks (List Byte)}
    (h : Covers ioBlockSize128bLog2 bulk chunks ioBlocks.length region)
    (hsized : Sized (2 ^ ioBlockSize128bLog2 * 2 ^ 7) ioBlocks)
    (hsrc : Provides (2 ^ region.chunkSize128bLog2 * 2 ^ 7) chunks srcAt getSourceBuffer) :
    ∃ ioBlocks', Yields (writeChunkedIoRegion ioBlockSize128bLog2 getSourceBuffer region bulk)
        ioBlocks () ioBlocks' ∧
      Wrote (2 ^ ioBlockSize128bLog2 * 2 ^ 7) (fun p => srcAt (linearAt region p)) ioBlocks ioBlocks'
        (region.physicalBegin128b * 2 ^ 7) (region.physicalEnd128b * 2 ^ 7) := by
  rw [writeChunkedIoRegion, alignedBlocksIter_eq h.toWalkable, ioBlockSize_eq hD]
  refine forBlocks_yields (I := fun pos ioBlocks' => Wrote (2 ^ ioBlockSize128bLog2 * 2 ^ 7)
    (fun p => srcAt (linearAt region p)) ioBlocks ioBlocks' (region.physicalBegin128b * 2 ^ 7)
    (pos * 2 ^ 7)) h.toWalkable rfl _ ?_ ioBlocks (Wrote.refl hsized _)
  intro pos ioBlocks₁ hge hlt hdvd hwrote
  set m := min (bulk + ioBlockSize128bLog2) region.chunkSize128bLog2 with hm
  obtain ⟨hchunk, hlen, hend⟩ := h.range_ok hm hge hlt hdvd
  obtain ⟨src, hyields, hsrcLen, hbytes⟩ := hsrc (chunkRangeAt region (2 ^ m) pos) ioBlocks₁ hchunk
    (by omega) hend
  replace hsrcLen : src.length = 2 ^ m * 2 ^ 7 := by omega
  have hS : 0 < 2 ^ ioBlockSize128bLog2 * 2 ^ 7 :=
    mul_pos (Nat.pow_pos two_pos) (by decide)
  have hposition := block_offset_position ioBlockSize128bLog2 pos
  have hposEnd : (pos + 2 ^ m) * 2 ^ 7 = pos * 2 ^ 7 + 2 ^ m * 2 ^ 7 := add_mul _ _ _
  have hoff : pos % 2 ^ ioBlockSize128bLog2 * 2 ^ 7 < 2 ^ ioBlockSize128bLog2 * 2 ^ 7 :=
    (Nat.mul_lt_mul_right (by decide)).mpr (mod_lt _ (Nat.pow_pos two_pos))
  have hroom : (pos + 2 ^ m) * 2 ^ 7 ≤ ioBlocks₁.length * (2 ^ ioBlockSize128bLog2 * 2 ^ 7) := by
    rw [hwrote.length, ← mul_assoc]
    exact Nat.mul_le_mul_right _ (le_trans hlt h.onDevice)
  obtain ⟨ioBlocks', hslice, hstep⟩ := writeSlice_yields
    (fun p => srcAt (linearAt region p)) hS src.length src
    (pos / 2 ^ ioBlockSize128bLog2) (pos % 2 ^ ioBlockSize128bLog2 * 2 ^ 7) ioBlocks₁ (le_refl _)
    hoff hwrote.sized (by rw [hposition, hsrcLen]; omega)
    (fun k hk => by
      rw [hbytes k hk, chunkRangeAt_linear, hposition]
      simp only [linearAt]
      congr 2
      omega)
  rw [hposition, hsrcLen] at hstep
  refine ⟨ioBlocks', ?_, ?_⟩
  · have hpos : pos < 2 ^ 64 := by
      have := h.end_lt
      have : 0 < 2 ^ m := Nat.pow_pos two_pos
      omega
    have hbulk : bulk < 64 := by
      have := h.blockSize
      omega
    have hlocate := locate_yields hD hpos (hm ▸ min_le_left _ _) hdvd ioBlocks₁
    rw [← hsrcLen] at hlocate
    exact (orErr hbulk ioBlocks₁).bind (hyields.bind (hlocate.bind hslice))
  · have hle := Nat.mul_le_mul_right (2 ^ 7) hge
    rw [hposEnd]
    exact hwrote.trans _ hstep hle (Nat.le_add_right _ _)

/-- What is asked of the chunks' destination buffers: the bytes of the chunks are those of
the buffers, a head of padding aside and up to where a tail of padding starts. Buffers may be
left empty if nobody is interested in their contents. -/
def Accepts (chunkSize chunks blockSize offset padding total : Nat) (lens : List Nat)
    (getDestinationBuffer : ChunkRange → DevM (List (List Byte)) (Option DstSlice)) : Prop :=
  ∀ (range : ChunkRange) (dstBlocks : List (List Byte)), dstBlocks.map List.length = lens →
    range.chunk < chunks → range.rangeBegin ≤ range.rangeEnd → range.rangeEnd ≤ chunkSize →
    (Yields (getDestinationBuffer range) dstBlocks none dstBlocks ∧
      ∀ p, p < total → range.chunk * chunkSize + range.rangeBegin ≤ p + padding →
        p + padding < range.chunk * chunkSize + range.rangeEnd →
        dstAt blockSize offset dstBlocks p = none) ∨
    ∃ block sliceBegin dstBlock,
      Yields (getDestinationBuffer range) dstBlocks
        (some ⟨offset + block, sliceBegin, sliceBegin + (range.rangeEnd - range.rangeBegin)⟩)
        dstBlocks ∧
      dstBlocks[offset + block]? = some dstBlock ∧ dstBlock.length = blockSize ∧
      sliceBegin + (range.rangeEnd - range.rangeBegin) ≤ blockSize ∧
      block * blockSize + sliceBegin + (range.rangeEnd - range.rangeBegin) ≤ total ∧
      block * blockSize + sliceBegin + padding = range.chunk * chunkSize + range.rangeBegin

/-- The positions of the buffers that some range of chunk bytes belongs to. -/
def within (padding total lo hi p : Nat) : Prop := p < total ∧ lo ≤ p + padding ∧ p + padding < hi

theorem readChunkedIoRegion_yields (content : Nat → Byte) (hD : ioBlockSize128bLog2 < 57)
    {chunks blockSize offset padding total : Nat}
    {getDestinationBuffer : ChunkRange → DevM (List (List Byte)) (Option DstSlice)}
    {dstBlocks : List (List Byte)}
    (h : Covers ioBlockSize128bLog2 bulk chunks ioBlocks.length region)
    (hsized : Sized (2 ^ ioBlockSize128bLog2 * 2 ^ 7) ioBlocks)
    (hcontent : ∀ p, region.physicalBegin128b * 2 ^ 7 ≤ p → p < region.physicalEnd128b * 2 ^ 7 →
      byteAt (2 ^ ioBlockSize128bLog2 * 2 ^ 7) ioBlocks p = some (content (linearAt region p)))
    (hdst : Accepts (2 ^ region.chunkSize128bLog2 * 2 ^ 7) chunks blockSize offset padding total
      (dstBlocks.map List.length) getDestinationBuffer) :
    ∃ dstBlocks', Yields (readChunkedIoRegion ioBlockSize128bLog2 ioBlocks getDestinationBuffer region
        bulk) dstBlocks () dstBlocks' ∧
      Filled blockSize offset (fun p => content (p + padding))
        (within padding total (linearAt region (region.physicalBegin128b * 2 ^ 7))
          (linearAt region (region.physicalEnd128b * 2 ^ 7))) dstBlocks dstBlocks' := by
  rw [readChunkedIoRegion, alignedBlocksIter_eq h.toWalkable, ioBlockSize_eq hD]
  refine forBlocks_yields (I := fun pos dstBlocks' => Filled blockSize offset
    (fun p => content (p + padding))
    (within padding total (linearAt region (region.physicalBegin128b * 2 ^ 7))
      (linearAt region (pos * 2 ^ 7))) dstBlocks dstBlocks') h.toWalkable rfl _ ?_ dstBlocks
    (Filled.refl (fun p hp => absurd hp.2.2 (not_lt.mpr hp.2.1)))
  intro pos dstBlocks₁ hge hlt hdvd hfilled
  set m := min (bulk + ioBlockSize128bLog2) region.chunkSize128bLog2 with hm
  obtain ⟨hchunk, hlen, hend⟩ := h.range_ok hm hge hlt hdvd
  have hlinear := chunkRangeAt_linear region (2 ^ m) pos
  have hlinearEnd : linearAt region ((pos + 2 ^ m) * 2 ^ 7) =
      linearAt region (pos * 2 ^ 7) + 2 ^ m * 2 ^ 7 := by
    simp only [linearAt]
    omega
  have hlinearLe : linearAt region (region.physicalBegin128b * 2 ^ 7) ≤
      linearAt region (pos * 2 ^ 7) := by
    simp only [linearAt]
    omega
  have hbulk : bulk < 64 := by
    have := h.blockSize
    omega
  -- It is enough to fill the part of the buffers this range belongs to.
  have hstep : ∀ {dstBlocks'}, Filled blockSize offset (fun p => content (p + padding))
      (within padding total (linearAt region (pos * 2 ^ 7))
        (linearAt region ((pos + 2 ^ m) * 2 ^ 7))) dstBlocks₁ dstBlocks' →
      Filled blockSize offset (fun p => content (p + padding))
        (within padding total (linearAt region (region.physicalBegin128b * 2 ^ 7))
          (linearAt region ((pos + 2 ^ m) * 2 ^ 7))) dstBlocks dstBlocks' := by
    intro dstBlocks' hrange
    refine (hfilled.trans hrange).congr (fun p => ?_) (fun _ _ => rfl)
    simp only [within]
    omega
  rcases hdst (chunkRangeAt region (2 ^ m) pos) dstBlocks₁ hfilled.shape hchunk (by omega) hend with
    ⟨hnone, hempty⟩ | ⟨block, sliceBegin, dstBlock, hsome, hget, hblock, hslice, htotal, hpos⟩
  · refine ⟨dstBlocks₁, ?_, hstep ⟨rfl, fun _ _ => rfl, ?_, fun _ _ => rfl⟩⟩
    · exact (orErr hbulk dstBlocks₁).bind (hnone.bind (pure () dstBlocks₁))
    · rintro p ⟨hp, hlo, hhi⟩
      rw [hempty p hp (by omega) (by omega)]
      rfl
  · have hcount : sliceBegin + ((chunkRangeAt region (2 ^ m) pos).rangeEnd -
        (chunkRangeAt region (2 ^ m) pos).rangeBegin) - sliceBegin = 2 ^ m * 2 ^ 7 := by omega
    have hposition := block_offset_position ioBlockSize128bLog2 pos
    have hoff : pos % 2 ^ ioBlockSize128bLog2 * 2 ^ 7 < 2 ^ ioBlockSize128bLog2 * 2 ^ 7 :=
      (Nat.mul_lt_mul_right (by decide)).mpr (mod_lt _ (Nat.pow_pos two_pos))
    obtain ⟨dstBlocks', hread, hrange⟩ := readSlice_yields offset
      (fun p => content (p + padding)) block hsized
      (mul_pos (Nat.pow_pos two_pos) (by decide)) (2 ^ m * 2 ^ 7) (2 ^ m * 2 ^ 7)
      (pos / 2 ^ ioBlockSize128bLog2) (pos % 2 ^ ioBlockSize128bLog2 * 2 ^ 7) sliceBegin dstBlocks₁
      dstBlock (le_refl _) hoff hget hblock (by omega) (fun k hk => by
        rw [hposition, hcontent (pos * 2 ^ 7 + k) (by omega) (by omega)]
        simp only [linearAt] at hlinear ⊢
        congr 2
        omega)
    refine ⟨dstBlocks', ?_, hstep (hrange.congr (fun p => ?_) (fun _ _ => rfl))⟩
    · have hpos64 : pos < 2 ^ 64 := by
        have := h.end_lt
        have : 0 < 2 ^ m := Nat.pow_pos two_pos
        omega
      have hlocate := locate_yields hD hpos64 (hm ▸ min_le_left _ _) hdvd dstBlocks₁
      refine (orErr hbulk dstBlocks₁).bind (hsome.bind ?_)
      dsimp only
      rw [hcount]
      exact hlocate.bind hread
    · simp only [within]
      omega

end CocoonFs.BlkDev
