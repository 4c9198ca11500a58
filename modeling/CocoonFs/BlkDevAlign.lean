import CocoonFs.BlkDevTransfers

namespace CocoonFs.BlkDev

open Checked Codes IoRegion IoSteps Patches Nat

variable {ioBlockSize128bLog2 preferredIoBlocksBulkLog2 alignment128bLog2 chunks ioBlocks : Nat}
  {region : ChunkedIoRegion} {lo hi : Nat}

theorem lt_roundDown_add (n k : Nat) : n < roundDownPow2 n k + 2 ^ k := by
  have hdm := div_add_mod n (2 ^ k)
  rw [roundDownPow2, mul_comm]
  omega

theorem roundDown_le (n k : Nat) : roundDownPow2 n k ≤ n := div_mul_le_self n (2 ^ k)

structure BodyBounds (region : ChunkedIoRegion) (alignment128bLog2 lo hi : Nat) : Prop where
  alignment : alignment128bLog2 < 64
  begin_le : region.physicalBegin128b ≤ lo
  lt_begin : lo < region.physicalBegin128b + 2 ^ alignment128bLog2
  nonempty : lo < hi
  le_end : hi ≤ region.physicalEnd128b
  end_lt : region.physicalEnd128b < hi + 2 ^ alignment128bLog2
  lo_dvd : 2 ^ alignment128bLog2 ∣ lo
  hi_dvd : 2 ^ alignment128bLog2 ∣ hi

theorem alignedBody_bounds (h : alignedBody region alignment128bLog2 = some (lo, hi)) :
    BodyBounds region alignment128bLog2 lo hi := by
  rw [alignedBody] at h
  split at h
  · cases h
  next halign =>
    dsimp only at h
    split at h
    · cases h
    next hlt =>
      rw [not_le] at hlt
      cases hup : roundUpPow2 region.physicalBegin128b alignment128bLog2 with
      | none =>
        rw [hup] at hlt
        exact absurd hlt (lt_irrefl _)
      | some up =>
        rw [hup] at h hlt
        simp only [Option.getD_some, Option.some.injEq, Prod.mk.injEq] at h hlt
        obtain ⟨rfl, rfl⟩ := h
        rw [roundUpPow2] at hup
        split at hup
        case isFalse => cases hup
        case isTrue =>
          cases hup
          have hge := lt_roundDown_add (region.physicalBegin128b + (2 ^ alignment128bLog2 - 1))
            alignment128bLog2
          have hle := roundDown_le (region.physicalBegin128b + (2 ^ alignment128bLog2 - 1))
            alignment128bLog2
          rw [roundDownPow2] at hge hle
          exact ⟨Nat.lt_of_not_le halign, by omega, by omega, hlt, roundDown_le _ _,
            lt_roundDown_add _ _, dvd_mul_left _ _, dvd_mul_left _ _⟩

/-- The region of a request to a device of so many blocks, made of whole chunks. -/
structure Requested (ioBlockSize128bLog2 chunks ioBlocks : Nat) (region : ChunkedIoRegion) :
    Prop where
  ioBlockSize : ioBlockSize128bLog2 < 57
  ordered : region.physicalBegin128b ≤ region.physicalEnd128b
  begin_dvd : 2 ^ ioBlockSize128bLog2 ∣ region.physicalBegin128b
  end_dvd : 2 ^ ioBlockSize128bLog2 ∣ region.physicalEnd128b
  end_lt : region.physicalEnd128b < 2 ^ 64
  onDevice : region.physicalEnd128b ≤ ioBlocks * 2 ^ ioBlockSize128bLog2
  chunks_eq : region.physicalEnd128b - region.physicalBegin128b =
    chunks * 2 ^ region.chunkSize128bLog2
  offset_eq : region.chunkIndexOffset = 0

variable {part : ChunkedIoRegion}

/-- A part of a request's region, its chunk index offset being that of the chunks in front. -/
theorem Requested.covers {bulk : Nat} (h : Requested ioBlockSize128bLog2 chunks ioBlocks region)
    (hchunk : part.chunkSize128bLog2 = region.chunkSize128bLog2)
    (hbulk : bulk + ioBlockSize128bLog2 < 64)
    (hbegin : region.physicalBegin128b ≤ part.physicalBegin128b)
    (hord : part.physicalBegin128b ≤ part.physicalEnd128b)
    (hend : part.physicalEnd128b ≤ region.physicalEnd128b)
    (hbegin_dvd : 2 ^ (bulk + ioBlockSize128bLog2) ∣ part.physicalBegin128b)
    (hend_dvd : 2 ^ (bulk + ioBlockSize128bLog2) ∣ part.physicalEnd128b)
    (hoffset : part.chunkIndexOffset * 2 ^ region.chunkSize128bLog2 ≤
      part.physicalBegin128b - region.physicalBegin128b) :
    Covers ioBlockSize128bLog2 bulk chunks ioBlocks part := by
  have hin : part.chunkIndexOffset * 2 ^ part.chunkSize128bLog2 +
      (part.physicalEnd128b - part.physicalBegin128b) ≤ chunks * 2 ^ part.chunkSize128bLog2 := by
    rw [hchunk, ← h.chunks_eq]
    omega
  refine ⟨⟨hbulk, hord, hbegin_dvd, hend_dvd, lt_of_le_of_lt hend h.end_lt, ?_⟩,
    le_trans hend h.onDevice, hin⟩
  have hpos : 0 < 2 ^ part.chunkSize128bLog2 := Nat.pow_pos two_pos
  have hle : chunksCount part + part.chunkIndexOffset ≤ chunks := by
    refine Nat.le_of_mul_le_mul_right ?_ hpos
    have := div_mul_le_self (part.physicalEnd128b - part.physicalBegin128b)
      (2 ^ part.chunkSize128bLog2)
    rw [add_mul, chunksCount]
    omega
  have hchunks : chunks ≤ region.physicalEnd128b - region.physicalBegin128b := by
    rw [h.chunks_eq]
    exact Nat.le_mul_of_pos_right _ (Nat.pow_pos two_pos)
  have := h.end_lt
  omega

theorem Requested.covers_self (h : Requested ioBlockSize128bLog2 chunks ioBlocks region) :
    Covers ioBlockSize128bLog2 0 chunks ioBlocks region := by
  have := h.ioBlockSize
  refine h.covers rfl (by omega) (le_refl _) h.ordered (le_refl _) ?_ ?_ ?_
  · rw [zero_add]; exact h.begin_dvd
  · rw [zero_add]; exact h.end_dvd
  · rw [h.offset_eq, zero_mul]; exact zero_le _

/-- The chunk index offsets found for the aligned body and for the unaligned tail. -/
def bodyOffset (region : ChunkedIoRegion) (lo : Nat) : Nat :=
  region.chunkIndexOffset + (lo - region.physicalBegin128b) / 2 ^ region.chunkSize128bLog2

def tailOffset (region : ChunkedIoRegion) (lo hi : Nat) : Nat :=
  bodyOffset region lo + (hi - lo) / 2 ^ region.chunkSize128bLog2

theorem alignTo_some (h : alignedBody region alignment128bLog2 = some (lo, hi)) :
    alignTo region alignment128bLog2 =
      ({ region with physicalEnd128b := lo },
        some (⟨lo, hi, region.chunkSize128bLog2, bodyOffset region lo⟩,
          ⟨hi, region.physicalEnd128b, region.chunkSize128bLog2, tailOffset region lo hi⟩)) := by
  rw [alignTo, h]
  rfl

theorem alignTo_none (h : alignedBody region alignment128bLog2 = none) :
    alignTo region alignment128bLog2 = (region, none) := by
  rw [alignTo, h]

theorem Requested.bodyOffset_le (h : Requested ioBlockSize128bLog2 chunks ioBlocks region)
    (lo : Nat) :
    bodyOffset region lo * 2 ^ region.chunkSize128bLog2 ≤ lo - region.physicalBegin128b := by
  rw [bodyOffset, h.offset_eq, zero_add]
  exact div_mul_le_self _ _

section Parts

variable (h : Requested ioBlockSize128bLog2 chunks ioBlocks region)
  (hb : BodyBounds region (preferredIoBlocksBulkLog2 + ioBlockSize128bLog2) lo hi)
include h hb

theorem Requested.covers_head :
    Covers ioBlockSize128bLog2 0 chunks ioBlocks { region with physicalEnd128b := lo } := by
  have := h.ioBlockSize
  have hdvd : 2 ^ ioBlockSize128bLog2 ∣ lo :=
    (pow_dvd_pow 2 (Nat.le_add_left _ _)).trans hb.lo_dvd
  have hle := le_trans (le_of_lt hb.nonempty) hb.le_end
  refine h.covers rfl (by omega) (le_refl _) hb.begin_le hle ?_ ?_ ?_
  · rw [zero_add]; exact h.begin_dvd
  · rw [zero_add]; exact hdvd
  · rw [h.offset_eq, zero_mul]; exact zero_le _

theorem Requested.tailOffset_le :
    tailOffset region lo hi * 2 ^ region.chunkSize128bLog2 ≤ hi - region.physicalBegin128b := by
  have hbody := h.bodyOffset_le lo
  have htail := div_mul_le_self (hi - lo) (2 ^ region.chunkSize128bLog2)
  have hle := hb.begin_le
  have hlt := hb.nonempty
  rw [tailOffset, add_mul]
  omega

theorem Requested.covers_body :
    Covers ioBlockSize128bLog2 preferredIoBlocksBulkLog2 chunks ioBlocks
      ⟨lo, hi, region.chunkSize128bLog2, bodyOffset region lo⟩ :=
  h.covers rfl hb.alignment hb.begin_le (le_of_lt hb.nonempty) hb.le_end hb.lo_dvd hb.hi_dvd
    (h.bodyOffset_le lo)

theorem Requested.covers_tail :
    Covers ioBlockSize128bLog2 0 chunks ioBlocks
      ⟨hi, region.physicalEnd128b, region.chunkSize128bLog2, tailOffset region lo hi⟩ := by
  have := h.ioBlockSize
  have hdvd : 2 ^ ioBlockSize128bLog2 ∣ hi :=
    (pow_dvd_pow 2 (Nat.le_add_left _ _)).trans hb.hi_dvd
  have hle := le_trans hb.begin_le (le_of_lt hb.nonempty)
  refine h.covers rfl (by omega) hle hb.le_end (le_refl _) ?_ ?_ (h.tailOffset_le hb)
  · rw [zero_add]; exact hdvd
  · rw [zero_add]; exact h.end_dvd

end Parts

/-- The position in the sequence of all chunks whose byte the device transfers at a position
on storage. -/
def transferred (region : ChunkedIoRegion) (alignment128bLog2 p : Nat) : Nat :=
  match alignTo region alignment128bLog2 with
  | (region, none) => linearAt region p
  | (unalignedHead, some (aligned, unalignedTail)) =>
    if p < aligned.physicalBegin128b * 2 ^ 7 then linearAt unalignedHead p
    else if p < unalignedTail.physicalBegin128b * 2 ^ 7 then linearAt aligned p
    else linearAt unalignedTail p

def SplitAtChunk (region : ChunkedIoRegion) (alignment128bLog2 : Nat) : Prop :=
  ∀ lo hi, alignedBody region alignment128bLog2 = some (lo, hi) →
    2 ^ region.chunkSize128bLog2 ∣ lo - region.physicalBegin128b

instance (region : ChunkedIoRegion) (alignment128bLog2 : Nat) :
    Decidable (SplitAtChunk region alignment128bLog2) :=
  match hbody : alignedBody region alignment128bLog2 with
  | none => isTrue (fun lo hi h => by rw [hbody] at h; cases h)
  | some (lo, hi) =>
    if h : 2 ^ region.chunkSize128bLog2 ∣ lo - region.physicalBegin128b then
      isTrue (fun lo' hi' h' => by rw [hbody] at h'; cases h'; exact h)
    else isFalse (fun hall => h (hall lo hi hbody))

/-- A body that starts on a chunk has no tail, or it is made of whole chunks as well. -/
theorem Requested.tail_empty_or (h : Requested ioBlockSize128bLog2 chunks ioBlocks region)
    (hb : BodyBounds region alignment128bLog2 lo hi)
    (hdvd : 2 ^ region.chunkSize128bLog2 ∣ lo - region.physicalBegin128b) :
    hi = region.physicalEnd128b ∨ 2 ^ region.chunkSize128bLog2 ∣ hi - lo := by
  have hord := h.ordered
  have hle := hb.begin_le
  by_cases hc : region.chunkSize128bLog2 ≤ alignment128bLog2
  · exact .inr ((pow_dvd_pow 2 hc).trans (Nat.dvd_sub hb.hi_dvd hb.lo_dvd))
  · refine .inl ?_
    have hpow : 2 ^ alignment128bLog2 ∣ 2 ^ region.chunkSize128bLog2 :=
      pow_dvd_pow 2 (by omega)
    have hbegin : lo = region.physicalBegin128b := by
      have hlt := hb.lt_begin
      have hsize := Nat.pow_lt_pow_right Nat.one_lt_two (Nat.lt_of_not_le hc)
      have := eq_zero_of_dvd_of_lt hdvd (by omega)
      omega
    have hend : 2 ^ alignment128bLog2 ∣ region.physicalEnd128b := by
      have hlen : 2 ^ alignment128bLog2 ∣ region.physicalEnd128b - region.physicalBegin128b :=
        h.chunks_eq ▸ Dvd.dvd.mul_left hpow chunks
      have hsum := Nat.dvd_add hlen (hbegin ▸ hb.lo_dvd)
      rwa [Nat.sub_add_cancel hord] at hsum
    have hrest := eq_zero_of_dvd_of_lt (Nat.dvd_sub hend hb.hi_dvd)
      (show region.physicalEnd128b - hi < 2 ^ alignment128bLog2 by have := hb.end_lt; omega)
    have := hb.le_end
    omega

theorem mul_div_units {n d : Nat} (h : d ∣ n) : n / d * (d * 2 ^ 7) = n * 2 ^ 7 := by
  rw [← mul_assoc, Nat.div_mul_cancel h]

variable {p : Nat}

section

variable (h : Requested ioBlockSize128bLog2 chunks ioBlocks region)
include h

/-- The chunk index offsets account for everything in front if the body starts on a chunk. -/
theorem Requested.offsets_eq (hb : BodyBounds region alignment128bLog2 lo hi)
    (hdvd : 2 ^ region.chunkSize128bLog2 ∣ lo - region.physicalBegin128b) :
    bodyOffset region lo * (2 ^ region.chunkSize128bLog2 * 2 ^ 7) =
        (lo - region.physicalBegin128b) * 2 ^ 7 ∧
      (hi = region.physicalEnd128b ∨
        tailOffset region lo hi * (2 ^ region.chunkSize128bLog2 * 2 ^ 7) =
          (hi - region.physicalBegin128b) * 2 ^ 7) := by
  have hbody : bodyOffset region lo * (2 ^ region.chunkSize128bLog2 * 2 ^ 7) =
      (lo - region.physicalBegin128b) * 2 ^ 7 := by
    rw [bodyOffset, h.offset_eq, zero_add, mul_div_units hdvd]
  refine ⟨hbody, (h.tail_empty_or hb hdvd).imp_right (fun htail => ?_)⟩
  have hle := hb.begin_le
  have hlt := hb.nonempty
  rw [tailOffset, add_mul, hbody, mul_div_units htail, ← add_mul]
  congr 1
  omega

theorem Requested.transferred_eq (hsplit : SplitAtChunk region alignment128bLog2)
    (hlo : region.physicalBegin128b * 2 ^ 7 ≤ p) (hhi : p < region.physicalEnd128b * 2 ^ 7) :
    transferred region alignment128bLog2 p = p - region.physicalBegin128b * 2 ^ 7 := by
  cases hbody : alignedBody region alignment128bLog2 with
  | none =>
    rw [transferred, alignTo_none hbody]
    simp only [linearAt, h.offset_eq, zero_mul, zero_add]
  | some bounds =>
    obtain ⟨lo, hi⟩ := bounds
    have hb := alignedBody_bounds hbody
    have hle := hb.begin_le
    have hlt := hb.nonempty
    obtain ⟨hoff, htail⟩ := h.offsets_eq hb (hsplit lo hi hbody)
    rw [transferred, alignTo_some hbody]
    dsimp only
    split
    · simp only [linearAt, h.offset_eq, zero_mul, zero_add]
    · split
      · simp only [linearAt, hoff]
        omega
      · rcases htail with rfl | htail
        · omega
        · simp only [linearAt, htail]
          omega

theorem Requested.transferred_head
    (hbody : alignedBody region alignment128bLog2 = some (lo, hi)) (hp : p < lo * 2 ^ 7) :
    transferred region alignment128bLog2 p = p - region.physicalBegin128b * 2 ^ 7 := by
  rw [transferred, alignTo_some hbody]
  dsimp only
  rw [if_pos hp]
  simp only [linearAt, h.offset_eq, zero_mul, zero_add]

theorem Requested.bodyOffset_lt
    (hndvd : ¬2 ^ region.chunkSize128bLog2 ∣ lo - region.physicalBegin128b) :
    bodyOffset region lo * 2 ^ region.chunkSize128bLog2 < lo - region.physicalBegin128b := by
  have hdm := div_add_mod (lo - region.physicalBegin128b) (2 ^ region.chunkSize128bLog2)
  rw [bodyOffset, h.offset_eq, zero_add, mul_comm]
  omega

end

/-- Past the head, a position gets some earlier byte of the chunks if the body does not start
on one of them. -/
theorem Requested.transferred_lt (h : Requested ioBlockSize128bLog2 chunks ioBlocks region)
    (hbody : alignedBody region alignment128bLog2 = some (lo, hi))
    (hndvd : ¬2 ^ region.chunkSize128bLog2 ∣ lo - region.physicalBegin128b) (hlo : lo * 2 ^ 7 ≤ p) :
    transferred region alignment128bLog2 p < p - region.physicalBegin128b * 2 ^ 7 := by
  have hb := alignedBody_bounds hbody
  have hlt := hb.nonempty
  have hoff := h.bodyOffset_lt hndvd
  have htail := div_mul_le_self (hi - lo) (2 ^ region.chunkSize128bLog2)
  rw [transferred, alignTo_some hbody]
  dsimp only
  rw [if_neg (by omega)]
  split
  · simp only [linearAt, ← mul_assoc]
    omega
  · simp only [linearAt, tailOffset, ← mul_assoc, add_mul]
    omega

section Process

variable {ioBlocks : IoBlocks}

theorem processWriteRequest_yields (preferredIoBlocksBulkLog2 : Nat) {srcAt : Nat → Byte}
    {getSourceBuffer : ChunkRange → DevM IoBlocks (List Byte)}
    (h : Requested ioBlockSize128bLog2 chunks ioBlocks.length region)
    (hsized : Sized (2 ^ ioBlockSize128bLog2 * 2 ^ 7) ioBlocks)
    (hsrc : Provides (2 ^ region.chunkSize128bLog2 * 2 ^ 7) chunks srcAt getSourceBuffer) :
    ∃ ioBlocks', Yields (processWriteRequest ioBlockSize128bLog2 preferredIoBlocksBulkLog2 region
        getSourceBuffer) ioBlocks () ioBlocks' ∧
      Wrote (2 ^ ioBlockSize128bLog2 * 2 ^ 7)
        (fun p => srcAt (transferred region (preferredIoBlocksBulkLog2 + ioBlockSize128bLog2) p))
        ioBlocks ioBlocks' (region.physicalBegin128b * 2 ^ 7) (region.physicalEnd128b * 2 ^ 7) := by
  have hD := h.ioBlockSize
  cases hbody : alignedBody region (preferredIoBlocksBulkLog2 + ioBlockSize128bLog2) with
  | none =>
    obtain ⟨ioBlocks', hyields, hwrote⟩ := writeChunkedIoRegion_yields hD h.covers_self hsized hsrc
    refine ⟨ioBlocks', ?_, hwrote.congr (fun p _ _ => ?_)⟩
    · rw [processWriteRequest, alignTo_none hbody]
      exact hyields.bind (Yields.pure () ioBlocks')
    · rw [transferred, alignTo_none hbody]
  | some bounds =>
    obtain ⟨lo, hi⟩ := bounds
    have hb := alignedBody_bounds hbody
    have hlo := Nat.mul_le_mul_right (2 ^ 7) hb.begin_le
    have hlt := Nat.mul_le_mul_right (2 ^ 7) (le_of_lt hb.nonempty)
    have hend := Nat.mul_le_mul_right (2 ^ 7) hb.le_end
    obtain ⟨ioBlocks₁, hhead, hwrote₁⟩ :=
      writeChunkedIoRegion_yields hD (h.covers_head hb) hsized hsrc
    have hcovers₂ := h.covers_body hb
    rw [← hwrote₁.length] at hcovers₂
    obtain ⟨ioBlocks₂, haligned, hwrote₂⟩ :=
      writeChunkedIoRegion_yields hD hcovers₂ hwrote₁.sized hsrc
    have hcovers₃ := h.covers_tail hb
    rw [← hwrote₁.length, ← hwrote₂.length] at hcovers₃
    obtain ⟨ioBlocks₃, htail, hwrote₃⟩ :=
      writeChunkedIoRegion_yields hD hcovers₃ hwrote₂.sized hsrc
    refine ⟨ioBlocks₃, ?_, ?_⟩
    · rw [processWriteRequest, alignTo_some hbody]
      exact hhead.bind (haligned.bind htail)
    · refine (Wrote.trans (lo * 2 ^ 7) (hwrote₁.congr ?_)
        (Wrote.trans (hi * 2 ^ 7) (hwrote₂.congr ?_) (hwrote₃.congr ?_) hlt hend) hlo
        (le_trans hlt hend))
      · intro p _ hp
        rw [transferred, alignTo_some hbody]
        dsimp only
        rw [if_pos hp]
      · intro p hp hp'
        rw [transferred, alignTo_some hbody]
        dsimp only
        rw [if_neg (not_lt.mpr hp), if_pos hp']
      · intro p hp _
        rw [transferred, alignTo_some hbody]
        dsimp only
        rw [if_neg (not_lt.mpr (le_trans hlt hp)), if_neg (not_lt.mpr hp)]

variable {blockSize offset padding total : Nat} {content : Nat → Byte}
  {getDestinationBuffer : ChunkRange → DevM (List (List Byte)) (Option DstSlice)}
  {dstBlocks : List (List Byte)}

/-- The position on storage that goes with a position within the sequence of all chunks. -/
def storageAt (region : ChunkedIoRegion) (l : Nat) : Nat :=
  region.physicalBegin128b * 2 ^ 7 +
    (l - region.chunkIndexOffset * (2 ^ region.chunkSize128bLog2 * 2 ^ 7))

theorem storageAt_linearAt (h : region.physicalBegin128b * 2 ^ 7 ≤ p) :
    storageAt region (linearAt region p) = p := by
  rw [storageAt, linearAt, Nat.add_sub_cancel_left]
  omega

theorem readPart_yields (dstBlocks : List (List Byte)) {bulk : Nat} (hD : ioBlockSize128bLog2 < 57)
    (hcovers : Covers ioBlockSize128bLog2 bulk chunks ioBlocks.length part)
    (hsized : Sized (2 ^ ioBlockSize128bLog2 * 2 ^ 7) ioBlocks)
    (hcontent : ∀ p, part.physicalBegin128b * 2 ^ 7 ≤ p → p < part.physicalEnd128b * 2 ^ 7 →
      byteAt (2 ^ ioBlockSize128bLog2 * 2 ^ 7) ioBlocks p = some (content p))
    (hdst : Accepts (2 ^ part.chunkSize128bLog2 * 2 ^ 7) chunks blockSize offset padding total
      (dstBlocks.map List.length) getDestinationBuffer) :
    ∃ dstBlocks', Yields (readChunkedIoRegion ioBlockSize128bLog2 ioBlocks getDestinationBuffer part
        bulk) dstBlocks () dstBlocks' ∧
      Filled blockSize offset (fun p => content (storageAt part (p + padding)))
        (within padding total (linearAt part (part.physicalBegin128b * 2 ^ 7))
          (linearAt part (part.physicalEnd128b * 2 ^ 7))) dstBlocks dstBlocks' := by
  refine readChunkedIoRegion_yields (fun l => content (storageAt part l)) hD hcovers
    hsized ?_ hdst
  intro p hlo hhi
  rw [storageAt_linearAt hlo]
  exact hcontent p hlo hhi

/-- The buffers get what there is on storage if the region's split is on a chunk, or else
the last byte of the chunks does not get read at all. -/
theorem processReadRequest_yields (preferredIoBlocksBulkLog2 : Nat) (content : Nat → Byte)
    (h : Requested ioBlockSize128bLog2 chunks ioBlocks.length region)
    (hsized : Sized (2 ^ ioBlockSize128bLog2 * 2 ^ 7) ioBlocks)
    (hcontent : ∀ p, region.physicalBegin128b * 2 ^ 7 ≤ p → p < region.physicalEnd128b * 2 ^ 7 →
      byteAt (2 ^ ioBlockSize128bLog2 * 2 ^ 7) ioBlocks p = some (content p))
    (hdst : Accepts (2 ^ region.chunkSize128bLog2 * 2 ^ 7) chunks blockSize offset padding total
      (dstBlocks.map List.length) getDestinationBuffer) :
    ∃ dstBlocks', Yields (processReadRequest ioBlockSize128bLog2 preferredIoBlocksBulkLog2 ioBlocks
        region getDestinationBuffer) dstBlocks () dstBlocks' ∧
      (SplitAtChunk region (preferredIoBlocksBulkLog2 + ioBlockSize128bLog2) →
        Filled blockSize offset
          (fun p => content (region.physicalBegin128b * 2 ^ 7 + (p + padding)))
          (within padding total 0
            ((region.physicalEnd128b - region.physicalBegin128b) * 2 ^ 7)) dstBlocks dstBlocks') ∧
      (¬SplitAtChunk region (preferredIoBlocksBulkLog2 + ioBlockSize128bLog2) →
        ∀ p, p + padding + 1 = (region.physicalEnd128b - region.physicalBegin128b) * 2 ^ 7 →
          dstAt blockSize offset dstBlocks' p = dstAt blockSize offset dstBlocks p) := by
  have hD := h.ioBlockSize
  cases hbody : alignedBody region (preferredIoBlocksBulkLog2 + ioBlockSize128bLog2) with
  | none =>
    obtain ⟨dstBlocks', hyields, hfilled⟩ := readPart_yields dstBlocks hD h.covers_self hsized hcontent hdst
    refine ⟨dstBlocks', ?_, fun _ => hfilled.congr (fun p => ?_) (fun p _ => ?_), fun hsplit => ?_⟩
    · rw [processReadRequest, alignTo_none hbody]
      exact hyields.bind (Yields.pure () dstBlocks')
    · simp only [within, linearAt, h.offset_eq]
      omega
    · simp only [storageAt, h.offset_eq, zero_mul, Nat.sub_zero]
    · exact absurd (fun lo hi hsome => by rw [hbody] at hsome; cases hsome) hsplit
  | some bounds =>
    obtain ⟨lo, hi⟩ := bounds
    have hb := alignedBody_bounds hbody
    have hle := hb.begin_le
    have hlt := hb.nonempty
    have hend := hb.le_end
    obtain ⟨dst₁, hhead, hfilled₁⟩ := readPart_yields dstBlocks hD (h.covers_head hb) hsized
      (fun p hp hp' => hcontent p hp (by dsimp only at hp'; omega)) hdst
    obtain ⟨dst₂, haligned, hfilled₂⟩ := readPart_yields dst₁ hD (h.covers_body hb)
      hsized (fun p hp hp' => hcontent p (by dsimp only at hp; omega) (by dsimp only at hp'; omega))
      (hfilled₁.shape.symm ▸ hdst)
    obtain ⟨dst₃, htail, hfilled₃⟩ := readPart_yields dst₂ hD (h.covers_tail hb)
      hsized (fun p hp hp' => hcontent p (by dsimp only at hp; omega) hp')
      (hfilled₂.shape.symm ▸ hfilled₁.shape.symm ▸ hdst)
    simp only [linearAt, storageAt, h.offset_eq, zero_mul, zero_add, Nat.sub_zero,
      Nat.sub_self, add_zero] at hfilled₁ hfilled₂ hfilled₃
    refine ⟨dst₃, ?_, fun hsplit => ?_, fun hsplit p hp => ?_⟩
    · rw [processReadRequest, alignTo_some hbody]
      exact hhead.bind (haligned.bind htail)
    · obtain ⟨hoff, htailEq⟩ := h.offsets_eq hb (hsplit lo hi hbody)
      refine (hfilled₁.trans ((hfilled₂.congr (fun _ => Iff.rfl) (fun p hp => ?_)).trans
        (hfilled₃.congr (fun _ => Iff.rfl) (fun p hp => ?_)))).congr (fun p => ?_) (fun _ _ => rfl)
      · obtain ⟨_, hlo', _⟩ := hp
        congr 1
        omega
      · obtain ⟨_, hlo', hhi'⟩ := hp
        rcases htailEq with rfl | htailEq
        · omega
        · rw [htailEq] at hlo' ⊢
          congr 1
          omega
      · simp only [within]
        rcases htailEq with rfl | htailEq
        · omega
        · rw [htailEq]
          omega
    · have hndvd : ¬2 ^ region.chunkSize128bLog2 ∣ lo - region.physicalBegin128b := by
        intro hdvd
        refine hsplit (fun lo' hi' hsome => ?_)
        rw [hbody] at hsome
        cases hsome
        exact hdvd
      have hoff : bodyOffset region lo * 2 ^ region.chunkSize128bLog2 <
          lo - region.physicalBegin128b := h.bodyOffset_lt hndvd
      have htail := div_mul_le_self (hi - lo) (2 ^ region.chunkSize128bLog2)
      have hmul : ∀ n, n * (2 ^ region.chunkSize128bLog2 * 2 ^ 7) =
          n * 2 ^ region.chunkSize128bLog2 * 2 ^ 7 := fun n => (mul_assoc _ _ _).symm
      simp only [hmul, tailOffset, add_mul] at hfilled₂ hfilled₃
      rw [hfilled₃.kept p, hfilled₂.kept p, hfilled₁.kept p]
      · rintro ⟨_, _, hhi⟩
        omega
      · rintro ⟨_, _, hhi⟩
        omega
      · rintro ⟨_, _, hhi⟩
        omega

end Process

end CocoonFs.BlkDev
