import CocoonFs.GatherScatter

namespace CocoonFs.GatherScatter

open Checked Codes IoRegion IoSteps Patches BlkDev Nat
open Yields (orErr pure require)
open Nat (div_mul_cancel mul_div_cancel mul_le_mul_left pow_le_pow_right pow_pos sub_add_cancel)

theorem shl_eq {a n : Nat} (h : a * 2 ^ n < 2 ^ 64) : shl a n = a * 2 ^ n := mod_eq_of_lt h

variable {a x y : Nat}

/-- A number of blocks of one size, counted in blocks of a size that is not larger. -/
theorem mul_pow_sub (h : y ≤ x) : a * 2 ^ (x - y) * 2 ^ y = a * 2 ^ x := by
  rw [mul_assoc, ← pow_add, sub_add_cancel h]

theorem dvd_of_units (h : x ≤ y) (hdvd : 2 ^ y ∣ a * 2 ^ x) : 2 ^ (y - x) ∣ a := by
  have : 2 ^ (y - x) * 2 ^ x ∣ a * 2 ^ x := by
    rwa [← pow_add, sub_add_cancel h]
  exact Nat.dvd_of_mul_dvd_mul_right (pow_pos two_pos) this

theorem div_pow_sub (h : x ≤ y) (hdvd : 2 ^ y ∣ a * 2 ^ x) :
    a / 2 ^ (y - x) * 2 ^ y = a * 2 ^ x := by
  have hsub := div_mul_cancel (dvd_of_units h hdvd)
  calc a / 2 ^ (y - x) * 2 ^ y = a / 2 ^ (y - x) * (2 ^ (y - x) * 2 ^ x) := by
        rw [← pow_add, sub_add_cancel h]
    _ = a * 2 ^ x := by rw [← mul_assoc, hsub]

theorem lt_of_dvd_of_lt {k n m : Nat} (hdvd : 2 ^ k ∣ n) (hn : 0 < n) (hlt : n < 2 ^ m) : k < m :=
  (Nat.pow_lt_pow_iff_right Nat.one_lt_two).mp (lt_of_le_of_lt (le_of_dvd hn hdvd) hlt)

theorem le_mul_pow (a n : Nat) : a ≤ a * 2 ^ n := Nat.le_mul_of_pos_right a (pow_pos two_pos)

theorem regionBufferBlocks_yields (hdvd : 2 ^ y ∣ a * 2 ^ x) (hlt : a * 2 ^ x < 2 ^ 64) :
    ∃ b, b * 2 ^ y = a * 2 ^ x ∧ Yields (regionBufferBlocks a x y) () b () := by
  rw [regionBufferBlocks]
  by_cases hyx : y ≤ x
  · refine ⟨shl a (x - y), ?_, ?_⟩
    · rw [shl_eq, mul_pow_sub hyx]
      refine lt_of_le_of_lt (mul_le_mul_left a ?_) hlt
      exact pow_le_pow_right two_pos (sub_le x y)
    · rw [if_pos hyx]
      exact pure _ ()
  · have hxy := Nat.le_of_not_le hyx
    have hcancel := div_mul_cancel (dvd_of_units hxy hdvd)
    refine ⟨a / 2 ^ (y - x), div_pow_sub hxy hdvd, ?_⟩
    rw [if_neg hyx]
    refine (orErr ?_ ()).bind (pure _ ())
    rw [shl_eq, hcancel]
    rw [hcancel]
    exact lt_of_le_of_lt (le_mul_pow a x) hlt

theorem IoRegion_new_eq {physicalBegin128b physicalEnd128b chunkSize128bLog2 : Nat}
    (hc : chunkSize128bLog2 < 57) (hord : physicalBegin128b ≤ physicalEnd128b)
    (hend : physicalEnd128b < 2 ^ 64)
    (hdvd : 2 ^ chunkSize128bLog2 ∣ physicalEnd128b - physicalBegin128b) :
    IoRegion.new physicalBegin128b physicalEnd128b chunkSize128bLog2 =
      .ok ⟨physicalBegin128b, physicalEnd128b, chunkSize128bLog2, 0⟩ := by
  have hcount := Nat.div_le_self (physicalEnd128b - physicalBegin128b) (2 ^ chunkSize128bLog2)
  rw [IoRegion.new, if_neg (by omega), if_neg (by omega), if_neg (by omega),
    if_neg (by simp [isAlignedPow2, mod_eq_zero_of_dvd hdvd])]

/-- What a write is documented to be asked for: with whole device blocks, from whole source
buffers, and with a length that a 64 bit value can hold. -/
structure WriteAligned (ioBlockSize128bLog2 : Nat) (args : WriteArgs) : Prop where
  length : args.writeRegionDstBlocks * 2 ^ args.dstBlockSize128bLog2 * 2 ^ 7 < 2 ^ 64
  begin_dvd : 2 ^ ioBlockSize128bLog2 ∣
    args.writeRegionBeginDstBlocks * 2 ^ args.dstBlockSize128bLog2
  length_dvd : 2 ^ ioBlockSize128bLog2 ∣ args.writeRegionDstBlocks * 2 ^ args.dstBlockSize128bLog2
  src_dvd : 2 ^ args.srcBlockSize128bLog2 ∣ args.writeRegionDstBlocks * 2 ^ args.dstBlockSize128bLog2
  begin_lt : args.writeRegionBeginDstBlocks < 2 ^ 64
  buffers : ∀ i, i * 2 ^ args.srcBlockSize128bLog2 <
      args.writeRegionDstBlocks * 2 ^ args.dstBlockSize128bLog2 →
    ∃ srcBlock, args.srcBlocks[args.srcBlocksIndexOffset + i]? = some srcBlock ∧
      srcBlock.length = 2 ^ args.srcBlockSize128bLog2 * 2 ^ 7

def WriteArgs.begin128b (args : WriteArgs) : Nat :=
  args.writeRegionBeginDstBlocks * 2 ^ args.dstBlockSize128bLog2

def WriteArgs.end128b (args : WriteArgs) : Nat :=
  args.begin128b + args.writeRegionDstBlocks * 2 ^ args.dstBlockSize128bLog2

def WriteArgs.region (args : WriteArgs) : ChunkedIoRegion :=
  ⟨args.begin128b, args.end128b, args.srcBlockSize128bLog2, 0⟩

/-- The write region is on the device and its end in bytes can be held by 64 bits. -/
def WriteInRange (ioBlockSize128bLog2 ioBlocks : Nat) (args : WriteArgs) : Prop :=
  args.end128b ≤ ioBlocks * 2 ^ ioBlockSize128bLog2 ∧ args.end128b * 2 ^ 7 < 2 ^ 64

section Write

variable {ioBlockSize128bLog2 ioBlocks : Nat} {args : WriteArgs}

section

variable (h : WriteAligned ioBlockSize128bLog2 args)
include h

theorem WriteAligned.logs_lt (hpos : args.writeRegionDstBlocks ≠ 0) :
    ioBlockSize128bLog2 < 57 ∧ args.dstBlockSize128bLog2 < 57 ∧ args.srcBlockSize128bLog2 < 57 := by
  have hlen := h.length
  have hlt : args.writeRegionDstBlocks * 2 ^ args.dstBlockSize128bLog2 < 2 ^ 57 := by omega
  have hpos' : 0 < args.writeRegionDstBlocks * 2 ^ args.dstBlockSize128bLog2 :=
    mul_pos (pos_of_ne_zero hpos) (pow_pos two_pos)
  exact ⟨lt_of_dvd_of_lt h.length_dvd hpos' hlt, lt_of_dvd_of_lt (dvd_mul_left _ _) hpos' hlt,
    lt_of_dvd_of_lt h.src_dvd hpos' hlt⟩

/-- The write region's beginning in device blocks is found, unless 64 bits don't hold it. -/
theorem writeRegionIoBlocks_cases :
    (∃ ioBegin ioCount, ioBegin * 2 ^ ioBlockSize128bLog2 = args.begin128b ∧
      ioCount * 2 ^ ioBlockSize128bLog2 =
        args.writeRegionDstBlocks * 2 ^ args.dstBlockSize128bLog2 ∧
      Yields (writeRegionIoBlocks args.writeRegionBeginDstBlocks args.writeRegionDstBlocks
        args.dstBlockSize128bLog2 ioBlockSize128bLog2) () (ioBegin, ioCount) ()) ∨
    (2 ^ 64 ≤ args.end128b ∧
      Fails (writeRegionIoBlocks args.writeRegionBeginDstBlocks args.writeRegionDstBlocks
        args.dstBlockSize128bLog2 ioBlockSize128bLog2) () .ioBlockOutOfRange ()) := by
  have hlen := h.length
  have hend : args.end128b = args.begin128b +
      args.writeRegionDstBlocks * 2 ^ args.dstBlockSize128bLog2 := rfl
  rw [writeRegionIoBlocks]
  by_cases hlt : args.dstBlockSize128bLog2 < ioBlockSize128bLog2
  · have hbegin := div_mul_cancel (dvd_of_units (le_of_lt hlt) h.begin_dvd)
    have hcount := div_mul_cancel (dvd_of_units (le_of_lt hlt) h.length_dvd)
    have hcountLe := le_mul_pow args.writeRegionDstBlocks args.dstBlockSize128bLog2
    refine .inl ⟨_, _, div_pow_sub (le_of_lt hlt) h.begin_dvd,
      div_pow_sub (le_of_lt hlt) h.length_dvd, ?_⟩
    rw [if_pos hlt]
    refine (orErr ?_ ()).bind ((orErr ?_ ()).bind (pure _ ()))
    · rw [shl_eq (by rw [hbegin]; exact h.begin_lt), hbegin]
    · rw [shl_eq (by rw [hcount]; omega), hcount]
  · have hle := Nat.le_of_not_lt hlt
    rw [if_neg hlt]
    have hunits := mul_pow_sub (a := args.writeRegionBeginDstBlocks) hle
    have hpow : 0 < 2 ^ (args.dstBlockSize128bLog2 - ioBlockSize128bLog2) := pow_pos two_pos
    have hcountLe : args.writeRegionDstBlocks *
        2 ^ (args.dstBlockSize128bLog2 - ioBlockSize128bLog2) ≤
        args.writeRegionDstBlocks * 2 ^ args.dstBlockSize128bLog2 :=
      mul_le_mul_left _ (pow_le_pow_right two_pos (sub_le _ _))
    by_cases hfits : args.writeRegionBeginDstBlocks *
        2 ^ (args.dstBlockSize128bLog2 - ioBlockSize128bLog2) < 2 ^ 64
    · refine .inl ⟨_, _, ?_, ?_, (orErr ?_ ()).bind
        ((orErr ?_ ()).bind (pure _ ()))⟩
      · rw [shl_eq hfits, mul_pow_sub hle]
        rfl
      · rw [shl_eq (by omega), mul_pow_sub hle]
      · rw [shl_eq hfits, mul_div_cancel _ hpow]
      · rw [shl_eq (by omega), mul_div_cancel _ hpow]
    · refine .inr ⟨?_, (Fails.orErr (fun heq => hfits ?_) ()).bind _⟩
      · have := le_mul_pow (args.writeRegionBeginDstBlocks *
          2 ^ (args.dstBlockSize128bLog2 - ioBlockSize128bLog2)) ioBlockSize128bLog2
        rw [hend, WriteArgs.begin128b]
        omega
      · have hback := div_mul_le_self (shl args.writeRegionBeginDstBlocks
          (args.dstBlockSize128bLog2 - ioBlockSize128bLog2))
          (2 ^ (args.dstBlockSize128bLog2 - ioBlockSize128bLog2))
        rw [heq] at hback
        exact lt_of_le_of_lt hback (mod_lt _ (by decide))

/-- The checks made with the region known in device blocks, and what comes out of them. -/
theorem ofIoBlocks_cases (hpos : args.writeRegionDstBlocks ≠ 0) {ioBegin ioCount : Nat}
    (hbegin : ioBegin * 2 ^ ioBlockSize128bLog2 = args.begin128b)
    (hcount : ioCount * 2 ^ ioBlockSize128bLog2 =
      args.writeRegionDstBlocks * 2 ^ args.dstBlockSize128bLog2) :
    (WriteInRange ioBlockSize128bLog2 ioBlocks args ∧
      Yields (WriteRequest.ofIoBlocks ioBegin ioCount args.srcBlocks args.srcBlocksIndexOffset
        args.srcBlockSize128bLog2 ioBlocks ioBlockSize128bLog2) ()
        ⟨args.region, args.srcBlocks, args.srcBlocksIndexOffset⟩ ()) ∨
    (¬WriteInRange ioBlockSize128bLog2 ioBlocks args ∧
      Fails (WriteRequest.ofIoBlocks ioBegin ioCount args.srcBlocks args.srcBlocksIndexOffset
        args.srcBlockSize128bLog2 ioBlocks ioBlockSize128bLog2) () .ioBlockOutOfRange ()) := by
  obtain ⟨_, _, hsrc⟩ := h.logs_lt hpos
  have hend : (ioBegin + ioCount) * 2 ^ ioBlockSize128bLog2 = args.end128b := by
    rw [add_mul, hbegin, hcount]
    rfl
  have hdev : ioBegin + ioCount ≤ ioBlocks ↔ args.end128b ≤ ioBlocks * 2 ^ ioBlockSize128bLog2 := by
    rw [← hend]
    exact (Nat.mul_le_mul_right_iff (pow_pos two_pos)).symm
  have hle := le_mul_pow (ioBegin + ioCount) ioBlockSize128bLog2
  have hbytes : shl (shl (ioBegin + ioCount) ioBlockSize128bLog2) 7 / 2 ^ (ioBlockSize128bLog2 + 7) =
      ioBegin + ioCount ↔ args.end128b * 2 ^ 7 < 2 ^ 64 := by
    have hpow : 0 < 2 ^ (ioBlockSize128bLog2 + 7) := pow_pos two_pos
    have htotal : (ioBegin + ioCount) * 2 ^ (ioBlockSize128bLog2 + 7) = args.end128b * 2 ^ 7 := by
      rw [pow_add, ← mul_assoc, hend]
    constructor
    · intro heq
      have hlt : shl (shl (ioBegin + ioCount) ioBlockSize128bLog2) 7 < 2 ^ 64 :=
        mod_lt _ (by decide)
      have hback := div_mul_le_self (shl (shl (ioBegin + ioCount) ioBlockSize128bLog2) 7)
        (2 ^ (ioBlockSize128bLog2 + 7))
      rw [heq, htotal] at hback
      exact lt_of_le_of_lt hback hlt
    · intro hlt
      have hinner : shl (ioBegin + ioCount) ioBlockSize128bLog2 = args.end128b := by
        rw [shl_eq (by rw [hend]; omega), hend]
      rw [hinner, shl_eq hlt, ← htotal, mul_div_cancel _ hpow]
  by_cases hsum : ioBegin + ioCount < 2 ^ 64
  · by_cases hdevice : ioBegin + ioCount ≤ ioBlocks
    · by_cases hrep : args.end128b * 2 ^ 7 < 2 ^ 64
      · have hlt : args.end128b < 2 ^ 64 := by omega
        have hregion : IoRegion.new (shl ioBegin ioBlockSize128bLog2)
            (shl (ioBegin + ioCount) ioBlockSize128bLog2) args.srcBlockSize128bLog2 =
            .ok args.region := by
          have hbeginLe : args.begin128b ≤ args.end128b := Nat.le_add_right _ _
          rw [shl_eq (by rw [hbegin]; omega), shl_eq (by rw [hend]; exact hlt), hbegin, hend]
          refine IoRegion_new_eq hsrc hbeginLe hlt ?_
          rw [WriteArgs.end128b, Nat.add_sub_cancel_left]
          exact h.src_dvd
        refine .inl ⟨⟨hdev.mp hdevice, hrep⟩, ?_⟩
        refine (orErr hsum ()).bind ((orErr hdevice ()).bind
          ((orErr (hbytes.mpr hrep) ()).bind ?_))
        rw [hregion]
        exact pure _ ()
      · refine .inr ⟨fun hin => hrep hin.2, ?_⟩
        exact (orErr hsum ()).bind_fails ((orErr hdevice ()).bind_fails
          ((Fails.orErr (fun heq => hrep (hbytes.mp heq)) ()).bind _))
    · refine .inr ⟨fun hin => hdevice (hdev.mpr hin.1), ?_⟩
      exact (orErr hsum ()).bind_fails ((Fails.orErr hdevice ()).bind _)
  · refine .inr ⟨fun hin => hsum ?_, (Fails.orErr hsum ()).bind _⟩
    have := hin.2
    omega

end

theorem buffersOk_of {ok : List Byte → Bool} {blocks : List (List Byte)} {offset count : Nat}
    (h : ∀ i, i < count → ∃ block, blocks[offset + i]? = some block ∧ ok block = true) :
    buffersOk ok blocks offset count = true := by
  rw [buffersOk, List.all_eq_true]
  intro i hi
  obtain ⟨block, hget, hok⟩ := h i (List.mem_range.mp hi)
  rw [hget]
  exact hok

theorem writeRequest_new_cases (ioBlocks : Nat) (h : WriteAligned ioBlockSize128bLog2 args)
    (hpos : args.writeRegionDstBlocks ≠ 0) :
    (WriteInRange ioBlockSize128bLog2 ioBlocks args ∧
      Yields (WriteRequest.new args.writeRegionBeginDstBlocks args.writeRegionDstBlocks
        args.dstBlockSize128bLog2 args.srcBlocks args.srcBlocksIndexOffset args.srcBlockSize128bLog2
        ioBlocks ioBlockSize128bLog2) () ⟨args.region, args.srcBlocks, args.srcBlocksIndexOffset⟩
        ()) ∨
    (¬WriteInRange ioBlockSize128bLog2 ioBlocks args ∧
      Fails (WriteRequest.new args.writeRegionBeginDstBlocks args.writeRegionDstBlocks
        args.dstBlockSize128bLog2 args.srcBlocks args.srcBlocksIndexOffset args.srcBlockSize128bLog2
        ioBlocks ioBlockSize128bLog2) () .ioBlockOutOfRange ()) := by
  obtain ⟨hD, hdst, hsrc⟩ := h.logs_lt hpos
  have hlen := h.length
  have hlen64 : args.writeRegionDstBlocks * 2 ^ args.dstBlockSize128bLog2 < 2 ^ 64 := by omega
  have hfits : args.writeRegionDstBlocks ≤ (2 ^ 64 - 1) / 2 ^ (args.dstBlockSize128bLog2 + 7) := by
    rw [Nat.le_div_iff_mul_le (pow_pos two_pos), pow_add, ← mul_assoc]
    exact le_sub_one_of_lt hlen
  obtain ⟨srcCount, hsrcCount, hconvert⟩ := regionBufferBlocks_yields h.src_dvd hlen64
  have hbuffers : buffersOk
      (fun srcBlock => srcBlock.length = 2 ^ (args.srcBlockSize128bLog2 + 7)) args.srcBlocks
      args.srcBlocksIndexOffset srcCount = true := by
    refine buffersOk_of (fun i hi => ?_)
    obtain ⟨srcBlock, hget, hblock⟩ := h.buffers i (by
      rw [← hsrcCount]
      exact (Nat.mul_lt_mul_right (pow_pos two_pos)).mpr hi)
    refine ⟨srcBlock, hget, ?_⟩
    rw [hblock, ← pow_add]
    exact decide_eq_true rfl
  -- The checks up to the region's conversion to device blocks all pass.
  have hnew : WriteRequest.new args.writeRegionBeginDstBlocks args.writeRegionDstBlocks
      args.dstBlockSize128bLog2 args.srcBlocks args.srcBlocksIndexOffset args.srcBlockSize128bLog2
      ioBlocks ioBlockSize128bLog2 () =
      (writeRegionIoBlocks args.writeRegionBeginDstBlocks args.writeRegionDstBlocks
          args.dstBlockSize128bLog2 ioBlockSize128bLog2 >>= fun ioRegion =>
        WriteRequest.ofIoBlocks ioRegion.1 ioRegion.2 args.srcBlocks args.srcBlocksIndexOffset
          args.srcBlockSize128bLog2 ioBlocks ioBlockSize128bLog2) () := by
    rw [WriteRequest.new, (require hpos ()).bind_eq, (orErr hD ()).bind_eq,
      (orErr hdst ()).bind_eq, (orErr hsrc ()).bind_eq,
      (orErr hfits ()).bind_eq, hconvert.bind_eq, (require hbuffers ()).bind_eq]
  rw [Yields, Fails, hnew]
  rcases writeRegionIoBlocks_cases h with ⟨ioBegin, ioCount, hbegin, hcount, hyields⟩ |
    ⟨hrange, hfails⟩
  · rw [hyields.bind_eq]
    exact ofIoBlocks_cases h hpos hbegin hcount
  · exact .inr ⟨fun hin => by have := hin.2; omega, hfails.bind _⟩

end Write

/-- What a read is documented to be asked for: to whole destination buffers, each of which
may be empty. -/
structure ReadAligned (args : ReadArgs) : Prop where
  dst_dvd : 2 ^ args.dstBlockSize128bLog2 ∣ args.readRegionSrcBlocks * 2 ^ args.srcBlockSize128bLog2
  buffers : ∀ i, i * 2 ^ args.dstBlockSize128bLog2 <
      args.readRegionSrcBlocks * 2 ^ args.srcBlockSize128bLog2 →
    ∃ dstBlock, args.dstBlocks[args.dstBlocksIndexOffset + i]? = some dstBlock ∧
      (dstBlock = [] ∨ dstBlock.length = 2 ^ args.dstBlockSize128bLog2 * 2 ^ 7)

def ReadArgs.begin128b (args : ReadArgs) : Nat :=
  args.readRegionBeginSrcBlocks * 2 ^ args.srcBlockSize128bLog2

def ReadArgs.length128b (args : ReadArgs) : Nat :=
  args.readRegionSrcBlocks * 2 ^ args.srcBlockSize128bLog2

def ReadArgs.end128b (args : ReadArgs) : Nat := args.begin128b + args.length128b

/-- What is known about the extension of the read region to device blocks, which ends at `e`
at the latest. -/
structure AlignedRead.Fits (ioBlockSize128bLog2 e : Nat) (args : ReadArgs) (aligned : AlignedRead) :
    Prop where
  size_le : aligned.requestDstBlockSize128bLog2 ≤ args.dstBlockSize128bLog2
  begin_eq : aligned.beginBlkdevIoBlocks * 2 ^ ioBlockSize128bLog2 +
    aligned.headPaddingRequestDstBlocks * 2 ^ aligned.requestDstBlockSize128bLog2 = args.begin128b
  begin_lt : args.begin128b < (aligned.beginBlkdevIoBlocks + 1) * 2 ^ ioBlockSize128bLog2
  count_eq : aligned.requestDstBlocks * 2 ^ aligned.requestDstBlockSize128bLog2 = args.length128b
  le_end : args.end128b ≤
    (aligned.beginBlkdevIoBlocks + aligned.blkdevIoBlocks) * 2 ^ ioBlockSize128bLog2
  end_le : (aligned.beginBlkdevIoBlocks + aligned.blkdevIoBlocks) * 2 ^ ioBlockSize128bLog2 ≤ e
  dvd : 2 ^ aligned.requestDstBlockSize128bLog2 ∣
    aligned.blkdevIoBlocks * 2 ^ ioBlockSize128bLog2
  large : aligned.requestDstBlockSize128bLog2 ≤ ioBlockSize128bLog2 ∨
    aligned.requestDstBlockSize128bLog2 = args.dstBlockSize128bLog2 ∧
      aligned.beginBlkdevIoBlocks * 2 ^ ioBlockSize128bLog2 = args.begin128b ∧
      aligned.blkdevIoBlocks * 2 ^ ioBlockSize128bLog2 = args.length128b
  onBlock : 2 ^ ioBlockSize128bLog2 ∣ args.begin128b →
    aligned.requestDstBlockSize128bLog2 = args.dstBlockSize128bLog2

section Read

variable {ioBlockSize128bLog2 ioBlocks e : Nat} {args : ReadArgs}

/-- The number of device blocks needed for some source blocks past a head padding. -/
theorem ceil_blocks (head k : Nat) {n : Nat} (hn : n ≠ 0) :
    head + n ≤ ((head + n - 1) / 2 ^ k + 1) * 2 ^ k ∧
      ((head + n - 1) / 2 ^ k) * 2 ^ k < head + n := by
  have hdm := div_add_mod (head + n - 1) (2 ^ k)
  rw [succ_mul, mul_comm _ (2 ^ k)]
  omega

/-- The device blocks that cover the read region if these are larger than the source blocks. -/
theorem cover_blocks (h : args.srcBlockSize128bLog2 < ioBlockSize128bLog2)
    (hn : args.readRegionSrcBlocks ≠ 0) (he : 2 ^ ioBlockSize128bLog2 ∣ e)
    (hend : args.end128b ≤ e) {k ab head : Nat} (hk : k = ioBlockSize128bLog2 - args.srcBlockSize128bLog2)
    (hab : ab = args.readRegionBeginSrcBlocks / 2 ^ k)
    (hhead : head = args.readRegionBeginSrcBlocks % 2 ^ k) :
    ab * 2 ^ ioBlockSize128bLog2 + head * 2 ^ args.srcBlockSize128bLog2 = args.begin128b ∧
      args.begin128b < (ab + 1) * 2 ^ ioBlockSize128bLog2 ∧
      args.end128b ≤
        (ab + ((head + args.readRegionSrcBlocks - 1) / 2 ^ k + 1)) * 2 ^ ioBlockSize128bLog2 ∧
      (ab + ((head + args.readRegionSrcBlocks - 1) / 2 ^ k + 1)) * 2 ^ ioBlockSize128bLog2 ≤ e := by
  have hsize : 2 ^ ioBlockSize128bLog2 = 2 ^ k * 2 ^ args.srcBlockSize128bLog2 := by
    rw [hk, ← pow_add, sub_add_cancel (le_of_lt h)]
  have hdm := div_add_mod args.readRegionBeginSrcBlocks (2 ^ k)
  rw [← hab, ← hhead, mul_comm] at hdm
  obtain ⟨hceil, hfloor⟩ := ceil_blocks head k hn
  have hpow : 0 < 2 ^ args.srcBlockSize128bLog2 := pow_pos two_pos
  refine ⟨?_, ?_, ?_, ?_⟩
  · rw [hsize, ← mul_assoc, ← add_mul, hdm]
    rfl
  · have hlt : args.readRegionBeginSrcBlocks < (ab + 1) * 2 ^ k := by
      rw [succ_mul]
      omega
    rw [hsize, ← mul_assoc, ReadArgs.begin128b]
    exact (Nat.mul_lt_mul_right hpow).mpr hlt
  · rw [hsize, ← mul_assoc, ReadArgs.end128b, ReadArgs.begin128b, ReadArgs.length128b,
      ← add_mul]
    refine Nat.mul_le_mul_right _ ?_
    rw [add_mul]
    omega
  · obtain ⟨f, rfl⟩ := he
    rw [mul_comm _ f]
    refine Nat.mul_le_mul_right _ ?_
    have hlt : args.readRegionBeginSrcBlocks + args.readRegionSrcBlocks ≤ f * 2 ^ k := by
      refine Nat.le_of_mul_le_mul_right ?_ hpow
      calc (args.readRegionBeginSrcBlocks + args.readRegionSrcBlocks) *
            2 ^ args.srcBlockSize128bLog2 = args.end128b := add_mul _ _ _
        _ ≤ 2 ^ ioBlockSize128bLog2 * f := hend
        _ = f * 2 ^ k * 2 ^ args.srcBlockSize128bLog2 := by rw [hsize]; ring
    have hblocks : ab + (head + args.readRegionSrcBlocks - 1) / 2 ^ k < f := by
      refine Nat.lt_of_mul_lt_mul_right (a := 2 ^ k) ?_
      rw [add_mul]
      omega
    omega

theorem alignRead_fits (h : ReadAligned args) (hn : args.readRegionSrcBlocks ≠ 0)
    (he : 2 ^ ioBlockSize128bLog2 ∣ e) (hend : args.end128b ≤ e) (he64 : e < 2 ^ 64)
    {dstCount : Nat} (hdst : dstCount * 2 ^ args.dstBlockSize128bLog2 = args.length128b) :
    ∃ aligned, Yields (alignRead args.readRegionBeginSrcBlocks args.readRegionSrcBlocks
        args.srcBlockSize128bLog2 args.dstBlockSize128bLog2 dstCount ioBlockSize128bLog2) () aligned () ∧
      aligned.Fits ioBlockSize128bLog2 e args := by
  have hbeginLe := le_mul_pow args.readRegionBeginSrcBlocks args.srcBlockSize128bLog2
  have hcountLe := le_mul_pow args.readRegionSrcBlocks args.srcBlockSize128bLog2
  have hend' : args.end128b = args.readRegionBeginSrcBlocks * 2 ^ args.srcBlockSize128bLog2 +
    args.readRegionSrcBlocks * 2 ^ args.srcBlockSize128bLog2 := rfl
  rw [alignRead]
  by_cases hlt : args.srcBlockSize128bLog2 < ioBlockSize128bLog2
  · rw [if_pos hlt]
    set k := ioBlockSize128bLog2 - args.srcBlockSize128bLog2 with hk
    set ab := args.readRegionBeginSrcBlocks / 2 ^ k with hab
    set head := args.readRegionBeginSrcBlocks - shl ab k with hhead
    have hdm := div_add_mod args.readRegionBeginSrcBlocks (2 ^ k)
    rw [← hab, mul_comm] at hdm
    have hmod : head = args.readRegionBeginSrcBlocks % 2 ^ k := by
      rw [hhead, shl_eq (by omega)]
      omega
    obtain ⟨hbegin, hbeginLt, hcover, hbound⟩ := cover_blocks hlt hn he hend hk hab hmod
    have hnoOverflow : head + args.readRegionSrcBlocks < 2 ^ 64 := by omega
    by_cases hdstLe : args.dstBlockSize128bLog2 ≤ args.srcBlockSize128bLog2
    · have hpadding : shl head (args.srcBlockSize128bLog2 - args.dstBlockSize128bLog2) *
          2 ^ args.dstBlockSize128bLog2 = head * 2 ^ args.srcBlockSize128bLog2 := by
        rw [shl_eq, mul_pow_sub hdstLe]
        have : head * 2 ^ (args.srcBlockSize128bLog2 - args.dstBlockSize128bLog2) ≤
            head * 2 ^ args.srcBlockSize128bLog2 :=
          mul_le_mul_left _ (pow_le_pow_right two_pos (sub_le _ _))
        have := Nat.le_add_left (head * 2 ^ args.srcBlockSize128bLog2)
          (ab * 2 ^ ioBlockSize128bLog2)
        rw [hbegin, ReadArgs.begin128b] at this
        omega
      refine ⟨⟨ab, (head + args.readRegionSrcBlocks - 1) / 2 ^ k + 1, args.dstBlockSize128bLog2,
        shl head (args.srcBlockSize128bLog2 - args.dstBlockSize128bLog2), dstCount⟩, ?_,
        ⟨le_refl _, by rw [hpadding]; exact hbegin, hbeginLt, hdst, hcover, hbound,
          Dvd.dvd.mul_left (pow_dvd_pow 2 (le_trans hdstLe (le_of_lt hlt))) _,
          .inl (le_trans hdstLe (le_of_lt hlt)), fun _ => rfl⟩⟩
      refine (require hnoOverflow ()).bind ?_
      rw [if_pos hdstLe]
      exact pure _ ()
    · have hsrcLe := Nat.le_of_not_le hdstLe
      set m := args.dstBlockSize128bLog2 - args.srcBlockSize128bLog2 with hm
      have hheadDiv : shl (head / 2 ^ m) m = head / 2 ^ m * 2 ^ m := by
        have := div_mul_le_self head (2 ^ m)
        exact shl_eq (by omega)
      by_cases hmult : shl (head / 2 ^ m) m = head
      · have hmult' : head / 2 ^ m * 2 ^ m = head := hheadDiv.symm.trans hmult
        have hpadding : head / 2 ^ m * 2 ^ args.dstBlockSize128bLog2 =
            head * 2 ^ args.srcBlockSize128bLog2 :=
          div_pow_sub hsrcLe (by
            have := Nat.mul_dvd_mul_right (Dvd.intro_left _ hmult' : 2 ^ m ∣ head)
              (2 ^ args.srcBlockSize128bLog2)
            rwa [hm, ← pow_add, sub_add_cancel hsrcLe] at this)
        -- A destination block larger than a device one leaves no room for any padding.
        have hlarge : ioBlockSize128bLog2 < args.dstBlockSize128bLog2 →
            ab * 2 ^ ioBlockSize128bLog2 = args.begin128b ∧
              ((head + args.readRegionSrcBlocks - 1) / 2 ^ k + 1) * 2 ^ ioBlockSize128bLog2 =
                args.length128b := by
          intro hDd
          have hhead0 : head = 0 := by
            have hkm : 2 ^ k ≤ 2 ^ m := pow_le_pow_right two_pos (by omega)
            rw [div_eq_of_lt (by omega), zero_mul] at hmult'
            exact hmult'.symm
          rw [hhead0, zero_mul, add_zero] at hbegin
          refine ⟨hbegin, ?_⟩
          have hdvd : 2 ^ k ∣ args.readRegionSrcBlocks :=
            dvd_of_units (le_of_lt hlt)
              ((pow_dvd_pow 2 (le_of_lt hDd)).trans h.dst_dvd)
          obtain ⟨hceil, hfloor⟩ := ceil_blocks head k hn
          rw [hhead0, zero_add] at hceil hfloor ⊢
          obtain ⟨q, hq⟩ := hdvd
          have hcount : (args.readRegionSrcBlocks - 1) / 2 ^ k + 1 = q := by
            have hq' : args.readRegionSrcBlocks = q * 2 ^ k := by rw [hq, mul_comm]
            have h1 : q ≤ (args.readRegionSrcBlocks - 1) / 2 ^ k + 1 :=
              Nat.le_of_mul_le_mul_right (by rw [← hq']; exact hceil) (pow_pos two_pos)
            have h2 : (args.readRegionSrcBlocks - 1) / 2 ^ k < q :=
              Nat.lt_of_mul_lt_mul_right (a := 2 ^ k) (by rw [← hq']; exact hfloor)
            omega
          rw [hcount, ReadArgs.length128b, hq, hk]
          rw [show ioBlockSize128bLog2 = (ioBlockSize128bLog2 - args.srcBlockSize128bLog2) +
            args.srcBlockSize128bLog2 by omega, pow_add, Nat.add_sub_cancel]
          ring
        refine ⟨⟨ab, (head + args.readRegionSrcBlocks - 1) / 2 ^ k + 1, args.dstBlockSize128bLog2,
          head / 2 ^ m, dstCount⟩, ?_,
          ⟨le_refl _, by rw [hpadding]; exact hbegin, hbeginLt, hdst, hcover, hbound, ?_, ?_,
            fun _ => rfl⟩⟩
        · refine (require hnoOverflow ()).bind ?_
          rw [if_neg hdstLe, if_pos hmult]
          exact pure _ ()
        · by_cases hDd : ioBlockSize128bLog2 < args.dstBlockSize128bLog2
          · rw [(hlarge hDd).2]
            exact h.dst_dvd
          · exact Dvd.dvd.mul_left (pow_dvd_pow 2 (by dsimp only; omega)) _
        · by_cases hDd : ioBlockSize128bLog2 < args.dstBlockSize128bLog2
          · exact .inr ⟨rfl, hlarge hDd⟩
          · exact .inl (Nat.le_of_not_lt hDd)
      · refine ⟨⟨ab, (head + args.readRegionSrcBlocks - 1) / 2 ^ k + 1, args.srcBlockSize128bLog2,
          head, args.readRegionSrcBlocks⟩, ?_, ⟨hsrcLe, hbegin, hbeginLt, rfl, hcover, hbound,
            Dvd.dvd.mul_left (pow_dvd_pow 2 (le_of_lt hlt)) _, .inl (le_of_lt hlt), fun hdvd => ?_⟩⟩
        · refine (require hnoOverflow ()).bind ?_
          rw [if_neg hdstLe, if_neg hmult]
          exact pure _ ()
        · refine absurd ?_ hmult
          have hhead0 : head = 0 := by
            rw [hmod]
            exact mod_eq_zero_of_dvd (dvd_of_units (le_of_lt hlt) hdvd)
          rw [hheadDiv, hhead0, Nat.zero_div, zero_mul]
  · have hle := Nat.le_of_not_lt hlt
    have hsub : 2 ^ (args.srcBlockSize128bLog2 - ioBlockSize128bLog2) ≤
        2 ^ args.srcBlockSize128bLog2 := pow_le_pow_right two_pos (sub_le _ _)
    have hbeginLt := mul_le_mul_left args.readRegionBeginSrcBlocks hsub
    have hcountLt := mul_le_mul_left args.readRegionSrcBlocks hsub
    have hpow : 0 < 2 ^ (args.srcBlockSize128bLog2 - ioBlockSize128bLog2) := pow_pos two_pos
    have hbegin : shl args.readRegionBeginSrcBlocks
        (args.srcBlockSize128bLog2 - ioBlockSize128bLog2) * 2 ^ ioBlockSize128bLog2 =
        args.begin128b := by
      rw [shl_eq (by omega), mul_pow_sub hle]
      rfl
    have hcount : shl args.readRegionSrcBlocks
        (args.srcBlockSize128bLog2 - ioBlockSize128bLog2) * 2 ^ ioBlockSize128bLog2 =
        args.length128b := by
      rw [shl_eq (by omega), mul_pow_sub hle]
      rfl
    have htotal : (shl args.readRegionBeginSrcBlocks
        (args.srcBlockSize128bLog2 - ioBlockSize128bLog2) + shl args.readRegionSrcBlocks
        (args.srcBlockSize128bLog2 - ioBlockSize128bLog2)) * 2 ^ ioBlockSize128bLog2 =
        args.end128b := by
      rw [add_mul, hbegin, hcount]
      rfl
    rw [if_neg hlt]
    refine ⟨⟨_, _, args.dstBlockSize128bLog2, 0, dstCount⟩,
      (orErr ?_ ()).bind ((orErr ?_ ()).bind (pure _ ())),
      ⟨le_refl _, ?_, ?_, hdst, le_of_eq htotal.symm, htotal ▸ hend, ?_,
        .inr ⟨rfl, hbegin, hcount⟩, fun _ => rfl⟩⟩
    · rw [shl_eq (by omega), mul_div_cancel _ hpow]
    · rw [shl_eq (by omega), mul_div_cancel _ hpow]
    · rw [zero_mul, add_zero]
      exact hbegin
    · rw [succ_mul, hbegin]
      exact Nat.lt_add_of_pos_right (pow_pos two_pos)
    · rw [hcount]
      exact h.dst_dvd

structure ReadRequest.Fits (ioBlockSize128bLog2 ioBlocks : Nat) (args : ReadArgs)
    (request : ReadRequest) : Prop where
  dstBlocks_eq : request.dstBlocks = args.dstBlocks
  offset_eq : request.dstBlocksIndexOffset = args.dstBlocksIndexOffset
  size_eq : request.dstBlockSize128bLog2 = args.dstBlockSize128bLog2
  size_le : request.region.chunkSize128bLog2 ≤ args.dstBlockSize128bLog2
  requested : ∃ chunks, Requested ioBlockSize128bLog2 chunks ioBlocks request.region
  begin_eq : request.region.physicalBegin128b +
    request.alignedReadRegionHeadPaddingRequestDstBlocks * 2 ^ request.region.chunkSize128bLog2 =
      args.begin128b
  begin_lt : args.begin128b < request.region.physicalBegin128b + 2 ^ ioBlockSize128bLog2
  count_eq : request.readRegionRequestDstBlocks * 2 ^ request.region.chunkSize128bLog2 =
    args.length128b
  le_end : args.end128b ≤ request.region.physicalEnd128b
  large : request.region.chunkSize128bLog2 ≤ ioBlockSize128bLog2 ∨
    request.region = ⟨args.begin128b, args.end128b, args.dstBlockSize128bLog2, 0⟩
  onBlock : 2 ^ ioBlockSize128bLog2 ∣ args.begin128b →
    request.region.chunkSize128bLog2 = args.dstBlockSize128bLog2

theorem readRequest_new_yields (h : ReadAligned args) (hn : args.readRegionSrcBlocks ≠ 0)
    (hD : ioBlockSize128bLog2 < 57) (he : 2 ^ ioBlockSize128bLog2 ∣ e) (hend : args.end128b ≤ e)
    (hdev : e ≤ ioBlocks * 2 ^ ioBlockSize128bLog2) (he64 : e * 2 ^ 7 < 2 ^ 64) :
    ∃ request, Yields (ReadRequest.new args.readRegionBeginSrcBlocks args.readRegionSrcBlocks
        args.srcBlockSize128bLog2 args.dstBlocks args.dstBlocksIndexOffset args.dstBlockSize128bLog2
        ioBlocks ioBlockSize128bLog2) () request () ∧
      request.Fits ioBlockSize128bLog2 ioBlocks args ∧ request.region.physicalEnd128b ≤ e := by
  have hlenLe : args.length128b ≤ args.end128b := Nat.le_add_left _ _
  have hlenPos : 0 < args.length128b :=
    mul_pos (pos_of_ne_zero hn) (pow_pos two_pos)
  have hlen57 : args.length128b < 2 ^ 57 := by omega
  have hsrc : args.srcBlockSize128bLog2 < 57 :=
    lt_of_dvd_of_lt (dvd_mul_left _ _) hlenPos hlen57
  have hdst : args.dstBlockSize128bLog2 < 57 := lt_of_dvd_of_lt h.dst_dvd hlenPos hlen57
  have hfits : args.readRegionSrcBlocks ≤ (2 ^ 64 - 1) / 2 ^ (args.srcBlockSize128bLog2 + 7) := by
    rw [Nat.le_div_iff_mul_le (pow_pos two_pos), pow_add, ← mul_assoc]
    have : args.length128b * 2 ^ 7 ≤ 2 ^ 64 - 1 := by omega
    exact this
  obtain ⟨dstCount, hdstCount, hconvert⟩ := regionBufferBlocks_yields h.dst_dvd
    (show args.length128b < 2 ^ 64 by omega)
  have hbuffers : buffersOk
      (fun dstBlock => dstBlock.isEmpty || dstBlock.length = 2 ^ (args.dstBlockSize128bLog2 + 7))
      args.dstBlocks args.dstBlocksIndexOffset dstCount = true := by
    refine buffersOk_of (fun i hi => ?_)
    obtain ⟨dstBlock, hget, hblock⟩ := h.buffers i (by
      rw [← hdstCount]
      exact (Nat.mul_lt_mul_right (pow_pos two_pos)).mpr hi)
    refine ⟨dstBlock, hget, ?_⟩
    rcases hblock with rfl | hlen
    · rfl
    · rw [hlen, ← pow_add]
      simp
  obtain ⟨aligned, halign, hal⟩ := alignRead_fits h hn he hend (by omega) hdstCount
  have hendLe := hal.end_le
  have hsumLe := le_mul_pow (aligned.beginBlkdevIoBlocks + aligned.blkdevIoBlocks) ioBlockSize128bLog2
  have hend64 : (aligned.beginBlkdevIoBlocks + aligned.blkdevIoBlocks) * 2 ^ ioBlockSize128bLog2 <
      2 ^ 64 := by omega
  have hbeginLe : aligned.beginBlkdevIoBlocks * 2 ^ ioBlockSize128bLog2 ≤
      (aligned.beginBlkdevIoBlocks + aligned.blkdevIoBlocks) * 2 ^ ioBlockSize128bLog2 :=
    Nat.mul_le_mul_right _ (Nat.le_add_right _ _)
  have hlength : (aligned.beginBlkdevIoBlocks + aligned.blkdevIoBlocks) * 2 ^ ioBlockSize128bLog2 -
      aligned.beginBlkdevIoBlocks * 2 ^ ioBlockSize128bLog2 =
      aligned.blkdevIoBlocks * 2 ^ ioBlockSize128bLog2 := by
    rw [add_mul, Nat.add_sub_cancel_left]
  have hregion : IoRegion.new (shl aligned.beginBlkdevIoBlocks ioBlockSize128bLog2)
      (shl (aligned.beginBlkdevIoBlocks + aligned.blkdevIoBlocks) ioBlockSize128bLog2)
      aligned.requestDstBlockSize128bLog2 =
      .ok ⟨aligned.beginBlkdevIoBlocks * 2 ^ ioBlockSize128bLog2,
        (aligned.beginBlkdevIoBlocks + aligned.blkdevIoBlocks) * 2 ^ ioBlockSize128bLog2,
        aligned.requestDstBlockSize128bLog2, 0⟩ := by
    rw [shl_eq (by omega), shl_eq hend64]
    exact IoRegion_new_eq (lt_of_le_of_lt hal.size_le hdst) hbeginLe hend64
      (hlength ▸ hal.dvd)
  refine ⟨⟨⟨aligned.beginBlkdevIoBlocks * 2 ^ ioBlockSize128bLog2,
      (aligned.beginBlkdevIoBlocks + aligned.blkdevIoBlocks) * 2 ^ ioBlockSize128bLog2,
      aligned.requestDstBlockSize128bLog2, 0⟩, args.dstBlocks, args.dstBlocksIndexOffset,
      aligned.headPaddingRequestDstBlocks, aligned.requestDstBlocks, args.dstBlockSize128bLog2⟩, ?_,
    ⟨rfl, rfl, rfl, hal.size_le, ?_, hal.begin_eq,
      succ_mul _ _ ▸ hal.begin_lt, hal.count_eq, hal.le_end, ?_, hal.onBlock⟩, hendLe⟩
  · have hsupported : ioBlockSize128bLog2 <
        64 - 1 + min args.srcBlockSize128bLog2 args.dstBlockSize128bLog2 := by omega
    have hon : aligned.beginBlkdevIoBlocks + aligned.blkdevIoBlocks ≤ ioBlocks :=
      Nat.le_of_mul_le_mul_right (le_trans hendLe hdev) (pow_pos two_pos)
    rw [Yields, ReadRequest.new, (require hn ()).bind_eq,
      (orErr (show ioBlockSize128bLog2 < 64 by omega) ()).bind_eq,
      (orErr hsupported ()).bind_eq, (orErr hsrc ()).bind_eq,
      (orErr hdst ()).bind_eq, (orErr hfits ()).bind_eq, hconvert.bind_eq,
      (require hbuffers ()).bind_eq, halign.bind_eq]
    refine (orErr (by omega) ()).bind ((orErr hon ()).bind
      ((orErr ?_ ()).bind ?_))
    · rw [shl_eq hend64, mul_div_cancel _ (pow_pos two_pos)]
    · rw [hregion]
      exact pure _ ()
  · obtain ⟨chunks, hchunks⟩ := hal.dvd
    exact ⟨chunks, hD, hbeginLe, dvd_mul_left _ _, dvd_mul_left _ _, hend64,
      le_trans hendLe hdev, by rw [hlength, hchunks, mul_comm], rfl⟩
  · refine hal.large.imp_right ?_
    rintro ⟨hsize, hbegin, hlen⟩
    rw [hsize, add_mul, hbegin, hlen]
    rfl

end Read

end CocoonFs.GatherScatter
