import CocoonFs.GatherScatterRequests

namespace CocoonFs.GatherScatter

open Checked Codes IoRegion IoSteps Patches BlkDev Nat

/-- The byte at some position of the source buffers taken together. -/
def WriteArgs.srcAt (args : WriteArgs) (p : Nat) : Byte :=
  (dstAt (2 ^ args.srcBlockSize128bLog2 * 2 ^ 7) args.srcBlocksIndexOffset args.srcBlocks p).getD 0

section Write

variable {ioBlockSize128bLog2 preferredIoBlocksBulkLog2 : Nat} {args : WriteArgs}
  {ioBlocks : IoBlocks}

def WriteArgs.chunks (args : WriteArgs) : Nat :=
  args.writeRegionDstBlocks * 2 ^ args.dstBlockSize128bLog2 / 2 ^ args.srcBlockSize128bLog2

section

variable (h : WriteAligned ioBlockSize128bLog2 args)
include h

theorem WriteAligned.chunks_eq :
    args.chunks * 2 ^ args.srcBlockSize128bLog2 =
      args.writeRegionDstBlocks * 2 ^ args.dstBlockSize128bLog2 := Nat.div_mul_cancel h.src_dvd

theorem getSourceBuffer_provides :
    Provides (2 ^ args.srcBlockSize128bLog2 * 2 ^ 7) args.chunks args.srcAt
      (WriteRequest.getSourceBuffer ⟨args.region, args.srcBlocks, args.srcBlocksIndexOffset⟩) := by
  intro range s hchunk hord hend
  obtain ⟨srcBlock, hget, hlen⟩ := h.buffers range.chunk (by
    rw [← h.chunks_eq]
    exact (Nat.mul_lt_mul_right (Nat.pow_pos two_pos)).mpr hchunk)
  refine ⟨slice srcBlock range.rangeBegin range.rangeEnd, ?_, length_slice (by omega), ?_⟩
  · rw [WriteRequest.getSourceBuffer, hget]
    exact (Yields.require ⟨hord, by omega⟩ s).bind (Yields.pure _ s)
  · intro k hk
    rw [length_slice (by omega)] at hk
    obtain ⟨hdiv, hmod⟩ := div_eq_of_offset (S := 2 ^ args.srcBlockSize128bLog2 * 2 ^ 7)
      range.chunk range.rangeBegin k (by omega)
    rw [getElem?_slice hk, WriteArgs.srcAt, dstAt, hdiv, hmod, hget]
    have hbound : range.rangeBegin + k < srcBlock.length := by omega
    simp [hbound]

theorem WriteAligned.requested (hpos : args.writeRegionDstBlocks ≠ 0) {count : Nat}
    (hrange : WriteInRange ioBlockSize128bLog2 count args) :
    Requested ioBlockSize128bLog2 args.chunks count args.region where
  ioBlockSize := (h.logs_lt hpos).1
  ordered := Nat.le_add_right _ _
  begin_dvd := h.begin_dvd
  end_dvd := Nat.dvd_add h.begin_dvd h.length_dvd
  end_lt := by
    have := hrange.2
    have : args.region.physicalEnd128b = args.end128b := rfl
    omega
  onDevice := hrange.1
  chunks_eq := by
    have : args.region.physicalEnd128b - args.region.physicalBegin128b =
        args.writeRegionDstBlocks * 2 ^ args.dstBlockSize128bLog2 := Nat.add_sub_cancel_left _ _
    rw [this]
    exact h.chunks_eq.symm
  offset_eq := rfl

end

end Write

section Read

variable {ioBlockSize128bLog2 ioBlocks : Nat} {args : ReadArgs} {request : ReadRequest}

theorem getElem?_of_lens {xs ys : List (List Byte)} (h : ys.map List.length = xs.map List.length)
    {i : Nat} {x : List Byte} (hx : xs[i]? = some x) :
    ∃ y, ys[i]? = some y ∧ y.length = x.length := by
  have hi := congrArg (fun lens => lens[i]?) h
  simp only [List.getElem?_map, hx, Option.map_some] at hi
  obtain ⟨y, hy, hlen⟩ := Option.map_eq_some_iff.mp hi
  exact ⟨y, hy, hlen⟩

/-- The request's chunks stand in the destination buffers where the read region's bytes go. -/
theorem getDestinationBuffer_accepts (h : ReadAligned args)
    (hfits : request.Fits ioBlockSize128bLog2 ioBlocks args) (chunks : Nat) :
    Accepts (2 ^ request.region.chunkSize128bLog2 * 2 ^ 7) chunks
      (2 ^ args.dstBlockSize128bLog2 * 2 ^ 7) args.dstBlocksIndexOffset
      (request.alignedReadRegionHeadPaddingRequestDstBlocks *
        (2 ^ request.region.chunkSize128bLog2 * 2 ^ 7)) (args.length128b * 2 ^ 7)
      (args.dstBlocks.map List.length) request.getDestinationBuffer := by
  intro range dstBlocks hlens hchunk hord hend
  set c := request.region.chunkSize128bLog2 with hc
  set C := 2 ^ c * 2 ^ 7 with hC
  set padding := request.alignedReadRegionHeadPaddingRequestDstBlocks with hpadding
  have hCpos : 0 < C := mul_pos (Nat.pow_pos two_pos) (by decide)
  have htotal : args.length128b * 2 ^ 7 = request.readRegionRequestDstBlocks * C := by
    rw [← hfits.count_eq, hC, ← hc, mul_assoc]
  have hnone : ∀ {m : DevM (List (List Byte)) (Option DstSlice)}, m = pure none →
      Yields m dstBlocks none dstBlocks := fun hm => hm ▸ Yields.pure none dstBlocks
  by_cases hhead : range.chunk < padding
  · refine .inl ⟨hnone ?_, fun p _ _ hhi => ?_⟩
    · rw [ReadRequest.getDestinationBuffer, if_pos hhead]
    · have := Nat.mul_le_mul_right C (succ_le_of_lt hhead)
      rw [succ_mul] at this
      omega
  · obtain ⟨j, hj⟩ := Nat.exists_eq_add_of_le (Nat.le_of_not_lt hhead)
    have hsub : range.chunk - padding = j := by omega
    have hchunkC : range.chunk * C = padding * C + j * C := by rw [hj, add_mul]
    by_cases htail : request.readRegionRequestDstBlocks ≤ j
    · refine .inl ⟨hnone ?_, fun p hp hlo _ => ?_⟩
      · rw [ReadRequest.getDestinationBuffer, if_neg hhead]
        rw [← hpadding, hsub, if_pos htail]
      · have := Nat.mul_le_mul_right C htail
        omega
    · rw [not_le] at htail
      set w := args.dstBlockSize128bLog2 - c with hw
      have hsize : 2 ^ args.dstBlockSize128bLog2 = 2 ^ w * 2 ^ c := by
        rw [hw, ← pow_add, Nat.sub_add_cancel hfits.size_le]
      have hblockSize : 2 ^ args.dstBlockSize128bLog2 * 2 ^ 7 = 2 ^ w * C := by
        rw [hsize, hC, mul_assoc]
      have hdm := div_add_mod j (2 ^ w)
      have hmod := mod_lt j (Nat.pow_pos (n := w) two_pos)
      have hlinear : j / 2 ^ w * (2 ^ w * C) + j % 2 ^ w * C = j * C := by
        rw [← mul_assoc, ← add_mul, mul_comm (j / 2 ^ w), hdm]
      have hroom : j % 2 ^ w * C + C ≤ 2 ^ w * C := by
        rw [← succ_mul]
        exact Nat.mul_le_mul_right C hmod
      have htotalLe : j * C + C ≤ args.length128b * 2 ^ 7 := by
        rw [htotal, ← succ_mul]
        exact Nat.mul_le_mul_right C htail
      obtain ⟨argBlock, hargGet, hargLen⟩ := h.buffers (j / 2 ^ w) (by
        refine Nat.lt_of_mul_lt_mul_right (a := 2 ^ 7) ?_
        rw [mul_assoc, hblockSize]
        have : args.length128b = args.readRegionSrcBlocks * 2 ^ args.srcBlockSize128bLog2 := rfl
        omega)
      obtain ⟨dstBlock, hget, hlen⟩ := getElem?_of_lens hlens hargGet
      have hindex : request.dstBlocksIndexOffset +
          j / 2 ^ (request.dstBlockSize128bLog2 - c) = args.dstBlocksIndexOffset + j / 2 ^ w := by
        rw [hfits.offset_eq, hfits.size_eq]
      have hcSize : c ≤ request.dstBlockSize128bLog2 := hfits.size_eq ▸ hfits.size_le
      -- Up to here the buffer's entry does not matter, from here on an empty one is skipped.
      have hentry : request.getDestinationBuffer range dstBlocks =
          (if dstBlock.isEmpty then pure none
          else do
            require .indexOutOfBounds ((j % 2 ^ w + 1) * 2 ^ (c + 7) ≤ dstBlock.length)
            require .indexOutOfBounds (range.rangeBegin ≤ range.rangeEnd ∧
              range.rangeEnd ≤ (j % 2 ^ w + 1) * 2 ^ (c + 7) - j % 2 ^ w * 2 ^ (c + 7))
            pure (some ⟨args.dstBlocksIndexOffset + j / 2 ^ w,
              j % 2 ^ w * 2 ^ (c + 7) + range.rangeBegin,
              j % 2 ^ w * 2 ^ (c + 7) + range.rangeEnd⟩) :
            DevM (List (List Byte)) (Option DstSlice)) dstBlocks := by
        rw [ReadRequest.getDestinationBuffer, if_neg hhead]
        rw [← hpadding, hsub, if_neg (not_le.mpr htail), ← hc,
          (Yields.require hcSize dstBlocks).bind_eq, (Yields.get dstBlocks).bind_eq, hindex, hget,
          hfits.size_eq]
      rcases hargLen with rfl | hfull
      · obtain rfl : dstBlock = [] := List.length_eq_zero_iff.mp hlen
        refine .inl ⟨hentry, fun p hp hlo hhi => ?_⟩
        have hdiv : p / (2 ^ w * C) = j / 2 ^ w := by
          rw [Nat.div_eq_iff (mul_pos (Nat.pow_pos two_pos) hCpos)]
          omega
        rw [hblockSize, dstAt, hdiv, hget]
        rfl
      · have hfull' : dstBlock.length = 2 ^ w * C := by rw [hlen, hfull, hblockSize]
        have hpow : 2 ^ (c + 7) = C := pow_add _ _ _
        have hne : ¬dstBlock.isEmpty = true := by
          rw [List.isEmpty_iff]
          intro hnil
          rw [hnil, List.length_nil] at hfull'
          omega
        refine .inr ⟨j / 2 ^ w, j % 2 ^ w * C + range.rangeBegin, dstBlock, ?_, hget, ?_, ?_, ?_, ?_⟩
        · rw [Yields, hentry, if_neg hne, hpow]
          have hends : j % 2 ^ w * C + range.rangeBegin + (range.rangeEnd - range.rangeBegin) =
              j % 2 ^ w * C + range.rangeEnd := by omega
          rw [hends]
          refine (Yields.require ?_ dstBlocks).bind ((Yields.require ?_ dstBlocks).bind
            (Yields.pure _ dstBlocks))
          · rw [hfull', succ_mul]
            exact hroom
          · rw [succ_mul]
            omega
        · rw [hfull', hblockSize]
        · rw [hblockSize]
          omega
        · rw [hblockSize]
          omega
        · rw [hblockSize]
          omega

end Read

theorem drive_unique {F : Type}
    {poll : TestNvBlkDev → F → Except Panic (Option Output × F × TestNvBlkDev)}
    {x y : Output × TestNvBlkDev} (n : Nat) :
    ∀ (m : Nat) (fut : F) (dev : TestNvBlkDev), drive poll n fut dev = .ok (some x) →
      drive poll m fut dev = .ok (some y) → x = y := by
  induction n with
  | zero => intro m fut dev hx; cases hx
  | succ n ih =>
    intro m fut dev hx hy
    cases m with
    | zero => cases hy
    | succ m =>
      rw [drive] at hx hy
      cases hpoll : poll dev fut with
      | error p =>
        rw [hpoll] at hx
        cases hx
      | ok result =>
        obtain ⟨ready, fut', dev'⟩ := result
        rw [hpoll] at hx hy
        cases ready with
        | none => exact ih m fut' dev' hx hy
        | some output =>
          cases hx
          cases hy
          rfl

/-- The future for a write in range completes, with the device's blocks written to. -/
theorem write_completes (dev : TestNvBlkDev) {args : WriteArgs}
    (h : WriteAligned dev.ioBlockSize128bLog2 args)
    (hrange : WriteInRange dev.ioBlockSize128bLog2 dev.ioBlocks.length args)
    (hsized : Sized (2 ^ dev.ioBlockSize128bLog2 * 2 ^ 7) dev.ioBlocks) :
    ∃ n ioBlocks', drive pollWrite n (.init args) dev =
        .ok (some (.ok (args.srcBlocks, .ok ()), { dev with ioBlocks := ioBlocks' })) ∧
      Wrote (2 ^ dev.ioBlockSize128bLog2 * 2 ^ 7) (fun p => args.srcAt (transferred args.region
          (dev.preferredIoBlocksBulkLog2 + dev.ioBlockSize128bLog2) p)) dev.ioBlocks ioBlocks'
        (args.begin128b * 2 ^ 7) (args.end128b * 2 ^ 7) := by
  by_cases hpos : args.writeRegionDstBlocks = 0
  · refine ⟨1, dev.ioBlocks, ?_, ?_⟩
    · rw [drive, pollWrite, if_pos hpos]
    · have hend : args.end128b = args.begin128b := by
        rw [WriteArgs.end128b, hpos, zero_mul, add_zero]
      rw [hend]
      exact Wrote.refl hsized _
  · have hnew := (writeRequest_new_cases dev.ioBlocks.length h hpos).resolve_right
      (fun hout => hout.1 hrange)
    obtain ⟨ioBlocks', hprocess, hwrote⟩ := processWriteRequest_yields
      dev.preferredIoBlocksBulkLog2 (h.requested hpos hrange) hsized
      (getSourceBuffer_provides h)
    refine ⟨2, ioBlocks', ?_, hwrote⟩
    have hnew' := hnew.2
    rw [drive, pollWrite, if_neg hpos, hnew']
    dsimp only [pollTestWrite, Bind.bind, Except.bind]
    rw [drive]
    dsimp only [pollWrite, pollTestWrite, Bind.bind, Except.bind]
    rw [hprocess]

theorem write_out_of_range (dev : TestNvBlkDev) {args : WriteArgs}
    (h : WriteAligned dev.ioBlockSize128bLog2 args) (hpos : args.writeRegionDstBlocks ≠ 0)
    (hrange : ¬WriteInRange dev.ioBlockSize128bLog2 dev.ioBlocks.length args) :
    drive pollWrite 1 (.init args) dev =
      .ok (some (.ok (args.srcBlocks, .error .ioBlockOutOfRange), dev)) := by
  have hnew := ((writeRequest_new_cases dev.ioBlocks.length h hpos).resolve_left
    (fun hin => hrange hin.1)).2
  rw [drive, pollWrite, if_neg hpos, hnew]

theorem splitAtChunk_of_small {region : ChunkedIoRegion} {ioBlockSize128bLog2 bulk : Nat}
    (hc : region.chunkSize128bLog2 ≤ ioBlockSize128bLog2)
    (hbegin : 2 ^ ioBlockSize128bLog2 ∣ region.physicalBegin128b) :
    SplitAtChunk region (bulk + ioBlockSize128bLog2) := by
  intro lo hi hbody
  have hlo := (alignedBody_bounds hbody).lo_dvd
  have hpow : 2 ^ ioBlockSize128bLog2 ∣ 2 ^ (bulk + ioBlockSize128bLog2) :=
    pow_dvd_pow 2 (Nat.le_add_left _ _)
  exact (pow_dvd_pow 2 hc).trans (Nat.dvd_sub (hpow.trans hlo) hbegin)

/-- Whether a read gets split within a chunk shows from the region it is asked for. -/
theorem splitAtChunk_read_iff {ioBlockSize128bLog2 ioBlocks : Nat} (bulk : Nat) {args : ReadArgs}
    {request : ReadRequest} (hfits : request.Fits ioBlockSize128bLog2 ioBlocks args) :
    SplitAtChunk request.region (bulk + ioBlockSize128bLog2) ↔
      (2 ^ ioBlockSize128bLog2 ∣ args.begin128b →
        SplitAtChunk ⟨args.begin128b, args.end128b, args.dstBlockSize128bLog2, 0⟩
          (bulk + ioBlockSize128bLog2)) := by
  obtain ⟨chunks, hrequested⟩ := hfits.requested
  rcases hfits.large with hsmall | hregion
  · refine iff_of_true (splitAtChunk_of_small hsmall hrequested.begin_dvd) (fun hdvd => ?_)
    refine splitAtChunk_of_small ?_ hdvd
    rw [← hfits.onBlock hdvd]
    exact hsmall
  · have hdvd : 2 ^ ioBlockSize128bLog2 ∣ args.begin128b := by
      have := hrequested.begin_dvd
      rwa [hregion] at this
    rw [hregion]
    exact ⟨fun hsplit _ => hsplit, fun hsplit => hsplit hdvd⟩

variable {content : Nat → Byte}

/-- The future for a read of what is on the device completes. What it leaves in the buffers
depends on whether the request gets split within a chunk. -/
theorem read_completes (dev : TestNvBlkDev) {args : ReadArgs} {e lo : Nat}
    (h : ReadAligned args) (hn : args.readRegionSrcBlocks ≠ 0) (hD : dev.ioBlockSize128bLog2 < 57)
    (hsized : Sized (2 ^ dev.ioBlockSize128bLog2 * 2 ^ 7) dev.ioBlocks)
    (hlo : 2 ^ dev.ioBlockSize128bLog2 ∣ lo) (hbegin : lo ≤ args.begin128b)
    (he : 2 ^ dev.ioBlockSize128bLog2 ∣ e) (hend : args.end128b ≤ e)
    (hdev : e ≤ dev.ioBlocks.length * 2 ^ dev.ioBlockSize128bLog2) (he64 : e * 2 ^ 7 < 2 ^ 64)
    (hcontent : ∀ p, lo * 2 ^ 7 ≤ p → p < e * 2 ^ 7 →
      byteAt (2 ^ dev.ioBlockSize128bLog2 * 2 ^ 7) dev.ioBlocks p = some (content p)) :
    ∃ n dstBlocks', drive pollRead n (.init args) dev =
        .ok (some (.ok (dstBlocks', .ok ()), dev)) ∧
      ((2 ^ dev.ioBlockSize128bLog2 ∣ args.begin128b →
          SplitAtChunk ⟨args.begin128b, args.end128b, args.dstBlockSize128bLog2, 0⟩
            (dev.preferredIoBlocksBulkLog2 + dev.ioBlockSize128bLog2)) →
        Filled (2 ^ args.dstBlockSize128bLog2 * 2 ^ 7) args.dstBlocksIndexOffset
          (fun p => content (args.begin128b * 2 ^ 7 + p)) (· < args.length128b * 2 ^ 7)
          args.dstBlocks dstBlocks') ∧
      (¬(2 ^ dev.ioBlockSize128bLog2 ∣ args.begin128b →
          SplitAtChunk ⟨args.begin128b, args.end128b, args.dstBlockSize128bLog2, 0⟩
            (dev.preferredIoBlocksBulkLog2 + dev.ioBlockSize128bLog2)) →
        dstAt (2 ^ args.dstBlockSize128bLog2 * 2 ^ 7) args.dstBlocksIndexOffset dstBlocks'
            (args.length128b * 2 ^ 7 - 1) =
          dstAt (2 ^ args.dstBlockSize128bLog2 * 2 ^ 7) args.dstBlocksIndexOffset args.dstBlocks
            (args.length128b * 2 ^ 7 - 1)) := by
  obtain ⟨request, hnew, hfits, hendLe⟩ := readRequest_new_yields
    h hn hD he hend hdev he64
  obtain ⟨chunks, hrequested⟩ := hfits.requested
  have hregionBegin : lo ≤ request.region.physicalBegin128b := by
    obtain ⟨a, ha⟩ := hlo
    obtain ⟨b, hb⟩ := hrequested.begin_dvd
    have hlt : 2 ^ dev.ioBlockSize128bLog2 * a < 2 ^ dev.ioBlockSize128bLog2 * (b + 1) := by
      have := hfits.begin_lt
      rw [mul_succ]
      omega
    have := Nat.lt_of_mul_lt_mul_left hlt
    rw [ha, hb]
    exact Nat.mul_le_mul_left _ (Nat.lt_succ_iff.mp this)
  have haccepts := getDestinationBuffer_accepts h hfits chunks
  obtain ⟨dstBlocks', hprocess, hright, hwrong⟩ := processReadRequest_yields
    dev.preferredIoBlocksBulkLog2 content hrequested hsized
    (fun p hp hp' => hcontent p (by omega) (by omega)) haccepts
  have hiff := splitAtChunk_read_iff dev.preferredIoBlocksBulkLog2 hfits
  have hpadding : request.region.physicalBegin128b * 2 ^ 7 +
      request.alignedReadRegionHeadPaddingRequestDstBlocks *
        (2 ^ request.region.chunkSize128bLog2 * 2 ^ 7) = args.begin128b * 2 ^ 7 := by
    rw [← hfits.begin_eq, add_mul, mul_assoc]
  have hle := hfits.le_end
  have hendEq : args.end128b = args.begin128b + args.length128b := rfl
  refine ⟨2, dstBlocks', ?_, fun hsplit => ?_, fun hsplit => ?_⟩
  · rw [drive, pollRead, if_neg hn, hnew]
    dsimp only [pollTestRead, Bind.bind, Except.bind]
    rw [drive]
    dsimp only [pollRead, pollTestRead, Bind.bind, Except.bind]
    rw [hfits.dstBlocks_eq, hprocess]
  · refine (hright (hiff.mpr hsplit)).congr (fun p => ?_) (fun p _ => ?_)
    · simp only [within]
      omega
    · congr 1
      omega
  · refine hwrong (fun hsplit' => hsplit (hiff.mp hsplit')) _ ?_
    -- Only a chunk larger than a device block can be split, and then there is no padding.
    have hregion := hfits.large.resolve_left (fun hsmall =>
      hsplit (hiff.mp (splitAtChunk_of_small hsmall hrequested.begin_dvd)))
    have hlenPos : 0 < args.length128b :=
      mul_pos (pos_of_ne_zero hn) (Nat.pow_pos two_pos)
    have hendEq' : request.region.physicalEnd128b = args.end128b := by rw [hregion]
    omega

/-- The dimensions of a device and of a write to and a read from it, without any contents. -/
structure Setup where
  ioBlockSize128bLog2 : Nat
  preferredIoBlocksBulkLog2 : Nat
  ioBlocks : Nat
  writeRegionBeginDstBlocks : Nat
  writeRegionDstBlocks : Nat
  writeDstBlockSize128bLog2 : Nat
  srcBlocksIndexOffset : Nat
  srcBlockSize128bLog2 : Nat
  readRegionBeginSrcBlocks : Nat
  readRegionSrcBlocks : Nat
  readSrcBlockSize128bLog2 : Nat
  dstBlocksIndexOffset : Nat
  dstBlockSize128bLog2 : Nat

def Setup.dev (setup : Setup) (ioBlocks : IoBlocks) : TestNvBlkDev :=
  ⟨ioBlocks, setup.ioBlockSize128bLog2, setup.preferredIoBlocksBulkLog2⟩

def Setup.writeArgs (setup : Setup) (srcBlocks : List (List Byte)) : WriteArgs :=
  ⟨setup.writeRegionBeginDstBlocks, setup.writeRegionDstBlocks, setup.writeDstBlockSize128bLog2,
    srcBlocks, setup.srcBlocksIndexOffset, setup.srcBlockSize128bLog2⟩

def Setup.readArgs (setup : Setup) (dstBlocks : List (List Byte)) : ReadArgs :=
  ⟨setup.readRegionBeginSrcBlocks, setup.readRegionSrcBlocks, setup.readSrcBlockSize128bLog2,
    dstBlocks, setup.dstBlocksIndexOffset, setup.dstBlockSize128bLog2⟩

def Setup.writeBegin (setup : Setup) : Nat :=
  setup.writeRegionBeginDstBlocks * 2 ^ setup.writeDstBlockSize128bLog2

def Setup.writeEnd (setup : Setup) : Nat :=
  setup.writeBegin + setup.writeRegionDstBlocks * 2 ^ setup.writeDstBlockSize128bLog2

def Setup.readBegin (setup : Setup) : Nat :=
  setup.readRegionBeginSrcBlocks * 2 ^ setup.readSrcBlockSize128bLog2

def Setup.readEnd (setup : Setup) : Nat :=
  setup.readBegin + setup.readRegionSrcBlocks * 2 ^ setup.readSrcBlockSize128bLog2

def Setup.alignment (setup : Setup) : Nat :=
  setup.preferredIoBlocksBulkLog2 + setup.ioBlockSize128bLog2

/-- The write is one of whole device blocks and whole buffers, the read is one of whole buffers
from within the region written to. -/
structure Setup.Valid (setup : Setup) : Prop where
  write_length : setup.writeRegionDstBlocks * 2 ^ setup.writeDstBlockSize128bLog2 * 2 ^ 7 < 2 ^ 64
  begin_dvd : 2 ^ setup.ioBlockSize128bLog2 ∣ setup.writeBegin
  length_dvd : 2 ^ setup.ioBlockSize128bLog2 ∣
    setup.writeRegionDstBlocks * 2 ^ setup.writeDstBlockSize128bLog2
  src_dvd : 2 ^ setup.srcBlockSize128bLog2 ∣
    setup.writeRegionDstBlocks * 2 ^ setup.writeDstBlockSize128bLog2
  begin_lt : setup.writeRegionBeginDstBlocks < 2 ^ 64
  dst_dvd : 2 ^ setup.dstBlockSize128bLog2 ∣
    setup.readRegionSrcBlocks * 2 ^ setup.readSrcBlockSize128bLog2
  begin_le : setup.writeBegin ≤ setup.readBegin
  end_le : setup.readEnd ≤ setup.writeEnd

/-- The write region is within the device, and so are its bounds within 64 bits. -/
def Setup.InRange (setup : Setup) : Prop :=
  setup.writeEnd ≤ setup.ioBlocks * 2 ^ setup.ioBlockSize128bLog2 ∧ setup.writeEnd * 2 ^ 7 < 2 ^ 64

/-- Contents of the device and of the buffers. Destination buffers may be empty. -/
structure Setup.Contents (setup : Setup) where
  ioBlocks : IoBlocks
  srcBlocks : List (List Byte)
  dstBlocks : List (List Byte)
  length_eq : ioBlocks.length = setup.ioBlocks
  sized : Sized (2 ^ setup.ioBlockSize128bLog2 * 2 ^ 7) ioBlocks
  src : ∀ i, i * 2 ^ setup.srcBlockSize128bLog2 <
      setup.writeRegionDstBlocks * 2 ^ setup.writeDstBlockSize128bLog2 →
    ∃ srcBlock, srcBlocks[setup.srcBlocksIndexOffset + i]? = some srcBlock ∧
      srcBlock.length = 2 ^ setup.srcBlockSize128bLog2 * 2 ^ 7
  dst : ∀ i, i * 2 ^ setup.dstBlockSize128bLog2 <
      setup.readRegionSrcBlocks * 2 ^ setup.readSrcBlockSize128bLog2 →
    ∃ dstBlock, dstBlocks[setup.dstBlocksIndexOffset + i]? = some dstBlock ∧
      (dstBlock = [] ∨ dstBlock.length = 2 ^ setup.dstBlockSize128bLog2 * 2 ^ 7)

/-- Whatever the contents: the write's future completes successfully, having changed nothing
outside of its region, then so does the read's future, the device unchanged, having filled the
buffers with the bytes written to the read region, and nothing else. -/
def Setup.RoundTrips (setup : Setup) : Prop :=
  ∀ contents : setup.Contents, ∃ n m ioBlocks' dstBlocks',
    drive pollWrite n (.init (setup.writeArgs contents.srcBlocks)) (setup.dev contents.ioBlocks) =
      .ok (some (.ok (contents.srcBlocks, .ok ()), setup.dev ioBlocks')) ∧
    (∀ p, p < setup.writeBegin * 2 ^ 7 ∨ setup.writeEnd * 2 ^ 7 ≤ p →
      byteAt (2 ^ setup.ioBlockSize128bLog2 * 2 ^ 7) ioBlocks' p =
        byteAt (2 ^ setup.ioBlockSize128bLog2 * 2 ^ 7) contents.ioBlocks p) ∧
    drive pollRead m (.init (setup.readArgs contents.dstBlocks)) (setup.dev ioBlocks') =
      .ok (some (.ok (dstBlocks', .ok ()), setup.dev ioBlocks')) ∧
    Filled (2 ^ setup.dstBlockSize128bLog2 * 2 ^ 7) setup.dstBlocksIndexOffset
      (fun p => (setup.writeArgs contents.srcBlocks).srcAt
        ((setup.readBegin - setup.writeBegin) * 2 ^ 7 + p))
      (· < (setup.readEnd - setup.readBegin) * 2 ^ 7) contents.dstBlocks dstBlocks'

/-- There is nothing to read, or neither request gets split within one of its chunks at where
the part aligned to the device's preferred bulks of blocks begins, the write at least not
before the end of what is read. -/
def Setup.Placed (setup : Setup) : Prop :=
  setup.readRegionSrcBlocks = 0 ∨
    (2 ^ setup.ioBlockSize128bLog2 ∣ setup.readBegin →
      SplitAtChunk ⟨setup.readBegin, setup.readEnd, setup.dstBlockSize128bLog2, 0⟩
        setup.alignment) ∧
    ∀ lo hi, alignedBody ⟨setup.writeBegin, setup.writeEnd, setup.srcBlockSize128bLog2, 0⟩
        setup.alignment = some (lo, hi) →
      2 ^ setup.srcBlockSize128bLog2 ∣ lo - setup.writeBegin ∨ setup.readEnd ≤ lo

namespace Setup

variable {setup : Setup}

theorem Valid.writeAligned (h : setup.Valid) (contents : setup.Contents) :
    WriteAligned setup.ioBlockSize128bLog2 (setup.writeArgs contents.srcBlocks) :=
  ⟨h.write_length, h.begin_dvd, h.length_dvd, h.src_dvd, h.begin_lt, contents.src⟩

theorem Valid.readAligned (h : setup.Valid) (contents : setup.Contents) :
    ReadAligned (setup.readArgs contents.dstBlocks) :=
  ⟨h.dst_dvd, contents.dst⟩

theorem Valid.writeEnd_dvd (h : setup.Valid) : 2 ^ setup.ioBlockSize128bLog2 ∣ setup.writeEnd :=
  Nat.dvd_add h.begin_dvd h.length_dvd

/-- What both futures do, and which byte of the source buffers gets to which position. -/
theorem completes (h : setup.Valid) (hrange : setup.InRange) (contents : setup.Contents) :
    ∃ n ioBlocks', drive pollWrite n (.init (setup.writeArgs contents.srcBlocks))
        (setup.dev contents.ioBlocks) =
          .ok (some (.ok (contents.srcBlocks, .ok ()), setup.dev ioBlocks')) ∧
      Wrote (2 ^ setup.ioBlockSize128bLog2 * 2 ^ 7) (fun p => (setup.writeArgs
          contents.srcBlocks).srcAt (transferred
            ⟨setup.writeBegin, setup.writeEnd, setup.srcBlockSize128bLog2, 0⟩ setup.alignment p))
        contents.ioBlocks ioBlocks' (setup.writeBegin * 2 ^ 7) (setup.writeEnd * 2 ^ 7) := by
  obtain ⟨n, ioBlocks', hdrive, hwrote⟩ := write_completes (setup.dev contents.ioBlocks)
    (h.writeAligned contents) (contents.length_eq ▸ hrange) contents.sized
  exact ⟨n, ioBlocks', hdrive, hwrote⟩

def buffers (offset count size : Nat) (content : Nat → Byte) : List (List Byte) :=
  List.replicate offset [] ++
    (List.range count).map (fun i => (List.range size).map (fun k => content (i * size + k)))

theorem getElem?_buffers (offset size : Nat) (content : Nat → Byte) {count i : Nat} (hi : i < count) :
    (buffers offset count size content)[offset + i]? =
      some ((List.range size).map (fun k => content (i * size + k))) := by
  have hlen : (List.replicate offset ([] : List Byte)).length = offset := List.length_replicate
  rw [buffers, List.getElem?_append_right (by omega), hlen, Nat.add_sub_cancel_left]
  simp [hi]

theorem dstAt_buffers {offset count size : Nat} {p : Nat} (hp : p < count * size) :
    dstAt size offset (buffers offset count size content) p = some (content p) := by
  have hsize : 0 < size := pos_of_ne_zero (fun hz => by rw [hz, mul_zero] at hp; omega)
  have hdm := div_add_mod p size
  rw [mul_comm] at hdm
  rw [dstAt, getElem?_buffers offset size content ((Nat.div_lt_iff_lt_mul hsize).mpr hp)]
  simp [mod_lt p hsize, hdm]

theorem exists_buffer (offset size : Nat) (content : Nat → Byte) {total log2 : Nat} (hdvd : 2 ^ log2 ∣ total)
    {i : Nat} (hi : i * 2 ^ log2 < total) :
    ∃ block, (buffers offset (total / 2 ^ log2) size content)[offset + i]? = some block ∧
      block.length = size := by
  refine ⟨_, getElem?_buffers offset size content ?_, by simp⟩
  exact (Nat.lt_div_iff_mul_lt' hdvd i).mpr (by rwa [mul_comm])

/-- Contents with a device never written to and with given bytes in the buffers. -/
def Valid.contents (h : setup.Valid) (srcAt dstAt : Nat → Byte) : setup.Contents where
  ioBlocks := List.replicate setup.ioBlocks none
  srcBlocks := buffers setup.srcBlocksIndexOffset
    (setup.writeRegionDstBlocks * 2 ^ setup.writeDstBlockSize128bLog2 /
      2 ^ setup.srcBlockSize128bLog2) (2 ^ setup.srcBlockSize128bLog2 * 2 ^ 7) srcAt
  dstBlocks := buffers setup.dstBlocksIndexOffset
    (setup.readRegionSrcBlocks * 2 ^ setup.readSrcBlockSize128bLog2 /
      2 ^ setup.dstBlockSize128bLog2) (2 ^ setup.dstBlockSize128bLog2 * 2 ^ 7) dstAt
  length_eq := List.length_replicate
  sized := by
    intro j ioBlock hget
    rw [List.getElem?_replicate] at hget
    split at hget
    · cases hget
    · cases hget
  src := fun i hi => exists_buffer _ _ _ h.src_dvd hi
  dst := fun i hi => by
    obtain ⟨block, hget, hlen⟩ := exists_buffer setup.dstBlocksIndexOffset
      (2 ^ setup.dstBlockSize128bLog2 * 2 ^ 7) dstAt h.dst_dvd hi
    exact ⟨block, hget, .inr hlen⟩

theorem Valid.contents_srcAt (h : setup.Valid) (srcAt dstAt : Nat → Byte) {p : Nat}
    (hp : p < (setup.writeEnd - setup.writeBegin) * 2 ^ 7) :
    (setup.writeArgs (h.contents srcAt dstAt).srcBlocks).srcAt p = srcAt p := by
  have hlen : setup.writeEnd - setup.writeBegin =
      setup.writeRegionDstBlocks * 2 ^ setup.writeDstBlockSize128bLog2 := Nat.add_sub_cancel_left _ _
  refine congrArg (fun b => Option.getD b 0) (dstAt_buffers ?_)
  change p < _ / 2 ^ setup.srcBlockSize128bLog2 * (2 ^ setup.srcBlockSize128bLog2 * 2 ^ 7)
  rw [← mul_assoc, Nat.div_mul_cancel h.src_dvd, ← hlen]
  exact hp

theorem Valid.contents_dstAt (h : setup.Valid) (srcAt dstAt : Nat → Byte) {p : Nat}
    (hp : p < (setup.readEnd - setup.readBegin) * 2 ^ 7) :
    BlkDev.dstAt (2 ^ setup.dstBlockSize128bLog2 * 2 ^ 7) setup.dstBlocksIndexOffset
      (h.contents srcAt dstAt).dstBlocks p = some (dstAt p) := by
  have hlen : setup.readEnd - setup.readBegin =
      setup.readRegionSrcBlocks * 2 ^ setup.readSrcBlockSize128bLog2 := Nat.add_sub_cancel_left _ _
  refine dstAt_buffers ?_
  rw [← mul_assoc, Nat.div_mul_cancel h.dst_dvd, ← hlen]
  exact hp

theorem Valid.readLength_pos (hread : setup.readRegionSrcBlocks ≠ 0) :
    setup.readBegin < setup.readEnd :=
  Nat.lt_add_of_pos_right (mul_pos (pos_of_ne_zero hread) (Nat.pow_pos two_pos))

section

variable (h : setup.Valid)
include h

theorem Valid.write_ne_zero (hread : setup.readRegionSrcBlocks ≠ 0) :
    setup.writeRegionDstBlocks ≠ 0 := by
  intro hzero
  have hlt := Valid.readLength_pos hread
  have hend : setup.writeEnd = setup.writeBegin := by
    rw [writeEnd, hzero, zero_mul, add_zero]
  have := h.begin_le
  have := h.end_le
  omega

theorem Valid.requested (hrange : setup.InRange)
    (hread : setup.readRegionSrcBlocks ≠ 0) (contents : setup.Contents) :
    Requested setup.ioBlockSize128bLog2 (setup.writeArgs contents.srcBlocks).chunks setup.ioBlocks
      ⟨setup.writeBegin, setup.writeEnd, setup.srcBlockSize128bLog2, 0⟩ :=
  (h.writeAligned contents).requested (h.write_ne_zero hread) hrange

/-- What a read after the write does, by whether it gets split within a chunk. -/
theorem read_after (hrange : setup.InRange)
    (hread : setup.readRegionSrcBlocks ≠ 0) (contents : setup.Contents) {ioBlocks' : IoBlocks}
    (hwrote : Wrote (2 ^ setup.ioBlockSize128bLog2 * 2 ^ 7) content contents.ioBlocks ioBlocks'
      (setup.writeBegin * 2 ^ 7) (setup.writeEnd * 2 ^ 7)) :
    ∃ n dstBlocks', drive pollRead n (.init (setup.readArgs contents.dstBlocks))
        (setup.dev ioBlocks') = .ok (some (.ok (dstBlocks', .ok ()), setup.dev ioBlocks')) ∧
      ((2 ^ setup.ioBlockSize128bLog2 ∣ setup.readBegin →
          SplitAtChunk ⟨setup.readBegin, setup.readEnd, setup.dstBlockSize128bLog2, 0⟩
            setup.alignment) →
        Filled (2 ^ setup.dstBlockSize128bLog2 * 2 ^ 7) setup.dstBlocksIndexOffset
          (fun p => content (setup.readBegin * 2 ^ 7 + p))
          (· < (setup.readEnd - setup.readBegin) * 2 ^ 7) contents.dstBlocks dstBlocks') ∧
      (¬(2 ^ setup.ioBlockSize128bLog2 ∣ setup.readBegin →
          SplitAtChunk ⟨setup.readBegin, setup.readEnd, setup.dstBlockSize128bLog2, 0⟩
            setup.alignment) →
        dstAt (2 ^ setup.dstBlockSize128bLog2 * 2 ^ 7) setup.dstBlocksIndexOffset dstBlocks'
            ((setup.readEnd - setup.readBegin) * 2 ^ 7 - 1) =
          dstAt (2 ^ setup.dstBlockSize128bLog2 * 2 ^ 7) setup.dstBlocksIndexOffset
            contents.dstBlocks ((setup.readEnd - setup.readBegin) * 2 ^ 7 - 1)) := by
  have hlen : setup.readEnd - setup.readBegin = (setup.readArgs contents.dstBlocks).length128b :=
    Nat.add_sub_cancel_left _ _
  have hlogs := (h.writeAligned contents).logs_lt (h.write_ne_zero hread)
  rw [hlen]
  exact read_completes (setup.dev ioBlocks') (h.readAligned contents) hread hlogs.1 hwrote.sized h.begin_dvd h.begin_le h.writeEnd_dvd
    h.end_le (by
      have hcount : (setup.dev ioBlocks').ioBlocks.length = setup.ioBlocks :=
        hwrote.length.trans contents.length_eq
      rw [hcount]
      exact hrange.1) hrange.2 hwrote.written

theorem Placed.roundTrips (hrange : setup.InRange) (hplaced : setup.Placed) :
    setup.RoundTrips := by
  intro contents
  obtain ⟨n, ioBlocks', hdrive, hwrote⟩ := completes h hrange contents
  have houtside : ∀ p, p < setup.writeBegin * 2 ^ 7 ∨ setup.writeEnd * 2 ^ 7 ≤ p →
      byteAt (2 ^ setup.ioBlockSize128bLog2 * 2 ^ 7) ioBlocks' p =
        byteAt (2 ^ setup.ioBlockSize128bLog2 * 2 ^ 7) contents.ioBlocks p := fun p hp =>
    hwrote.byteAt_outside (mul_pos (Nat.pow_pos two_pos) (by decide))
      (Nat.mul_dvd_mul_right h.begin_dvd _) (Nat.mul_dvd_mul_right h.writeEnd_dvd _) hp
  by_cases hread : setup.readRegionSrcBlocks = 0
  · refine ⟨n, 1, ioBlocks', contents.dstBlocks, hdrive, houtside, ?_, Filled.refl (fun p => ?_)⟩
    · have hzero : (setup.readArgs contents.dstBlocks).readRegionSrcBlocks = 0 := hread
      rw [drive, pollRead, if_pos hzero]
      rfl
    · have : setup.readEnd = setup.readBegin := by
        rw [readEnd, hread, zero_mul, add_zero]
      omega
  · obtain ⟨hreadSplit, hwriteSplit⟩ := hplaced.resolve_left hread
    obtain ⟨m, dstBlocks', hdriveRead, hfilled, -⟩ := read_after h hrange hread contents hwrote
    refine ⟨n, m, ioBlocks', dstBlocks', hdrive, houtside, hdriveRead,
      (hfilled hreadSplit).congr (fun _ => Iff.rfl) (fun p hp => ?_)⟩
    have hrequested := h.requested hrange hread contents
    have hle := h.begin_le
    have hend := h.end_le
    have htransferred : transferred ⟨setup.writeBegin, setup.writeEnd, setup.srcBlockSize128bLog2, 0⟩
        setup.alignment (setup.readBegin * 2 ^ 7 + p) =
        setup.readBegin * 2 ^ 7 + p - setup.writeBegin * 2 ^ 7 := by
      by_cases hsplit : SplitAtChunk
          ⟨setup.writeBegin, setup.writeEnd, setup.srcBlockSize128bLog2, 0⟩ setup.alignment
      · exact hrequested.transferred_eq hsplit (by dsimp only; omega) (by dsimp only; omega)
      · obtain ⟨lo, hi, hbody, hndvd⟩ : ∃ lo hi, alignedBody
            ⟨setup.writeBegin, setup.writeEnd, setup.srcBlockSize128bLog2, 0⟩ setup.alignment =
              some (lo, hi) ∧ ¬2 ^ setup.srcBlockSize128bLog2 ∣ lo - setup.writeBegin := by
          simpa only [SplitAtChunk, not_forall, exists_prop] using hsplit
        have hlo := (hwriteSplit lo hi hbody).resolve_left hndvd
        exact hrequested.transferred_head hbody (by omega)
    rw [htransferred]
    congr 1
    omega

theorem RoundTrips.placed (hrange : setup.InRange) (hround : setup.RoundTrips) :
    setup.Placed := by
  by_contra hnot
  rw [Placed, not_or] at hnot
  obtain ⟨hread, hnot⟩ := hnot
  have hpos := Valid.readLength_pos hread
  have hle := h.begin_le
  have hend := h.end_le
  set last := (setup.readEnd - setup.readBegin) * 2 ^ 7 - 1 with hlast
  have hlastLt : last < (setup.readEnd - setup.readBegin) * 2 ^ 7 := by omega
  -- What is found there, for any contents of the source buffers, and what should be.
  have hfound : ∀ srcAt : Nat → Byte, ∃ dstBlocks' ioBlocks' m,
      Wrote (2 ^ setup.ioBlockSize128bLog2 * 2 ^ 7) (fun p => (setup.writeArgs
          (h.contents srcAt (fun _ => 1)).srcBlocks).srcAt (transferred
            ⟨setup.writeBegin, setup.writeEnd, setup.srcBlockSize128bLog2, 0⟩ setup.alignment p))
        (h.contents srcAt (fun _ => 1)).ioBlocks ioBlocks' (setup.writeBegin * 2 ^ 7)
        (setup.writeEnd * 2 ^ 7) ∧
      drive pollRead m (.init (setup.readArgs (h.contents srcAt (fun _ => 1)).dstBlocks))
        (setup.dev ioBlocks') = .ok (some (.ok (dstBlocks', .ok ()), setup.dev ioBlocks')) ∧
      dstAt (2 ^ setup.dstBlockSize128bLog2 * 2 ^ 7) setup.dstBlocksIndexOffset dstBlocks' last =
        some (srcAt ((setup.readBegin - setup.writeBegin) * 2 ^ 7 + last)) := by
    intro srcAt
    obtain ⟨n, m, ioBlocks', dstBlocks', hdrive, -, hdriveRead, hfilled⟩ :=
      hround (h.contents srcAt (fun _ => 1))
    obtain ⟨n', ioBlocks'', hdrive', hwrote⟩ := completes h hrange (h.contents srcAt (fun _ => 1))
    have hsame := drive_unique n n' _ _ hdrive hdrive'
    have hio : ioBlocks' = ioBlocks'' := congrArg (fun result => result.2.ioBlocks) hsame
    refine ⟨dstBlocks', ioBlocks', m, hio ▸ hwrote, hdriveRead, ?_⟩
    rw [hfilled.filled last hlastLt, h.contents_dstAt srcAt _ hlastLt, Option.map_some]
    exact congrArg some (h.contents_srcAt srcAt _ (by omega))
  by_cases hreadSplit : 2 ^ setup.ioBlockSize128bLog2 ∣ setup.readBegin →
      SplitAtChunk ⟨setup.readBegin, setup.readEnd, setup.dstBlockSize128bLog2, 0⟩ setup.alignment
  · obtain ⟨lo, hi, hbody, hndvd, hlo⟩ : ∃ lo hi, alignedBody
        ⟨setup.writeBegin, setup.writeEnd, setup.srcBlockSize128bLog2, 0⟩ setup.alignment =
          some (lo, hi) ∧ ¬2 ^ setup.srcBlockSize128bLog2 ∣ lo - setup.writeBegin ∧
          ¬setup.readEnd ≤ lo := by
      by_contra hnone
      refine hnot ⟨hreadSplit, fun lo hi hbody => ?_⟩
      by_contra hboth
      exact hnone ⟨lo, hi, hbody, not_or.mp hboth⟩
    set source := transferred ⟨setup.writeBegin, setup.writeEnd, setup.srcBlockSize128bLog2, 0⟩
      setup.alignment (setup.readBegin * 2 ^ 7 + last) with hsource
    have hlt : source < setup.readBegin * 2 ^ 7 + last - setup.writeBegin * 2 ^ 7 :=
      (h.requested hrange hread (h.contents (fun _ => 0) (fun _ => 1))).transferred_lt hbody hndvd
        (by omega)
    obtain ⟨dstBlocks', ioBlocks', m, hwrote, hdriveRead, hshould⟩ :=
      hfound (fun p => if p = source then 1 else 0)
    obtain ⟨m', dstBlocks'', hdriveRead', hfilled, -⟩ := read_after h hrange hread _ hwrote
    have hdst : dstBlocks' = dstBlocks'' := by
      have hsame := drive_unique m m' _ _ hdriveRead hdriveRead'
      simpa using congrArg Prod.fst hsame
    rw [hdst, (hfilled hreadSplit).filled last hlastLt, h.contents_dstAt _ _ hlastLt,
      Option.map_some, ← hsource, h.contents_srcAt _ _ (by omega), if_pos rfl, if_neg (by omega)]
      at hshould
    exact absurd (Option.some.inj hshould) (by decide)
  · obtain ⟨dstBlocks', ioBlocks', m, hwrote, hdriveRead, hshould⟩ := hfound (fun _ => 0)
    obtain ⟨m', dstBlocks'', hdriveRead', -, hkept⟩ := read_after h hrange hread _ hwrote
    have hdst : dstBlocks' = dstBlocks'' := by
      have hsame := drive_unique m m' _ _ hdriveRead hdriveRead'
      simpa using congrArg Prod.fst hsame
    rw [hdst, hkept hreadSplit, h.contents_dstAt _ _ hlastLt] at hshould
    exact absurd (Option.some.inj hshould) (by decide)

end

end Setup

/-- A write followed by a read from within its region goes right for all contents exactly if
the requests are split at chunks, and a write out of range fails for that reason only. -/
theorem gather_scatter_roundTrips {setup : Setup} (h : setup.Valid) :
    (setup.InRange → (setup.RoundTrips ↔ setup.Placed)) ∧
    (¬setup.InRange → setup.writeRegionDstBlocks ≠ 0 → ∀ contents : setup.Contents,
      drive pollWrite 1 (.init (setup.writeArgs contents.srcBlocks))
          (setup.dev contents.ioBlocks) =
        .ok (some (.ok (contents.srcBlocks, .error .ioBlockOutOfRange),
          setup.dev contents.ioBlocks))) := by
  refine ⟨fun hrange => ⟨fun hround => hround.placed h hrange,
    fun hplaced => hplaced.roundTrips h hrange⟩, fun hrange hpos contents => ?_⟩
  refine write_out_of_range (setup.dev contents.ioBlocks) (h.writeAligned contents) hpos ?_
  intro hin
  refine hrange ?_
  rw [Setup.InRange, ← contents.length_eq]
  exact hin

/-- Four units of 128 bytes, from and to a single buffer, at an odd position of a device that
likes to be given two of its blocks of one unit at a time. -/
def oddSetup : Setup where
  ioBlockSize128bLog2 := 0
  preferredIoBlocksBulkLog2 := 1
  ioBlocks := 6
  writeRegionBeginDstBlocks := 1
  writeRegionDstBlocks := 4
  writeDstBlockSize128bLog2 := 0
  srcBlocksIndexOffset := 0
  srcBlockSize128bLog2 := 2
  readRegionBeginSrcBlocks := 1
  readRegionSrcBlocks := 4
  readSrcBlockSize128bLog2 := 0
  dstBlocksIndexOffset := 0
  dstBlockSize128bLog2 := 0

theorem oddSetup_valid : oddSetup.Valid := by
  constructor <;> decide

theorem gather_scatter_odd : oddSetup.Valid ∧ oddSetup.InRange ∧ ¬oddSetup.RoundTrips := by
  refine ⟨oddSetup_valid, ⟨by decide, by decide⟩, fun hround => ?_⟩
  rcases hround.placed oddSetup_valid ⟨by decide, by decide⟩ with hzero | ⟨-, hsplit⟩
  · exact absurd hzero (by decide)
  · exact absurd (hsplit 2 4 (by decide)) (by decide)

theorem gather_scatter_odd_iff : oddSetup.RoundTrips ↔ oddSetup.Placed :=
  (gather_scatter_roundTrips oddSetup_valid).1 ⟨by decide, by decide⟩

end CocoonFs.GatherScatter
