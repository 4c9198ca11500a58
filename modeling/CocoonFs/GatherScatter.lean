import CocoonFs.BlkDevAlign

namespace CocoonFs.GatherScatter

open Checked Codes IoRegion IoSteps Patches BlkDev

def shl (a n : Nat) : Nat := a * 2 ^ n % 2 ^ 64

structure WriteRequest where
  region : ChunkedIoRegion
  srcBlocks : List (List Byte)
  srcBlocksIndexOffset : Nat

/-- Whether some buffers are all there and as long as they should be. -/
def buffersOk (ok : List Byte → Bool) (blocks : List (List Byte)) (offset count : Nat) : Bool :=
  (List.range count).all (fun i => blocks[offset + i]?.any ok)

/-- A region's length in units of the buffers' size, an error if that is not an even one. -/
def regionBufferBlocks (regionBlocks blockSize128bLog2 bufferBlockSize128bLog2 : Nat) :
    DevM Unit Nat :=
  if bufferBlockSize128bLog2 ≤ blockSize128bLog2 then
    pure (shl regionBlocks (blockSize128bLog2 - bufferBlockSize128bLog2))
  else do
    let bufferBlockBlocksLog2 := bufferBlockSize128bLog2 - blockSize128bLog2
    let regionBufferBlocks := regionBlocks / 2 ^ bufferBlockBlocksLog2
    orErr .internal (shl regionBufferBlocks bufferBlockBlocksLog2 = regionBlocks)
    pure regionBufferBlocks

def writeRegionIoBlocks (writeRegionBeginDstBlocks writeRegionDstBlocks : Nat)
    (dstBlockSize128bLog2 blkdevIoBlockSize128bLog2 : Nat) : DevM Unit (Nat × Nat) :=
  if dstBlockSize128bLog2 < blkdevIoBlockSize128bLog2 then do
    let blkdevIoBlockDstBlocksLog2 := blkdevIoBlockSize128bLog2 - dstBlockSize128bLog2
    let ioBegin := writeRegionBeginDstBlocks / 2 ^ blkdevIoBlockDstBlocksLog2
    orErr .internal (shl ioBegin blkdevIoBlockDstBlocksLog2 = writeRegionBeginDstBlocks)
    let ioCount := writeRegionDstBlocks / 2 ^ blkdevIoBlockDstBlocksLog2
    orErr .internal (shl ioCount blkdevIoBlockDstBlocksLog2 = writeRegionDstBlocks)
    pure (ioBegin, ioCount)
  else do
    let dstBlockBlkdevIoBlocksLog2 := dstBlockSize128bLog2 - blkdevIoBlockSize128bLog2
    let ioBegin := shl writeRegionBeginDstBlocks dstBlockBlkdevIoBlocksLog2
    orErr .ioBlockOutOfRange (ioBegin / 2 ^ dstBlockBlkdevIoBlocksLog2 = writeRegionBeginDstBlocks)
    let ioCount := shl writeRegionDstBlocks dstBlockBlkdevIoBlocksLog2
    orErr .ioBlockOutOfRange (ioCount / 2 ^ dstBlockBlkdevIoBlocksLog2 = writeRegionDstBlocks)
    pure (ioBegin, ioCount)

def WriteRequest.ofIoBlocks (writeRegionBeginBlkdevIoBlocks writeRegionBlkdevIoBlocks : Nat)
    (srcBlocks : List (List Byte)) (srcBlocksIndexOffset srcBlockSize128bLog2 : Nat)
    (blkdevIoBlocks blkdevIoBlockSize128bLog2 : Nat) : DevM Unit WriteRequest := do
  orErr .ioBlockOutOfRange
    (writeRegionBeginBlkdevIoBlocks + writeRegionBlkdevIoBlocks < 2 ^ 64)
  let writeRegionEndBlkdevIoBlocks := writeRegionBeginBlkdevIoBlocks + writeRegionBlkdevIoBlocks
  orErr .ioBlockOutOfRange (writeRegionEndBlkdevIoBlocks ≤ blkdevIoBlocks)
  let writeRegionEnd128b := shl writeRegionEndBlkdevIoBlocks blkdevIoBlockSize128bLog2
  orErr .ioBlockOutOfRange (shl writeRegionEnd128b 7 / 2 ^ (blkdevIoBlockSize128bLog2 + 7) =
    writeRegionEndBlkdevIoBlocks)
  match IoRegion.new (shl writeRegionBeginBlkdevIoBlocks blkdevIoBlockSize128bLog2)
      writeRegionEnd128b srcBlockSize128bLog2 with
  | .error _ => err .internal
  | .ok region => pure ⟨region, srcBlocks, srcBlocksIndexOffset⟩

def WriteRequest.new (writeRegionBeginDstBlocks writeRegionDstBlocks dstBlockSize128bLog2 : Nat)
    (srcBlocks : List (List Byte)) (srcBlocksIndexOffset srcBlockSize128bLog2 : Nat)
    (blkdevIoBlocks blkdevIoBlockSize128bLog2 : Nat) : DevM Unit WriteRequest := do
  require .debugAssert (writeRegionDstBlocks ≠ 0)
  orErr .internal (blkdevIoBlockSize128bLog2 < 64 - 7)
  orErr .ioBlockOutOfRange (dstBlockSize128bLog2 < 64 - 7)
  orErr .internal (srcBlockSize128bLog2 < 64 - 7)
  orErr .ioBlockOutOfRange (writeRegionDstBlocks ≤ (2 ^ 64 - 1) / 2 ^ (dstBlockSize128bLog2 + 7))
  let writeRegionSrcBlocks ←
    regionBufferBlocks writeRegionDstBlocks dstBlockSize128bLog2 srcBlockSize128bLog2
  require .debugAssert (buffersOk (fun srcBlock => srcBlock.length = 2 ^ (srcBlockSize128bLog2 + 7))
    srcBlocks srcBlocksIndexOffset writeRegionSrcBlocks)
  let ioRegion ← writeRegionIoBlocks writeRegionBeginDstBlocks writeRegionDstBlocks
    dstBlockSize128bLog2 blkdevIoBlockSize128bLog2
  WriteRequest.ofIoBlocks ioRegion.1 ioRegion.2 srcBlocks
    srcBlocksIndexOffset srcBlockSize128bLog2 blkdevIoBlocks blkdevIoBlockSize128bLog2

def WriteRequest.getSourceBuffer (request : WriteRequest) (range : ChunkRange) :
    DevM IoBlocks (List Byte) :=
  match request.srcBlocks[request.srcBlocksIndexOffset + range.chunk]? with
  | none => panic .indexOutOfBounds
  | some srcBlock => do
    require .indexOutOfBounds
      (range.rangeBegin ≤ range.rangeEnd ∧ range.rangeEnd ≤ srcBlock.length)
    pure (slice srcBlock range.rangeBegin range.rangeEnd)

structure ReadRequest where
  region : ChunkedIoRegion
  dstBlocks : List (List Byte)
  dstBlocksIndexOffset : Nat
  alignedReadRegionHeadPaddingRequestDstBlocks : Nat
  readRegionRequestDstBlocks : Nat
  dstBlockSize128bLog2 : Nat

/-- The read region extended to whole device blocks, and the chunks the request is made up of:
where and how many blocks there are on the device, the chunk size, how many chunks of padding
and how many to be read. -/
structure AlignedRead where
  beginBlkdevIoBlocks : Nat
  blkdevIoBlocks : Nat
  requestDstBlockSize128bLog2 : Nat
  headPaddingRequestDstBlocks : Nat
  requestDstBlocks : Nat

def alignRead (readRegionBeginSrcBlocks readRegionSrcBlocks srcBlockSize128bLog2 : Nat)
    (dstBlockSize128bLog2 readRegionDstBlocks blkdevIoBlockSize128bLog2 : Nat) :
    DevM Unit AlignedRead :=
  if srcBlockSize128bLog2 < blkdevIoBlockSize128bLog2 then do
    let blkdevIoBlockSrcBlocksLog2 := blkdevIoBlockSize128bLog2 - srcBlockSize128bLog2
    let beginBlkdevIoBlocks := readRegionBeginSrcBlocks / 2 ^ blkdevIoBlockSrcBlocksLog2
    let headPaddingSrcBlocks :=
      readRegionBeginSrcBlocks - shl beginBlkdevIoBlocks blkdevIoBlockSrcBlocksLog2
    require .overflow (headPaddingSrcBlocks + readRegionSrcBlocks < 2 ^ 64)
    let blkdevIoBlocks :=
      (headPaddingSrcBlocks + readRegionSrcBlocks - 1) / 2 ^ blkdevIoBlockSrcBlocksLog2 + 1
    if dstBlockSize128bLog2 ≤ srcBlockSize128bLog2 then
      pure ⟨beginBlkdevIoBlocks, blkdevIoBlocks, dstBlockSize128bLog2,
        shl headPaddingSrcBlocks (srcBlockSize128bLog2 - dstBlockSize128bLog2), readRegionDstBlocks⟩
    else
      let dstBlockSrcBlocksLog2 := dstBlockSize128bLog2 - srcBlockSize128bLog2
      let headPaddingDstBlocks := headPaddingSrcBlocks / 2 ^ dstBlockSrcBlocksLog2
      if shl headPaddingDstBlocks dstBlockSrcBlocksLog2 = headPaddingSrcBlocks then
        pure ⟨beginBlkdevIoBlocks, blkdevIoBlocks, dstBlockSize128bLog2, headPaddingDstBlocks,
          readRegionDstBlocks⟩
      else
        pure ⟨beginBlkdevIoBlocks, blkdevIoBlocks, srcBlockSize128bLog2, headPaddingSrcBlocks,
          readRegionSrcBlocks⟩
  else do
    let srcBlockBlkdevIoBlocksLog2 := srcBlockSize128bLog2 - blkdevIoBlockSize128bLog2
    let beginBlkdevIoBlocks := shl readRegionBeginSrcBlocks srcBlockBlkdevIoBlocksLog2
    orErr .ioBlockOutOfRange
      (beginBlkdevIoBlocks / 2 ^ srcBlockBlkdevIoBlocksLog2 = readRegionBeginSrcBlocks)
    let blkdevIoBlocks := shl readRegionSrcBlocks srcBlockBlkdevIoBlocksLog2
    orErr .ioBlockOutOfRange (blkdevIoBlocks / 2 ^ srcBlockBlkdevIoBlocksLog2 = readRegionSrcBlocks)
    pure ⟨beginBlkdevIoBlocks, blkdevIoBlocks, dstBlockSize128bLog2, 0, readRegionDstBlocks⟩

def ReadRequest.new (readRegionBeginSrcBlocks readRegionSrcBlocks srcBlockSize128bLog2 : Nat)
    (dstBlocks : List (List Byte)) (dstBlocksIndexOffset dstBlockSize128bLog2 : Nat)
    (blkdevIoBlocks blkdevIoBlockSize128bLog2 : Nat) : DevM Unit ReadRequest := do
  require .debugAssert (readRegionSrcBlocks ≠ 0)
  orErr .internal (blkdevIoBlockSize128bLog2 < 64)
  orErr .operationNotSupported
    (blkdevIoBlockSize128bLog2 < 64 - 1 + min srcBlockSize128bLog2 dstBlockSize128bLog2)
  orErr .ioBlockOutOfRange (srcBlockSize128bLog2 < 64 - 7)
  orErr .internal (dstBlockSize128bLog2 < 64 - 7)
  orErr .ioBlockOutOfRange (readRegionSrcBlocks ≤ (2 ^ 64 - 1) / 2 ^ (srcBlockSize128bLog2 + 7))
  let readRegionDstBlocks ←
    regionBufferBlocks readRegionSrcBlocks srcBlockSize128bLog2 dstBlockSize128bLog2
  require .debugAssert (buffersOk
    (fun dstBlock => dstBlock.isEmpty || dstBlock.length = 2 ^ (dstBlockSize128bLog2 + 7))
    dstBlocks dstBlocksIndexOffset readRegionDstBlocks)
  let aligned ← alignRead readRegionBeginSrcBlocks readRegionSrcBlocks srcBlockSize128bLog2
    dstBlockSize128bLog2 readRegionDstBlocks blkdevIoBlockSize128bLog2
  orErr .ioBlockOutOfRange (aligned.beginBlkdevIoBlocks + aligned.blkdevIoBlocks < 2 ^ 64)
  let endBlkdevIoBlocks := aligned.beginBlkdevIoBlocks + aligned.blkdevIoBlocks
  orErr .ioBlockOutOfRange (endBlkdevIoBlocks ≤ blkdevIoBlocks)
  let readRegionEnd128b := shl endBlkdevIoBlocks blkdevIoBlockSize128bLog2
  orErr .ioBlockOutOfRange (readRegionEnd128b / 2 ^ blkdevIoBlockSize128bLog2 = endBlkdevIoBlocks)
  match IoRegion.new (shl aligned.beginBlkdevIoBlocks blkdevIoBlockSize128bLog2)
      readRegionEnd128b aligned.requestDstBlockSize128bLog2 with
  | .error _ => err .internal
  | .ok region =>
    pure ⟨region, dstBlocks, dstBlocksIndexOffset, aligned.headPaddingRequestDstBlocks,
      aligned.requestDstBlocks, dstBlockSize128bLog2⟩

def ReadRequest.getDestinationBuffer (request : ReadRequest) (range : ChunkRange) :
    DevM (List (List Byte)) (Option DstSlice) := do
  if range.chunk < request.alignedReadRegionHeadPaddingRequestDstBlocks then pure none
  else
    let requestDstBlockIndexInReadRegion :=
      range.chunk - request.alignedReadRegionHeadPaddingRequestDstBlocks
    if request.readRegionRequestDstBlocks ≤ requestDstBlockIndexInReadRegion then pure none
    else do
      let requestDstBlockSize128bLog2 := request.region.chunkSize128bLog2
      require .overflow (requestDstBlockSize128bLog2 ≤ request.dstBlockSize128bLog2)
      let dstBlockRequestDstBlocksLog2 := request.dstBlockSize128bLog2 - requestDstBlockSize128bLog2
      let dstBlockIndex := request.dstBlocksIndexOffset +
        requestDstBlockIndexInReadRegion / 2 ^ dstBlockRequestDstBlocksLog2
      let dstBlocks ← get
      match dstBlocks[dstBlockIndex]? with
      | none => panic .indexOutOfBounds
      | some dstBlock =>
        if dstBlock.isEmpty then pure none
        else do
          let indexInDstBlock :=
            requestDstBlockIndexInReadRegion % 2 ^ dstBlockRequestDstBlocksLog2
          let requestDstBlockBegin := indexInDstBlock * 2 ^ (requestDstBlockSize128bLog2 + 7)
          let requestDstBlockEnd := (indexInDstBlock + 1) * 2 ^ (requestDstBlockSize128bLog2 + 7)
          require .indexOutOfBounds (requestDstBlockEnd ≤ dstBlock.length)
          require .indexOutOfBounds (range.rangeBegin ≤ range.rangeEnd ∧
            range.rangeEnd ≤ requestDstBlockEnd - requestDstBlockBegin)
          pure (some ⟨dstBlockIndex, requestDstBlockBegin + range.rangeBegin,
            requestDstBlockBegin + range.rangeEnd⟩)

/-- The device's future for a request, pending when polled for the first time. -/
inductive TestNvBlkDevFuture (R : Type) where
  | init (request : R)
  | polledOnce (request : R)
  | done

abbrev Output := Except NvBlkDevIoError (List (List Byte) × Except NvBlkDevIoError Unit)

structure WriteArgs where
  writeRegionBeginDstBlocks : Nat
  writeRegionDstBlocks : Nat
  dstBlockSize128bLog2 : Nat
  srcBlocks : List (List Byte)
  srcBlocksIndexOffset : Nat
  srcBlockSize128bLog2 : Nat

inductive WriteRegionBlocksGatherFuture where
  | init (args : WriteArgs)
  | write (writeFut : TestNvBlkDevFuture WriteRequest)
  | done

def pollTestWrite (dev : TestNvBlkDev) : TestNvBlkDevFuture WriteRequest →
    Except Panic (Option Output × TestNvBlkDevFuture WriteRequest × TestNvBlkDev)
  | .init request => .ok (none, .polledOnce request, dev)
  | .polledOnce request =>
    match processWriteRequest dev.ioBlockSize128bLog2 dev.preferredIoBlocksBulkLog2 request.region
        request.getSourceBuffer dev.ioBlocks with
    | .error p => .error p
    | .ok (result, ioBlocks) =>
      .ok (some (.ok (request.srcBlocks, result)), .done, { dev with ioBlocks := ioBlocks })
  | .done => .error .unwrapNone

def pollWrite (dev : TestNvBlkDev) : WriteRegionBlocksGatherFuture →
    Except Panic (Option Output × WriteRegionBlocksGatherFuture × TestNvBlkDev)
  | .init args =>
    if args.writeRegionDstBlocks = 0 then .ok (some (.ok (args.srcBlocks, .ok ())), .done, dev)
    else
      match WriteRequest.new args.writeRegionBeginDstBlocks args.writeRegionDstBlocks
          args.dstBlockSize128bLog2 args.srcBlocks args.srcBlocksIndexOffset
          args.srcBlockSize128bLog2 dev.ioBlocks.length dev.ioBlockSize128bLog2 () with
      | .error p => .error p
      | .ok (.error e, ()) => .ok (some (.ok (args.srcBlocks, .error e)), .done, dev)
      | .ok (.ok request, ()) => do
        let (ready, writeFut, dev) ← pollTestWrite dev (.init request)
        .ok (ready, .write writeFut, dev)
  | .write writeFut => do
    let (ready, writeFut, dev) ← pollTestWrite dev writeFut
    .ok (ready, if ready.isSome then .done else .write writeFut, dev)
  | .done => .error .unwrapNone

structure ReadArgs where
  readRegionBeginSrcBlocks : Nat
  readRegionSrcBlocks : Nat
  srcBlockSize128bLog2 : Nat
  dstBlocks : List (List Byte)
  dstBlocksIndexOffset : Nat
  dstBlockSize128bLog2 : Nat

inductive ReadRegionBlocksScatterFuture where
  | init (args : ReadArgs)
  | read (readFut : TestNvBlkDevFuture ReadRequest)
  | done

def pollTestRead (dev : TestNvBlkDev) : TestNvBlkDevFuture ReadRequest →
    Except Panic (Option Output × TestNvBlkDevFuture ReadRequest × TestNvBlkDev)
  | .init request => .ok (none, .polledOnce request, dev)
  | .polledOnce request =>
    match processReadRequest dev.ioBlockSize128bLog2 dev.preferredIoBlocksBulkLog2 dev.ioBlocks
        request.region request.getDestinationBuffer request.dstBlocks with
    | .error p => .error p
    | .ok (result, dstBlocks) => .ok (some (.ok (dstBlocks, result)), .done, dev)
  | .done => .error .unwrapNone

def pollRead (dev : TestNvBlkDev) : ReadRegionBlocksScatterFuture →
    Except Panic (Option Output × ReadRegionBlocksScatterFuture × TestNvBlkDev)
  | .init args =>
    if args.readRegionSrcBlocks = 0 then .ok (some (.ok (args.dstBlocks, .ok ())), .done, dev)
    else
      match ReadRequest.new args.readRegionBeginSrcBlocks args.readRegionSrcBlocks
          args.srcBlockSize128bLog2 args.dstBlocks args.dstBlocksIndexOffset
          args.dstBlockSize128bLog2 dev.ioBlocks.length dev.ioBlockSize128bLog2 () with
      | .error p => .error p
      | .ok (.error e, ()) => .ok (some (.ok (args.dstBlocks, .error e)), .done, dev)
      | .ok (.ok request, ()) => do
        let (ready, readFut, dev) ← pollTestRead dev (.init request)
        .ok (ready, .read readFut, dev)
  | .read readFut => do
    let (ready, readFut, dev) ← pollTestRead dev readFut
    .ok (ready, if ready.isSome then .done else .read readFut, dev)
  | .done => .error .unwrapNone

def drive {F : Type} (poll : TestNvBlkDev → F → Except Panic (Option Output × F × TestNvBlkDev)) :
    Nat → F → TestNvBlkDev → Except Panic (Option (Output × TestNvBlkDev))
  | 0, _, _ => .ok none
  | n + 1, fut, dev =>
    match poll dev fut with
    | .error p => .error p
    | .ok (some output, _, dev) => .ok (some (output, dev))
    | .ok (none, fut, dev) => drive poll n fut dev

end CocoonFs.GatherScatter
