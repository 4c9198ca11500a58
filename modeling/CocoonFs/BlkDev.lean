import CocoonFs.Codes
import CocoonFs.IoRegion
import CocoonFs.Patches

namespace CocoonFs.BlkDev

open Checked Codes IoRegion IoSteps Patches

inductive NvBlkDevIoError where
  | internal
  | memoryAllocationFailure
  | operationNotSupported
  | ioBlockOutOfRange
  | ioBlockNotMapped
  | ioFailure
  deriving DecidableEq, Repr

/-- The blocks of the emulated storage, those never written to are not there. -/
abbrev IoBlocks := List (Option (List Byte))

structure TestNvBlkDev where
  ioBlocks : IoBlocks
  ioBlockSize128bLog2 : Nat
  preferredIoBlocksBulkLog2 : Nat
  deriving DecidableEq, Repr

abbrev DevM (σ α : Type) := IoM Panic NvBlkDevIoError σ α

/-- The loop copying a source slice to the blocks it extends over. -/
def writeSlice (ioBlockSize : Nat) : Nat → Nat → Nat → List Byte → DevM IoBlocks Unit
  | _, _, _, [] => pure ()
  | 0, _, _, _ :: _ => panic .outOfFuel
  | n + 1, ioBlockIndex, offsetInIoBlock, byte :: bytes => do
    let src := byte :: bytes
    let ioBlocks ← get
    orErr .ioBlockOutOfRange (ioBlockIndex < ioBlocks.length)
    let ioBlock := ioBlocks[ioBlockIndex]?.join.getD (List.replicate ioBlockSize 0)
    require .overflow (offsetInIoBlock ≤ ioBlockSize)
    let bytesToCopy := min src.length (ioBlockSize - offsetInIoBlock)
    require .indexOutOfBounds (offsetInIoBlock + bytesToCopy ≤ ioBlock.length)
    set (ioBlocks.set ioBlockIndex
      (some (patch ioBlock offsetInIoBlock (src.take bytesToCopy))))
    writeSlice ioBlockSize n (ioBlockIndex + 1) 0 (src.drop bytesToCopy)

structure DstSlice where
  block : Nat
  sliceBegin : Nat
  sliceEnd : Nat

/-- The loop copying to a destination slice from the blocks it extends over. -/
def readSlice (ioBlocks : IoBlocks) (ioBlockSize block : Nat) :
    Nat → Nat → Nat → Nat → Nat → DevM (List (List Byte)) Unit
  | _, _, _, _, 0 => pure ()
  | 0, _, _, _, _ + 1 => panic .outOfFuel
  | n + 1, ioBlockIndex, offsetInIoBlock, dst, remaining + 1 => do
    orErr .ioBlockOutOfRange (ioBlockIndex < ioBlocks.length)
    match ioBlocks[ioBlockIndex]?.join with
    | none => err .ioBlockNotMapped
    | some ioBlock =>
      require .overflow (offsetInIoBlock ≤ ioBlockSize)
      let bytesToCopy := min (remaining + 1) (ioBlockSize - offsetInIoBlock)
      require .indexOutOfBounds (offsetInIoBlock + bytesToCopy ≤ ioBlock.length)
      let dstBlocks ← get
      set (dstBlocks.modify block (fun dstBlock => patch dstBlock dst
        (slice ioBlock offsetInIoBlock (offsetInIoBlock + bytesToCopy))))
      readSlice ioBlocks ioBlockSize block n (ioBlockIndex + 1) 0 (dst + bytesToCopy)
        (remaining + 1 - bytesToCopy)

/-- Where the transfer of a chunk range begins, its block on the device and the offset
therein, for the range standing at some offset in its bulk of blocks. -/
def locate {σ : Type} (ioBlockSize128bLog2 ioBlocksBulkLog2 physicalBulkIndex offsetInBulk128b : Nat)
    (len : Nat) : DevM σ (Nat × Nat) := do
  let bulkFirstIoBlockIndex := physicalBulkIndex * 2 ^ ioBlocksBulkLog2 % 2 ^ 64
  let ioBlockIndexInBulk := offsetInBulk128b / 2 ^ ioBlockSize128bLog2
  orErr .ioBlockOutOfRange (bulkFirstIoBlockIndex + ioBlockIndexInBulk < 2 ^ 64)
  require .overflow (ioBlockSize128bLog2 < 64)
  let ioBlockSize := 2 ^ ioBlockSize128bLog2 * 2 ^ 7 % 2 ^ 64
  let offsetInIoBlock := offsetInBulk128b % 2 ^ ioBlockSize128bLog2 * 2 ^ 7
  require .debugAssert (len ≤ ioBlockSize * 2 ^ ioBlocksBulkLog2)
  require .debugAssert (len < ioBlockSize ∨ len % ioBlockSize = 0 ∧ offsetInIoBlock = 0)
  pure (bulkFirstIoBlockIndex + ioBlockIndexInBulk, offsetInIoBlock)

variable (ioBlockSize128bLog2 preferredIoBlocksBulkLog2 : Nat)

def writeChunkedIoRegion (getSourceBuffer : ChunkRange → DevM IoBlocks (List Byte))
    (ioRegion : ChunkedIoRegion) (ioBlocksBulkLog2 : Nat) : DevM IoBlocks Unit :=
  match alignedBlocksIter ioRegion (ioBlocksBulkLog2 + ioBlockSize128bLog2) with
  | .error _ => panic .unwrapNone
  | .ok it =>
    forBlocks (fun physicalBulkIndex offsetInBulk128b bulkChunkRange => do
        orErr .ioBlockOutOfRange (ioBlocksBulkLog2 < 64)
        let src ← getSourceBuffer bulkChunkRange
        let (ioBlockIndex, offsetInIoBlock) ← locate ioBlockSize128bLog2 ioBlocksBulkLog2
          physicalBulkIndex offsetInBulk128b src.length
        writeSlice (2 ^ ioBlockSize128bLog2 * 2 ^ 7 % 2 ^ 64) src.length ioBlockIndex
          offsetInIoBlock src)
      (ioRegion.physicalEnd128b - ioRegion.physicalBegin128b + 1) it

def processWriteRequest (region : ChunkedIoRegion)
    (getSourceBuffer : ChunkRange → DevM IoBlocks (List Byte)) : DevM IoBlocks Unit := do
  let (unalignedHead, alignedTail) :=
    alignTo region (preferredIoBlocksBulkLog2 + ioBlockSize128bLog2)
  writeChunkedIoRegion ioBlockSize128bLog2 getSourceBuffer unalignedHead 0
  match alignedTail with
  | none => pure ()
  | some (aligned, unalignedTail) =>
    writeChunkedIoRegion ioBlockSize128bLog2 getSourceBuffer aligned preferredIoBlocksBulkLog2
    writeChunkedIoRegion ioBlockSize128bLog2 getSourceBuffer unalignedTail 0

def readChunkedIoRegion (ioBlocks : IoBlocks)
    (getDestinationBuffer : ChunkRange → DevM (List (List Byte)) (Option DstSlice))
    (ioRegion : ChunkedIoRegion) (ioBlocksBulkLog2 : Nat) : DevM (List (List Byte)) Unit :=
  match alignedBlocksIter ioRegion (ioBlocksBulkLog2 + ioBlockSize128bLog2) with
  | .error _ => panic .unwrapNone
  | .ok it =>
    forBlocks (fun physicalBulkIndex offsetInBulk128b bulkChunkRange => do
        orErr .ioBlockOutOfRange (ioBlocksBulkLog2 < 64)
        match ← getDestinationBuffer bulkChunkRange with
        | none => pure ()
        | some dst =>
          let (ioBlockIndex, offsetInIoBlock) ← locate ioBlockSize128bLog2 ioBlocksBulkLog2
            physicalBulkIndex offsetInBulk128b (dst.sliceEnd - dst.sliceBegin)
          readSlice ioBlocks (2 ^ ioBlockSize128bLog2 * 2 ^ 7 % 2 ^ 64) dst.block
            (dst.sliceEnd - dst.sliceBegin) ioBlockIndex offsetInIoBlock dst.sliceBegin
            (dst.sliceEnd - dst.sliceBegin))
      (ioRegion.physicalEnd128b - ioRegion.physicalBegin128b + 1) it

def processReadRequest (ioBlocks : IoBlocks) (region : ChunkedIoRegion)
    (getDestinationBuffer : ChunkRange → DevM (List (List Byte)) (Option DstSlice)) :
    DevM (List (List Byte)) Unit := do
  let (unalignedHead, alignedTail) :=
    alignTo region (preferredIoBlocksBulkLog2 + ioBlockSize128bLog2)
  readChunkedIoRegion ioBlockSize128bLog2 ioBlocks getDestinationBuffer unalignedHead 0
  match alignedTail with
  | none => pure ()
  | some (aligned, unalignedTail) =>
    readChunkedIoRegion ioBlockSize128bLog2 ioBlocks getDestinationBuffer aligned
      preferredIoBlocksBulkLog2
    readChunkedIoRegion ioBlockSize128bLog2 ioBlocks getDestinationBuffer unalignedTail 0

end CocoonFs.BlkDev
