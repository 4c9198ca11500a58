import CocoonFs.Masks
import CocoonFs.SliceCursors

namespace CocoonFs.FixedBlockKdf

open Codes Multiprecision Patches SliceCursors

/-- The operations of `FixedBlockOutputKdf` on a type of states. A block gets generated into a
buffer given, and comes with the number of its bytes that count. -/
structure FixedBlockOutputKdf (κ : Type) where
  blockLen : κ → Nat
  blockLen_pos : ∀ kdf, 0 < blockLen kdf
  maxRemainingLen : κ → Option Nat
  generateBlock : κ → List Byte → Crypto (List Byte × Nat × κ)
  length_generateBlock : ∀ kdf buf block curBlockLen kdf',
    generateBlock kdf buf = .ok (block, curBlockLen, kdf') → block.length = buf.length

/-- `all_lengths_multiple_of()` -/
def allLengthsMultipleOf (divisor : Nat) (slices : List (List Byte)) : Bool :=
  decide (divisor ≠ 0) && slices.all (·.length % divisor == 0)

variable {κ : Type} (bk : FixedBlockOutputKdf κ)

/-- `copy_within(..len, to)` -/
def copyWithin (buf : List Byte) (len dst : Nat) : List Byte := patch buf dst (buf.take len)

def bufTail (buf : List Byte) (len : Nat) : List Byte := buf.drop (buf.length - len)

def copy (_ : Byte) (b : Byte) : Byte := b

/-- A block that is shorter than the others is moved to the end of the buffer. -/
def moveToTail (blockBuf : List Byte) (curBlockLen blockLen : Nat) : List Byte :=
  if curBlockLen ≠ blockLen then copyWithin blockBuf curBlockLen (blockLen - curBlockLen)
  else blockBuf

/-- Fills the current slice and the ones that follow from the tail of the buffer: what is written
to them, what of them is left over, and how many bytes it took. -/
def drainTail (blockBuf : List Byte) (curBlockLen : Nat) (curOutputSlice : List Byte)
    (output : List (List Byte)) : List Byte × List (List Byte) × Nat :=
  let first := copyFromIter copy [curOutputSlice] [bufTail blockBuf curBlockLen]
  let others := copyFromIter copy output first.2.2
  (first.1 ++ curOutputSlice.drop first.1.length ++ others.1, others.2.1,
    first.1.length + others.1.length)

theorem length_drainTail_le (blockBuf : List Byte) (curBlockLen : Nat)
    (curOutputSlice : List Byte) (output : List (List Byte)) :
    (drainTail blockBuf curBlockLen curOutputSlice output).2.1.flatten.length ≤
      output.flatten.length := by
  rw [drainTail, (copyFromIter_spec _ _ _).2.1, List.length_drop]
  exact Nat.sub_le _ _

/-- The loop of `generate_chunk_impl()`: slices of a block's length are generated into directly,
all others by way of the buffer. -/
def chunkLoop (kdf : κ) (blockLen : { n : Nat // 0 < n }) (blockBuf : List Byte)
    (blockBufRemainingLen : Nat) (output : List (List Byte)) :
    Crypto (List Byte × κ × List Byte × Nat) :=
  match _h : nextSlice (some blockLen.1) output with
  | none => .ok ([], kdf, blockBuf, blockBufRemainingLen)
  | some (curOutputSlice, output') =>
    if curOutputSlice.length = blockLen.1 then do
      let (block, curBlockLen, kdf) ← bk.generateBlock kdf curOutputSlice
      debugAssert (curBlockLen = blockLen.1)
      let (written, rest) ← chunkLoop kdf blockLen blockBuf blockBufRemainingLen output'
      .ok (block ++ written, rest)
    else do
      debugAssert (blockBuf.length = blockLen.1)
      let (blockBuf, curBlockLen, kdf) ← bk.generateBlock kdf blockBuf
      debugAssert (curBlockLen = blockLen.1 ∨
        curOutputSlice.length ≤ curBlockLen ∧ isEmpty output' = true)
      let blockBuf := moveToTail blockBuf curBlockLen blockLen.1
      let drained := drainTail blockBuf curBlockLen curOutputSlice output'
      let (written, rest) ← chunkLoop kdf blockLen blockBuf (curBlockLen - drained.2.2) drained.2.1
      .ok (drained.1 ++ written, rest)
termination_by output.flatten.length
decreasing_by
  all_goals
    have hpos := nextSlice_pos blockLen.2 _h
    rw [flatten_nextSlice _h, List.length_append]
  · omega
  · exact Nat.lt_of_le_of_lt (length_drainTail_le _ _ _ _) (by omega)

/-- The consumed part of the buffer is wiped. Callers may pass an empty one if it won't be
needed. -/
def wipeConsumed (blockBuf : List Byte) (blockLen blockBufRemainingLen : Nat) : List Byte :=
  if blockBuf = [] then blockBuf
  else List.replicate (blockLen - blockBufRemainingLen) 0 ++
    blockBuf.drop (blockLen - blockBufRemainingLen)

def tooBig (kdf : κ) (blockBufRemainingLen : Nat) (output : List (List Byte)) : Bool :=
  match bk.maxRemainingLen kdf with
  | some maxRemainingLen => decide (maxRemainingLen + blockBufRemainingLen < totalLen output)
  | none => false

def generateChunkImpl (kdf : κ) (output : List (List Byte)) (blockBuf : List Byte)
    (blockBufRemainingLen : Nat) : Crypto (List Byte × κ × List Byte × Nat) := do
  failIf (tooBig bk kdf blockBufRemainingLen output = true) .requestTooBig
  let copied := copyFromIter copy output [bufTail blockBuf blockBufRemainingLen]
  let blockBufRemainingLen := blockBufRemainingLen - copied.1.length
  debugAssert (blockBufRemainingLen = 0 ∨ isEmpty copied.2.1 = true)
  let blockLen := bk.blockLen kdf
  let (written, kdf', blockBuf, blockBufRemainingLen) ←
    chunkLoop bk kdf ⟨blockLen, bk.blockLen_pos kdf⟩ blockBuf blockBufRemainingLen copied.2.1
  .ok (copied.1 ++ written, kdf', wipeConsumed blockBuf blockLen blockBufRemainingLen,
    blockBufRemainingLen)

theorem length_moveToTail {blockBuf : List Byte} (curBlockLen : Nat) {blockLen : Nat}
    (h : blockBuf.length = blockLen) :
    (moveToTail blockBuf curBlockLen blockLen).length = blockLen := by
  rw [moveToTail]
  split
  · rw [copyWithin, length_patch, h]
    rw [List.length_take, h]
    omega
  · exact h

theorem length_bufTail (buf : List Byte) (len : Nat) : (bufTail buf len).length = min len buf.length := by
  rw [bufTail, List.length_drop]
  omega

/-- The loop of `generate_and_xor_chunk_impl()`, which always goes by way of the buffer. -/
def xorChunkLoop (kdf : κ) (blockLen : { n : Nat // 0 < n }) (blockBuf : List Byte)
    (blockBufRemainingLen : Nat) (output : List (List Byte)) :
    Crypto (List Byte × κ × List Byte × Nat) :=
  match _hempty : isEmpty output with
  | true => .ok ([], kdf, blockBuf, blockBufRemainingLen)
  | false =>
    if _hbuf : blockBuf.length = blockLen.1 then
      match _hgen : bk.generateBlock kdf blockBuf with
      | .error e => .error e
      | .ok (block, curBlockLen, kdf) =>
        if _hcur : curBlockLen = blockLen.1 ∨ totalLen output ≤ curBlockLen then do
          let blockBuf := moveToTail block curBlockLen blockLen.1
          let xored := copyFromIter (· ^^^ ·) output [bufTail blockBuf curBlockLen]
          let (written, rest) ← xorChunkLoop kdf blockLen blockBuf (curBlockLen - xored.1.length)
            xored.2.1
          .ok (xored.1 ++ written, rest)
        else .error .panic
    else .error .panic
termination_by output.flatten.length
decreasing_by
  have hne : output.flatten.length ≠ 0 := by
    rw [Ne, List.length_eq_zero_iff, ← SliceCursors.isEmpty_iff, _hempty]
    simp
  have hlen := length_moveToTail curBlockLen
    ((bk.length_generateBlock _ _ _ _ _ _hgen).trans _hbuf)
  have hpos := blockLen.2
  rw [totalLen_eq] at _hcur
  rw [(copyFromIter_spec _ _ _).2.1, List.flatten_singleton, List.length_drop, length_bufTail, hlen]
  omega

def generateAndXorChunkImpl (kdf : κ) (output : List (List Byte)) (blockBuf : List Byte)
    (blockBufRemainingLen : Nat) : Crypto (List Byte × κ × List Byte × Nat) := do
  failIf (tooBig bk kdf blockBufRemainingLen output = true) .requestTooBig
  let xored := copyFromIter (· ^^^ ·) output [bufTail blockBuf blockBufRemainingLen]
  let blockBufRemainingLen := blockBufRemainingLen - xored.1.length
  debugAssert (blockBufRemainingLen = 0 ∨ isEmpty xored.2.1 = true)
  let blockLen := bk.blockLen kdf
  let (written, kdf', blockBuf, blockBufRemainingLen) ←
    xorChunkLoop bk kdf ⟨blockLen, bk.blockLen_pos kdf⟩ blockBuf blockBufRemainingLen xored.2.1
  .ok (xored.1 ++ written, kdf', List.replicate (blockLen - blockBufRemainingLen) 0 ++
    blockBuf.drop (blockLen - blockBufRemainingLen), blockBufRemainingLen)

structure BufferedFixedBlockOutputKdf (κ : Type) where
  blockKdf : κ
  blockBuf : List Byte
  blockBufRemainingLen : Nat

namespace BufferedFixedBlockOutputKdf

def new (blockKdf : κ) : BufferedFixedBlockOutputKdf κ :=
  ⟨blockKdf, List.replicate (bk.blockLen blockKdf) 0, 0⟩

def maxRemainingLen (self : BufferedFixedBlockOutputKdf κ) : Option Nat :=
  (bk.maxRemainingLen self.blockKdf).map (· + self.blockBufRemainingLen)

def generateChunk (self : BufferedFixedBlockOutputKdf κ) (output : List (List Byte)) :
    Crypto (List Byte × BufferedFixedBlockOutputKdf κ) := do
  let (written, blockKdf, blockBuf, blockBufRemainingLen) ←
    generateChunkImpl bk self.blockKdf output self.blockBuf self.blockBufRemainingLen
  .ok (written, ⟨blockKdf, blockBuf, blockBufRemainingLen⟩)

def generateAndXorChunk (self : BufferedFixedBlockOutputKdf κ) (output : List (List Byte)) :
    Crypto (List Byte × BufferedFixedBlockOutputKdf κ) := do
  let (written, blockKdf, blockBuf, blockBufRemainingLen) ←
    generateAndXorChunkImpl bk self.blockKdf output self.blockBuf self.blockBufRemainingLen
  .ok (written, ⟨blockKdf, blockBuf, blockBufRemainingLen⟩)

end BufferedFixedBlockOutputKdf

/-- `Kdf::generate()` as the TPM key derivation functions implement it, which need the scratch
buffer only if any of the slices' lengths is not a multiple of the block length. -/
def generate (kdf : κ) (remainingOutputLen : Nat) (output : List (List Byte)) :
    Crypto (List Byte) := do
  failIf (remainingOutputLen < totalLen output) .requestTooBig
  let blockScratchBufLen :=
    if allLengthsMultipleOf (bk.blockLen kdf) output then 0 else bk.blockLen kdf
  let (written, _) ← generateChunkImpl bk kdf output (List.replicate blockScratchBufLen 0) 0
  .ok written

def generateAndXor (kdf : κ) (remainingOutputLen : Nat) (output : List (List Byte)) :
    Crypto (List Byte) := do
  failIf (remainingOutputLen < totalLen output) .requestTooBig
  let (written, _) ← generateAndXorChunkImpl bk kdf output
    (List.replicate (bk.blockLen kdf) 0) 0
  .ok written

inductive Call where
  | chunk (output : List (List Byte))
  | xorChunk (output : List (List Byte))

namespace Call

def output : Call → List (List Byte)
  | chunk output => output
  | xorChunk output => output

/-- A request that is too big is refused before anything has been touched. -/
def exec (self : BufferedFixedBlockOutputKdf κ) (call : Call) :
    Crypto (Option (List Byte) × BufferedFixedBlockOutputKdf κ) :=
  let result := match call with
    | chunk output => self.generateChunk bk output
    | xorChunk output => self.generateAndXorChunk bk output
  match result with
  | .ok (written, self) => .ok (some written, self)
  | .error (.error .requestTooBig) => .ok (none, self)
  | .error e => .error e

end Call

def run (self : BufferedFixedBlockOutputKdf κ) :
    List Call → Crypto (List (Call × Option (List Byte) × BufferedFixedBlockOutputKdf κ))
  | [] => .ok []
  | call :: calls => do
    let (written, self) ← call.exec bk self
    let rest ← run self calls
    .ok ((call, written, self) :: rest)

end CocoonFs.FixedBlockKdf
