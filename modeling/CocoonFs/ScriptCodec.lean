import CocoonFs.ApplyWritesScript
import CocoonFs.BinarySearch
import CocoonFs.IoSlices
import CocoonFs.Layout
import CocoonFs.Leb128Decode

namespace CocoonFs.ScriptCodec

open Checked Codes Extents BinarySearch IoSlices Leb128 Leb128Decode ApplyWritesScript

section Fields

variable (pr : Profile)

def decodeU64 (e : FormatError) (src : List Byte) : Comp (Nat × List Byte) :=
  match leb128uU64Decode src with
  | .ok (v, src) => .ok (v.toNat, src)
  | .error _ => formatErr e

def decodeI64 (e : FormatError) (src : List Byte) : Comp (BitVec 64 × List Byte) :=
  match leb128sI64Decode src with
  | .ok (v, src) => .ok (v, src)
  | .error _ => formatErr e

def shlI64 (v : BitVec 64) (n : Nat) : Comp (BitVec 64) :=
  if n < 64 then .ok (v <<< n)
  else match pr with
    | .debug => Checked.panic .overflow
    | .release => .ok (v <<< (n % 64))

def shrI64 (v : BitVec 64) (n : Nat) : Comp (BitVec 64) :=
  if n < 64 then .ok (v.sshiftRight n)
  else match pr with
    | .debug => Checked.panic .overflow
    | .release => .ok (v.sshiftRight (n % 64))

def toAllocationBlocks (e : FormatError) (blocks log2 : Nat) : Comp Nat := do
  let allocationBlocks ← shlU64 pr blocks log2
  let back ← shrU64 pr allocationBlocks log2
  if back ≠ blocks then formatErr e else pure allocationBlocks

def toAllocationBlocksI64 (e : FormatError) (blocks : BitVec 64) (log2 : Nat) : Comp (BitVec 64) := do
  let allocationBlocks ← shlI64 pr blocks log2
  let back ← shrI64 pr allocationBlocks log2
  if back ≠ blocks then formatErr e else pure allocationBlocks

def checkedAddOr (e : FormatError) (a b : Nat) : Comp Nat :=
  if a + b < 2 ^ 64 then .ok (a + b) else formatErr e

def checkLimit (e : FormatError) (allocationBlockSize128bLog2 allocationBlocksEnd : Nat) : Comp Unit := do
  let limit ← shrU64 pr (2 ^ 64 - 1) (allocationBlockSize128bLog2 + 7)
  if limit < allocationBlocksEnd then formatErr e else pure ()

end Fields

/-- What the scripts differ in: the records of their entries, with what is carried over
from one to the next one, and the number of zeros they are terminated with. -/
structure ScriptFormat (σ ε : Type) where
  start : σ
  recordLen : σ → ε → Comp (Nat × σ)
  encodeRecord : σ → ε → Comp (List Byte × σ)
  decodeRecord : σ → List Byte → Comp (Option (ε × σ) × List Byte)
  fields : Nat
  formatError : FormatError

namespace ScriptFormat

variable {σ ε : Type} (f : ScriptFormat σ ε) (pr : Profile)

def recordsLen : Nat → σ → List ε → Comp Nat
  | encodedLen, _, [] => .ok encodedLen
  | encodedLen, st, entry :: entries => do
    let (len, st) ← f.recordLen st entry
    if encodedLen + len < 2 ^ 64 then recordsLen (encodedLen + len) st entries
    else err .dimensionsNotSupported

def encodedLen (entries : List ε) : Comp Nat := do
  let len ← f.recordsLen 0 f.start entries
  if len + f.fields < 2 ^ 64 then pure (len + f.fields) else err .dimensionsNotSupported

def write (room : Nat) (bytes : List Byte) : Comp Nat :=
  if bytes.length ≤ room then .ok (room - bytes.length) else Checked.panic .indexOutOfBounds

def encodeRecords : Nat → σ → List ε → Comp (List Byte × Nat)
  | room, _, [] => .ok ([], room)
  | room, st, entry :: entries => do
    let (bytes, st) ← f.encodeRecord st entry
    let room ← write room bytes
    let (rest, room) ← encodeRecords room st entries
    pure (bytes ++ rest, room)

def encode (bufLen : Nat) (entries : List ε) : Comp (List Byte × Nat) := do
  match pr with
  | .debug => do
    let len ← f.encodedLen entries
    debugAssert .debug (len ≤ bufLen)
  | .release => pure ()
  let (bytes, room) ← f.encodeRecords bufLen f.start entries
  let room ← write room (List.replicate f.fields 0)
  pure (bytes ++ List.replicate f.fields 0, room)

def decodeBufLen : Nat := 10 * f.fields

/-- The occupied part of the decoding buffer, and the source it's refilled from. -/
structure Source where
  decodeBuf : List Byte
  peekingSrc : List (List Byte)
  remainingSrcLen : Nat
  totalConsumedSrcLen : Nat

/-- Move the remaining bytes of the decoding buffer to the front. -/
def Source.advance (d : Source) (remaining : List Byte) : Source :=
  { d with
    decodeBuf := remaining
    totalConsumedSrcLen := d.totalConsumedSrcLen + (d.decodeBuf.length - remaining.length) }

def refill (d : Source) : Comp Source := do
  debugAssert pr (totalLen d.peekingSrc = d.remainingSrcLen)
  let refillLen := min (f.decodeBufLen - d.decodeBuf.length) d.remainingSrcLen
  let (bytes, src) := copyFromIter refillLen d.peekingSrc
  pure ⟨d.decodeBuf ++ bytes, src, d.remainingSrcLen - refillLen, d.totalConsumedSrcLen⟩

/-- The loop over the records. Each of them takes some bytes. -/
def decodeRecords : Nat → Source → σ → List ε → Comp (List ε × Nat)
  | 0, _, _, _ => Checked.panic .outOfFuel
  | fuel + 1, d, st, script => do
    let d ← f.refill pr d
    if d.decodeBuf.length < f.fields then formatErr f.formatError
    else do
      let (entry, remaining) ← f.decodeRecord st d.decodeBuf
      let d := d.advance remaining
      match entry with
      | none => pure (script, d.totalConsumedSrcLen)
      | some (entry, st) => decodeRecords fuel d st (script ++ [entry])

def decode (src : List (List Byte)) : Comp (List ε × List (List Byte)) := do
  let (script, consumed) ← f.decodeRecords pr (totalLen src + 1) ⟨[], src, totalLen src, 0⟩ f.start []
  match skip consumed src with
  | some src => pure (script, src)
  | none => err .internal

end ScriptFormat

section RangeScripts

variable (pr : Profile) (log2 allocationBlockSize128bLog2 : Nat)

/-- The delta to the previous entry's end and the length, in units of blocks. -/
def rangeFields (lastEnd : Nat) (targetRange : BlockRange) : Comp (BitVec 64 × BitVec 64) := do
  let delta ← checkedSub targetRange.b lastEnd
  let delta ← shrU64 pr delta log2
  let count ← targetRange.blockCount
  let count ← shrU64 pr count log2
  pure (BitVec.ofNat 64 delta, BitVec.ofNat 64 count)

def decodeRange (format entry : FormatError) (lastEnd : Nat) (src : List Byte) :
    Comp (Option (BlockRange × Nat) × List Byte) := do
  let (delta, src) ← decodeU64 format src
  let (count, src) ← decodeU64 format src
  if delta = 0 ∧ count = 0 then pure (none, src)
  else if count = 0 then formatErr entry
  else do
    let delta ← toAllocationBlocks pr entry delta log2
    let b ← checkedAddOr entry lastEnd delta
    let count ← toAllocationBlocks pr entry count log2
    let e ← checkedAddOr entry b count
    checkLimit pr entry allocationBlockSize128bLog2 e
    let targetRange ← BlockRange.new pr b e
    pure (some (targetRange, e), src)

def rangeScript (format entry : FormatError) : ScriptFormat Nat BlockRange where
  start := 0
  recordLen lastEnd targetRange := do
    let (delta, count) ← rangeFields pr log2 lastEnd targetRange
    pure (leb128uU64EncodedLen delta + leb128uU64EncodedLen count, targetRange.e)
  encodeRecord lastEnd targetRange := do
    let (delta, count) ← rangeFields pr log2 lastEnd targetRange
    pure (leb128uU64Encode delta ++ leb128uU64Encode count, targetRange.e)
  decodeRecord := decodeRange pr log2 allocationBlockSize128bLog2 format entry
  fields := 2
  formatError := format

def journalUpdateAuthDigestsScript : ScriptFormat Nat BlockRange :=
  rangeScript pr log2 allocationBlockSize128bLog2 .invalidJournalUpdateAuthDigestsScriptFormat
    .invalidJournalUpdateAuthDigestsScriptEntry

def journalTrimsScript : ScriptFormat Nat BlockRange :=
  rangeScript pr log2 allocationBlockSize128bLog2 .invalidJournalTrimsScriptFormat
    .invalidJournalTrimsScriptEntry

end RangeScripts

section ApplyWrites

variable (pr : Profile) (log2 allocationBlockSize128bLog2 : Nat)

/-- The staging copy's delta is a difference with wraparound, shifted arithmetically. -/
def applyWritesFields (last : Nat × Nat) (entry : ApplyWritesScriptEntry) :
    Comp ((BitVec 64 × BitVec 64 × BitVec 64) × Nat × Nat) := do
  let (delta, count) ← rangeFields pr log2 last.1 entry.targetRange
  let staging := BitVec.ofNat 64 entry.journalStagingCopyAllocationBlocksBegin - BitVec.ofNat 64 last.2
  let staging ← shrI64 pr staging log2
  let blockCount ← entry.targetRange.blockCount
  let stagingEnd ← checkedAdd entry.journalStagingCopyAllocationBlocksBegin blockCount
  pure ((delta, staging, count), entry.targetRange.e, stagingEnd)

def decodeApplyWrites (last : Nat × Nat) (src : List Byte) :
    Comp (Option (ApplyWritesScriptEntry × Nat × Nat) × List Byte) := do
  let (delta, src) ← decodeU64 .invalidJournalApplyWritesScriptFormat src
  let (staging, src) ← decodeI64 .invalidJournalApplyWritesScriptFormat src
  let (count, src) ← decodeU64 .invalidJournalApplyWritesScriptFormat src
  if delta = 0 ∧ staging = 0 ∧ count = 0 then pure (none, src)
  else if count = 0 then formatErr .invalidJournalApplyWritesScriptEntry
  else do
    let delta ← toAllocationBlocks pr .invalidJournalApplyWritesScriptFormat delta log2
    let b ← checkedAddOr .invalidJournalApplyWritesScriptEntry last.1 delta
    let staging ← toAllocationBlocksI64 pr .invalidJournalApplyWritesScriptFormat staging log2
    let stagingBegin := (BitVec.ofNat 64 last.2 + staging).toNat
    let count ← toAllocationBlocks pr .invalidJournalApplyWritesScriptFormat count log2
    let e ← checkedAddOr .invalidJournalApplyWritesScriptEntry b count
    checkLimit pr .invalidJournalApplyWritesScriptFormat allocationBlockSize128bLog2 e
    let stagingEnd ← checkedAddOr .invalidJournalApplyWritesScriptEntry stagingBegin count
    checkLimit pr .invalidJournalApplyWritesScriptFormat allocationBlockSize128bLog2 stagingEnd
    let targetRange ← BlockRange.new pr b e
    pure (some (⟨targetRange, stagingBegin⟩, e, stagingEnd), src)

def journalApplyWritesScript : ScriptFormat (Nat × Nat) ApplyWritesScriptEntry where
  start := (0, 0)
  recordLen last entry := do
    let ((delta, staging, count), last) ← applyWritesFields pr log2 last entry
    pure (leb128uU64EncodedLen delta + leb128sI64EncodedLen staging + leb128uU64EncodedLen count, last)
  encodeRecord last entry := do
    let ((delta, staging, count), last) ← applyWritesFields pr log2 last entry
    pure (leb128uU64Encode delta ++ leb128sI64Encode staging ++ leb128uU64Encode count, last)
  decodeRecord := decodeApplyWrites pr log2 allocationBlockSize128bLog2
  fields := 3
  formatError := .invalidJournalApplyWritesScriptFormat

/-- JournalApplyWritesScript::lookup() -/
def lookup (script : List ApplyWritesScriptEntry) (targetAllocationBlockIndex : Nat) : Except Nat Nat :=
  binarySearchBy (fun entry =>
    if entry.targetRange.e ≤ targetAllocationBlockIndex then .lt
    else if entry.targetRange.b ≤ targetAllocationBlockIndex then .eq else .gt) script

end ApplyWrites

end CocoonFs.ScriptCodec
