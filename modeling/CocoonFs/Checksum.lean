import CocoonFs.Crc32

namespace CocoonFs.Checksum

open Checked Crc32
open List (append_assoc flatMap_cons flatMap_nil foldl_append take_append_drop)

structure ChecksumInstance where
  crc : BitVec 32
  crcSnb : BitVec 32
  deriving DecidableEq, Repr

/-- A slice, with how it's been split up in each of the passes over it. -/
structure Slice where
  bytes : List Byte
  split : AlignTo bytes
  splitSnb : AlignTo bytes

def ChecksumInstance.new : ChecksumInstance := ⟨crc32leInit, crc32leInit⟩

def ChecksumInstance.update (e : Endian) (self : ChecksumInstance) (data : Slice) : ChecksumInstance :=
  ⟨crc32leUpdateData e self.crc data.split, crc32leUpdateDataSnb e self.crcSnb data.splitSnb⟩

def ChecksumInstance.finishSend (self : ChecksumInstance) : List Byte :=
  leBytes 4 (crc32leFinishSend self.crc) ++ leBytes 4 (crc32leFinishSend self.crcSnb)

/-- `copy_from_slice()` into a `[u8; 4]` -/
def wordFromSlice (slice : List Byte) : Comp (Vector Byte 4) :=
  if h : slice.length = 4 then pure ⟨slice.toArray, h⟩ else panic .indexOutOfBounds

def ChecksumInstance.finishReceive (pr : Profile) (self : ChecksumInstance) (expectedChecksum : List Byte) :
    Comp Bool := do
  debugAssert pr (expectedChecksum.length = 8)
  let expectedCrc ← wordFromSlice (expectedChecksum.take 4)
  let expectedCrcSnb ← wordFromSlice (expectedChecksum.drop 4)
  pure (crc32leFinishReceive self.crc (fromLeBytes expectedCrc) &&
    crc32leFinishReceive self.crcSnb (fromLeBytes expectedCrcSnb))

theorem wordFromSlice_leBytes (v : BitVec 32) :
    wordFromSlice (leBytes 4 v) = .ok ⟨(leBytes 4 v).toArray, rfl⟩ :=
  dif_pos rfl

theorem leBytes_of_wordFromSlice {slice : List Byte} {word : Vector Byte 4}
    (h : wordFromSlice slice = .ok word) : leBytes 4 (fromLeBytes word) = slice := by
  rw [wordFromSlice] at h
  split at h
  · cases h
    exact leBytes_fromLeBytes _
  · cases h

theorem finishReceive_finishSend (pr : Profile) (self sender : ChecksumInstance) :
    self.finishReceive pr sender.finishSend =
      .ok (crc32leFinishReceive self.crc (crc32leFinishSend sender.crc) &&
        crc32leFinishReceive self.crcSnb (crc32leFinishSend sender.crcSnb)) := by
  have hlen : sender.finishSend.length = 8 := rfl
  have htake : sender.finishSend.take 4 = leBytes 4 (crc32leFinishSend sender.crc) := rfl
  have hdrop : sender.finishSend.drop 4 = leBytes 4 (crc32leFinishSend sender.crcSnb) := rfl
  rw [ChecksumInstance.finishReceive, debugAssert_ok pr hlen, ok_bind, htake, wordFromSlice_leBytes, ok_bind,
    hdrop, wordFromSlice_leBytes, ok_bind, fromLeBytes_leBytes, fromLeBytes_leBytes]
  rfl

theorem finishReceive_iff (pr : Profile) (self : ChecksumInstance) (received : List Byte) :
    self.finishReceive pr received = .ok true ↔ received = self.finishSend := by
  constructor
  · intro h
    obtain ⟨_, -, h⟩ := bind_eq_ok h
    obtain ⟨word, hword, h⟩ := bind_eq_ok h
    obtain ⟨wordSnb, hwordSnb, h⟩ := bind_eq_ok h
    obtain ⟨hcrc, hcrcSnb⟩ := Bool.and_eq_true_iff.mp (Except.ok.inj h)
    rw [crc32leFinishReceive, beq_iff_eq] at hcrc hcrcSnb
    rw [ChecksumInstance.finishSend, hcrc, hcrcSnb, leBytes_of_wordFromSlice hword,
      leBytes_of_wordFromSlice hwordSnb, take_append_drop]
  · rintro rfl
    rw [finishReceive_finishSend, crc32leFinishReceive, crc32leFinishReceive, beq_self_eq_true,
      beq_self_eq_true, Bool.and_self]

variable {self : ChecksumInstance} {data : List Byte}

section Run

/-- What's been passed to `update()` altogether. -/
def checksummed (slices : List Slice) : List Byte := slices.flatMap Slice.bytes

def ChecksumInstance.After (self : ChecksumInstance) (data : List Byte) : Prop :=
  self.crc = (dataBits data).foldl bitStep crc32leInit ∧
    self.crcSnb = (swapNeighbours (dataBits data)).foldl bitStep crc32leInit

theorem After.update (h : self.After data) (e : Endian)
    (slice : Slice) : (self.update e slice).After (data ++ slice.bytes) := by
  obtain ⟨hcrc, hcrcSnb⟩ := h
  rw [← foldl_updateU8] at hcrc
  rw [← foldl_updateU8Snb] at hcrcSnb
  constructor
  · rw [← foldl_updateU8, foldl_append, ← hcrc]
    exact updateData_eq e crc32leUpdateU32le_eq self.crc slice.split
  · rw [← foldl_updateU8Snb, foldl_append, ← hcrcSnb]
    exact updateData_eq e crc32leUpdateU32leSnb_eq self.crcSnb slice.splitSnb

theorem After.updates (h : self.After data) (e : Endian) (slices : List Slice) :
    (slices.foldl (ChecksumInstance.update e) self).After (data ++ checksummed slices) := by
  induction slices generalizing self data with
  | nil => rwa [checksummed, flatMap_nil, List.append_nil]
  | cons slice slices ih =>
    rw [checksummed, flatMap_cons, ← append_assoc]
    exact ih (After.update h e slice)

end Run

/-- The checksum of the data in any slices, how the words update the registers, and which checksum
is accepted. -/
theorem checksum_reference (e : Endian) (slices : List Slice) :
    (slices.foldl (ChecksumInstance.update e) .new).finishSend =
      leBytes 4 (crcOf (dataBits (checksummed slices))) ++
        leBytes 4 (crcOf (swapNeighbours (dataBits (checksummed slices)))) ∧
    (∀ crc v, crc32leUpdateU32le crc v = (leBytes 4 v).foldl crc32leUpdateU8 crc ∧
      crc32leUpdateU32leSnb crc v = (leBytes 4 v).foldl crc32leUpdateU8Snb crc) ∧
    (∀ crc v, crc32leUpdateU64le crc v = (leBytes 8 v).foldl crc32leUpdateU8 crc ∧
      crc32leUpdateU64leSnb crc v = (leBytes 8 v).foldl crc32leUpdateU8Snb crc) ∧
    ∀ pr received, (slices.foldl (ChecksumInstance.update e) .new).finishReceive pr received = .ok true ↔
      received = (slices.foldl (ChecksumInstance.update e) .new).finishSend := by
  have hnew : ChecksumInstance.new.After [] := ⟨rfl, rfl⟩
  obtain ⟨hcrc, hcrcSnb⟩ := After.updates hnew e slices
  refine ⟨?_, fun crc v => ⟨crc32leUpdateU32le_eq crc v, crc32leUpdateU32leSnb_eq crc v⟩,
    fun crc v => ⟨crc32leUpdateU64le_eq crc v, crc32leUpdateU64leSnb_eq crc v⟩,
    fun pr received => finishReceive_iff pr _ received⟩
  rw [ChecksumInstance.finishSend, hcrc, hcrcSnb]
  rfl

/-- The polynomial's terms of degree 0 and 32 make a shift invertible. -/
theorem shift_injective : Function.Injective shift := by
  intro x y h
  have hlow : x.getLsbD 0 = y.getLsbD 0 := by
    have hmsb : ∀ z : BitVec 32, (shift z).getLsbD 31 = z.getLsbD 0 := by
      intro z
      rw [shift, BitVec.getLsbD_xor, BitVec.getLsbD_ushiftRight, BitVec.getLsbD_of_ge z _ (by decide)]
      cases z.getLsbD 0 <;> rfl
    rw [← hmsb x, h, hmsb y]
  rw [shift, shift, hlow, BitVec.xor_left_inj] at h
  apply BitVec.eq_of_getLsbD_eq
  intro i hi
  cases i with
  | zero => exact hlow
  | succ i =>
    have hbit := congrArg (BitVec.getLsbD · i) h
    simpa [BitVec.getLsbD_ushiftRight, Nat.add_comm] using hbit

theorem foldl_bitStep_injective (bits : List Bool) :
    Function.Injective fun crc => bits.foldl bitStep crc := by
  induction bits with
  | nil => exact fun _ _ h => h
  | cons b bits ih => exact fun x y h => (BitVec.xor_left_inj _).mp (shift_injective (ih h))

/-- Up to 32 bits are a number that gets added to the register. -/
theorem foldl_bitStep_short {bits : List Bool} (h : bits.length ≤ 32) :
    ∃ v : BitVec 32, (∀ i (hi : i < bits.length), v.getLsbD i = bits[i]) ∧
      ∀ crc, bits.foldl bitStep crc = shifts bits.length (crc ^^^ v) := by
  let v := (BitVec.ofBoolListLE bits).setWidth 32
  have hget : ∀ i (hi : i < bits.length), v.getLsbD i = bits[i] := by
    intro i hi
    simp [v, BitVec.getLsbD_setWidth, Nat.lt_of_lt_of_le hi h, hi, -BitVec.getLsbD_eq_getElem]
  have hbits : bitsOf bits.length v = bits := by
    apply List.ext_getElem
    · simp [bitsOf]
    · intro i _ hi
      simp [bitsOf, hget i hi]
  have hhigh : v >>> bits.length = 0#32 := by
    apply BitVec.eq_of_getLsbD_eq
    intro i _
    simp [v, BitVec.getLsbD_ushiftRight, BitVec.getLsbD_setWidth]
  refine ⟨v, hget, fun crc => ?_⟩
  rw [shifts_bits, hbits, hhigh, BitVec.xor_zero]

theorem shifts_injective (n : Nat) : Function.Injective (shifts n) := by
  induction n with
  | zero => exact fun _ _ h => h
  | succ n ih => exact fun x y h => ih (shift_injective h)

/-- Bits of the same number that aren't all the same leave different registers. -/
theorem foldl_bitStep_ne {burst burst' : List Bool} (hlen : burst'.length = burst.length)
    (hburst : burst.length ≤ 32) (hne : burst' ≠ burst) (crc : BitVec 32) :
    burst'.foldl bitStep crc ≠ burst.foldl bitStep crc := by
  obtain ⟨v, hv, hfold⟩ := foldl_bitStep_short hburst
  obtain ⟨v', hv', hfold'⟩ := foldl_bitStep_short (hlen ▸ hburst)
  intro h
  rw [hfold, hfold', hlen] at h
  obtain rfl := (BitVec.xor_right_inj _).mp (shifts_injective _ h)
  refine hne (List.ext_getElem hlen fun i hi hi' => ?_)
  rw [← hv' i hi, hv i hi']

/-- Whatever the data goes through update() in, an error burst of up to 32 bits in it is always
found. -/
theorem burst_found (e e' : Endian) (pr : Profile) {sent received : List Slice}
    {front burst burst' rear : List Bool}
    (hsent : dataBits (checksummed sent) = front ++ burst ++ rear)
    (hreceived : dataBits (checksummed received) = front ++ burst' ++ rear)
    (hlen : burst'.length = burst.length) (hburst : burst.length ≤ 32) (hne : burst' ≠ burst) :
    (received.foldl (ChecksumInstance.update e') .new).finishReceive pr
      (sent.foldl (ChecksumInstance.update e) .new).finishSend = .ok false := by
  have hnew : ChecksumInstance.new.After [] := ⟨rfl, rfl⟩
  obtain ⟨hcrc, -⟩ := After.updates hnew e sent
  obtain ⟨hcrc', -⟩ := After.updates hnew e' received
  rw [List.nil_append, hsent, foldl_append, foldl_append] at hcrc
  rw [List.nil_append, hreceived, foldl_append, foldl_append] at hcrc'
  have hcrcs : (received.foldl (ChecksumInstance.update e') .new).crc ≠
      (sent.foldl (ChecksumInstance.update e) .new).crc := by
    rw [hcrc, hcrc']
    exact fun h => foldl_bitStep_ne hlen hburst hne _ (foldl_bitStep_injective rear h)
  rw [finishReceive_finishSend, crc32leFinishReceive, crc32leFinishSend, crc32leFinishSend,
    beq_eq_false_iff_ne.mpr (fun h => hcrcs (BitVec.not_inj.mp h)), Bool.false_and]

def unsplit (bytes : List Byte) : Slice where
  bytes := bytes
  split := ⟨bytes, [], [], by simp⟩
  splitSnb := ⟨bytes, [], [], by simp⟩

theorem burst_found_digit :
    ([unsplit [0x20, 0x3a]].foldl (ChecksumInstance.update .big) .new).finishReceive .debug
      ([unsplit [0x20], unsplit [0x30]].foldl (ChecksumInstance.update .little) .new).finishSend =
      .ok false :=
  burst_found .little .big .debug
    (show _ = bitsOf 8 (0x20 : Byte) ++ bitsOf 8 (0x30 : Byte) ++ [] from rfl)
    (show _ = bitsOf 8 (0x20 : Byte) ++ bitsOf 8 (0x3a : Byte) ++ [] from rfl) rfl (by decide) (by decide)

end CocoonFs.Checksum
