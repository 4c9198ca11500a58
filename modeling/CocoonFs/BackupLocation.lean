import CocoonFs.BitmapFile

namespace CocoonFs.BackupLocation

open Checked Extents Layout Codes Nat
open Nat (pow_le_pow_right two_pow_pos)

def checksumLen : Nat := 8

def extentIntegrityProtectionsLen (ioBlockAllocationBlocksLog2 allocationBlockSize128bLog2 : Nat) :
    Nat :=
  checksumLen + 1 + (ioBlockAllocationBlocksLog2 + allocationBlockSize128bLog2) * checksumLen

/-- The magic, the format version, the layout, the length of the auxiliary
metadata, the image size and the salt's length. -/
def minMkFsInfoHeaderEncodedLen : Nat := 8 + 1 + ImageLayout.encodedLen + 8 + 8 + 1

def encodedLen (ioBlockAllocationBlocksLog2 allocationBlockSize128bLog2 : Nat) (saltLen : Byte) :
    Nat :=
  minMkFsInfoHeaderEncodedLen +
    extentIntegrityProtectionsLen ioBlockAllocationBlocksLog2 allocationBlockSize128bLog2 +
    saltLen.toNat

/-- The distance to the next multiple is the negated value's low bits. -/
def roundUpPow2Unchecked (pr : Profile) (value pow2Log2 : Nat) : Comp Nat := do
  debugAssert pr (pow2Log2 < 64)
  addU64 pr value ((2 ^ 64 - value) % 2 ^ 64 % 2 ^ pow2Log2)

def ioBlockAlignedEncodedLenAllocationBlocks (pr : Profile)
    (ioBlockAllocationBlocksLog2 allocationBlockSize128bLog2 : Nat) (saltLen : Byte) :
    Comp Nat := do
  let aligned ← roundUpPow2Unchecked pr
    (encodedLen ioBlockAllocationBlocksLog2 allocationBlockSize128bLog2 saltLen)
    (ioBlockAllocationBlocksLog2 + allocationBlockSize128bLog2 + 7)
  shrU64 pr aligned (allocationBlockSize128bLog2 + 7)

/-- The begin of the last block of the largest alignment such that the device
has at least 16 blocks of it, and the alignment. -/
def physicalBackupLocationBegin128b (pr : Profile) (blkdevIoBlocks blkdevIoBlockSize128bLog2 : Nat) :
    Comp (Nat × Nat) :=
  if 64 - 7 ≤ blkdevIoBlockSize128bLog2 then err .ioErrorRegionOutOfRange
  else do
    let blkdevSize128b ← shlU64 pr blkdevIoBlocks blkdevIoBlockSize128bLog2
    let back ← shrU64 pr blkdevSize128b blkdevIoBlockSize128bLog2
    if blkdevSize128b = 0 ∨ back ≠ blkdevIoBlocks then formatErr .invalidImageSize
    else if Nat.log2 blkdevSize128b < 4 + 2 then formatErr .invalidImageSize
    else do
      let alignment128bLog2 := Nat.log2 blkdevSize128b - 4
      let blocks ← shrU64 pr blkdevSize128b alignment128bLog2
      let last ← subU64 pr blocks 1
      let begin128b ← shlU64 pr last alignment128bLog2
      debugAssert pr (begin128b < blkdevSize128b)
      debugAssert pr (4 ≤ blkdevSize128b - begin128b)
      debugAssert pr (blkdevSize128b - divCeil blkdevSize128b 8 ≤ begin128b)
      pure (begin128b, alignment128bLog2)

def physicalBackupLocationBlkdevIoBlocksBegin (pr : Profile)
    (blkdevIoBlocks blkdevIoBlockSize128bLog2 : Nat) : Comp Nat := do
  let (begin128b, alignment128bLog2) ←
    physicalBackupLocationBegin128b pr blkdevIoBlocks blkdevIoBlockSize128bLog2
  if alignment128bLog2 < blkdevIoBlockSize128bLog2 then formatErr .invalidImageSize
  else do
    debugAssert pr (begin128b % 2 ^ blkdevIoBlockSize128bLog2 = 0)
    shrU64 pr begin128b blkdevIoBlockSize128bLog2

def physicalBackupLocation (pr : Profile)
    (ioBlockAllocationBlocksLog2 allocationBlockSize128bLog2 : Nat) (saltLen : Byte)
    (blkdevIoBlocks blkdevIoBlockSize128bLog2 : Nat) : Comp BlockRange := do
  let (begin128b, alignment128bLog2) ←
    physicalBackupLocationBegin128b pr blkdevIoBlocks blkdevIoBlockSize128bLog2
  if alignment128bLog2 < ioBlockAllocationBlocksLog2 + allocationBlockSize128bLog2 then
    formatErr .invalidImageSize
  else do
    debugAssert pr
      (begin128b % 2 ^ (ioBlockAllocationBlocksLog2 + allocationBlockSize128bLog2) = 0)
    let b ← shrU64 pr begin128b allocationBlockSize128bLog2
    let count ← ioBlockAlignedEncodedLenAllocationBlocks pr ioBlockAllocationBlocksLog2
      allocationBlockSize128bLog2 saltLen
    PhysicalExtents.unpackEntry (b, count)

/-- The conversion of a header's position on the device once its layout and
salt length have been decoded. The saturating difference is taken from the
wrong number. -/
def mkFsInfoHeaderLocation (pr : Profile) (l : ImageLayout) (saltLen : Byte)
    (blkdevIoBlockSize128bLog2 blkdevIoBlocksBegin : Nat) : Comp BlockRange :=
  let ioBlockAllocationBlocksLog2 := l.ioBlockAllocationBlocksLog2.toNat
  let allocationBlockSize128bLog2 := l.allocationBlockSize128bLog2.toNat
  if ioBlockAllocationBlocksLog2 + allocationBlockSize128bLog2 < blkdevIoBlockSize128bLog2 then
    formatErr .ioBlockSizeNotSupportedByDevice
  else
    let ioBlockBlkdevIoBlocksLog2 :=
      ioBlockAllocationBlocksLog2 + allocationBlockSize128bLog2 - blkdevIoBlockSize128bLog2
    if blkdevIoBlocksBegin ≠ 0 ∧ (blkdevIoBlocksBegin % 2 ^ ioBlockBlkdevIoBlocksLog2 ≠ 0 ∨
        blkdevIoBlocksBegin / 2 ^ ioBlockBlkdevIoBlocksLog2 < 15) then
      formatErr .inconsistentBackupMkFsInfoHeader
    else do
      let blkdevIoBlockAllocationBlocksLog2 :=
        blkdevIoBlockSize128bLog2 - allocationBlockSize128bLog2
      let allocationBlockBlkdevIoBlocksLog2 :=
        allocationBlockSize128bLog2 - blkdevIoBlockAllocationBlocksLog2
      let shifted ← shlU64 pr blkdevIoBlocksBegin blkdevIoBlockAllocationBlocksLog2
      let b ← shrU64 pr shifted allocationBlockBlkdevIoBlocksLog2
      let count ← ioBlockAlignedEncodedLenAllocationBlocks pr ioBlockAllocationBlocksLog2
        allocationBlockSize128bLog2 saltLen
      let maxAllocationBlocks ← shrU64 pr (2 ^ 64 - 1) (allocationBlockSize128bLog2 + 7)
      let remaining ← subU64 pr maxAllocationBlocks b
      if remaining < count then formatErr .inconsistentBackupMkFsInfoHeader
      else PhysicalExtents.unpackEntry (b, count)

/-- The backup header's location when an image is opened. The device's size is
capped to what a 64 bit number of bytes can tell. -/
def readBackupLocation (pr : Profile) (l : ImageLayout) (saltLen : Byte)
    (blkdevIoBlocks blkdevIoBlockSize128bLog2 : Nat) : Comp BlockRange := do
  let maxBlkdevIoBlocks ← shrU64 pr (2 ^ 64 - 1) (blkdevIoBlockSize128bLog2 + 7)
  match physicalBackupLocationBlkdevIoBlocksBegin pr (min blkdevIoBlocks maxBlkdevIoBlocks)
      blkdevIoBlockSize128bLog2 with
  | .error (.err _) => formatErr .invalidImageHeader
  | .error (.panic p) => Checked.panic p
  | .ok b => mkFsInfoHeaderLocation pr l saltLen blkdevIoBlockSize128bLog2 b

/-- The backup header's location when a filesystem is created on a device that
has not been resized. -/
def writeBackupLocation (pr : Profile) (l : ImageLayout) (saltLen : Byte)
    (blkdevIoBlocks blkdevIoBlockSize128bLog2 : Nat) : Comp BlockRange :=
  physicalBackupLocation pr l.ioBlockAllocationBlocksLog2.toNat l.allocationBlockSize128bLog2.toNat
    saltLen blkdevIoBlocks blkdevIoBlockSize128bLog2

/-- The reader derives the location that the header has been written to. -/
def FindsBackup (pr : Profile) (l : ImageLayout) (saltLen : Byte)
    (blkdevIoBlocks blkdevIoBlockSize128bLog2 : Nat) : Prop :=
  ∃ r w, readBackupLocation pr l saltLen blkdevIoBlocks blkdevIoBlockSize128bLog2 = .ok r ∧
    writeBackupLocation pr l saltLen blkdevIoBlocks blkdevIoBlockSize128bLog2 = .ok w ∧ r.b = w.b

def alignment (size128b : Nat) : Nat := Nat.log2 size128b - 4

def lastBlock (size128b : Nat) : Nat :=
  (size128b / 2 ^ alignment size128b - 1) * 2 ^ alignment size128b

section LastBlock

variable {size128b : Nat}

theorem size_bounds (h : 6 ≤ Nat.log2 size128b) :
    16 * 2 ^ alignment size128b ≤ size128b ∧ size128b < 32 * 2 ^ alignment size128b := by
  have hne : size128b ≠ 0 := by
    rintro rfl
    simp at h
  have hlog : Nat.log2 size128b = alignment size128b + 4 := by
    rw [alignment]
    omega
  have hle := log2_self_le hne
  have hlt := lt_log2_self (n := size128b)
  rw [hlog] at hle hlt
  rw [pow_add] at hle
  rw [pow_add, pow_add] at hlt
  omega

theorem blocks_bounds (h : 6 ≤ Nat.log2 size128b) :
    16 ≤ size128b / 2 ^ alignment size128b ∧ size128b / 2 ^ alignment size128b < 32 := by
  obtain ⟨hle, hlt⟩ := size_bounds h
  exact ⟨(Nat.le_div_iff_mul_le (two_pow_pos _)).mpr hle,
    (Nat.div_lt_iff_lt_mul (two_pow_pos _)).mpr hlt⟩

/-- A whole aligned block fits between the last block's begin and the end of
the device, but two of them do not. -/
theorem lastBlock_bounds (h : 6 ≤ Nat.log2 size128b) :
    15 * 2 ^ alignment size128b ≤ lastBlock size128b ∧
      lastBlock size128b + 2 ^ alignment size128b ≤ size128b ∧
      size128b < lastBlock size128b + 2 * 2 ^ alignment size128b := by
  obtain ⟨hle, -⟩ := blocks_bounds h
  have hdiv := div_add_mod' size128b (2 ^ alignment size128b)
  have hsub : lastBlock size128b + 2 ^ alignment size128b =
      size128b / 2 ^ alignment size128b * 2 ^ alignment size128b := by
    rw [lastBlock, Nat.sub_mul, one_mul]
    exact Nat.sub_add_cancel (Nat.le_mul_of_pos_left _ (by omega))
  have hmul : 16 * 2 ^ alignment size128b ≤
      size128b / 2 ^ alignment size128b * 2 ^ alignment size128b := Nat.mul_le_mul_right _ hle
  omega

theorem dvd_lastBlock {n : Nat} (hn : n ≤ alignment size128b) : 2 ^ n ∣ lastBlock size128b :=
  Dvd.dvd.mul_left (pow_dvd_pow 2 hn) _

theorem four_le_alignment (h : 6 ≤ Nat.log2 size128b) : 4 ≤ 2 ^ alignment size128b := by
  have : 2 ≤ alignment size128b := by
    rw [alignment]
    omega
  exact pow_le_pow_right (n := 2) (i := 2) (by decide) this

end LastBlock

section Specs

variable (pr : Profile) {n d : Nat}

theorem begin128b_ok (hd : d < 57) (hsize : n * 2 ^ d < 2 ^ 64) (hlog : 6 ≤ Nat.log2 (n * 2 ^ d)) :
    physicalBackupLocationBegin128b pr n d =
      .ok (lastBlock (n * 2 ^ d), alignment (n * 2 ^ d)) := by
  have hpos : n * 2 ^ d ≠ 0 := by
    intro h
    simp [h] at hlog
  obtain ⟨hblocks, -⟩ := blocks_bounds hlog
  obtain ⟨-, hfits, hlast⟩ := lastBlock_bounds hlog
  obtain ⟨hle, -⟩ := size_bounds hlog
  have hfour := four_le_alignment hlog
  have halign : alignment (n * 2 ^ d) < 64 := by
    have := (Nat.log2_lt hpos).mpr hsize
    rw [alignment]
    omega
  have hceil : n * 2 ^ d ≤ 8 * divCeil (n * 2 ^ d) 8 := (divCeil_le_iff (by decide)).mp le_rfl
  have hlt : lastBlock (n * 2 ^ d) < n * 2 ^ d := by omega
  rw [physicalBackupLocationBegin128b, if_neg (by omega), shlU64_ok pr (by omega) hsize, ok_bind,
    shrU64_ok pr (by omega), ok_bind, Nat.mul_div_cancel _ (two_pow_pos d),
    if_neg (by simp [hpos]), if_neg (by omega)]
  change (shrU64 pr (n * 2 ^ d) (alignment (n * 2 ^ d)) >>= _) = _
  rw [shrU64_ok pr halign, ok_bind, subU64_ok pr (by omega), ok_bind]
  change (shlU64 pr _ (alignment (n * 2 ^ d)) >>= _) = _
  rw [shlU64_ok pr halign (hlt.trans hsize), ok_bind]
  change (debugAssert pr (lastBlock (n * 2 ^ d) < n * 2 ^ d) >>= _) = _
  rw [debugAssert_ok pr hlt, ok_bind, debugAssert_ok pr, ok_bind, debugAssert_ok pr]
  · rfl
  · change n * 2 ^ d - divCeil (n * 2 ^ d) 8 ≤ lastBlock (n * 2 ^ d)
    omega
  · change 4 ≤ n * 2 ^ d - lastBlock (n * 2 ^ d)
    omega

theorem size_of_begin128b {p : Nat × Nat} (h : physicalBackupLocationBegin128b pr n d = .ok p) :
    d < 57 ∧ n * 2 ^ d < 2 ^ 64 ∧ 6 ≤ Nat.log2 (n * 2 ^ d) ∧
      p = (lastBlock (n * 2 ^ d), alignment (n * 2 ^ d)) := by
  obtain ⟨hd, h'⟩ := of_ite_err h
  have hshl : shlU64 pr n d = .ok (n * 2 ^ d % 2 ^ 64) := if_pos (by omega)
  rw [hshl, ok_bind, shrU64_ok pr (by omega), ok_bind] at h'
  obtain ⟨hsize, h'⟩ := of_ite_err h'
  obtain ⟨hlog, -⟩ := of_ite_err h'
  have hback : n * 2 ^ d % 2 ^ 64 / 2 ^ d = n := by
    by_contra hne
    exact hsize (Or.inr hne)
  have hlt : n * 2 ^ d < 2 ^ 64 := by
    calc n * 2 ^ d = n * 2 ^ d % 2 ^ 64 / 2 ^ d * 2 ^ d := by rw [hback]
      _ ≤ n * 2 ^ d % 2 ^ 64 := div_mul_le_self _ _
      _ < 2 ^ 64 := mod_lt _ (by decide)
  rw [mod_eq_of_lt hlt] at hlog
  have hok := begin128b_ok pr (by omega) hlt (by omega)
  rw [hok] at h
  exact ⟨by omega, hlt, by omega, (Except.ok.inj h).symm⟩

theorem blkdevIoBlocksBegin_ok (hd : d < 57) (hsize : n * 2 ^ d < 2 ^ 64)
    (hlog : 6 ≤ Nat.log2 (n * 2 ^ d)) (halign : d ≤ alignment (n * 2 ^ d)) :
    physicalBackupLocationBlkdevIoBlocksBegin pr n d = .ok (lastBlock (n * 2 ^ d) / 2 ^ d) := by
  rw [physicalBackupLocationBlkdevIoBlocksBegin, begin128b_ok pr hd hsize hlog, ok_bind]
  change (if alignment (n * 2 ^ d) < d then _ else _) = _
  rw [if_neg (by omega), debugAssert_ok pr (mod_eq_zero_of_dvd (dvd_lastBlock halign)), ok_bind,
    shrU64_ok pr (by omega)]

variable {io a : Nat} (saltLen : Byte)

theorem encodedLen_le (hk : 2 ≤ io + a) : encodedLen io a saltLen ≤ 2 ^ (io + a + 7) := by
  obtain ⟨m, hm⟩ := Nat.exists_eq_add_of_le hk
  have hlt : m < 2 ^ m := Nat.lt_two_pow_self
  have hpow : 2 ^ (io + a + 7) = 512 * 2 ^ m := by
    rw [hm, show 2 + m + 7 = 9 + m by omega, Nat.pow_add]
  rw [hpow, encodedLen, minMkFsInfoHeaderEncodedLen, extentIntegrityProtectionsLen,
    ImageLayout.encodedLen, checksumLen, hm]
  omega

theorem roundUpPow2Unchecked_ok {v p : Nat} (hp : p < 64) (hv : 0 < v) (hle : v ≤ 2 ^ 63) :
    ∃ m, roundUpPow2Unchecked pr v p = .ok (m * 2 ^ p) ∧ v ≤ m * 2 ^ p ∧ m * 2 ^ p < v + 2 ^ p := by
  have hpow : (2 : Nat) ^ p ∣ 2 ^ 64 := pow_dvd_pow 2 hp.le
  have hple : (2 : Nat) ^ p ≤ 2 ^ 63 := pow_le_pow_right (by decide) (by omega)
  have hdvd : 2 ^ p ∣ v + (2 ^ 64 - v) % 2 ^ p := by
    apply dvd_of_mod_eq_zero
    rw [add_mod_mod, Nat.add_sub_cancel' (by omega)]
    exact mod_eq_zero_of_dvd hpow
  obtain ⟨m, hm⟩ := hdvd
  refine ⟨m, ?_, ?_, ?_⟩
  · rw [roundUpPow2Unchecked, debugAssert_ok pr hp, ok_bind,
      mod_eq_of_lt (a := 2 ^ 64 - v) (by omega), addU64_ok pr (by omega), hm, mul_comm]
  · rw [mul_comm, ← hm]
    omega
  · rw [mul_comm, ← hm]
    omega

theorem alignedLen_ok (hk : io + a + 7 < 64) :
    ∃ count, ioBlockAlignedEncodedLenAllocationBlocks pr io a saltLen = .ok count ∧
      2 ^ (io + a) ≤ count * 2 ^ a ∧ count * 2 ^ a ≤ max 4 (2 ^ (io + a)) := by
  have hlen : encodedLen io a saltLen = 56 + (io + a) * 8 + saltLen.toNat := by
    simp only [encodedLen, minMkFsInfoHeaderEncodedLen, extentIntegrityProtectionsLen,
      ImageLayout.encodedLen, checksumLen]
    omega
  obtain ⟨m, hm, hle, hlt⟩ := roundUpPow2Unchecked_ok pr (v := encodedLen io a saltLen) hk
    (by omega) (by omega)
  have hcount : m * 2 ^ (io + a + 7) / 2 ^ (a + 7) = m * 2 ^ io := by
    rw [show io + a + 7 = io + (a + 7) by omega, Nat.pow_add, ← Nat.mul_assoc]
    exact Nat.mul_div_cancel _ (two_pow_pos _)
  have hunits : m * 2 ^ io * 2 ^ a = m * 2 ^ (io + a) := by rw [Nat.mul_assoc, ← Nat.pow_add]
  have hbytes : m * 2 ^ (io + a + 7) = m * 2 ^ (io + a) * 128 := by
    rw [Nat.pow_add _ (io + a) 7, ← Nat.mul_assoc]
  have hpos : 0 < m := by
    rcases Nat.eq_zero_or_pos m with rfl | hpos
    · omega
    · exact hpos
  refine ⟨m * 2 ^ io, ?_, ?_, ?_⟩
  · rw [ioBlockAlignedEncodedLenAllocationBlocks, hm, ok_bind, shrU64_ok pr (by omega), hcount]
  · rw [hunits]
    exact Nat.le_mul_of_pos_left _ hpos
  · rw [hunits]
    by_cases hsmall : io + a < 2
    · have : io + a = 0 ∨ io + a = 1 := by omega
      rcases this with h | h
      · rw [h] at hbytes hlt hlen ⊢
        omega
      · rw [h] at hbytes hlt hlen ⊢
        omega
    · have hone := encodedLen_le saltLen (not_lt.mp hsmall)
      have : m * 2 ^ (io + a + 7) < 2 * 2 ^ (io + a + 7) := by omega
      have hm1 : m = 1 := by
        have := Nat.lt_of_mul_lt_mul_right this
        omega
      rw [hm1, one_mul]
      exact le_max_right _ _

end Specs

def excessShift (a d : Nat) : Nat := if d ≤ a then d else 2 * a - d

theorem shifts_excess {x a d : Nat} (hx : 2 ^ d ∣ x) :
    x / 2 ^ d * 2 ^ (d - a) / 2 ^ (a - (d - a)) = x / 2 ^ a / 2 ^ excessShift a d := by
  rw [excessShift]
  by_cases h : d ≤ a
  · rw [if_pos h, Nat.sub_eq_zero_of_le h, pow_zero, mul_one, Nat.sub_zero,
      Nat.div_div_eq_div_mul, Nat.div_div_eq_div_mul, mul_comm]
  · obtain ⟨y, rfl⟩ := hx
    have hpow : 2 ^ d * y = y * 2 ^ (d - a) * 2 ^ a := by
      rw [mul_assoc, ← pow_add, Nat.sub_add_cancel (by omega), mul_comm]
    rw [if_neg h, Nat.mul_div_cancel_left _ (two_pow_pos d), hpow,
      Nat.mul_div_cancel _ (two_pow_pos a), show a - (d - a) = 2 * a - d by omega]

section Layouts

variable (pr : Profile) {l : ImageLayout} (saltLen : Byte) {n d : Nat}

theorem sizes_of_new (h : l.new = .ok l) :
    l.ioBlockAllocationBlocksLog2.toNat + l.allocationBlockSize128bLog2.toNat + 7 < 64 ∧
      l.ioBlockAllocationBlocksLog2.toNat ≤ 6 := by
  obtain ⟨-, h⟩ := of_ite_err h
  obtain ⟨hsize, h⟩ := of_ite_err h
  obtain ⟨hword, -⟩ := of_ite_err h
  refine ⟨by omega, ?_⟩
  by_contra hlt
  have hpow : 2 ^ 7 ≤ 2 ^ l.ioBlockAllocationBlocksLog2.toNat :=
    pow_le_pow_right (by decide) (not_le.mp hlt)
  omega

variable {r w : BlockRange}

theorem begin_of_header {begins : Nat}
    (h : mkFsInfoHeaderLocation pr l saltLen d begins = .ok r) (hd : d < 64)
    (ha : l.allocationBlockSize128bLog2.toNat < 64) :
    r.b = begins * 2 ^ (d - l.allocationBlockSize128bLog2.toNat) % 2 ^ 64 /
      2 ^ (l.allocationBlockSize128bLog2.toNat - (d - l.allocationBlockSize128bLog2.toNat)) ∧
    ∃ count maxBlocks remaining,
      ioBlockAlignedEncodedLenAllocationBlocks pr l.ioBlockAllocationBlocksLog2.toNat
        l.allocationBlockSize128bLog2.toNat saltLen = .ok count ∧
      shrU64 pr (2 ^ 64 - 1) (l.allocationBlockSize128bLog2.toNat + 7) = .ok maxBlocks ∧
      subU64 pr maxBlocks r.b = .ok remaining ∧ count ≤ remaining := by
  obtain ⟨-, h⟩ := of_ite_err h
  obtain ⟨-, h⟩ := of_ite_err h
  have hshl : shlU64 pr begins (d - l.allocationBlockSize128bLog2.toNat) =
      .ok (begins * 2 ^ (d - l.allocationBlockSize128bLog2.toNat) % 2 ^ 64) := if_pos (by omega)
  dsimp only at h
  rw [hshl, ok_bind, shrU64_ok pr (by omega), ok_bind] at h
  obtain ⟨count, hcount, h⟩ := bind_eq_ok h
  obtain ⟨maxBlocks, hmax, h⟩ := bind_eq_ok h
  obtain ⟨remaining, hsub, h⟩ := bind_eq_ok h
  obtain ⟨hle, h⟩ := of_ite_err h
  obtain ⟨e, -, h⟩ := bind_eq_ok h
  cases h
  exact ⟨rfl, count, maxBlocks, remaining, hcount, hmax, hsub, not_lt.mp hle⟩

theorem maxBlocks_eq (d : Nat) : (2 ^ 64 - 1) / 2 ^ (d + 7) = (2 ^ 57 - 1) / 2 ^ d := by
  rw [add_comm, pow_add, ← Nat.div_div_eq_div_mul]
  rfl

theorem end_le_max {a size128b count : Nat} (hlog : 6 ≤ Nat.log2 size128b)
    (hsize : size128b < 2 ^ 57) (hcount : count * 2 ^ a ≤ 2 ^ alignment size128b) :
    lastBlock size128b / 2 ^ a + count ≤ (2 ^ 64 - 1) / 2 ^ (a + 7) := by
  obtain ⟨-, hfits, -⟩ := lastBlock_bounds hlog
  rw [maxBlocks_eq, Nat.le_div_iff_mul_le (two_pow_pos a), add_mul]
  have := div_mul_le_self (lastBlock size128b) (2 ^ a)
  omega

theorem header_ok {size128b : Nat} (h : l.new = .ok l)
    (hd : d ≤ l.ioBlockAllocationBlocksLog2.toNat + l.allocationBlockSize128bLog2.toNat)
    (hlog : 6 ≤ Nat.log2 size128b) (hsize : size128b < 2 ^ 57)
    (halign : l.ioBlockAllocationBlocksLog2.toNat + l.allocationBlockSize128bLog2.toNat ≤
      alignment size128b) :
    ∃ r, mkFsInfoHeaderLocation pr l saltLen d (lastBlock size128b / 2 ^ d) = .ok r ∧
      r.b = lastBlock size128b / 2 ^ l.allocationBlockSize128bLog2.toNat /
        2 ^ excessShift l.allocationBlockSize128bLog2.toNat d := by
  obtain ⟨hk, -⟩ := sizes_of_new h
  revert hd halign hk
  set io := l.ioBlockAllocationBlocksLog2.toNat with hio
  set a := l.allocationBlockSize128bLog2.toNat with ha
  intro hd halign hk
  obtain ⟨hmin, hfits, -⟩ := lastBlock_bounds hlog
  obtain ⟨count, hlen, -, hcount⟩ := alignedLen_ok pr saltLen hk
  have hcount : count * 2 ^ a ≤ 2 ^ alignment size128b :=
    hcount.trans (max_le (four_le_alignment hlog) (pow_le_pow_right (by decide) halign))
  have hmax := end_le_max hlog hsize hcount
  have hdvd : 2 ^ d ∣ lastBlock size128b := dvd_lastBlock (hd.trans halign)
  obtain ⟨q, hq⟩ : 2 ^ (io + a) ∣ lastBlock size128b := dvd_lastBlock halign
  have hq15 : 15 ≤ q := by
    have : 15 * 2 ^ (io + a) ≤ q * 2 ^ (io + a) := by
      calc 15 * 2 ^ (io + a) ≤ 15 * 2 ^ alignment size128b :=
            Nat.mul_le_mul_left _ (pow_le_pow_right (by decide) halign)
        _ ≤ q * 2 ^ (io + a) := by rw [mul_comm q, ← hq]; exact hmin
    exact Nat.le_of_mul_le_mul_right this (two_pow_pos _)
  have hdev : lastBlock size128b / 2 ^ d = 2 ^ (io + a - d) * q := by
    rw [hq]
    conv_lhs => rw [← Nat.sub_add_cancel hd, pow_add, mul_comm _ (2 ^ d), mul_assoc]
    exact Nat.mul_div_cancel_left _ (two_pow_pos d)
  have hshl : lastBlock size128b / 2 ^ d * 2 ^ (d - a) < 2 ^ 64 := by
    calc lastBlock size128b / 2 ^ d * 2 ^ (d - a) ≤ lastBlock size128b / 2 ^ d * 2 ^ d :=
          Nat.mul_le_mul_left _ (pow_le_pow_right (by decide) (sub_le d a))
      _ ≤ lastBlock size128b := div_mul_le_self _ _
      _ < 2 ^ 64 := by omega
  have hb := shifts_excess (a := a) hdvd
  have hle : lastBlock size128b / 2 ^ a / 2 ^ excessShift a d ≤ lastBlock size128b / 2 ^ a :=
    Nat.div_le_self _ _
  have hmax64 : (2 ^ 64 - 1) / 2 ^ (a + 7) ≤ 2 ^ 64 - 1 := Nat.div_le_self _ _
  refine ⟨⟨_, lastBlock size128b / 2 ^ a / 2 ^ excessShift a d + count⟩, ?_, rfl⟩
  rw [mkFsInfoHeaderLocation]
  dsimp only
  rw [← hio, ← ha, if_neg (not_lt.mpr hd), if_neg, shlU64_ok pr (by omega) hshl, ok_bind,
    shrU64_ok pr (by omega), ok_bind, hb, hlen, ok_bind, shrU64_ok pr (by omega), ok_bind,
    subU64_ok pr (by omega), ok_bind, if_neg (by omega), PhysicalExtents.unpackEntry,
    checkedAdd_ok (by dsimp only; omega)]
  · rfl
  · rintro ⟨-, hmod | hlt⟩
    · exact hmod (by rw [hdev]; exact mul_mod_right _ _)
    · rw [hdev, Nat.mul_div_cancel_left _ (two_pow_pos _)] at hlt
      omega

theorem location_of_write (h : writeBackupLocation pr l saltLen n d = .ok w)
    (ha : l.allocationBlockSize128bLog2.toNat < 64) :
    d < 57 ∧ n * 2 ^ d < 2 ^ 64 ∧ 6 ≤ Nat.log2 (n * 2 ^ d) ∧
      l.ioBlockAllocationBlocksLog2.toNat + l.allocationBlockSize128bLog2.toNat ≤
        alignment (n * 2 ^ d) ∧
      w.b = lastBlock (n * 2 ^ d) / 2 ^ l.allocationBlockSize128bLog2.toNat := by
  obtain ⟨p, hp, h⟩ := bind_eq_ok h
  obtain ⟨hd, hsize, hlog, rfl⟩ := size_of_begin128b pr hp
  obtain ⟨halign, h⟩ := of_ite_err h
  obtain ⟨_, -, h⟩ := bind_eq_ok h
  rw [shrU64_ok pr ha, ok_bind] at h
  obtain ⟨count, -, h⟩ := bind_eq_ok h
  obtain ⟨e, -, h⟩ := bind_eq_ok h
  cases h
  exact ⟨hd, hsize, hlog, not_lt.mp halign, rfl⟩

/-- The device's size as far as the reader takes it into account. -/
def cappedSize (n d : Nat) : Nat := min n ((2 ^ 64 - 1) / 2 ^ (d + 7)) * 2 ^ d

theorem cappedSize_of_lt (h : n * 2 ^ d < 2 ^ 57) : cappedSize n d = n * 2 ^ d := by
  rw [cappedSize, min_eq_left]
  rw [maxBlocks_eq, Nat.le_div_iff_mul_le (two_pow_pos d)]
  omega

theorem cappedSize_of_le (hd : d < 57) (h : 2 ^ 57 ≤ n * 2 ^ d) :
    cappedSize n d = 2 ^ 57 - 2 ^ d := by
  have hpow : (2 : Nat) ^ 57 = 2 ^ (57 - d) * 2 ^ d := by
    rw [← pow_add, Nat.sub_add_cancel hd.le]
  have hpos := two_pow_pos d
  have hmax : (2 ^ 57 - 1) / 2 ^ d = 2 ^ (57 - d) - 1 := by
    apply Nat.div_eq_of_lt_le
    · rw [Nat.sub_mul, ← hpow]
      omega
    · rw [Nat.sub_add_cancel (two_pow_pos _), ← hpow]
      omega
  rw [cappedSize, maxBlocks_eq, hmax, min_eq_right, Nat.sub_mul, ← hpow, one_mul]
  rw [hpow] at h
  have := Nat.le_of_mul_le_mul_right h hpos
  omega

theorem cappedSize_lt (hd : d < 57) : cappedSize n d < 2 ^ 57 := by
  by_cases h : n * 2 ^ d < 2 ^ 57
  · rw [cappedSize_of_lt h]
    exact h
  · rw [cappedSize_of_le hd (not_lt.mp h)]
    have := two_pow_pos d
    omega

theorem read_eq (hd : d < 57) (hlog : 6 ≤ Nat.log2 (cappedSize n d))
    (halign : d ≤ alignment (cappedSize n d)) :
    readBackupLocation pr l saltLen n d =
      mkFsInfoHeaderLocation pr l saltLen d (lastBlock (cappedSize n d) / 2 ^ d) := by
  have hsize := cappedSize_lt (n := n) hd
  rw [readBackupLocation, shrU64_ok pr (by omega), ok_bind,
    blkdevIoBlocksBegin_ok pr hd (hsize.trans (by decide)) hlog halign]
  rfl

theorem header_of_read (hd : d < 57) (h : readBackupLocation pr l saltLen n d = .ok r) :
    6 ≤ Nat.log2 (cappedSize n d) ∧ d ≤ alignment (cappedSize n d) := by
  rw [readBackupLocation, shrU64_ok pr (by omega), ok_bind] at h
  rcases hb : physicalBackupLocationBlkdevIoBlocksBegin pr
      (min n ((2 ^ 64 - 1) / 2 ^ (d + 7))) d with e | b
  · rw [hb] at h
    cases e <;> cases h
  · obtain ⟨p, hp, hb⟩ := bind_eq_ok hb
    obtain ⟨-, -, hlog, rfl⟩ := size_of_begin128b pr hp
    obtain ⟨halign, -⟩ := of_ite_err hb
    exact ⟨hlog, not_lt.mp halign⟩

theorem excessShift_eq_zero_iff {a d : Nat} : excessShift a d = 0 ↔ d = 0 ∨ 2 * a ≤ d := by
  rw [excessShift]
  split <;> omega

theorem div_pow_eq_self_iff {x s : Nat} (hx : 0 < x) : x / 2 ^ s = x ↔ s = 0 := by
  constructor
  · intro h
    by_contra hs
    have := Nat.div_lt_self hx (Nat.one_lt_two_pow hs)
    omega
  · rintro rfl
    simp

theorem finds_iff_of_lt (h : l.new = .ok l)
    (hd : d ≤ l.ioBlockAllocationBlocksLog2.toNat + l.allocationBlockSize128bLog2.toNat)
    (hw : writeBackupLocation pr l saltLen n d = .ok w) (hsize : n * 2 ^ d < 2 ^ 57) :
    FindsBackup pr l saltLen n d ↔ d = 0 ∨ 2 * l.allocationBlockSize128bLog2.toNat ≤ d := by
  obtain ⟨hk, -⟩ := sizes_of_new h
  obtain ⟨hd57, -, hlog, halign, hwb⟩ := location_of_write pr saltLen hw (by omega)
  obtain ⟨hmin, -⟩ := lastBlock_bounds hlog
  have hcap := cappedSize_of_lt hsize
  have hread := read_eq pr (l := l) saltLen hd57 (n := n) (by rw [hcap]; exact hlog)
    (by rw [hcap]; exact hd.trans halign)
  rw [hcap] at hread
  obtain ⟨r, hr, hrb⟩ := header_ok pr saltLen h hd hlog hsize halign
  have hpos : 0 < lastBlock (n * 2 ^ d) / 2 ^ l.allocationBlockSize128bLog2.toNat := by
    apply Nat.div_pos _ (two_pow_pos _)
    calc 2 ^ l.allocationBlockSize128bLog2.toNat ≤ 2 ^ alignment (n * 2 ^ d) :=
          pow_le_pow_right (by decide) (by omega)
      _ ≤ lastBlock (n * 2 ^ d) := by omega
  rw [← excessShift_eq_zero_iff, ← div_pow_eq_self_iff hpos, ← hrb, ← hwb]
  constructor
  · rintro ⟨r', w', hr', hw', heq⟩
    rw [hread, hr] at hr'
    rw [hw] at hw'
    cases hr'
    cases hw'
    exact heq
  · intro heq
    exact ⟨r, w, hread.trans hr, hw, heq⟩

theorem lastBlock_capped_le (hd : d < 57) (hlog : 6 ≤ Nat.log2 (cappedSize n d)) :
    lastBlock (cappedSize n d) ≤ 30 * 2 ^ 52 := by
  have hlt := cappedSize_lt (n := n) hd
  obtain ⟨-, hblocks⟩ := blocks_bounds hlog
  have hal : alignment (cappedSize n d) ≤ 52 := by
    have hne : cappedSize n d ≠ 0 := by
      intro h0
      simp [h0] at hlog
    have := (Nat.log2_lt hne).mpr hlt
    rw [alignment]
    omega
  calc lastBlock (cappedSize n d) ≤ 30 * 2 ^ alignment (cappedSize n d) :=
        Nat.mul_le_mul_right _ (by omega)
    _ ≤ 30 * 2 ^ 52 := Nat.mul_le_mul_left _ (pow_le_pow_right (by decide) hal)

/-- A device whose size in bytes does not fit 64 bits is larger for the writer
than for the reader. -/
theorem lastBlock_large {size128b : Nat} (hle : 2 ^ 57 ≤ size128b) :
    30 * 2 ^ 52 ≤ lastBlock size128b ∧ (2 ^ 57 + 2 ^ 53 ≤ size128b → 2 ^ 57 ≤ lastBlock size128b) := by
  have hlog : 57 ≤ Nat.log2 size128b := (le_log2 (by omega)).mpr hle
  have hlog6 : 6 ≤ Nat.log2 size128b := by omega
  obtain ⟨hmin, hfits, hlast⟩ := lastBlock_bounds hlog6
  have hpow : 2 ^ 53 ≤ 2 ^ alignment size128b :=
    pow_le_pow_right (by decide) (by rw [alignment]; omega)
  refine ⟨by omega, ?_⟩
  intro hbig
  by_cases h57 : Nat.log2 size128b = 57
  · have hal : alignment size128b = 53 := by rw [alignment, h57]
    rw [lastBlock, hal]
    have : 17 ≤ size128b / 2 ^ 53 := (Nat.le_div_iff_mul_le (by decide)).mpr (by omega)
    omega
  · have hpow : 2 ^ 54 ≤ 2 ^ alignment size128b :=
      pow_le_pow_right (by decide) (by rw [alignment]; omega)
    omega

theorem begin_of_read (hd : d < 57)
    (hk : l.ioBlockAllocationBlocksLog2.toNat + l.allocationBlockSize128bLog2.toNat + 7 < 64)
    (h : readBackupLocation pr l saltLen n d = .ok r) :
    lastBlock (cappedSize n d) ≤ 30 * 2 ^ 52 ∧
    r.b = lastBlock (cappedSize n d) / 2 ^ l.allocationBlockSize128bLog2.toNat /
      2 ^ excessShift l.allocationBlockSize128bLog2.toNat d ∧
    (r.b + 2 ^ l.ioBlockAllocationBlocksLog2.toNat) * 2 ^ l.allocationBlockSize128bLog2.toNat <
      2 ^ 57 := by
  obtain ⟨hlog, halign⟩ := header_of_read pr saltLen hd h
  rw [read_eq pr saltLen hd hlog halign] at h
  obtain ⟨hb, count, maxBlocks, remaining, hcount, hmax, hsub, hle⟩ :=
    begin_of_header pr saltLen h (by omega) (by omega)
  have hx := lastBlock_capped_le hd hlog
  have hshl : lastBlock (cappedSize n d) / 2 ^ d * 2 ^ (d - l.allocationBlockSize128bLog2.toNat) ≤
      lastBlock (cappedSize n d) :=
    calc _ ≤ lastBlock (cappedSize n d) / 2 ^ d * 2 ^ d :=
          Nat.mul_le_mul_left _ (pow_le_pow_right (by decide) (sub_le _ _))
      _ ≤ lastBlock (cappedSize n d) := div_mul_le_self _ _
  rw [mod_eq_of_lt (by omega), shifts_excess (dvd_lastBlock halign)] at hb
  refine ⟨hx, hb, ?_⟩
  obtain ⟨count', hlen, hlower, -⟩ := alignedLen_ok pr saltLen hk
  obtain rfl : count' = count := Except.ok.inj (hlen.symm.trans hcount)
  rw [shrU64_ok pr (by omega), maxBlocks_eq] at hmax
  cases hmax
  -- The reader's position is below the maximum, so that the difference is exact.
  have hrb : r.b ≤ (2 ^ 57 - 1) / 2 ^ l.allocationBlockSize128bLog2.toNat := by
    rw [hb]
    exact (Nat.div_le_self _ _).trans (Nat.div_le_div_right (by omega))
  rw [subU64_ok pr hrb] at hsub
  cases hsub
  have hend : (r.b + count') * 2 ^ l.allocationBlockSize128bLog2.toNat ≤ 2 ^ 57 - 1 := by
    apply (Nat.le_div_iff_mul_le (two_pow_pos _)).mp
    omega
  rw [add_mul] at hend ⊢
  rw [pow_add] at hlower
  omega

theorem finds_iff_of_le (h : l.new = .ok l)
    (hd : d ≤ l.ioBlockAllocationBlocksLog2.toNat + l.allocationBlockSize128bLog2.toNat)
    (hw : writeBackupLocation pr l saltLen n d = .ok w) (hsize : 2 ^ 57 ≤ n * 2 ^ d) :
    FindsBackup pr l saltLen n d ↔ (d = 0 ∨ 2 * l.allocationBlockSize128bLog2.toNat ≤ d) ∧
      n * 2 ^ d < 2 ^ 57 + 2 ^ 53 ∧
      l.ioBlockAllocationBlocksLog2.toNat + l.allocationBlockSize128bLog2.toNat ≤ 52 := by
  obtain ⟨hk, -⟩ := sizes_of_new h
  obtain ⟨hd57, -, hlog, halign, hwb⟩ := location_of_write pr saltLen hw (by omega)
  obtain ⟨hmin, hbig⟩ := lastBlock_large hsize
  have hdvd : 2 ^ l.allocationBlockSize128bLog2.toNat ∣ lastBlock (n * 2 ^ d) :=
    dvd_lastBlock (by omega)
  constructor
  · rintro ⟨r, w', hr, hw', heq⟩
    rw [hw] at hw'
    cases hw'
    obtain ⟨hcap, hrb, hend⟩ := begin_of_read pr saltLen hd57 hk hr
    have hback := Nat.div_mul_cancel hdvd
    have hle : lastBlock (n * 2 ^ d) ≤ lastBlock (cappedSize n d) := by
      rw [← hback, ← hwb, ← heq, hrb]
      calc _ ≤ lastBlock (cappedSize n d) / 2 ^ l.allocationBlockSize128bLog2.toNat *
            2 ^ l.allocationBlockSize128bLog2.toNat := Nat.mul_le_mul_right _ (Nat.div_le_self _ _)
        _ ≤ _ := div_mul_le_self _ _
    have hsame : lastBlock (cappedSize n d) = lastBlock (n * 2 ^ d) := by omega
    have hpos : 0 < lastBlock (n * 2 ^ d) / 2 ^ l.allocationBlockSize128bLog2.toNat := by
      apply pos_of_ne_zero
      intro h0
      rw [h0] at hback
      omega
    refine ⟨?_, ?_, ?_⟩
    · rw [hsame] at hrb
      rw [← excessShift_eq_zero_iff, ← div_pow_eq_self_iff hpos, ← hrb, heq, hwb]
    · by_contra hge
      have := hbig (not_lt.mp hge)
      omega
    · rw [heq, hwb, add_mul, hback, ← pow_add] at hend
      by_contra hgt
      have : 2 ^ 53 ≤ 2 ^ (l.ioBlockAllocationBlocksLog2.toNat +
        l.allocationBlockSize128bLog2.toNat) := pow_le_pow_right (by decide) (not_le.mp hgt)
      omega
  · rintro ⟨hshift, hlt, h52⟩
    have hcap := cappedSize_of_le hd57 hsize
    have hpos := two_pow_pos d
    have hpow : 2 ^ d ≤ 2 ^ 52 := pow_le_pow_right (by decide) (hd.trans h52)
    have hlog' : Nat.log2 (cappedSize n d) = 56 := by
      rw [hcap, log2_eq_iff (by omega)]
      omega
    have hal : alignment (cappedSize n d) = 52 := by rw [alignment, hlog']
    have hlast : lastBlock (cappedSize n d) = 30 * 2 ^ 52 := by
      have : cappedSize n d / 2 ^ 52 = 31 := by
        rw [hcap]
        apply Nat.div_eq_of_lt_le
        · omega
        · omega
      rw [lastBlock, hal, this]
    have hwlast : lastBlock (n * 2 ^ d) = 30 * 2 ^ 52 := by
      have hlog57 : Nat.log2 (n * 2 ^ d) = 57 := by
        rw [log2_eq_iff (by omega)]
        omega
      have hal57 : alignment (n * 2 ^ d) = 53 := by rw [alignment, hlog57]
      have : n * 2 ^ d / 2 ^ 53 = 16 := by
        apply Nat.div_eq_of_lt_le
        · omega
        · omega
      rw [lastBlock, hal57, this]
      decide
    have hlog6 : 6 ≤ Nat.log2 (cappedSize n d) := by omega
    obtain ⟨r, hr, hrb⟩ := header_ok pr saltLen h hd hlog6 (cappedSize_lt hd57)
      (by rw [hal]; exact h52)
    refine ⟨r, w, (read_eq pr saltLen hd57 hlog6 (by omega)).trans hr, hw, ?_⟩
    rw [hrb, hwb, hlast, hwlast, excessShift_eq_zero_iff.mpr hshift, pow_zero, Nat.div_one]

/-- The reader finds the backup header if its conversion does not shift too
much, and if both sides see the same device size. -/
theorem findsBackup_iff (h : l.new = .ok l)
    (hd : d ≤ l.ioBlockAllocationBlocksLog2.toNat + l.allocationBlockSize128bLog2.toNat)
    (hw : writeBackupLocation pr l saltLen n d = .ok w) :
    FindsBackup pr l saltLen n d ↔
      (d = 0 ∨ 2 * l.allocationBlockSize128bLog2.toNat ≤ d) ∧
      (n * 2 ^ d < 2 ^ 57 ∨ n * 2 ^ d < 2 ^ 57 + 2 ^ 53 ∧
        l.ioBlockAllocationBlocksLog2.toNat + l.allocationBlockSize128bLog2.toNat ≤ 52) := by
  by_cases hsize : n * 2 ^ d < 2 ^ 57
  · rw [finds_iff_of_lt pr saltLen h hd hw hsize]
    tauto
  · rw [finds_iff_of_le pr saltLen h hd hw (not_lt.mp hsize)]
    tauto

end Layouts

/-- Allocation Blocks and device sectors of 512 bytes each, IO Blocks of 4096 bytes. -/
def sectorLayout : ImageLayout :=
  ⟨2, 3, 0, 3, 0, 0, 0, .sha256, .sha256, .sha256, .sha256, .sha256, .aes128⟩

/-- On a device of a million sectors, the backup is written to Allocation Block
983040 and looked for at Allocation Block 245760. -/
theorem sectorLayout_not_findsBackup :
    sectorLayout.new = .ok sectorLayout ∧
    writeBackupLocation .release sectorLayout 32 1048576 2 = .ok ⟨983040, 983048⟩ ∧
    readBackupLocation .release sectorLayout 32 1048576 2 = .ok ⟨245760, 245768⟩ ∧
    ¬ FindsBackup .release sectorLayout 32 1048576 2 := by
  have hw : writeBackupLocation .release sectorLayout 32 1048576 2 = .ok ⟨983040, 983048⟩ := by
    decide +kernel
  have hr : readBackupLocation .release sectorLayout 32 1048576 2 = .ok ⟨245760, 245768⟩ := by
    decide +kernel
  refine ⟨by decide, hw, hr, ?_⟩
  rintro ⟨r, w, hr', hw', heq⟩
  cases hr'
  cases hw'
  revert heq
  decide

theorem sectorLayout_findsBackup_smallBlocks :
    writeBackupLocation .debug sectorLayout 32 4194304 0 = .ok ⟨983040, 983048⟩ ∧
    FindsBackup .debug sectorLayout 32 4194304 0 := by
  have hw : writeBackupLocation .debug sectorLayout 32 4194304 0 = .ok ⟨983040, 983048⟩ := by
    decide +kernel
  exact ⟨hw, (findsBackup_iff .debug 32 (by decide) (by decide) hw).mpr (by decide)⟩

end CocoonFs.BackupLocation
