import CocoonFs.Extents
import CocoonFs.Layout
import Mathlib.Data.Nat.Size
import Mathlib.Tactic.Ring

namespace CocoonFs.BitmapFile

open Checked Extents Layout Nat
open Nat (div_lt_iff_lt_mul size two_pow_pos)

def bitmapWordBitsLog2 : Nat := 6

/-- The base-2 logarithm of the number of bitmap words of the largest image. -/
def maxBitmapWordsIndexLog2 : Nat := 64 - bitmapWordBitsLog2 - 7

def blockLen : SymBlockCipherAlg → Nat
  | .aes128 | .aes192 | .aes256 => 16
  | .camellia128 | .camellia192 | .camellia256 => 16
  | .sm4128 => 16

structure EncryptedBlockLayout where
  blockCipherAlg : SymBlockCipherAlg
  blockAllocationBlocksLog2 : Nat
  allocationBlockSize128bLog2 : Nat
  deriving DecidableEq, Repr

def allocationBlocksToLen (pr : Profile) (allocationBlocks allocationBlockSize128bLog2 : Nat) :
    Comp Nat := do
  let len ← shlU64 pr allocationBlocks (allocationBlockSize128bLog2 + 7)
  let back ← shrU64 pr len (allocationBlockSize128bLog2 + 7)
  if back ≠ allocationBlocks then err .dimensionsNotSupported else pure len

def alignLenDownToBlockCipherAlgBlockLen (len blockCipherAlgBlockLen : Nat) : Nat :=
  len - len % blockCipherAlgBlockLen

def EncryptedBlockLayout.effectivePayloadLen (pr : Profile) (l : EncryptedBlockLayout) :
    Comp Nat := do
  let blocks ← shlU64 pr 1 l.blockAllocationBlocksLog2
  let len ← allocationBlocksToLen pr blocks l.allocationBlockSize128bLog2
  let len ← subU64 pr len (blockLen l.blockCipherAlg)
  pure (alignLenDownToBlockCipherAlgBlockLen len (blockLen l.blockCipherAlg))

/-- The multiplier and the shift distance for dividing by the number of words. -/
def computeBitmapWordsPerFileBlockInv (bitmapWordsPerFileBlock : Nat) : Comp (Nat × Nat) :=
  if bitmapWordsPerFileBlock ≤ 1 then err .dimensionsNotSupported
  else
    let d := bitmapWordsPerFileBlock
    let p := max (size (d - 1) + maxBitmapWordsIndexLog2) 64
    let m := (2 ^ p + (d - 1)) / d
    if m / 2 ^ 64 ≠ 0 then err .internal else .ok (m, p)

/-- The division. The word's index is checked against twice the maximum only. -/
def bitmapWordIndexToFileBlockIndexBy (bitmapWordIndex invMul invShift : Nat) : Comp Nat :=
  if bitmapWordIndex / 2 ^ maxBitmapWordsIndexLog2 > 1 then err .internal
  else .ok (bitmapWordIndex * invMul / 2 ^ 64 % 2 ^ 64 / 2 ^ (invShift - 64))

/-- The storage location is of no concern here, besides the checks on it. -/
structure AllocBitmapFile where
  bitmapWordsPerFileBlock : Nat
  bitmapWordsPerFileBlockInvMul : Nat
  bitmapWordsPerFileBlockInvShift : Nat
  totalFileBlocks : Nat
  deriving DecidableEq, Repr

def AllocBitmapFile.bitmapWordIndexToFileBlockIndex (f : AllocBitmapFile) (bitmapWordIndex : Nat) :
    Comp Nat :=
  bitmapWordIndexToFileBlockIndexBy bitmapWordIndex f.bitmapWordsPerFileBlockInvMul
    f.bitmapWordsPerFileBlockInvShift

def fileBlockSizeLog2 (l : ImageLayout) : Nat :=
  l.allocationBitmapFileBlockAllocationBlocksLog2.toNat + l.allocationBlockSize128bLog2.toNat + 7

/-- The extents' file blocks. Their lengths are aligned to the file block size
and their boundaries to the Data Block size. -/
def countFileBlocks (l : ImageLayout) (totalFileBlocks : Nat) : List BlockRange → Comp Nat
  | [] => .ok totalFileBlocks
  | r :: rs => do
    let count ← r.blockCount
    if count % 2 ^ l.allocationBitmapFileBlockAllocationBlocksLog2.toNat ≠ 0 ∨
        (r.b ||| r.e) % 2 ^ l.authTreeDataBlockAllocationBlocksLog2.toNat ≠ 0 then
      formatErr .unalignedAllocationBitmapFileExtents
    else
      let total := totalFileBlocks +
        count / 2 ^ l.allocationBitmapFileBlockAllocationBlocksLog2.toNat
      if 2 ^ 64 ≤ total then formatErr .invalidAllocationBitmapFileSize
      else countFileBlocks l total rs

def checkCovered (pr : Profile) (invMul invShift totalFileBlocks : Nat) :
    List BlockRange → Comp Unit
  | [] => .ok ()
  | r :: rs => do
    let last ← subU64 pr r.e 1
    let bitmapWordIndex := last / 2 ^ bitmapWordBitsLog2
    if bitmapWordIndex > 2 ^ maxBitmapWordsIndexLog2 then
      formatErr .inconsistentAllocBitmapFileExtents
    else do
      let i ← bitmapWordIndexToFileBlockIndexBy bitmapWordIndex invMul invShift
      if totalFileBlocks ≤ i then formatErr .inconsistentAllocBitmapFileExtents
      else checkCovered pr invMul invShift totalFileBlocks rs

def AllocBitmapFile.new (pr : Profile) (l : ImageLayout) (extents : PhysicalExtents) :
    Comp AllocBitmapFile :=
  if 64 ≤ fileBlockSizeLog2 l then formatErr .invalidAllocationBitmapFileConfig
  else do
    let payloadLen ← EncryptedBlockLayout.effectivePayloadLen pr ⟨l.blockCipherAlg,
      l.allocationBitmapFileBlockAllocationBlocksLog2.toNat, l.allocationBlockSize128bLog2.toNat⟩
    let words := payloadLen / 8
    let inv ← computeBitmapWordsPerFileBlockInv words
    let ranges ← extents.iter
    let totalFileBlocks ← countFileBlocks l 0 ranges
    let last ← bitmapWordIndexToFileBlockIndexBy (2 ^ maxBitmapWordsIndexLog2 - 1) inv.1 inv.2
    let maxTotalFileBlocks ← addU64 pr last 1
    debugAssert pr ((2 ^ maxBitmapWordsIndexLog2 - 1) / words + 1 = maxTotalFileBlocks)
    if maxTotalFileBlocks < totalFileBlocks then formatErr .invalidAllocationBitmapFileSize
    else do
      checkCovered pr inv.1 inv.2 totalFileBlocks ranges
      if 2 ^ 64 ≤ totalFileBlocks * words then err .dimensionsNotSupported
      else pure ⟨words, inv.1, inv.2, totalFileBlocks⟩

variable {N d m n p : Nat}

/-- A divisor's inverse rounded up never gives a quotient too small, and gives
the exact one if the rounding error does not add up to one. -/
theorem le_mul_div (hN : 0 < N) (hle : N ≤ m * d) : n / d ≤ n * m / N := by
  rw [Nat.le_div_iff_mul_le hN]
  calc n / d * N ≤ n / d * (m * d) := Nat.mul_le_mul_left _ hle
    _ = n / d * d * m := by ring
    _ ≤ n * m := Nat.mul_le_mul_right m (div_mul_le_self n d)

theorem mul_div_eq (hd : 0 < d) (hN : 0 < N) (hle : N ≤ m * d)
    (hlt : m * d ≤ N + (d - 1)) (hn : n * (d - 1) < N) : n * m / N = n / d := by
  apply le_antisymm
  · rw [← Nat.lt_succ_iff, div_lt_iff_lt_mul hN]
    have hdiv : n + 1 ≤ (n / d + 1) * d := by
      rw [add_mul, one_mul]
      exact lt_div_mul_add hd
    refine Nat.lt_of_mul_lt_mul_right (a := d) ?_
    calc n * m * d = n * (m * d) := by ring
      _ ≤ n * (N + (d - 1)) := Nat.mul_le_mul_left n hlt
      _ = n * N + n * (d - 1) := by ring
      _ < n * N + N := by omega
      _ = (n + 1) * N := by ring
      _ ≤ (n / d + 1) * d * N := Nat.mul_le_mul_right N hdiv
      _ = (n / d + 1) * N * d := by ring
  · exact le_mul_div hN hle

section

variable (h : computeBitmapWordsPerFileBlockInv d = .ok (m, p))
include h

theorem computeBitmapWordsPerFileBlockInv_ok :
    1 < d ∧ p = max (size (d - 1) + 51) 64 ∧ 2 ^ p ≤ m * d ∧ m * d ≤ 2 ^ p + (d - 1) ∧
      m < 2 ^ 64 := by
  obtain ⟨hd, h⟩ := of_ite_err h
  obtain ⟨hm, h⟩ := of_ite_err h
  cases h
  have hpos : 0 < d := by omega
  refine ⟨by omega, rfl, ?_, div_mul_le_self _ _, ?_⟩
  · have hlt := lt_div_mul_add (a := 2 ^ max (size (d - 1) + 51) 64 + (d - 1)) hpos
    change 2 ^ max (size (d - 1) + 51) 64 ≤
      (2 ^ max (size (d - 1) + 51) 64 + (d - 1)) / d * d
    omega
  · rw [ne_eq, not_not, Nat.div_eq_zero_iff] at hm
    exact hm.resolve_left (by decide)

theorem bitmapWordIndexToFileBlockIndexBy_eq (hn : n < 2 ^ 52) :
    bitmapWordIndexToFileBlockIndexBy n m p = .ok (n * m / 2 ^ p) := by
  obtain ⟨hd, hp, hle, hlt, hm⟩ := computeBitmapWordsPerFileBlockInv_ok h
  have hsmall : n * m / 2 ^ 64 < 2 ^ 64 := by
    rw [div_lt_iff_lt_mul (by decide)]
    exact Nat.mul_lt_mul'' (by omega) hm
  have hpow : 2 ^ 64 * 2 ^ (p - 64) = 2 ^ p := by
    rw [← pow_add]
    congr 1
    omega
  rw [bitmapWordIndexToFileBlockIndexBy, if_neg, mod_eq_of_lt hsmall, Nat.div_div_eq_div_mul, hpow]
  rw [not_lt, ← Nat.lt_succ_iff, div_lt_iff_lt_mul (by decide)]
  exact hn

theorem bitmapWordIndexToFileBlockIndexBy_ok (hn : n < 2 ^ 52) :
    ∃ i, bitmapWordIndexToFileBlockIndexBy n m p = .ok i ∧ n / d ≤ i ∧ i ≤ n ∧
      (n < 2 ^ 51 → i = n / d) := by
  obtain ⟨hd, hp, hle, hlt, hm⟩ := computeBitmapWordsPerFileBlockInv_ok h
  have hmp : m ≤ 2 ^ p := by
    by_contra hgt
    have hmd : (2 ^ p + 1) * d ≤ m * d := Nat.mul_le_mul_right d (by omega)
    have hpd : 2 ^ p ≤ 2 ^ p * d := Nat.le_mul_of_pos_right _ (by omega)
    rw [add_mul, one_mul] at hmd
    omega
  refine ⟨n * m / 2 ^ p, bitmapWordIndexToFileBlockIndexBy_eq h hn,
    le_mul_div (two_pow_pos p) hle,
    Nat.div_le_of_le_mul (by rw [mul_comm]; exact Nat.mul_le_mul_right n hmp), fun hn' => ?_⟩
  refine mul_div_eq (by omega) (two_pow_pos p) hle hlt ?_
  have hsize : d - 1 < 2 ^ size (d - 1) := lt_size_self _
  calc n * (d - 1) < 2 ^ 51 * 2 ^ size (d - 1) :=
        Nat.mul_lt_mul'' hn' hsize
    _ = 2 ^ (size (d - 1) + 51) := by rw [← pow_add, add_comm]
    _ ≤ 2 ^ p := Nat.pow_le_pow_right (by decide) (by omega)

end

/-- The rounding error, multiplied by the dividend, must not make up for what the
remainder is short of the divisor. -/
theorem mul_div_eq_iff {e : Nat} (hd : 0 < d) (hN : 0 < N) (he : m * d = N + e) :
    n * m / N = n / d ↔ n * e < (d - n % d) * N := by
  have hle : n / d ≤ n * m / N := le_mul_div hN (by omega)
  have hmod := mod_lt n hd
  have hsplit : (n / d + 1) * d = n + (d - n % d) := by
    have := div_add_mod n d
    rw [succ_mul, mul_comm]
    omega
  have hlt : n * m / N < n / d + 1 ↔ n * e < (d - n % d) * N := by
    rw [div_lt_iff_lt_mul hN, ← Nat.mul_lt_mul_right hd]
    calc n * m * d < (n / d + 1) * N * d ↔ n * (m * d) < (n / d + 1) * d * N := by
          rw [mul_assoc, mul_right_comm]
      _ ↔ n * N + n * e < n * N + (d - n % d) * N := by
          rw [he, hsplit, mul_add, add_mul]
      _ ↔ n * e < (d - n % d) * N := Nat.add_lt_add_iff_left
  rw [← hlt]
  omega

/-- By how much the rounded up reciprocal times the divisor exceeds the power of
two. -/
def roundingError (d N : Nat) : Nat := (d - N % d) % d

theorem roundUp_mul_eq (hd : 0 < d) (hle : N ≤ m * d) (hlt : m * d ≤ N + (d - 1)) :
    m * d = N + roundingError d N := by
  have hmod := mod_lt N hd
  have hzero : (m * d - N) % d = m * d - N := mod_eq_of_lt (by omega)
  have hsum : (N + (m * d - N)) % d = 0 := by
    rw [Nat.add_sub_cancel' hle]
    exact mul_mod_left m d
  rw [add_mod, hzero] at hsum
  rw [roundingError]
  rcases Nat.eq_zero_or_pos (N % d) with hr | hr
  · rw [hr, zero_add, hzero] at hsum
    rw [hr, Nat.sub_zero, mod_self]
    omega
  · rw [mod_eq_of_lt (show d - N % d < d by omega)]
    have hdvd := dvd_of_mod_eq_zero hsum
    obtain ⟨k, hk⟩ := hdvd
    have hk2 : k < 2 := by
      by_contra hge2
      have := Nat.mul_le_mul_left d (Nat.le_of_not_lt hge2)
      omega
    obtain rfl | rfl : k = 0 ∨ k = 1 := by omega
    · omega
    · omega

/-- A division of a word's index by the number of words in a file block. -/
structure DivisionCorrect (d m p n : Nat) : Prop where
  mul_lt : m < 2 ^ 64
  shift_ge : 64 ≤ p
  shift_lt : p < 128 ∧ p - 64 < 64
  exact : bitmapWordIndexToFileBlockIndexBy n m p = .ok (n / d)

def invShift (d : Nat) : Nat := max (size (d - 1) + maxBitmapWordsIndexLog2) 64

/-- Twice as many words are accepted as the reciprocal is good for. -/
theorem divisionCorrect_iff (d m p n : Nat) (hd64 : d < 2 ^ 64)
    (hinv : computeBitmapWordsPerFileBlockInv d = .ok (m, p))
    (haccepted : ∃ i, bitmapWordIndexToFileBlockIndexBy n m p = .ok i) :
    DivisionCorrect d m p n ↔
      n * roundingError d (2 ^ invShift d) < (d - n % d) * 2 ^ invShift d := by
  obtain ⟨hd, hp, hle, hlt, hm⟩ := computeBitmapWordsPerFileBlockInv_ok hinv
  have hshift : invShift d = p := hp.symm
  have hsize : size (d - 1) ≤ 64 := Nat.size_le.mpr (by omega)
  have hn : n < 2 ^ 52 := by
    obtain ⟨i, hi⟩ := haccepted
    obtain ⟨hle, -⟩ := of_ite_err hi
    rw [not_lt, ← Nat.lt_succ_iff, div_lt_iff_lt_mul (by decide)] at hle
    exact hle
  have hN : 0 < 2 ^ p := two_pow_pos p
  have hpos : 0 < d := by omega
  rw [hshift, ← mul_div_eq_iff hpos hN (roundUp_mul_eq hpos hle hlt)]
  constructor
  · intro hcorrect
    have hexact := hcorrect.exact
    rw [bitmapWordIndexToFileBlockIndexBy_eq hinv hn] at hexact
    exact Except.ok.inj hexact
  · intro hdiv
    refine ⟨hm, by omega, ⟨by omega, by omega⟩, ?_⟩
    rw [bitmapWordIndexToFileBlockIndexBy_eq hinv hn, hdiv]

theorem divisionCorrect_iff_fourteen :
    DivisionCorrect 14 1317624576693539402 64 200 ↔
      200 * roundingError 14 (2 ^ invShift 14) < (14 - 200 % 14) * 2 ^ invShift 14 :=
  divisionCorrect_iff 14 1317624576693539402 64 200 (by decide) (by decide) ⟨14, by decide⟩

/-- File blocks of 256 KiB, and a word beyond those of the largest image. -/
theorem division_rounds_up : ¬ ∀ d m p n, 2 ≤ d → d < 2 ^ 64 →
    computeBitmapWordsPerFileBlockInv d = .ok (m, p) →
    (∃ i, bitmapWordIndexToFileBlockIndexBy n m p = .ok i) → DivisionCorrect d m p n := by
  intro hall
  have hcorrect := hall 32766 2251937261027841 66 4503599627369471 (by decide) (by decide)
    (by decide) ⟨137447342592, by decide⟩
  have hexact := hcorrect.exact
  revert hexact
  decide

structure FileOk (f : AllocBitmapFile) : Prop where
  inv : computeBitmapWordsPerFileBlockInv f.bitmapWordsPerFileBlock =
    .ok (f.bitmapWordsPerFileBlockInvMul, f.bitmapWordsPerFileBlockInvShift)
  size : f.bitmapWordsPerFileBlock * 2 ^ 6 < 2 ^ 64 ∨
    2 ^ 58 ≤ f.bitmapWordsPerFileBlock * 2 ^ 6 % 2 ^ 64

theorem effectivePayloadLen_eq (pr : Profile) (alg : SymBlockCipherAlg) {a b : Nat}
    (hn : a + b + 7 = n) (hlt : n < 64) :
    EncryptedBlockLayout.effectivePayloadLen pr ⟨alg, a, b⟩ = .ok (2 ^ n - 16) := by
  have hcipher : blockLen alg = 16 := by cases alg <;> rfl
  have hpow : 2 ^ a * 2 ^ (b + 7) = 2 ^ n := by
    rw [← pow_add, ← hn, add_assoc]
  have hlen : 2 ^ n < 2 ^ 64 := Nat.pow_lt_pow_right (by decide) hlt
  have ha : 2 ^ a < 2 ^ 64 := Nat.pow_lt_pow_right (by decide) (by omega)
  have hge : 2 ^ 4 * 2 ^ (n - 4) = 2 ^ n := by
    rw [← pow_add]
    congr 1
    omega
  have hpos := two_pow_pos (n - 4)
  have hback : 2 ^ n / 2 ^ (b + 7) = 2 ^ a := by
    rw [← hpow, Nat.mul_div_cancel _ (two_pow_pos _)]
  rw [EncryptedBlockLayout.effectivePayloadLen, shlU64_ok pr (by dsimp only; omega)
    (by simpa using ha), ok_bind, allocationBlocksToLen, one_mul,
    shlU64_ok pr (by dsimp only; omega) (by rw [hpow]; exact hlen), hpow, ok_bind,
    shrU64_ok pr (by dsimp only; omega), ok_bind, hback, if_neg (fun h => h rfl), pure_eq_ok,
    ok_bind, hcipher, subU64_ok pr (by omega), ok_bind, alignLenDownToBlockCipherAlgBlockLen]
  rw [pure_eq_ok]
  congr 1
  omega

theorem AllocBitmapFile.fileOk_of_new {pr : Profile} {l : ImageLayout} {x : PhysicalExtents}
    {f : AllocBitmapFile} (h : AllocBitmapFile.new pr l x = .ok f) : FileOk f := by
  obtain ⟨hsize, h⟩ := of_ite_err h
  rw [effectivePayloadLen_eq pr _ rfl (Nat.lt_of_not_le hsize), ok_bind] at h
  obtain ⟨⟨m, p⟩, hinv, h⟩ := bind_eq_ok h
  obtain ⟨ranges, -, h⟩ := bind_eq_ok h
  obtain ⟨total, -, h⟩ := bind_eq_ok h
  obtain ⟨last, -, h⟩ := bind_eq_ok h
  obtain ⟨maxTotal, -, h⟩ := bind_eq_ok h
  obtain ⟨-, -, h⟩ := bind_eq_ok h
  obtain ⟨-, h⟩ := of_ite_err h
  obtain ⟨-, -, h⟩ := bind_eq_ok h
  obtain ⟨-, h⟩ := of_ite_err h
  cases h
  refine ⟨hinv, ?_⟩
  have hn : 7 ≤ fileBlockSizeLog2 l := by
    rw [fileBlockSizeLog2]
    omega
  generalize hlog : l.allocationBitmapFileBlockAllocationBlocksLog2.toNat +
    l.allocationBlockSize128bLog2.toNat + 7 = n
  rw [fileBlockSizeLog2, hlog] at hsize hn
  dsimp only
  by_cases hle : n ≤ 61
  · left
    have : 2 ^ n ≤ 2 ^ 61 := Nat.pow_le_pow_right (by decide) hle
    omega
  · right
    obtain rfl | rfl : n = 62 ∨ n = 63 := by omega
    · decide
    · decide

end CocoonFs.BitmapFile
