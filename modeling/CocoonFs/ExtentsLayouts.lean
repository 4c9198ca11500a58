import CocoonFs.BackupLocation
import CocoonFs.ImageLevels
import CocoonFs.IoRegion

namespace CocoonFs.ExtentsLayouts

open Checked BackupLocation IoRegion ImageLevels Nat

def roundUp (len alignment : Nat) : Nat := divCeil len alignment * alignment

variable {alignment : Nat}

theorem roundUp_le_iff {len n : Nat} (ha : 0 < alignment) :
    roundUp len alignment ≤ n ↔ len ≤ n / alignment * alignment := by
  rw [roundUp, ← Nat.le_div_iff_mul_le ha, divCeil_le_iff ha, mul_comm]

theorem le_roundUp (len : Nat) (ha : 0 < alignment) :
    len ≤ roundUp len alignment :=
  le_trans ((roundUp_le_iff ha).mp le_rfl) (div_mul_le_self _ _)

theorem roundUp_lt (len : Nat) (ha : 0 < alignment) :
    roundUp len alignment < len + alignment := by
  have hle := div_mul_le_self (len + alignment - 1) alignment
  rw [roundUp, divCeil]
  omega

theorem roundUp_mono {len len' : Nat} (ha : 0 < alignment) (h : len ≤ len') :
    roundUp len alignment ≤ roundUp len' alignment := by
  rw [roundUp_le_iff ha]
  exact le_trans h ((roundUp_le_iff ha).mp le_rfl)

theorem roundUp_le_of_dvd {len n : Nat} (ha : 0 < alignment) (hdvd : alignment ∣ n)
    (h : len ≤ n) : roundUp len alignment ≤ n := by
  rwa [roundUp_le_iff ha, Nat.div_mul_cancel hdvd]

theorem add_eq_roundUp {len padding : Nat} (hdvd : alignment ∣ len + padding)
    (hlt : padding < alignment) : len + padding = roundUp len alignment := by
  have ha : 0 < alignment := zero_lt_of_lt hlt
  apply le_antisymm
  · obtain ⟨k, hk⟩ := hdvd
    rw [hk, roundUp, mul_comm alignment k]
    apply Nat.mul_le_mul_right
    by_contra hlt'
    have hle := (divCeil_le_iff (a := len) (n := k - 1) ha).mp (by omega)
    have hone := Nat.le_mul_of_pos_right alignment (zero_lt_of_lt (Nat.lt_of_not_le hlt'))
    rw [Nat.mul_sub_one] at hle
    omega
  · exact roundUp_le_of_dvd ha hdvd (Nat.le_add_right _ _)

def isPow2 (value : Nat) : Bool := value &&& (value - 1) == 0

theorem exists_of_isPow2 {value : Nat} (hpos : 0 < value) (h : isPow2 value = true) :
    ∃ k, value = 2 ^ k :=
  (and_sub_one_eq_zero_iff_isPowerOfTwo hpos.ne').mp (beq_iff_eq.mp h)

/-- Constraints on how an entity is stored to a group of extents. The lengths
are 32 bits wide, the alignments and the block size 8. -/
structure ExtentsLayout where
  maxExtentAllocationBlocks : Nat
  extentAlignmentAllocationBlocksLog2 : Nat
  extentsHdrLen : Nat
  extentHdrLen : Nat
  extentPayloadHdrLen : Nat
  extentPayloadLenAlignment : Nat
  allocationBlockSize128bLog2 : Nat
  deriving DecidableEq, Repr

namespace ExtentsLayout

/-- Base-2 logarithm of the number of bytes in an Allocation Block. -/
def blockLenLog2 (l : ExtentsLayout) : Nat := l.allocationBlockSize128bLog2 + 7

def headersLen (l : ExtentsLayout) (storesExtentsHdr : Bool) : Nat :=
  (if storesExtentsHdr then l.extentsHdrLen else 0) + l.extentHdrLen

/-- How much of the length is beyond a multiple of the payload alignment. -/
def payloadExcessLen (l : ExtentsLayout) (len : Nat) : Nat :=
  if isPow2 l.extentPayloadLenAlignment then len &&& (l.extentPayloadLenAlignment - 1)
  else len % l.extentPayloadLenAlignment

/-- How much of a multiple of the payload alignment is beyond the length. -/
def payloadLenPadding (l : ExtentsLayout) (len : Nat) : Nat :=
  if isPow2 l.extentPayloadLenAlignment then
    (2 ^ 64 - len) % 2 ^ 64 &&& (l.extentPayloadLenAlignment - 1)
  else if len % l.extentPayloadLenAlignment = 0 then 0
  else l.extentPayloadLenAlignment - len % l.extentPayloadLenAlignment

def extentEffectivePayloadLen (pr : Profile) (l : ExtentsLayout) (extentAllocationBlocks : Nat)
    (storesExtentsHdr : Bool) : Comp Nat := do
  debugAssert pr (extentAllocationBlocks ≤ l.maxExtentAllocationBlocks)
  debugAssert pr (extentAllocationBlocks ≠ 0)
  let totalExtentLen ← shlU64 pr extentAllocationBlocks l.blockLenLog2
  let withoutExtentsHdr ← subU64 pr totalExtentLen (if storesExtentsHdr then l.extentsHdrLen else 0)
  let totalPayloadLen ← subU64 pr withoutExtentsHdr l.extentHdrLen
  let aligned ← subU64 pr totalPayloadLen (l.payloadExcessLen totalPayloadLen)
  subU64 pr aligned l.extentPayloadHdrLen

/-- The least number of blocks that the headers and the padded payload region fit. -/
def payloadLenToBlocks (pr : Profile) (l : ExtentsLayout) (payloadLen : Nat)
    (storesExtentsHdr : Bool) : Comp Nat := do
  let headersLen ← addU64 pr (l.headersLen storesExtentsHdr) (l.payloadLenPadding payloadLen)
  let payloadBlocks ← shrU64 pr payloadLen l.blockLenLog2
  let payloadBlocksLen ← shlU64 pr payloadBlocks l.blockLenLog2
  let payloadRemLen ← subU64 pr payloadLen payloadBlocksLen
  let headersBlocks ← shrU64 pr headersLen l.blockLenLog2
  let headersBlocksLen ← shlU64 pr headersBlocks l.blockLenLog2
  let headersRemLen ← subU64 pr headersLen headersBlocksLen
  let blocks ← addU64 pr payloadBlocks headersBlocks
  let remainingLen ← addU64 pr headersRemLen payloadRemLen
  let remainingBlocks ← shrU64 pr remainingLen l.blockLenLog2
  let blocks ← addU64 pr blocks remainingBlocks
  addU64 pr blocks (if remainingLen &&& (2 ^ l.blockLenLog2 - 1) ≠ 0 then 1 else 0)

/-- The least aligned number of blocks with room for the payload and the headers, or
the maximum if there is none. The bool tells if the payload fits. -/
def extentPayloadLenToAllocationBlocks (pr : Profile) (l : ExtentsLayout)
    (effectivePayloadLen : Nat) (storesExtentsHdr : Bool) : Comp (Nat × Bool) :=
  if storesExtentsHdr = false ∧ effectivePayloadLen = 0 then pure (0, true)
  else do
    let overflows := decide (2 ^ 64 ≤ effectivePayloadLen + l.extentPayloadHdrLen)
    let payloadLen := if overflows then 2 ^ 64 - 1 else effectivePayloadLen + l.extentPayloadHdrLen
    let blocks ← l.payloadLenToBlocks pr payloadLen storesExtentsHdr
    let exceedsMax := decide (l.maxExtentAllocationBlocks < blocks)
    let blocks ← roundUpPow2Unchecked pr (if exceedsMax then l.maxExtentAllocationBlocks else blocks)
      l.extentAlignmentAllocationBlocksLog2
    pure (blocks, !(overflows || exceedsMax))

def checkMinExtentAllocationBlocks (pr : Profile) (l : ExtentsLayout) (effectivePayloadLen : Nat)
    (storesExtentsHdr : Bool) (upperBound : Nat) : Comp Unit := do
  let (blocks, fits) ← l.extentPayloadLenToAllocationBlocks pr effectivePayloadLen storesExtentsHdr
  if fits = false then formatErr .invalidImageLayoutConfig
  else if upperBound < blocks then formatErr .unsupportedImageLayoutConfig
  else pure ()

def checkHeadExtentMin (pr : Profile) (l : ExtentsLayout) (upperBound : Nat) : Comp Unit :=
  if l.extentsHdrLen ≠ 0 then l.checkMinExtentAllocationBlocks pr 0 true upperBound else pure ()

/-- If the extents header is as long as the payload alignment, then there's payload for
the tail extents once it has been removed. -/
def checkTailExtentMin (pr : Profile) (l : ExtentsLayout) (upperBound : Nat) : Comp Unit :=
  if l.extentsHdrLen < l.extentPayloadLenAlignment then
    l.checkMinExtentAllocationBlocks pr 1 false upperBound
  else pure ()

def new (pr : Profile) (maxExtentAllocationBlocks : Option Nat)
    (extentAlignmentAllocationBlocksLog2 extentsHdrLen extentHdrLen extentPayloadHdrLen
      extentPayloadLenAlignment allocationBlockSize128bLog2 : Nat) : Comp ExtentsLayout :=
  let alignmentLog2 := extentAlignmentAllocationBlocksLog2 + allocationBlockSize128bLog2 + 7
  if 64 ≤ alignmentLog2 then err .internal
  else if extentPayloadLenAlignment = 0 then err .internal
  else if 1 < extentPayloadLenAlignment / 2 ^ alignmentLog2 then err .internal
  else if 64 ≤ extentAlignmentAllocationBlocksLog2 then err .internal
  else
    -- The length of any extent in units of bytes fits an u64, which is an usize as well.
    let upperBound := (2 ^ 64 - 1) / 2 ^ (allocationBlockSize128bLog2 + 7)
    let maxBlocks := roundDownPow2
      ((maxExtentAllocationBlocks.map (min · upperBound)).getD upperBound)
      extentAlignmentAllocationBlocksLog2
    if maxBlocks = 0 then err .internal
    else do
      let l : ExtentsLayout := ⟨maxBlocks, extentAlignmentAllocationBlocksLog2, extentsHdrLen,
        extentHdrLen, extentPayloadHdrLen, extentPayloadLenAlignment, allocationBlockSize128bLog2⟩
      l.checkHeadExtentMin pr upperBound
      l.checkTailExtentMin pr upperBound
      pure { l with maxExtentAllocationBlocks := min l.maxExtentAllocationBlocks upperBound }

def minExtentsAllocationBlocks (pr : Profile) (l : ExtentsLayout) : Comp (Nat × Nat) := do
  let (tail, fits) ← l.extentPayloadLenToAllocationBlocks pr 1 false
  debugAssert pr (fits = true)
  if l.extentsHdrLen ≠ 0 then do
    let (head, fits) ← l.extentPayloadLenToAllocationBlocks pr 0 true
    debugAssert pr (fits = true)
    pure (head, tail)
  else pure (tail, tail)

/-- An extent of so many blocks has got room for its headers and the payload. -/
def Fits (l : ExtentsLayout) (n : Nat) (storesExtentsHdr : Bool) (len : Nat) : Prop :=
  l.headersLen storesExtentsHdr + roundUp (len + l.extentPayloadHdrLen) l.extentPayloadLenAlignment ≤
    n * 2 ^ l.blockLenLog2

instance (l : ExtentsLayout) (n : Nat) (storesExtentsHdr : Bool) (len : Nat) :
    Decidable (l.Fits n storesExtentsHdr len) :=
  inferInstanceAs (Decidable (_ ≤ _))

structure Bounded (l : ExtentsLayout) : Prop where
  alignmentLog2_lt : l.extentAlignmentAllocationBlocksLog2 + l.blockLenLog2 < 64
  payloadAlignment_pos : 0 < l.extentPayloadLenAlignment
  payloadAlignment_lt : l.extentPayloadLenAlignment < 2 ^ 8
  extentsHdrLen_lt : l.extentsHdrLen < 2 ^ 32
  extentHdrLen_lt : l.extentHdrLen < 2 ^ 32
  extentPayloadHdrLen_lt : l.extentPayloadHdrLen < 2 ^ 32
  maxBlocks_pos : 0 < l.maxExtentAllocationBlocks
  maxBlocks_aligned : 2 ^ l.extentAlignmentAllocationBlocksLog2 ∣ l.maxExtentAllocationBlocks
  maxLen_lt : l.maxExtentAllocationBlocks * 2 ^ l.blockLenLog2 < 2 ^ 64

/-- The first extent may be of the headers only, any other one has got payload. -/
structure Valid (l : ExtentsLayout) : Prop extends Bounded l where
  headFits : l.Fits l.maxExtentAllocationBlocks true 0
  tailFits : l.Fits l.maxExtentAllocationBlocks false 1

/-- A part of an extent has got room for the payload, of any but the first one nothing
at all is needed for none. -/
def Holds (l : ExtentsLayout) (n : Nat) (storesExtentsHdr : Bool) (len : Nat) : Prop :=
  (storesExtentsHdr = false ∧ n = 0 ∧ len = 0) ∨ l.Fits n storesExtentsHdr len

variable {l : ExtentsLayout} {n n' len len' : Nat} {first : Bool}

theorem payloadExcessLen_eq (hpos : 0 < l.extentPayloadLenAlignment) (len : Nat) :
    l.payloadExcessLen len = len % l.extentPayloadLenAlignment := by
  rw [payloadExcessLen]
  split
  next h =>
    obtain ⟨k, hk⟩ := exists_of_isPow2 hpos h
    rw [hk, and_two_pow_sub_one_eq_mod]
  next => rfl

theorem add_payloadLenPadding (hpos : 0 < l.extentPayloadLenAlignment)
    (hlt : l.extentPayloadLenAlignment < 2 ^ 8) (hlen : len < 2 ^ 64) :
    len + l.payloadLenPadding len = roundUp len l.extentPayloadLenAlignment := by
  rw [payloadLenPadding]
  split
  next h =>
    obtain ⟨k, hk⟩ := exists_of_isPow2 hpos h
    have hdvd : 2 ^ k ∣ 2 ^ 64 := by
      apply pow_dvd_pow
      by_contra hk'
      have := Nat.pow_le_pow_right (n := 2) (by decide) (Nat.le_of_not_le hk')
      omega
    rw [hk, and_two_pow_sub_one_eq_mod, mod_mod_of_dvd _ hdvd]
    apply add_eq_roundUp
    · apply dvd_of_mod_eq_zero
      rw [add_mod_mod, Nat.add_sub_cancel' hlen.le]
      exact mod_eq_zero_of_dvd hdvd
    · exact mod_lt _ (Nat.two_pow_pos k)
  next =>
    have hmod := mod_lt len hpos
    have hsplit := div_add_mod len l.extentPayloadLenAlignment
    split
    next h => exact add_eq_roundUp (dvd_of_mod_eq_zero h) hpos
    next h =>
      refine add_eq_roundUp ⟨len / l.extentPayloadLenAlignment + 1, ?_⟩ (by omega)
      rw [mul_succ]
      omega

theorem Fits.mono (h : l.Fits n first len) (hn : n ≤ n') : l.Fits n' first len :=
  le_trans h (Nat.mul_le_mul_right _ hn)

theorem Fits.of_le (hpos : 0 < l.extentPayloadLenAlignment) (h : l.Fits n first len)
    (hlen : len' ≤ len) : l.Fits n first len' :=
  le_trans (Nat.add_le_add_left (roundUp_mono hpos (Nat.add_le_add_right hlen _)) _) h

theorem Fits.tail (h : l.Fits n true len) : l.Fits n false len := by
  refine le_trans (Nat.add_le_add_right ?_ _) h
  simp [headersLen]

def neededBlocks (l : ExtentsLayout) (storesExtentsHdr : Bool) (len : Nat) : Nat :=
  divCeil (l.headersLen storesExtentsHdr +
    roundUp (len + l.extentPayloadHdrLen) l.extentPayloadLenAlignment) (2 ^ l.blockLenLog2)

theorem fits_iff_neededBlocks : l.Fits n first len ↔ l.neededBlocks first len ≤ n := by
  rw [neededBlocks, divCeil_le_iff (Nat.two_pow_pos _), mul_comm, Fits]

def providedLen (l : ExtentsLayout) (n : Nat) (storesExtentsHdr : Bool) : Nat :=
  (n * 2 ^ l.blockLenLog2 - l.headersLen storesExtentsHdr) / l.extentPayloadLenAlignment *
    l.extentPayloadLenAlignment - l.extentPayloadHdrLen

section Bounded

variable (pr : Profile) (hv : l.Bounded)

include hv

theorem Bounded.blockLenLog2_lt : l.blockLenLog2 < 64 :=
  lt_of_le_of_lt (Nat.le_add_left _ _) hv.alignmentLog2_lt

theorem Bounded.headersLen_lt (first : Bool) : l.headersLen first < 2 ^ 33 := by
  have := hv.extentsHdrLen_lt
  have := hv.extentHdrLen_lt
  rw [headersLen]
  split <;> omega

theorem Bounded.le_providedLen_iff (hfits : l.Fits n first 0) :
    len ≤ l.providedLen n first ↔ l.Fits n first len := by
  have hpos := hv.payloadAlignment_pos
  have hle : l.headersLen first ≤ n * 2 ^ l.blockLenLog2 := le_trans (Nat.le_add_right _ _) hfits
  have hfits' : ∀ len, l.Fits n first len ↔ len + l.extentPayloadHdrLen ≤
      (n * 2 ^ l.blockLenLog2 - l.headersLen first) / l.extentPayloadLenAlignment *
        l.extentPayloadLenAlignment := by
    intro len
    rw [← roundUp_le_iff hpos, Fits]
    omega
  have hhdr := (hfits' 0).mp hfits
  rw [hfits', providedLen]
  omega

theorem Bounded.extentEffectivePayloadLen_ok (hn : n ≤ l.maxExtentAllocationBlocks) (hn0 : n ≠ 0)
    (hfits : l.Fits n first 0) :
    l.extentEffectivePayloadLen pr n first = .ok (l.providedLen n first) := by
  have hpos := hv.payloadAlignment_pos
  have hlt : n * 2 ^ l.blockLenLog2 < 2 ^ 64 :=
    lt_of_le_of_lt (Nat.mul_le_mul_right _ hn) hv.maxLen_lt
  have hle : l.headersLen first ≤ n * 2 ^ l.blockLenLog2 := le_trans (Nat.le_add_right _ _) hfits
  rw [headersLen] at hle
  have hsub : n * 2 ^ l.blockLenLog2 - (if first then l.extentsHdrLen else 0) - l.extentHdrLen =
      n * 2 ^ l.blockLenLog2 - l.headersLen first := by
    rw [headersLen]
    omega
  have hhdr : l.extentPayloadHdrLen ≤ (n * 2 ^ l.blockLenLog2 - l.headersLen first) /
      l.extentPayloadLenAlignment * l.extentPayloadLenAlignment := by
    rw [← roundUp_le_iff hpos]
    have := hfits
    rw [Fits, zero_add] at this
    omega
  rw [extentEffectivePayloadLen, debugAssert_ok pr hn, ok_bind, debugAssert_ok pr hn0, ok_bind,
    shlU64_ok pr hv.blockLenLog2_lt hlt, ok_bind, subU64_ok pr (by omega), ok_bind,
    subU64_ok pr (by omega), ok_bind, hsub, payloadExcessLen_eq hpos,
    subU64_ok pr (mod_le _ _), ok_bind, ← div_mul_self_eq_mod_sub_self, subU64_ok pr hhdr]
  rfl

theorem Bounded.payloadLenToBlocks_ok {payloadLen : Nat} (hlt : payloadLen < 2 ^ 64) :
    l.payloadLenToBlocks pr payloadLen first = .ok (divCeil (l.headersLen first +
      roundUp payloadLen l.extentPayloadLenAlignment) (2 ^ l.blockLenLog2)) := by
  have hk := hv.blockLenLog2_lt
  have hpow : 2 ^ 7 ≤ 2 ^ l.blockLenLog2 :=
    Nat.pow_le_pow_right (by decide) (by rw [blockLenLog2]; omega)
  have hpow' : 2 ^ l.blockLenLog2 ≤ 2 ^ 63 := Nat.pow_le_pow_right (by decide) (by omega)
  have hadd := add_payloadLenPadding hv.payloadAlignment_pos hv.payloadAlignment_lt hlt
  have hround := roundUp_lt payloadLen hv.payloadAlignment_pos
  have hhdr := hv.headersLen_lt first
  have halign := hv.payloadAlignment_lt
  rw [payloadLenToBlocks, addU64_ok pr (by omega), ok_bind, ← hadd]
  have hheaders : l.headersLen first + l.payloadLenPadding payloadLen < 2 ^ 34 := by omega
  rw [add_left_comm, add_comm payloadLen]
  generalize l.headersLen first + l.payloadLenPadding payloadLen = headersLen at *
  generalize l.blockLenLog2 = k at *
  have hpos := Nat.two_pow_pos k
  have hdiv := div_mul_le_self payloadLen (2 ^ k)
  have hdiv' := div_mul_le_self headersLen (2 ^ k)
  have hle : payloadLen / 2 ^ k ≤ payloadLen / 2 ^ 7 := div_le_div_left hpow (by decide)
  have hle' : headersLen / 2 ^ k ≤ headersLen / 2 ^ 7 := div_le_div_left hpow (by decide)
  have hsplit := div_add_mod' payloadLen (2 ^ k)
  have hsplit' := div_add_mod' headersLen (2 ^ k)
  have hrem := div_add_mod' (headersLen % 2 ^ k + payloadLen % 2 ^ k) (2 ^ k)
  have hremlt : (headersLen % 2 ^ k + payloadLen % 2 ^ k) / 2 ^ k < 2 := by
    rw [Nat.div_lt_iff_lt_mul hpos]
    omega
  have hsum : (if (headersLen % 2 ^ k + payloadLen % 2 ^ k) % 2 ^ k ≠ 0 then
        payloadLen / 2 ^ k + headersLen / 2 ^ k +
          (headersLen % 2 ^ k + payloadLen % 2 ^ k) / 2 ^ k + 1
      else payloadLen / 2 ^ k + headersLen / 2 ^ k +
        (headersLen % 2 ^ k + payloadLen % 2 ^ k) / 2 ^ k) =
      divCeil (headersLen + payloadLen) (2 ^ k) := by
    apply eq_divCeil (mod_lt _ hpos)
    rw [add_mul, add_mul]
    omega
  rw [shrU64_ok pr hk, ok_bind, shlU64_ok pr hk (by omega), ok_bind, subU64_ok pr hdiv, ok_bind,
    shrU64_ok pr hk, ok_bind, shlU64_ok pr hk (by omega), ok_bind, subU64_ok pr hdiv', ok_bind,
    addU64_ok pr (by omega), ok_bind, ← mod_eq_sub_div_mul, ← mod_eq_sub_div_mul,
    addU64_ok pr (by omega), ok_bind, shrU64_ok pr hk, ok_bind, addU64_ok pr (by omega), ok_bind,
    and_two_pow_sub_one_eq_mod, addU64_ok pr (by split <;> omega)]
  rw [← hsum]
  split <;> rfl

omit hv in
theorem roundUpPow2Unchecked_roundUp {v p : Nat} (hp : p < 64) (hle : v ≤ 2 ^ 63) :
    roundUpPow2Unchecked pr v p = .ok (roundUp v (2 ^ p)) := by
  have hpow : (2 : Nat) ^ p ≤ 2 ^ 63 := Nat.pow_le_pow_right (by decide) (by omega)
  have hdvd : 2 ^ p ∣ 2 ^ 64 := pow_dvd_pow 2 hp.le
  have hmod := mod_lt (2 ^ 64 - v) (Nat.two_pow_pos p)
  rw [roundUpPow2Unchecked, debugAssert_ok pr hp, ok_bind, mod_mod_of_dvd _ hdvd,
    addU64_ok pr (by omega)]
  congr 1
  apply add_eq_roundUp _ hmod
  apply dvd_of_mod_eq_zero
  rw [add_mod_mod, Nat.add_sub_cancel' (by omega)]
  exact mod_eq_zero_of_dvd hdvd

theorem Bounded.maxBlocks_lt : l.maxExtentAllocationBlocks < 2 ^ 57 := by
  have hpow : 2 ^ 7 ≤ 2 ^ l.blockLenLog2 :=
    Nat.pow_le_pow_right (by decide) (by rw [blockLenLog2]; omega)
  have hmax := hv.maxLen_lt
  have := Nat.mul_le_mul_left l.maxExtentAllocationBlocks hpow
  omega

theorem Bounded.maxLen_add_lt : l.maxExtentAllocationBlocks * 2 ^ l.blockLenLog2 < 2 ^ 64 - 1 := by
  have hpow : 2 ^ 7 ≤ 2 ^ l.blockLenLog2 :=
    Nat.pow_le_pow_right (by decide) (by rw [blockLenLog2]; omega)
  obtain ⟨q, hq⟩ : 2 ^ l.blockLenLog2 ∣ 2 ^ 64 := pow_dvd_pow 2 hv.blockLenLog2_lt.le
  have hmax := hv.maxLen_lt
  rw [hq, mul_comm (2 ^ l.blockLenLog2)] at hmax
  have hle := Nat.mul_le_mul_right (2 ^ l.blockLenLog2)
    (succ_le_of_lt (Nat.lt_of_mul_lt_mul_right hmax))
  rw [succ_mul, mul_comm q, ← hq] at hle
  omega

theorem Bounded.lt_neededBlocks (h : 2 ^ 64 ≤ len + l.extentPayloadHdrLen) :
    l.maxExtentAllocationBlocks < l.neededBlocks first len := by
  have hle := le_roundUp (len + l.extentPayloadHdrLen) hv.payloadAlignment_pos
  have hmax := hv.maxLen_lt
  rw [← not_le, ← fits_iff_neededBlocks, Fits]
  omega

theorem Bounded.extentPayloadLenToAllocationBlocks_ok (hne : ¬(first = false ∧ len = 0)) :
    l.extentPayloadLenToAllocationBlocks pr len first =
      if l.neededBlocks first len ≤ l.maxExtentAllocationBlocks then
        .ok (roundUp (l.neededBlocks first len) (2 ^ l.extentAlignmentAllocationBlocksLog2), true)
      else .ok (l.maxExtentAllocationBlocks, false) := by
  have hmax := hv.maxBlocks_lt
  have hlog2 := hv.alignmentLog2_lt
  have hmaxUp : roundUp l.maxExtentAllocationBlocks (2 ^ l.extentAlignmentAllocationBlocksLog2) =
      l.maxExtentAllocationBlocks :=
    (add_eq_roundUp hv.maxBlocks_aligned (Nat.two_pow_pos _)).symm
  rw [extentPayloadLenToAllocationBlocks, if_neg hne]
  rcases lt_or_ge (len + l.extentPayloadHdrLen) (2 ^ 64) with hlt | hge
  · rw [decide_eq_false (not_le.mpr hlt)]
    dsimp only
    rw [if_neg (by decide), hv.payloadLenToBlocks_ok pr hlt, ok_bind, ← neededBlocks]
    by_cases hle : l.neededBlocks first len ≤ l.maxExtentAllocationBlocks
    · rw [if_pos hle, decide_eq_false (not_lt.mpr hle), if_neg (by decide),
        roundUpPow2Unchecked_roundUp pr (by omega) (by omega)]
      rfl
    · rw [if_neg hle, decide_eq_true (Nat.lt_of_not_le hle), if_pos rfl,
        roundUpPow2Unchecked_roundUp pr (by omega) (by omega), hmaxUp]
      rfl
  · have hcapped : l.maxExtentAllocationBlocks < divCeil (l.headersLen first +
        roundUp (2 ^ 64 - 1) l.extentPayloadLenAlignment) (2 ^ l.blockLenLog2) := by
      have hle := le_roundUp (2 ^ 64 - 1) hv.payloadAlignment_pos
      have hlt := hv.maxLen_add_lt
      rw [← not_le, divCeil_le_iff (Nat.two_pow_pos _), mul_comm]
      omega
    rw [decide_eq_true hge]
    dsimp only
    rw [if_pos rfl, hv.payloadLenToBlocks_ok pr (by decide), ok_bind, decide_eq_true hcapped,
      if_pos rfl, roundUpPow2Unchecked_roundUp pr (by omega) (by omega), hmaxUp,
      if_neg (not_le.mpr (hv.lt_neededBlocks hge))]
    rfl

/-- An aligned number of blocks, the least the payload fits, or the maximum if it
doesn't fit that. -/
structure Blocks (l : ExtentsLayout) (storesExtentsHdr : Bool) (len n : Nat) (fits : Bool) :
    Prop where
  le_max : n ≤ l.maxExtentAllocationBlocks
  aligned : 2 ^ l.extentAlignmentAllocationBlocksLog2 ∣ n
  holds : fits = true → l.Holds n storesExtentsHdr len
  least : ∀ n', 2 ^ l.extentAlignmentAllocationBlocksLog2 ∣ n' → n' < n →
    ¬l.Holds n' storesExtentsHdr len
  capped : fits = false → n = l.maxExtentAllocationBlocks ∧ ¬l.Holds n storesExtentsHdr len

theorem Bounded.exists_blocks (first : Bool) (len : Nat) :
    ∃ n fits, l.extentPayloadLenToAllocationBlocks pr len first = .ok (n, fits) ∧
      l.Blocks first len n fits := by
  have hpow := Nat.two_pow_pos l.extentAlignmentAllocationBlocksLog2
  by_cases hzero : first = false ∧ len = 0
  · refine ⟨0, true, if_pos hzero, zero_le _, dvd_zero _, fun _ => ?_, ?_, ?_⟩
    · exact .inl ⟨hzero.1, rfl, hzero.2⟩
    · intro n' _ hn'
      exact absurd hn' (Nat.not_lt_zero _)
    · intro h
      cases h
  · have hholds : ∀ n, l.Holds n first len ↔ l.neededBlocks first len ≤ n := by
      intro n
      rw [Holds, fits_iff_neededBlocks, or_iff_right]
      rintro ⟨hfirst, -, hlen⟩
      exact hzero ⟨hfirst, hlen⟩
    rw [hv.extentPayloadLenToAllocationBlocks_ok pr hzero]
    by_cases hle : l.neededBlocks first len ≤ l.maxExtentAllocationBlocks
    · rw [if_pos hle]
      refine ⟨_, _, rfl, ?_, ?_, fun _ => ?_, ?_, ?_⟩
      · exact roundUp_le_of_dvd hpow hv.maxBlocks_aligned hle
      · exact dvd_mul_left _ _
      · exact (hholds _).mpr (le_roundUp _ hpow)
      · intro n' hdvd hlt hn'
        have hle' := roundUp_le_of_dvd hpow hdvd ((hholds n').mp hn')
        omega
      · intro h
        cases h
    · rw [if_neg hle]
      refine ⟨_, _, rfl, le_rfl, hv.maxBlocks_aligned, ?_, ?_, fun _ => ⟨rfl, ?_⟩⟩
      · intro h
        cases h
      · intro n' _ hlt hn'
        have hle' := (hholds n').mp hn'
        omega
      · exact fun h => hle ((hholds _).mp h)

end Bounded

section New

variable {pr : Profile} {maxBlocks : Option Nat} {a H h p A s : Nat} {upperBound : Nat}

theorem checkMinExtentAllocationBlocks_fits (hv : l.Bounded) (hne : ¬(first = false ∧ len = 0))
    (hok : l.checkMinExtentAllocationBlocks pr len first upperBound = .ok ()) :
    l.Fits l.maxExtentAllocationBlocks first len := by
  obtain ⟨n, fits, heq, hblocks⟩ := hv.exists_blocks pr first len
  rw [checkMinExtentAllocationBlocks, heq, ok_bind] at hok
  cases fits with
  | false => cases hok
  | true =>
    rcases hblocks.holds rfl with ⟨hfirst, -, hlen⟩ | hfits
    · exact absurd ⟨hfirst, hlen⟩ hne
    · exact hfits.mono hblocks.le_max

/-- Removing the extents header leaves room for payload of as much as the alignment. -/
theorem Fits.tail_of_hdr (hpos : 0 < l.extentPayloadLenAlignment)
    (hle : l.extentPayloadLenAlignment ≤ l.extentsHdrLen) (hfits : l.Fits n true 0) :
    l.Fits n false 1 := by
  refine le_trans ?_ hfits
  have hround : roundUp (1 + l.extentPayloadHdrLen) l.extentPayloadLenAlignment ≤
      roundUp (0 + l.extentPayloadHdrLen) l.extentPayloadLenAlignment +
        l.extentPayloadLenAlignment := by
    apply roundUp_le_of_dvd hpos
    · exact Nat.dvd_add (dvd_mul_left _ _) (dvd_refl _)
    · have hle := le_roundUp (0 + l.extentPayloadHdrLen) hpos
      omega
  simp only [headersLen, if_true, Bool.false_eq_true, if_false]
  omega

theorem Bounded.checks_valid (hv : l.Bounded) (hhead : l.checkHeadExtentMin pr upperBound = .ok ())
    (htail : l.checkTailExtentMin pr upperBound = .ok ()) : l.Valid := by
  have hpos := hv.payloadAlignment_pos
  have htailFits : l.Fits l.maxExtentAllocationBlocks false 1 := by
    rw [checkTailExtentMin] at htail
    split at htail
    · exact checkMinExtentAllocationBlocks_fits hv (by simp) htail
    next hle =>
      rw [checkHeadExtentMin, if_pos (by omega)] at hhead
      exact (checkMinExtentAllocationBlocks_fits hv (by simp) hhead).tail_of_hdr hpos (by omega)
  refine ⟨hv, ?_, htailFits⟩
  rw [checkHeadExtentMin] at hhead
  split at hhead
  · exact checkMinExtentAllocationBlocks_fits hv (by simp) hhead
  next hzero =>
    have hfits := htailFits.of_le hpos (zero_le 1)
    rw [Fits, headersLen] at hfits ⊢
    rwa [if_pos rfl, not_not.mp hzero]

theorem new_valid (hH : H < 2 ^ 32) (hh : h < 2 ^ 32) (hp : p < 2 ^ 32) (hA : A < 2 ^ 8)
    (hok : new pr maxBlocks a H h p A s = .ok l) : l.Valid := by
  obtain ⟨hlog2, hok⟩ := of_ite_err hok
  obtain ⟨hA0, hok⟩ := of_ite_err hok
  obtain ⟨-, hok⟩ := of_ite_err hok
  obtain ⟨-, hok⟩ := of_ite_err hok
  obtain ⟨hmax, hok⟩ := of_ite_err hok
  generalize hbound : (2 ^ 64 - 1) / 2 ^ (s + 7) = upperBound at hmax hok
  have hle : (maxBlocks.map (min · upperBound)).getD upperBound ≤ upperBound := by
    cases maxBlocks with
    | none => exact le_rfl
    | some m => exact min_le_right _ _
  generalize hm : roundDownPow2 ((maxBlocks.map (min · upperBound)).getD upperBound) a = m
    at hmax hok
  have hmle : m ≤ upperBound := hm ▸ le_trans (div_mul_le_self _ _) hle
  obtain ⟨⟨⟩, hhead, hok⟩ := bind_eq_ok hok
  obtain ⟨⟨⟩, htail, hok⟩ := bind_eq_ok hok
  cases hok
  rw [min_eq_left hmle]
  refine Bounded.checks_valid ?_ hhead htail
  exact {
    alignmentLog2_lt := by
      dsimp only [blockLenLog2]
      omega
    payloadAlignment_pos := pos_of_ne_zero hA0
    payloadAlignment_lt := hA
    extentsHdrLen_lt := hH
    extentHdrLen_lt := hh
    extentPayloadHdrLen_lt := hp
    maxBlocks_pos := pos_of_ne_zero hmax
    maxBlocks_aligned := hm ▸ dvd_mul_left _ _
    maxLen_lt := by
      have hlen := div_mul_le_self (2 ^ 64 - 1) (2 ^ (s + 7))
      have hlen' := Nat.mul_le_mul_right (2 ^ (s + 7)) hmle
      rw [hbound] at hlen
      dsimp only [blockLenLog2]
      omega }

end New

end ExtentsLayout

end CocoonFs.ExtentsLayouts
