import CocoonFs.ExtentsCountFilter

namespace CocoonFs.AllocationProgress

open Checked BackupLocation IoRegion ExtentsLayouts ExtentsReallocation ExtentsCountFilter Nat
open ExtentsLayout (blockLenLog2 headersLen providedLen)

/-- If the payload alignment divides all lengths, then any extent loses as much payload. -/
def extentsHdrPlacementCostIsInvariant (pr : Profile) (l : ExtentsLayout) : Comp Bool :=
  if l.extentsHdrLen = 0 then pure true
  else if isPow2 l.extentPayloadLenAlignment then do
    let extentAlignment ← shlU64 pr 1 (l.extentAlignmentAllocationBlocksLog2 + l.blockLenLog2)
    debugAssert pr (l.extentPayloadLenAlignment ≤ extentAlignment)
    pure true
  else pure (decide (l.extentsHdrLen % l.extentPayloadLenAlignment = 0))

def extentsHdrPlacementCost (pr : Profile) (l : ExtentsLayout) (extentAllocationBlocks : Nat) :
    Comp Nat := do
  debugAssert pr (extentAllocationBlocks ≤ l.maxExtentAllocationBlocks)
  debugAssert pr (extentAllocationBlocks ≠ 0)
  if l.extentsHdrLen = 0 then pure 0
  else if isPow2 l.extentPayloadLenAlignment then do
    let isInvariant ← extentsHdrPlacementCostIsInvariant pr l
    debugAssert pr (isInvariant = true)
    let paddingWithoutHdr := l.payloadLenPadding l.extentHdrLen
    let paddingWithHdr := l.payloadLenPadding (l.extentsHdrLen + l.extentHdrLen)
    let len ← addU64 pr l.extentsHdrLen paddingWithHdr
    subU64 pr len paddingWithoutHdr
  else do
    let totalExtentLen ← shlU64 pr extentAllocationBlocks l.blockLenLog2
    let totalPayloadLenWithoutHdr ← subU64 pr totalExtentLen l.extentHdrLen
    let totalPayloadLenWithHdr ← subU64 pr totalPayloadLenWithoutHdr l.extentsHdrLen
    let len ← addU64 pr l.extentsHdrLen (totalPayloadLenWithHdr % l.extentPayloadLenAlignment)
    subU64 pr len (totalPayloadLenWithoutHdr % l.extentPayloadLenAlignment)

section Progress

variable (pr : Profile)

/-- The part of what an extent provides that has been accounted for is reduced as far as
what remains may grow, and the extent's length then fitted to it. -/
def fitAllocatedExtentToEffectivePayloadLen (p : ExtentsAllocationRequestProgress)
    (accountedLen : Nat) (storesExtentsHdr : Bool)
    (maxFinalRemainingLen minExtentAlignmentLog2 : Nat) :
    Comp (ExtentsAllocationRequestProgress × Nat) := do
  let l := p.request.layout
  debugAssert pr ((accountedLen + 2 ^ 64 - p.allocatedExcessEffectivePayloadLen) % 2 ^ 64 ≤
    p.allocatedEffectivePayloadLen)
  let alignmentLog2 := max minExtentAlignmentLog2 l.extentAlignmentAllocationBlocksLog2
  let x := min accountedLen p.allocatedExcessEffectivePayloadLen
  let accountedLen := accountedLen - x
  let p := { p with
    allocatedExcessEffectivePayloadLen := p.allocatedExcessEffectivePayloadLen - x }
  debugAssert pr (accountedLen = 0 ∨ p.allocatedExcessEffectivePayloadLen = 0)
  let remaining ← remainingEffectivePayloadLen pr p
  -- Both of the subtractions saturate.
  let minLen := accountedLen - (maxFinalRemainingLen - remaining)
  if storesExtentsHdr = false ∧ minLen = 0 then do
    let allocated ← subU64 pr p.allocatedEffectivePayloadLen accountedLen
    pure ({ p with allocatedEffectivePayloadLen := allocated }, 0)
  else do
    let (blocks, _) ← l.extentPayloadLenToAllocationBlocks pr minLen storesExtentsHdr
    let blocks ← roundUpPow2Unchecked pr
      (min blocks (roundDownPow2 l.maxExtentAllocationBlocks alignmentLog2)) alignmentLog2
    debugAssert pr (blocks ≠ 0)
    let len ← l.extentEffectivePayloadLen pr blocks storesExtentsHdr
    debugAssert pr (storesExtentsHdr = true ∨ len ≠ 0)
    if accountedLen ≤ len then do
      let x := len - accountedLen
      let y := min x remaining
      let allocated ← addU64 pr p.allocatedEffectivePayloadLen y
      let excess ← addU64 pr p.allocatedExcessEffectivePayloadLen (x - y)
      pure ({ p with
        allocatedEffectivePayloadLen := allocated
        allocatedExcessEffectivePayloadLen := excess }, blocks)
    else do
      debugAssert pr (accountedLen ≠ 0)
      debugAssert pr (p.allocatedExcessEffectivePayloadLen = 0)
      let allocated ← subU64 pr p.allocatedEffectivePayloadLen (accountedLen - len)
      pure ({ p with allocatedEffectivePayloadLen := allocated }, blocks)

/-- What had been gained is to be allocated first, the rest of it is excess. -/
def accountGain (p : ExtentsAllocationRequestProgress) (gainedLen : Nat) :
    Comp ExtentsAllocationRequestProgress := do
  let remaining ← remainingEffectivePayloadLen pr p
  let x := min gainedLen remaining
  let allocated ← addU64 pr p.allocatedEffectivePayloadLen x
  let excess ← addU64 pr p.allocatedExcessEffectivePayloadLen (gainedLen - x)
  pure { p with
    allocatedEffectivePayloadLen := allocated
    allocatedExcessEffectivePayloadLen := excess }

end Progress

/-- What an extent provides less if the extents header is stored there. -/
def hdrCost (l : ExtentsLayout) (n : Nat) : Nat := l.providedLen n false - l.providedLen n true

section Cost

variable {l : ExtentsLayout} {n n' : Nat} (pr : Profile) (hv : l.Bounded)
include hv

omit hv in
theorem headersLen_true (l : ExtentsLayout) :
    l.headersLen true = l.extentsHdrLen + l.headersLen false := by
  simp [headersLen]

/-- What's beyond the alignment in the end of a length that's aligned itself. -/
theorem sub_mod_eq_padding {len total : Nat} (hlen : len ≤ total) (htotal : total < 2 ^ 64)
    (hdvd : l.extentPayloadLenAlignment ∣ total) :
    (total - len) % l.extentPayloadLenAlignment = l.payloadLenPadding len := by
  have hpos := hv.payloadAlignment_pos
  have hadd := ExtentsLayout.add_payloadLenPadding hpos hv.payloadAlignment_lt
    (lt_of_le_of_lt hlen htotal)
  have hup := roundUp_lt len hpos
  have hle := roundUp_le_of_dvd hpos hdvd hlen
  have haligned : l.extentPayloadLenAlignment ∣ total - (len + l.payloadLenPadding len) := by
    rw [hadd]
    exact Nat.dvd_sub hdvd (dvd_mul_left _ _)
  obtain ⟨q, hq⟩ := haligned
  rw [show total - len = l.payloadLenPadding len + l.extentPayloadLenAlignment * q by omega,
    add_mul_mod_self_left, mod_eq_of_lt (by omega)]

theorem providedLen_true_le (h : l.Fits n true 0) :
    l.providedLen n true ≤ l.providedLen n false := by
  rw [hv.le_providedLen_iff h.tail]
  exact ((hv.le_providedLen_iff h).mp le_rfl).tail

theorem providedLen_add_hdrCost (h : l.Fits n true 0) :
    l.providedLen n true + hdrCost l n = l.providedLen n false :=
  Nat.add_sub_cancel' (providedLen_true_le hv h)

theorem providedLen_mono (hn : n ≤ n') (h : l.Fits n first 0) :
    l.providedLen n first ≤ l.providedLen n' first := by
  rw [hv.le_providedLen_iff (h.mono hn)]
  exact ((hv.le_providedLen_iff h).mp le_rfl).mono hn

omit hv in
theorem providedLen_le (l : ExtentsLayout) (n : Nat) (first : Bool) :
    l.providedLen n first ≤ n * 2 ^ l.blockLenLog2 :=
  le_trans (sub_le _ _) (le_trans (div_mul_le_self _ _) (sub_le _ _))

/-- The extents header and the difference in what's beyond the payload alignment. -/
theorem hdrCost_eq (h : l.Fits n true 0) :
    (n * 2 ^ l.blockLenLog2 - l.headersLen false) % l.extentPayloadLenAlignment ≤ l.extentsHdrLen +
        (n * 2 ^ l.blockLenLog2 - l.headersLen true) % l.extentPayloadLenAlignment ∧
      hdrCost l n = l.extentsHdrLen +
        (n * 2 ^ l.blockLenLog2 - l.headersLen true) % l.extentPayloadLenAlignment -
          (n * 2 ^ l.blockLenLog2 - l.headersLen false) % l.extentPayloadLenAlignment := by
  have hpos := hv.payloadAlignment_pos
  have hroom : 0 + l.extentPayloadHdrLen ≤ (n * 2 ^ l.blockLenLog2 - l.headersLen true) /
      l.extentPayloadLenAlignment * l.extentPayloadLenAlignment := by
    rw [← roundUp_le_iff hpos]
    rw [ExtentsLayout.Fits] at h
    omega
  have hle : l.headersLen true ≤ n * 2 ^ l.blockLenLog2 := le_trans (Nat.le_add_right _ _) h
  have hhdr := headersLen_true l
  have hfloor := Nat.mul_le_mul_right l.extentPayloadLenAlignment (Nat.div_le_div_right
    (c := l.extentPayloadLenAlignment) (show n * 2 ^ l.blockLenLog2 - l.headersLen true ≤
      n * 2 ^ l.blockLenLog2 - l.headersLen false by omega))
  have hmod := mod_le (n * 2 ^ l.blockLenLog2 - l.headersLen true) l.extentPayloadLenAlignment
  have hmod' := mod_le (n * 2 ^ l.blockLenLog2 - l.headersLen false) l.extentPayloadLenAlignment
  rw [hdrCost, providedLen, providedLen]
  rw [div_mul_self_eq_mod_sub_self] at *
  rw [div_mul_self_eq_mod_sub_self] at *
  omega

theorem payloadAlignment_dvd (h : isPow2 l.extentPayloadLenAlignment = true) :
    l.extentPayloadLenAlignment ∣ 2 ^ l.blockLenLog2 := by
  obtain ⟨k, hk⟩ := exists_of_isPow2 hv.payloadAlignment_pos h
  have hlt := hv.payloadAlignment_lt
  rw [hk] at hlt ⊢
  have hlt : k < 8 := (Nat.pow_lt_pow_iff_right (by decide)).mp hlt
  apply pow_dvd_pow
  rw [blockLenLog2]
  omega

theorem hdrCost_of_isPow2 (hn : n ≤ l.maxExtentAllocationBlocks) (h : l.Fits n true 0)
    (hpow2 : isPow2 l.extentPayloadLenAlignment = true) :
    l.payloadLenPadding l.extentHdrLen ≤
        l.extentsHdrLen + l.payloadLenPadding (l.extentsHdrLen + l.extentHdrLen) ∧
      hdrCost l n = l.extentsHdrLen + l.payloadLenPadding (l.extentsHdrLen + l.extentHdrLen) -
        l.payloadLenPadding l.extentHdrLen := by
  have hlt : n * 2 ^ l.blockLenLog2 < 2 ^ 64 :=
    lt_of_le_of_lt (Nat.mul_le_mul_right _ hn) hv.maxLen_lt
  have hdvd := Dvd.dvd.mul_left (payloadAlignment_dvd hv hpow2) n
  have hle : l.headersLen true ≤ n * 2 ^ l.blockLenLog2 := le_trans (Nat.le_add_right _ _) h
  have hhdr := headersLen_true l
  have hfalse : l.headersLen false = l.extentHdrLen := by simp [headersLen]
  have hcost := hdrCost_eq hv h
  rwa [sub_mod_eq_padding hv hle hlt hdvd, sub_mod_eq_padding hv (by omega) hlt hdvd, hhdr,
    hfalse] at hcost

omit hv in
theorem hdrCost_eq_zero (h : l.extentsHdrLen = 0) : hdrCost l n = 0 := by
  have hhdr : l.headersLen true = l.headersLen false := by rw [headersLen_true, h, zero_add]
  rw [hdrCost, providedLen, providedLen, hhdr, Nat.sub_self]

theorem isInvariant_of_isPow2 (h : isPow2 l.extentPayloadLenAlignment = true)
    (hne : l.extentsHdrLen ≠ 0) : extentsHdrPlacementCostIsInvariant pr l = .ok true := by
  have hdvd := payloadAlignment_dvd hv h
  have hle := le_of_dvd (Nat.two_pow_pos _) hdvd
  have hpow : 2 ^ l.blockLenLog2 ≤ 2 ^ (l.extentAlignmentAllocationBlocksLog2 + l.blockLenLog2) :=
    Nat.pow_le_pow_right (by decide) (Nat.le_add_left _ _)
  have hlt : 2 ^ (l.extentAlignmentAllocationBlocksLog2 + l.blockLenLog2) < 2 ^ 64 :=
    Nat.pow_lt_pow_right (by decide) hv.alignmentLog2_lt
  rw [extentsHdrPlacementCostIsInvariant, if_neg hne, if_pos h,
    shlU64_ok pr hv.alignmentLog2_lt (by omega), ok_bind, debugAssert_ok pr (by omega)]
  rfl

theorem extentsHdrPlacementCost_ok (hn : n ≤ l.maxExtentAllocationBlocks) (hn0 : n ≠ 0)
    (h : l.Fits n true 0) : extentsHdrPlacementCost pr l n = .ok (hdrCost l n) := by
  have hlt : n * 2 ^ l.blockLenLog2 < 2 ^ 64 :=
    lt_of_le_of_lt (Nat.mul_le_mul_right _ hn) hv.maxLen_lt
  have hle : l.headersLen true ≤ n * 2 ^ l.blockLenLog2 := le_trans (Nat.le_add_right _ _) h
  have hhdr := headersLen_true l
  have hfalse : l.headersLen false = l.extentHdrLen := by simp [headersLen]
  have hlen := hv.extentsHdrLen_lt
  have halign := hv.payloadAlignment_lt
  rw [extentsHdrPlacementCost, debugAssert_ok pr hn, ok_bind, debugAssert_ok pr hn0, ok_bind]
  split
  · rename_i hzero
    rw [hdrCost_eq_zero hzero]
    rfl
  · rename_i hne
    split
    · rename_i hpow2
      have hdvd := Dvd.dvd.mul_left (payloadAlignment_dvd hv hpow2) n
      obtain ⟨hsub, hcost⟩ := hdrCost_of_isPow2 hv hn h hpow2
      have hpadding : l.payloadLenPadding (l.extentsHdrLen + l.extentHdrLen) <
          l.extentPayloadLenAlignment := by
        rw [← hfalse, ← hhdr, ← sub_mod_eq_padding hv hle hlt hdvd]
        exact mod_lt _ hv.payloadAlignment_pos
      rw [isInvariant_of_isPow2 pr hv hpow2 hne, ok_bind, debugAssert_ok pr rfl, ok_bind]
      dsimp only
      rw [addU64_ok pr (by omega), ok_bind, subU64_ok pr hsub, hcost]
    · obtain ⟨hsub, hcost⟩ := hdrCost_eq hv h
      have hmod := mod_lt (n * 2 ^ l.blockLenLog2 - l.headersLen true) hv.payloadAlignment_pos
      have hsplit : n * 2 ^ l.blockLenLog2 - l.headersLen true =
          n * 2 ^ l.blockLenLog2 - l.extentHdrLen - l.extentsHdrLen := by omega
      rw [hsplit] at hmod
      rw [hsplit, hfalse] at hsub hcost
      rw [shlU64_ok pr hv.blockLenLog2_lt hlt, ok_bind,
        subU64_ok pr (show l.extentHdrLen ≤ n * 2 ^ l.blockLenLog2 by omega), ok_bind,
        subU64_ok pr (show l.extentsHdrLen ≤ n * 2 ^ l.blockLenLog2 - l.extentHdrLen by omega),
        ok_bind, addU64_ok pr (by omega), ok_bind, subU64_ok pr hsub, hcost]

theorem hdrCost_invariant (hinvariant : extentsHdrPlacementCostIsInvariant pr l = .ok true)
    (hn : n ≤ l.maxExtentAllocationBlocks) (hn' : n' ≤ l.maxExtentAllocationBlocks)
    (h : l.Fits n true 0) (h' : l.Fits n' true 0) : hdrCost l n = hdrCost l n' := by
  rw [extentsHdrPlacementCostIsInvariant] at hinvariant
  split at hinvariant
  · rename_i hzero
    rw [hdrCost_eq_zero hzero, hdrCost_eq_zero hzero]
  · split at hinvariant
    · rename_i hpow2
      rw [(hdrCost_of_isPow2 hv hn h hpow2).2, (hdrCost_of_isPow2 hv hn' h' hpow2).2]
    · have hdvd := of_decide_eq_true (Except.ok.inj hinvariant)
      have hcost {m : Nat} (hm : l.Fits m true 0) : hdrCost l m = l.extentsHdrLen := by
        have hle : l.headersLen true ≤ m * 2 ^ l.blockLenLog2 := le_trans (Nat.le_add_right _ _) hm
        have hhdr := headersLen_true l
        obtain ⟨q, hq⟩ := dvd_of_mod_eq_zero hdvd
        rw [(hdrCost_eq hv hm).2, show m * 2 ^ l.blockLenLog2 - l.headersLen false =
            m * 2 ^ l.blockLenLog2 - l.headersLen true + l.extentPayloadLenAlignment * q by omega,
          add_mul_mod_self_left, Nat.add_sub_cancel]
      rw [hcost h, hcost h']

end Cost

/-- Extents of whole bitmap words may be of any length, and may store the extents header. -/
structure WordExtents (l : ExtentsLayout) : Prop where
  bounded : l.Bounded
  alignmentLog2_le : l.extentAlignmentAllocationBlocksLog2 ≤ 6
  headFits : l.Fits 64 true 0

def accountedLen (p : ExtentsAllocationRequestProgress) : Nat :=
  p.allocatedEffectivePayloadLen + p.allocatedExcessEffectivePayloadLen

structure Balanced (p : ExtentsAllocationRequestProgress) : Prop where
  total_lt : p.request.totalEffectivePayloadLen < 2 ^ 64
  allocated_le : p.allocatedEffectivePayloadLen ≤ p.request.totalEffectivePayloadLen
  excess : p.allocatedExcessEffectivePayloadLen = 0 ∨
    p.allocatedEffectivePayloadLen = p.request.totalEffectivePayloadLen

section Fit

variable {l : ExtentsLayout} {n m : Nat} {p p' : ExtentsAllocationRequestProgress} (pr : Profile)

theorem WordExtents.fits (hw : WordExtents l) (hdvd : 64 ∣ n) (hpos : 0 < n) (first : Bool) :
    l.Fits n first 0 := by
  have h := hw.headFits.mono (le_of_dvd hpos hdvd)
  cases first with
  | true => exact h
  | false => exact h.tail

theorem WordExtents.providedLen_ok (hw : WordExtents l) (hdvd : 64 ∣ n) (hpos : 0 < n)
    (hmax : n ≤ l.maxExtentAllocationBlocks) (first : Bool) :
    l.extentEffectivePayloadLen pr n first = .ok (l.providedLen n first) :=
  hw.bounded.extentEffectivePayloadLen_ok pr hmax hpos.ne' (hw.fits hdvd hpos first)

theorem providedLen_zero (l : ExtentsLayout) (first : Bool) : l.providedLen 0 first = 0 := by
  simp [providedLen]

theorem Balanced.remaining_ok (hp : Balanced p) : remainingEffectivePayloadLen pr p =
    .ok (p.request.totalEffectivePayloadLen - p.allocatedEffectivePayloadLen) := by
  have hle := hp.allocated_le
  have hexcess := hp.excess
  rw [remainingEffectivePayloadLen, subU64_ok pr hle, ok_bind, debugAssert_ok pr (by omega)]
  rfl

theorem Balanced.accountGain_ok (hp : Balanced p) {gainedLen : Nat}
    (hlt : accountedLen p + gainedLen < 2 ^ 64) :
    ∃ p', accountGain pr p gainedLen = .ok p' ∧ p'.request = p.request ∧ Balanced p' ∧
      accountedLen p' = accountedLen p + gainedLen := by
  have hle := hp.allocated_le
  have htotal := hp.total_lt
  have hexcess := hp.excess
  rw [accountedLen] at hlt
  rw [accountGain, hp.remaining_ok pr, ok_bind]
  dsimp only
  rw [addU64_ok pr (by omega), ok_bind, addU64_ok pr (by omega), ok_bind]
  refine ⟨_, rfl, rfl, ⟨htotal, ?_, ?_⟩, ?_⟩
  · dsimp only
    omega
  · dsimp only
    omega
  · rw [accountedLen, accountedLen]
    dsimp only
    omega

/-- Nothing is provided by no blocks, if there is nothing to be stored but payload. -/
theorem effectivePayloadLen_of_ok {pr : Profile} (hv : l.Bounded) {first : Bool} {len : Nat}
    (hmax : n ≤ l.maxExtentAllocationBlocks) (hfits : l.Fits n first 0)
    (h : l.extentEffectivePayloadLen pr n first = .ok len) : len = l.providedLen n first := by
  rcases Nat.eq_zero_or_pos n with rfl | hpos
  · have hle := le_roundUp (0 + l.extentPayloadHdrLen) hv.payloadAlignment_pos
    rw [ExtentsLayout.Fits, zero_mul, headersLen] at hfits
    obtain ⟨⟨⟩, -, h⟩ := bind_eq_ok h
    obtain ⟨⟨⟩, -, h⟩ := bind_eq_ok h
    rw [shlU64_ok pr hv.blockLenLog2_lt (by omega), ok_bind, subU64_ok pr (by omega), ok_bind,
      subU64_ok pr (by omega), ok_bind] at h
    rw [zero_mul, Nat.zero_sub, Nat.zero_sub,
      ExtentsLayout.payloadExcessLen_eq hv.payloadAlignment_pos, zero_mod,
      subU64_ok pr (le_refl 0), ok_bind, subU64_ok pr (by omega), Nat.zero_sub] at h
    rw [providedLen_zero]
    exact (Except.ok.inj h).symm
  · rw [hv.extentEffectivePayloadLen_ok pr hmax hpos.ne' hfits] at h
    exact (Except.ok.inj h).symm

theorem WordExtents.blocks_le (hw : WordExtents l) {len blocks : Nat} {first fits : Bool}
    (hdvd : 64 ∣ m) (hpos : 0 < m) (hmax : m ≤ l.maxExtentAllocationBlocks)
    (hlen : len ≤ l.providedLen m first) (hblocks : l.Blocks first len blocks fits) :
    blocks ≤ m ∧ l.Holds blocks first len := by
  have hfits := (hw.bounded.le_providedLen_iff (hw.fits hdvd hpos first)).mp hlen
  have haligned : 2 ^ l.extentAlignmentAllocationBlocksLog2 ∣ m :=
    dvd_trans (pow_dvd_pow 2 hw.alignmentLog2_le) hdvd
  refine ⟨Nat.le_of_not_lt fun hlt => hblocks.least m haligned hlt (.inr hfits), ?_⟩
  cases fits with
  | true => exact hblocks.holds rfl
  | false =>
    obtain ⟨heq, hnot⟩ := hblocks.capped rfl
    exact absurd (.inr (hfits.mono (heq ▸ hmax))) hnot

/-- What the extent is accounted for with afterwards is what it then provides. -/
theorem WordExtents.fitAllocatedExtent_of_ok (hw : WordExtents l) (hl : p.request.layout = l)
    (hp : Balanced p) {len maxFinalRemainingLen : Nat} {first : Bool} (hdvd : 64 ∣ m)
    (hpos : 0 < m) (hmax : m ≤ l.maxExtentAllocationBlocks) (hlen : len ≤ l.providedLen m first)
    (hle : len ≤ accountedLen p) (hlt : accountedLen p - len + l.providedLen m first < 2 ^ 64)
    (h : fitAllocatedExtentToEffectivePayloadLen pr p len first maxFinalRemainingLen 6 =
      .ok (p', n)) :
    p'.request = p.request ∧ Balanced p' ∧ 64 ∣ n ∧ n ≤ m ∧
      accountedLen p' + len = accountedLen p + l.providedLen n first ∧
        (n = 0 → first = false ∨ l.extentsHdrLen = 0) ∧ (first = false → len = 0 → n = 0) := by
  have htotal := hp.total_lt
  have hallocated := hp.allocated_le
  have hexcess := hp.excess
  obtain ⟨⟨⟩, -, h⟩ := bind_eq_ok h
  dsimp only at h
  obtain ⟨⟨⟩, -, h⟩ := bind_eq_ok h
  rw [accountedLen] at hle hlt
  have hp₁ : Balanced { p with allocatedExcessEffectivePayloadLen :=
      p.allocatedExcessEffectivePayloadLen - min len p.allocatedExcessEffectivePayloadLen } :=
    ⟨htotal, hallocated, by dsimp only; omega⟩
  rw [hp₁.remaining_ok pr, ok_bind] at h
  rw [hl] at h
  split at h
  · rename_i hnone
    rw [subU64_ok pr (by omega), ok_bind] at h
    cases Except.ok.inj h
    refine ⟨rfl, ⟨htotal, ?_, ?_⟩, dvd_zero _, zero_le _, ?_, fun _ => .inl hnone.1, fun _ _ => rfl⟩
    · dsimp only
      omega
    · dsimp only
      omega
    · rw [providedLen_zero, accountedLen, accountedLen]
      dsimp only
      omega
  · rename_i hsome
    obtain ⟨⟨blocks, fits⟩, hblocks, h⟩ := bind_eq_ok h
    obtain ⟨blocks', fits', hok, hspec⟩ := hw.bounded.exists_blocks pr first
      (len - min len p.allocatedExcessEffectivePayloadLen - (maxFinalRemainingLen -
        (p.request.totalEffectivePayloadLen - p.allocatedEffectivePayloadLen)))
    cases Except.ok.inj (hblocks.symm.trans hok)
    obtain ⟨hblocksLe, hholds⟩ := hw.blocks_le hdvd hpos hmax (by omega) hspec
    have hup : roundUpPow2Unchecked pr (min blocks (roundDownPow2 l.maxExtentAllocationBlocks
        (max 6 l.extentAlignmentAllocationBlocksLog2)))
        (max 6 l.extentAlignmentAllocationBlocksLog2) = .ok (roundUp blocks 64) := by
      have hmaxLt := hw.bounded.maxBlocks_lt
      rw [max_eq_left hw.alignmentLog2_le, roundDownPow2, min_eq_left (by omega)]
      exact ExtentsLayout.roundUpPow2Unchecked_roundUp pr (by decide) (by omega)
    have hleUp := le_roundUp blocks (show 0 < 64 by decide)
    have hupLe := roundUp_le_of_dvd (by decide) hdvd hblocksLe
    have hupDvd : 64 ∣ roundUp blocks 64 := dvd_mul_left _ _
    rw [hup, ok_bind] at h
    generalize roundUp blocks 64 = up at h hleUp hupLe hupDvd
    have hfits : l.Fits up first (len - min len p.allocatedExcessEffectivePayloadLen -
        (maxFinalRemainingLen -
          (p.request.totalEffectivePayloadLen - p.allocatedEffectivePayloadLen))) := by
      rcases hholds with ⟨hfirst, -, hzero⟩ | hfits
      · exact absurd ⟨hfirst, hzero⟩ hsome
      · exact hfits.mono hleUp
    have hfits₀ := hfits.of_le hw.bounded.payloadAlignment_pos (zero_le _)
    obtain ⟨⟨⟩, -, h⟩ := bind_eq_ok h
    obtain ⟨provided, hprovided, h⟩ := bind_eq_ok h
    obtain rfl := effectivePayloadLen_of_ok hw.bounded (le_trans hupLe hmax) hfits₀ hprovided
    have hmono := providedLen_mono hw.bounded hupLe hfits₀
    have hzero (hup : up = 0) : first = false ∨ l.extentsHdrLen = 0 := by
      rw [hup, ExtentsLayout.Fits, zero_mul, headersLen] at hfits₀
      cases first with
      | false => exact .inl rfl
      | true => exact .inr (by rw [if_pos rfl] at hfits₀; omega)
    have hsome' (hfirst : first = false) (hlen : len = 0) : up = 0 :=
      absurd ⟨hfirst, by omega⟩ hsome
    obtain ⟨⟨⟩, -, h⟩ := bind_eq_ok h
    split at h
    · rw [addU64_ok pr (by omega), ok_bind, addU64_ok pr (by omega), ok_bind] at h
      cases Except.ok.inj h
      refine ⟨rfl, ⟨htotal, ?_, ?_⟩, hupDvd, hupLe, ?_, hzero, hsome'⟩
      · dsimp only
        omega
      · dsimp only
        omega
      · rw [accountedLen, accountedLen]
        dsimp only
        omega
    · obtain ⟨⟨⟩, -, h⟩ := bind_eq_ok h
      obtain ⟨⟨⟩, -, h⟩ := bind_eq_ok h
      rw [subU64_ok pr (by omega), ok_bind] at h
      cases Except.ok.inj h
      refine ⟨rfl, ⟨htotal, ?_, ?_⟩, hupDvd, hupLe, ?_, hzero, hsome'⟩
      · dsimp only
        omega
      · dsimp only
        omega
      · rw [accountedLen, accountedLen]
        dsimp only
        omega

end Fit

end CocoonFs.AllocationProgress
