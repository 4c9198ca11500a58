import CocoonFs.ExtentsLayouts

namespace CocoonFs.ExtentsAdjoint

open Checked BackupLocation ExtentsLayouts
open ExtentsLayout (headersLen minExtentsAllocationBlocks new new_valid)

/-- The effective payload length in unbounded arithmetic, negative if the headers don't
fit. -/
def effectiveLen (l : ExtentsLayout) (n : Nat) (storesExtentsHdr : Bool) : Int :=
  ((n * 2 ^ l.blockLenLog2 : Nat) - (l.headersLen storesExtentsHdr : Int)) /
    l.extentPayloadLenAlignment * l.extentPayloadLenAlignment - l.extentPayloadHdrLen

/-- An aligned length within the maximum that provides for the payload. No extent is needed
for nothing at all, unless it's the one to store the extents header. -/
structure Offers (l : ExtentsLayout) (storesExtentsHdr : Bool) (len n : Nat) : Prop where
  aligned : 2 ^ l.extentAlignmentAllocationBlocksLog2 ∣ n
  le_max : n ≤ l.maxExtentAllocationBlocks
  provides : (storesExtentsHdr = false ∧ n = 0 ∧ len = 0) ∨
    (len : Int) ≤ effectiveLen l n storesExtentsHdr

/-- The two computations convert back and forth for all lengths from the minimum on. -/
structure Adjoint (pr : Profile) (l : ExtentsLayout) (storesExtentsHdr : Bool) (minBlocks : Nat) :
    Prop where
  blocks : ∀ len < 2 ^ 64, ∃ n fits,
    l.extentPayloadLenToAllocationBlocks pr len storesExtentsHdr = .ok (n, fits) ∧
      (fits = true ↔ ∃ m, Offers l storesExtentsHdr len m) ∧
      (fits = true → IsLeast {m | Offers l storesExtentsHdr len m} n) ∧
      (fits = false → n = l.maxExtentAllocationBlocks)
  effective : ∀ n, 2 ^ l.extentAlignmentAllocationBlocksLog2 ∣ n → minBlocks ≤ n →
    n ≤ l.maxExtentAllocationBlocks → ∃ k : Nat,
      l.extentEffectivePayloadLen pr n storesExtentsHdr = .ok k ∧
        (k : Int) = effectiveLen l n storesExtentsHdr

section Bounded

variable {l : ExtentsLayout} {n len head tail : Nat} {first : Bool} (pr : Profile)

theorem roundUp_le_iff_int {len alignment hdr total : Nat} (ha : 0 < alignment) :
    hdr + roundUp len alignment ≤ total ↔
      (len : Int) ≤ ((total : Int) - hdr) / alignment * alignment := by
  rcases Nat.lt_or_ge total hdr with hlt | hle
  · have hneg : ((total : Int) - hdr) / alignment * alignment ≤ (total : Int) - hdr :=
      Int.ediv_mul_le _ (by omega)
    constructor <;> intro h <;> omega
  · obtain ⟨room, rfl⟩ := Nat.exists_eq_add_of_le hle
    have hroom : ((hdr + room : Nat) : Int) - hdr = room := by omega
    rw [hroom, ← Int.natCast_ediv, ← Int.natCast_mul, Int.ofNat_le, ← roundUp_le_iff ha]
    omega

section

variable (hv : l.Bounded)
include hv

theorem fits_iff_le_effectiveLen :
    l.Fits n first len ↔ (len : Int) ≤ effectiveLen l n first := by
  rw [ExtentsLayout.Fits, roundUp_le_iff_int hv.payloadAlignment_pos, effectiveLen]
  omega

theorem offers_iff :
    Offers l first len n ↔ 2 ^ l.extentAlignmentAllocationBlocksLog2 ∣ n ∧
      n ≤ l.maxExtentAllocationBlocks ∧ l.Holds n first len := by
  rw [ExtentsLayout.Holds, fits_iff_le_effectiveLen hv]
  exact ⟨fun h => ⟨h.aligned, h.le_max, h.provides⟩, fun h => ⟨h.1, h.2.1, h.2.2⟩⟩

theorem providedLen_eq_effectiveLen (h : l.Fits n first 0) :
    (l.providedLen n first : Int) = effectiveLen l n first := by
  have hle := (fits_iff_le_effectiveLen hv).mp ((hv.le_providedLen_iff h).mp le_rfl)
  have hge : (effectiveLen l n first).toNat ≤ l.providedLen n first := by
    rw [hv.le_providedLen_iff h, fits_iff_le_effectiveLen hv]
    omega
  omega

theorem blocks_offered (first : Bool) (len : Nat) :
    ∃ n fits, l.extentPayloadLenToAllocationBlocks pr len first = .ok (n, fits) ∧
      (fits = true ↔ ∃ m, Offers l first len m) ∧
      (fits = true → IsLeast {m | Offers l first len m} n) ∧
      (fits = false → n = l.maxExtentAllocationBlocks) := by
  obtain ⟨n, fits, hok, hblocks⟩ := hv.exists_blocks pr first len
  have hoffer (h : fits = true) : Offers l first len n :=
    (offers_iff hv).mpr ⟨hblocks.aligned, hblocks.le_max, hblocks.holds h⟩
  have hleast (m : Nat) (hm : Offers l first len m) : n ≤ m := by
    obtain ⟨haligned, -, hholds⟩ := (offers_iff hv).mp hm
    exact Nat.le_of_not_lt fun hlt => hblocks.least m haligned hlt hholds
  refine ⟨n, fits, hok, ⟨fun h => ⟨n, hoffer h⟩, ?_⟩, fun h => ⟨hoffer h, hleast⟩,
    fun h => (hblocks.capped h).1⟩
  rintro ⟨m, hm⟩
  by_contra hfits
  obtain ⟨heq, hnot⟩ := hblocks.capped (Bool.eq_false_iff.mpr hfits)
  have hmn := le_antisymm (heq ▸ hm.le_max) (hleast m hm)
  exact hnot (hmn ▸ ((offers_iff hv).mp hm).2.2)

theorem effective_ok (hpos : n ≠ 0) (hmax : n ≤ l.maxExtentAllocationBlocks)
    (hfits : l.Fits n first 0) : ∃ k : Nat, l.extentEffectivePayloadLen pr n first = .ok k ∧
      (k : Int) = effectiveLen l n first :=
  ⟨_, hv.extentEffectivePayloadLen_ok pr hmax hpos hfits, providedLen_eq_effectiveLen hv hfits⟩

theorem pos_of_fits (h : l.Fits n false len) (hlen : len ≠ 0) : 0 < n := by
  have hle := le_roundUp (len + l.extentPayloadHdrLen) hv.payloadAlignment_pos
  by_contra hzero
  rw [ExtentsLayout.Fits, Nat.eq_zero_of_not_pos hzero] at h
  omega

end

theorem fits_true_iff (h : l.extentsHdrLen = 0) : l.Fits n true len ↔ l.Fits n false len := by
  simp [ExtentsLayout.Fits, headersLen, h]

/-- The least lengths of the first extent, which may be of the headers only, and of the others. -/
structure MinExtents (l : ExtentsLayout) (head tail : Nat) : Prop where
  tail_aligned : 2 ^ l.extentAlignmentAllocationBlocksLog2 ∣ tail
  tail_fits : l.Fits tail false 1
  tail_least : ∀ n, 2 ^ l.extentAlignmentAllocationBlocksLog2 ∣ n → l.Fits n false 1 → tail ≤ n
  head_fits : l.Fits head true 0
  head_ne : head ≠ 0

theorem minExtentsAllocationBlocks_ok (hl : l.Valid) : ∃ head tail,
    l.minExtentsAllocationBlocks pr = .ok (head, tail) ∧ MinExtents l head tail := by
  obtain ⟨tail, fits, htail, hblocks⟩ := hl.exists_blocks pr false 1
  have hfits : fits = true := by
    by_contra h
    obtain ⟨rfl, hnot⟩ := hblocks.capped (Bool.eq_false_iff.mpr h)
    exact hnot (.inr hl.tailFits)
  have htailFits : l.Fits tail false 1 := by
    rcases hblocks.holds hfits with ⟨-, -, hone⟩ | hfits
    · exact absurd hone Nat.one_ne_zero
    · exact hfits
  have hleast (n : Nat) (hdvd : 2 ^ l.extentAlignmentAllocationBlocksLog2 ∣ n)
      (hn : l.Fits n false 1) : tail ≤ n :=
    Nat.le_of_not_lt fun hlt => hblocks.least n hdvd hlt (.inr hn)
  rw [minExtentsAllocationBlocks, htail, ok_bind]
  dsimp only
  rw [debugAssert_ok pr hfits, ok_bind]
  by_cases hhdr : l.extentsHdrLen = 0
  · rw [if_neg (not_not.mpr hhdr)]
    exact ⟨tail, tail, rfl, hblocks.aligned, htailFits, hleast,
      (fits_true_iff hhdr).mpr (htailFits.of_le hl.payloadAlignment_pos (Nat.zero_le _)),
      (pos_of_fits hl.toBounded htailFits Nat.one_ne_zero).ne'⟩
  · obtain ⟨head, fits', hhead, hblocks'⟩ := hl.exists_blocks pr true 0
    have hfits' : fits' = true := by
      by_contra h
      obtain ⟨rfl, hnot⟩ := hblocks'.capped (Bool.eq_false_iff.mpr h)
      exact hnot (.inr hl.headFits)
    have hheadFits : l.Fits head true 0 := by
      rcases hblocks'.holds hfits' with ⟨hfalse, -, -⟩ | hfits
      · exact absurd hfalse.symm Bool.false_ne_true
      · exact hfits
    rw [if_pos hhdr, hhead, ok_bind]
    rw [debugAssert_ok pr hfits', ok_bind]
    refine ⟨head, tail, rfl, hblocks.aligned, htailFits, hleast, hheadFits, ?_⟩
    rintro rfl
    rw [ExtentsLayout.Fits, headersLen, if_pos rfl] at hheadFits
    omega

theorem minExtents_of_ok {pr : Profile} (hl : l.Valid)
    (h : l.minExtentsAllocationBlocks pr = .ok (head, tail)) : MinExtents l head tail := by
  obtain ⟨head', tail', hok, hmin⟩ := minExtentsAllocationBlocks_ok pr hl
  cases Except.ok.inj (hok.symm.trans h)
  exact hmin

end Bounded

theorem new_adjoint {pr : Profile} {maxBlocks : Option Nat} {a H h p A s : Nat} {l : ExtentsLayout}
    (hH : H < 2 ^ 32) (hh : h < 2 ^ 32) (hp : p < 2 ^ 32) (hA : A < 2 ^ 8)
    (hok : new pr maxBlocks a H h p A s = .ok l) :
    ∃ head tail, l.minExtentsAllocationBlocks pr = .ok (head, tail) ∧ Adjoint pr l true head ∧
      Adjoint pr l false tail := by
  have hl := new_valid hH hh hp hA hok
  obtain ⟨head, tail, hok, hmin⟩ := minExtentsAllocationBlocks_ok pr hl
  have htail := hmin.tail_fits.of_le hl.payloadAlignment_pos (Nat.zero_le _)
  have htail₀ := pos_of_fits hl.toBounded hmin.tail_fits Nat.one_ne_zero
  have hhead₀ := hmin.head_ne
  refine ⟨head, tail, hok, ⟨?_, ?_⟩, ⟨?_, ?_⟩⟩
  · exact fun len _ => blocks_offered pr hl.toBounded true len
  · exact fun n _ hge hle => effective_ok pr hl.toBounded (by omega) hle (hmin.head_fits.mono hge)
  · exact fun len _ => blocks_offered pr hl.toBounded false len
  · exact fun n _ hge hle => effective_ok pr hl.toBounded (by omega) hle (htail.mono hge)

theorem new_adjoint_integrityProtected :
    ∃ head tail, minExtentsAllocationBlocks .debug ⟨2 ^ 57 - 2, 1, 16, 12, 8, 16, 0⟩ =
        .ok (head, tail) ∧
      Adjoint .debug ⟨2 ^ 57 - 2, 1, 16, 12, 8, 16, 0⟩ true head ∧
      Adjoint .debug ⟨2 ^ 57 - 2, 1, 16, 12, 8, 16, 0⟩ false tail :=
  new_adjoint (H := 16) (h := 12) (p := 8) (A := 16) (by decide) (by decide) (by decide) (by decide)
    (show new .debug none 1 16 12 8 16 0 = _ from rfl)

end CocoonFs.ExtentsAdjoint
