import CocoonFs.FindFreeSubwordChunk

namespace CocoonFs.SubwordChunkSafety

open Bitmap Checked Extents FindFreeSubwordChunk FreeChunks MaxstrLens
open TreeShape (significantBits)

def Safe (pr : Profile) (b : SearchedBitmap) (req : ChunkRequest) : Prop :=
  ∀ chunk, findFreeSubwordChunk pr b req = .ok (some chunk) →
    FreeChunk b req.allocatedFullwordChunks req.chunkAllocationBlocks
      req.chunkAlignmentAllocationBlocksLog2 chunk

/-- The chunk lengths not affected by any length of a string that is off. -/
def SafeRequest (n alignmentLog2 : Nat) (optimizePlacement : Bool) : Prop :=
  n = 2 ^ significantBits (n - 1) ∨ optimizePlacement = false ∨ alignmentLog2 ≠ 0 ∨ 32 < n ∨
    3 * 2 ^ significantBits (n - 1) < 4 * n

instance (n alignmentLog2 : Nat) (optimizePlacement : Bool) :
    Decidable (SafeRequest n alignmentLog2 optimizePlacement) := inferInstanceAs (Decidable (_ ∨ _))

theorem undisturbed_of_word (b : SearchedBitmap) : Undisturbed b 6 := by
  rintro i - k - ⟨t, -, hlsb, -⟩
  have hlt := BitVec.lt_of_getLsbD hlsb
  omega

theorem significantBits_of_half_lt {n : Nat} (hlt : 32 < n) (hlt' : n < 64) :
    significantBits (n - 1) = 6 := by
  apply Nat.le_antisymm
  · exact (TreeShape.significantBits_le_iff _ _).mpr (by omega)
  · have hle := mt (TreeShape.significantBits_le_iff (n - 1) 5).mp (by omega)
    omega

/-- A string of half the block's length before the next block's only bit. -/
def disturbedStrings (n : Nat) : BitmapWord :=
  let block := 2 ^ significantBits (n - 1)
  BitVec.ofNat 64 (2 ^ (block / 2) - 1) <<< (block / 2 - block / 4 + 1) ||| BitVec.twoPow 64 block

def disturbedBitmap (n : Nat) : SearchedBitmap :=
  ⟨⟨[0, ~~~disturbedStrings n], by simp⟩, [], [], 128⟩

theorem disturbedBitmap_valid (n : Nat) : (disturbedBitmap n).Valid := by
  refine ⟨fun es hes => ?_, fun es hes => ?_, Nat.le_refl _⟩
  · cases hes
  · cases hes

theorem fullwordChunks_none (b : SearchedBitmap) : FullwordChunks b none := by
  refine ⟨fun r hr => ?_, fun r hr => ?_, fun r hr => ?_, fun r hr => ?_⟩ <;> cases hr

theorem eq_ok_of_toOption {α : Type} {x : Comp α} {a : α} (h : x.toOption = some a) : x = .ok a := by
  cases x with
  | error e => cases h
  | ok a' => rw [Option.some.inj h]

theorem not_safe_of_found {pr : Profile} {b : SearchedBitmap} {req : ChunkRequest} (chunk : Nat)
    (hpos : 0 < req.chunkAllocationBlocks)
    (hfound : (findFreeSubwordChunk pr b req).toOption = some (some chunk))
    (hset : ¬ b.IsFree chunk) : ¬ Safe pr b req := by
  intro hsafe
  exact hset ((hsafe chunk (eq_ok_of_toOption hfound)).free 0 hpos)

theorem disturbedBitmap_found : ∀ n < 33, 3 ≤ n → ¬ SafeRequest n 0 true →
    ∀ pr ∈ [Profile.debug, Profile.release],
      (findFreeSubwordChunk pr (disturbedBitmap n) ⟨n, 0, none, true⟩).toOption = some (some 65) := by
  decide +kernel

theorem disturbedBitmap_set : ∀ n < 33, 3 ≤ n → ¬ SafeRequest n 0 true →
    ¬ (disturbedBitmap n).IsFree 65 := by
  decide +kernel

theorem safe_of_request {pr : Profile} {b : SearchedBitmap} {n alignmentLog2 : Nat}
    {chunks : Option PhysicalExtents} {optimizePlacement : Bool} (hn : 3 ≤ n) (hn' : n < 64)
    (hdvd : 2 ^ alignmentLog2 ∣ n) (hvalid : b.Valid) (hchunks : FullwordChunks b chunks)
    (h : SafeRequest n alignmentLog2 optimizePlacement ∨ Undisturbed b (significantBits (n - 1))) :
    Safe pr b ⟨n, alignmentLog2, chunks, optimizePlacement⟩ := by
  intro chunk hfound
  refine findFreeSubwordChunk_of_ok hvalid hchunks (by dsimp only; omega) hn' hdvd ?_ hfound
  rcases h with hreq | hund
  · rcases hreq with hpow | hopt | halign | hhalf | hlong
    · exact .inl hpow
    · exact .inr (.inl (.inl hopt))
    · exact .inr (.inl (.inr (.inl halign)))
    · right
      right
      rw [significantBits_of_half_lt hhalf hn']
      exact undisturbed_of_word b
    · exact .inr (.inl (.inr (.inr hlong)))
  · exact .inr (.inr hund)

/-- A chunk found is a free one for all bitmaps, or else there is one it is not free in.
For a given bitmap, it is a free one already if no string's length is off. -/
theorem findFreeSubwordChunk_safe_iff (pr : Profile) {n alignmentLog2 : Nat}
    (optimizePlacement : Bool) (hn : 3 ≤ n) (hn' : n < 64) (hdvd : 2 ^ alignmentLog2 ∣ n) :
    ((∀ (b : SearchedBitmap) (chunks : Option PhysicalExtents), b.Valid → FullwordChunks b chunks →
      Safe pr b ⟨n, alignmentLog2, chunks, optimizePlacement⟩) ↔
        SafeRequest n alignmentLog2 optimizePlacement) ∧
    ∀ (b : SearchedBitmap) (chunks : Option PhysicalExtents), b.Valid → FullwordChunks b chunks →
      Undisturbed b (significantBits (n - 1)) →
        Safe pr b ⟨n, alignmentLog2, chunks, optimizePlacement⟩ := by
  refine ⟨⟨fun hsafe => ?_, fun hreq b chunks hvalid hchunks => ?_⟩,
    fun b chunks hvalid hchunks hund => ?_⟩
  · by_contra hreq
    have hunsafe := id hreq
    rw [SafeRequest] at hunsafe
    push Not at hunsafe
    obtain ⟨-, hopt, halign, hle, -⟩ := hunsafe
    obtain rfl : optimizePlacement = true := Bool.eq_true_of_not_eq_false hopt
    subst halign
    have hmem : pr ∈ [Profile.debug, Profile.release] := by cases pr <;> decide
    refine not_safe_of_found 65 (by dsimp only; omega)
      (disturbedBitmap_found n (by omega) hn hreq pr hmem)
      (disturbedBitmap_set n (by omega) hn hreq)
      (hsafe (disturbedBitmap n) none (disturbedBitmap_valid n) (fullwordChunks_none _))
  · exact safe_of_request hn hn' hdvd hvalid hchunks (.inl hreq)
  · exact safe_of_request hn hn' hdvd hvalid hchunks (.inr hund)

theorem findFreeSubwordChunk_safe_seven :
    (∀ (b : SearchedBitmap) (chunks : Option PhysicalExtents), b.Valid → FullwordChunks b chunks →
      Safe .debug b ⟨7, 0, chunks, true⟩) ↔ SafeRequest 7 0 true :=
  (findFreeSubwordChunk_safe_iff .debug true (by decide) (by decide) (by decide)).1

def stringAcrossBitmap : SearchedBitmap := ⟨⟨[~~~0b11100#64], by decide⟩, [], [], 64⟩

/-- The chunk found begins at block one, and the free ones at two. -/
theorem subwordChunk_not_safe :
    stringAcrossBitmap.Valid ∧ FullwordChunks stringAcrossBitmap none ∧
      ¬ Safe .debug stringAcrossBitmap ⟨3, 0, none, true⟩ ∧
      ¬ Safe .release stringAcrossBitmap ⟨3, 0, none, true⟩ := by
  refine ⟨⟨fun es hes => ?_, fun es hes => ?_, Nat.le_refl _⟩, fullwordChunks_none _, ?_, ?_⟩
  · cases hes
  · cases hes
  · exact not_safe_of_found 1 (by decide) (by decide +kernel) (by decide)
  · exact not_safe_of_found 1 (by decide) (by decide +kernel) (by decide)

end CocoonFs.SubwordChunkSafety
