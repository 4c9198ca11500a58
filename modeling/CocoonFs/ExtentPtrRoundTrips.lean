import CocoonFs.ExtentPtr

namespace CocoonFs.ExtentPtrRoundTrips

open Checked Codes Extents ImageContext ExtentPtr Nat
open BitVec (ofNat toNat_ofNat toNat_shiftLeft toNat_ushiftRight)

theorem value_toPattern (v : BitVec 64) : value (toPattern v) = v.toNat := by
  simp only [value, toPattern, toLeBytes, Vector.toList, List.range_succ, List.range_zero,
    List.nil_append, List.cons_append, List.map_cons, List.map_nil, leValue,
    BitVec.toNat_setWidth, toNat_ushiftRight, shiftRight_eq_div_pow]
  omega

theorem maxImageAllocationBlocks_eq {sizeLog2 : Nat} (hs : sizeLog2 ≤ 56) :
    maxImageAllocationBlocks sizeLog2 = 2 ^ (57 - sizeLog2) - 1 := by
  have hpos : 0 < 2 ^ (57 - sizeLog2) := Nat.two_pow_pos _
  have hle := div_ne_zero_iff (show sizeLog2 + 7 < 64 by omega) (2 ^ (57 - sizeLog2) - 1)
  have hlt := div_ne_zero_iff (show sizeLog2 + 7 < 64 by omega) (2 ^ (57 - sizeLog2))
  rw [div_eq_of_lt (by omega)] at hle
  rw [Nat.div_self hpos] at hlt
  omega

theorem two_pow_le (sizeLog2 : Nat) : 2 ^ (57 - sizeLog2) ≤ 2 ^ 57 :=
  Nat.pow_le_pow_right (by decide) (sub_le _ _)

def packed (extent : BlockRange) (indirect : Bool) : Nat :=
  extent.b * 2 ^ 7 + ((extent.e - extent.b - 1) * 2 + indirect.toNat)

theorem packed_toNat {extent : BlockRange} (indirect : Bool) (hb : extent.b < 2 ^ 57)
    (hcount : extent.e - extent.b ≤ 64) (hpos : extent.b < extent.e) :
    (ofNat 64 extent.b <<< 7 ||| ofNat 64 (extent.e - extent.b - 1) <<< 1 |||
      ofNat 64 indirect.toNat).toNat = packed extent indirect := by
  have hind : indirect.toNat < 2 := by cases indirect <;> decide
  have hlow : ((extent.e - extent.b - 1) * 2 ||| indirect.toNat) =
      (extent.e - extent.b - 1) * 2 + indirect.toNat := by
    have h := two_pow_add_eq_or_of_lt (i := 1) hind (extent.e - extent.b - 1)
    rw [pow_one, Nat.mul_comm] at h
    exact h.symm
  simp only [BitVec.toNat_or, toNat_shiftLeft, toNat_ofNat, shiftLeft_eq]
  rw [mod_eq_of_lt (show extent.b < 2 ^ 64 by omega),
    mod_eq_of_lt (show extent.b * 2 ^ 7 < 2 ^ 64 by omega),
    mod_eq_of_lt (show extent.e - extent.b - 1 < 2 ^ 64 by omega),
    mod_eq_of_lt (show (extent.e - extent.b - 1) * 2 ^ 1 < 2 ^ 64 by omega),
    mod_eq_of_lt (show indirect.toNat < 2 ^ 64 by omega), pow_one, Nat.or_assoc, hlow,
    packed, Nat.mul_comm, ← two_pow_add_eq_or_of_lt (by omega)]

namespace EncodedExtentPtr

variable {extent : BlockRange} {indirect : Bool} {p : Pattern} {sizeLog2 : Nat}

theorem encode_some (indirect : Bool) (hb : extent.b < 2 ^ 57)
    (hcount : extent.e - extent.b ≤ 64) (hpos : extent.b < extent.e) :
    ∃ p, EncodedExtentPtr.encode (some extent) indirect = .ok p ∧
      value p = packed extent indirect := by
  have hshift : ofNat 64 extent.b <<< 7 >>> 7 = ofNat 64 extent.b := by
    apply BitVec.eq_of_toNat_eq
    rw [toNat_ushiftRight, toNat_shiftLeft, toNat_ofNat,
      mod_eq_of_lt (show extent.b < 2 ^ 64 by omega), shiftLeft_eq,
      mod_eq_of_lt (show extent.b * 2 ^ 7 < 2 ^ 64 by omega), shiftRight_eq_div_pow,
      Nat.mul_div_cancel _ (by decide)]
  refine ⟨_, ?_, (value_toPattern _).trans (packed_toNat indirect hb hcount hpos)⟩
  have hmax : EncodedExtentPtr.maxExtentAllocationBlocks = 64 := rfl
  rw [EncodedExtentPtr.encode]
  simp only [BlockRange.blockCount, checkedSub_ok hpos.le, ok_bind, hmax]
  rw [if_neg (by omega)]
  exact if_neg (not_not.mpr hshift)

/-- Only the pattern of all ones is NIL, and no extent within the image has it. -/
theorem ne_encodeNil (hp : value p = packed extent indirect) (hpos : extent.b < extent.e)
    (he : extent.e < 2 ^ 57) : p ≠ EncodedExtentPtr.encodeNil := by
  intro h
  have hind : indirect.toNat < 2 := by cases indirect <;> decide
  have hmax := (value_eq_max_iff p).mpr h
  rw [hp, packed] at hmax
  omega

section

variable (pr : Profile) (hs : sizeLog2 ≤ 56)
include pr hs

theorem decode_packed (hp : value p = packed extent indirect)
    (hpos : extent.b < extent.e) (he : extent.e < 2 ^ (57 - sizeLog2))
    (hcount : extent.e - extent.b ≤ 64) :
    EncodedExtentPtr.decode pr p sizeLog2 = .ok (some (extent, indirect)) := by
  have hle := two_pow_le sizeLog2
  have hind : indirect.toNat < 2 := by cases indirect <;> decide
  have hbegin : value p / 2 ^ 7 = extent.b := by
    rw [hp, packed]
    omega
  have hblocks : value p / 2 % 2 ^ 6 + 1 = extent.e - extent.b := by
    rw [hp, packed]
    omega
  have hbit : decide (value p % 2 = 1) = indirect := by
    have hmod : value p % 2 = indirect.toNat := by
      rw [hp, packed]
      omega
    rw [hmod]
    cases indirect <;> rfl
  rw [EncodedExtentPtr.decode_eq pr p (by omega) (ne_encodeNil hp hpos (by omega)),
    maxImageAllocationBlocks_eq hs, hbegin, hblocks, hbit, Nat.add_sub_cancel' hpos.le,
    if_neg (by omega)]

theorem packed_of_decode
    (h : EncodedExtentPtr.decode pr p sizeLog2 = .ok (some (extent, indirect))) :
    packed extent indirect = value p ∧ extent.b < extent.e ∧ extent.e < 2 ^ (57 - sizeLog2) ∧
      extent.e - extent.b ≤ 64 := by
  by_cases hnil : p = EncodedExtentPtr.encodeNil
  · rw [hnil, EncodedExtentPtr.decode_nil] at h
    cases h
  · rw [EncodedExtentPtr.decode_eq pr p (by omega) hnil, maxImageAllocationBlocks_eq hs] at h
    split at h
    · cases h
    · have hbit : (decide (value p % 2 = 1)).toNat = value p % 2 := by
        rcases mod_two_eq_zero_or_one (value p) with h0 | h1
        · rw [h0]
          rfl
        · rw [h1]
          rfl
      cases h
      dsimp only [packed]
      omega

theorem encode_of_decode
    (h : EncodedExtentPtr.decode pr p sizeLog2 = .ok (some (extent, indirect))) :
    EncodedExtentPtr.encode (some extent) indirect = .ok p := by
  have hle := two_pow_le sizeLog2
  obtain ⟨hpacked, hpos, he, hcount⟩ := packed_of_decode pr hs h
  obtain ⟨q, hq, hvalue⟩ := encode_some indirect (by omega) hcount hpos
  rwa [← eq_of_value_eq (hvalue.trans hpacked)]

theorem decode_ne_panic (p : Pattern)
    (e : Panic) : EncodedExtentPtr.decode pr p sizeLog2 ≠ panic e := by
  by_cases hnil : p = EncodedExtentPtr.encodeNil
  · rw [hnil, EncodedExtentPtr.decode_nil]
    exact nofun
  · rw [EncodedExtentPtr.decode_eq pr p (by omega) hnil]
    split <;> exact nofun

end

end EncodedExtentPtr

namespace EncodedBlockPtr

variable {b sizeLog2 : Nat} {p : Pattern}

theorem encode_some (hb : b < 2 ^ 57) :
    ∃ p, EncodedBlockPtr.encode (some b) = .ok p ∧ value p = b * 2 ^ 7 := by
  have hleft : (ofNat 64 b <<< 7).toNat = b * 2 ^ 7 := by
    rw [toNat_shiftLeft, toNat_ofNat,
      mod_eq_of_lt (show b < 2 ^ 64 by omega), shiftLeft_eq,
      mod_eq_of_lt (show b * 2 ^ 7 < 2 ^ 64 by omega)]
  have hshift : ofNat 64 b <<< 7 >>> 7 = ofNat 64 b := by
    apply BitVec.eq_of_toNat_eq
    rw [toNat_ushiftRight, hleft, toNat_ofNat,
      mod_eq_of_lt (show b < 2 ^ 64 by omega), shiftRight_eq_div_pow,
      Nat.mul_div_cancel _ (by decide)]
  exact ⟨_, if_neg (not_not.mpr hshift), (value_toPattern _).trans hleft⟩

theorem ne_encodeNil (hp : value p = b * 2 ^ 7) :
    p ≠ EncodedBlockPtr.encodeNil := by
  intro h
  have hmax := (value_eq_max_iff p).mpr h
  omega

section

variable (pr : Profile) (hs : sizeLog2 ≤ 56)
include pr hs

theorem decode_some (hp : value p = b * 2 ^ 7) (hb : b < 2 ^ (57 - sizeLog2)) :
    EncodedBlockPtr.decode pr p sizeLog2 = .ok (some b) := by
  have hbegin : value p / 2 ^ 7 = b := by omega
  rw [EncodedBlockPtr.decode_eq pr p (by omega) (ne_encodeNil hp),
    maxImageAllocationBlocks_eq hs, hbegin, if_neg (by omega)]

theorem encode_of_decode (h : EncodedBlockPtr.decode pr p sizeLog2 = .ok (some b)) :
    EncodedBlockPtr.encode (some b) = .ok p := by
  have hle := two_pow_le sizeLog2
  by_cases hnil : p = EncodedBlockPtr.encodeNil
  · rw [hnil] at h
    exact absurd ((EncodedBlockPtr.decode_nil pr sizeLog2).symm.trans h) nofun
  · rw [EncodedBlockPtr.decode_eq pr p (by omega) hnil, maxImageAllocationBlocks_eq hs] at h
    split at h
    · cases h
    · rename_i hok
      cases h
      obtain ⟨q, hq, hvalue⟩ := encode_some (b := value p / 2 ^ 7) (by omega)
      rwa [eq_of_value_eq (show value q = value p by omega)] at hq

theorem decode_ne_panic (p : Pattern)
    (e : Panic) : EncodedBlockPtr.decode pr p sizeLog2 ≠ panic e := by
  by_cases hnil : p = EncodedBlockPtr.encodeNil
  · rw [hnil]
    exact fun h => absurd ((EncodedBlockPtr.decode_nil pr sizeLog2).symm.trans h) nofun
  · rw [EncodedBlockPtr.decode_eq pr p (by omega) hnil]
    split <;> exact nofun

end

end EncodedBlockPtr

/-- Within the image, pointers survive encoding, and an encoding is the only one
of what it is decoded to. -/
theorem encoded_ptr_round_trips (pr : Profile) (sizeLog2 : Nat) (hs : sizeLog2 ≤ 56) :
    (∀ (extent : BlockRange) (indirect : Bool), 1 ≤ extent.e - extent.b →
      extent.e - extent.b ≤ 64 → extent.e < 2 ^ (57 - sizeLog2) →
      ∃ p, EncodedExtentPtr.encode (some extent) indirect = .ok p ∧
        p ≠ EncodedExtentPtr.encodeNil ∧
        EncodedExtentPtr.decode pr p sizeLog2 = .ok (some (extent, indirect))) ∧
    (∀ (p : Pattern) (extent : BlockRange) (indirect : Bool),
      EncodedExtentPtr.decode pr p sizeLog2 = .ok (some (extent, indirect)) →
      EncodedExtentPtr.encode (some extent) indirect = .ok p) ∧
    (∀ b, b < 2 ^ (57 - sizeLog2) → ∃ p, EncodedBlockPtr.encode (some b) = .ok p ∧
      p ≠ EncodedBlockPtr.encodeNil ∧ EncodedBlockPtr.decode pr p sizeLog2 = .ok (some b)) ∧
    (∀ (p : Pattern) (b : Nat), EncodedBlockPtr.decode pr p sizeLog2 = .ok (some b) →
      EncodedBlockPtr.encode (some b) = .ok p) ∧
    (∀ (p : Pattern) (e : Panic), EncodedExtentPtr.decode pr p sizeLog2 ≠ panic e ∧
      EncodedBlockPtr.decode pr p sizeLog2 ≠ panic e) := by
  have hle := two_pow_le sizeLog2
  refine ⟨?_, ?_, ?_, ?_, ?_⟩
  · intro extent indirect hpos hcount he
    obtain ⟨p, hp, hvalue⟩ :=
      EncodedExtentPtr.encode_some indirect (by omega) hcount (by omega)
    exact ⟨p, hp, EncodedExtentPtr.ne_encodeNil hvalue (by omega) (by omega),
      EncodedExtentPtr.decode_packed pr hs hvalue (by omega) he hcount⟩
  · exact fun p extent indirect h => EncodedExtentPtr.encode_of_decode pr hs h
  · intro b hb
    obtain ⟨p, hp, hvalue⟩ := EncodedBlockPtr.encode_some (b := b) (by omega)
    exact ⟨p, hp, EncodedBlockPtr.ne_encodeNil hvalue, EncodedBlockPtr.decode_some pr hs hvalue hb⟩
  · exact fun p b h => EncodedBlockPtr.encode_of_decode pr hs h
  · exact fun p e => ⟨EncodedExtentPtr.decode_ne_panic pr hs p e,
      EncodedBlockPtr.decode_ne_panic pr hs p e⟩

/-- The last extent of the largest image with blocks of 128 bytes. -/
theorem encoded_ptr_round_trips_last :
    ∃ p, EncodedExtentPtr.encode (some ⟨2 ^ 57 - 65, 2 ^ 57 - 1⟩) true = .ok p ∧
      p ≠ EncodedExtentPtr.encodeNil ∧
      EncodedExtentPtr.decode .debug p 0 = .ok (some (⟨2 ^ 57 - 65, 2 ^ 57 - 1⟩, true)) :=
  (encoded_ptr_round_trips .debug 0 (by decide)).1 _ true (by decide) (by decide) (by decide)

end CocoonFs.ExtentPtrRoundTrips
