import CocoonFs.ImageContext

namespace CocoonFs.ExtentPtr

open Checked Codes Extents ImageContext Nat

abbrev Pattern := Vector Byte 8

def toPattern (v : BitVec 64) : Pattern := ⟨(toLeBytes v).toArray, by simp [toLeBytes]⟩

/-- u64::from_le_bytes -/
def value (p : Pattern) : Nat := leValue p.toList

/-- The number of bits an Allocation Block index may have, the size's logarithm
being in units of 128 bytes. -/
def indexBits (pr : Profile) (sizeLog2 : Nat) : Comp Nat :=
  if sizeLog2 + 7 ≤ 64 then .ok (64 - (sizeLog2 + 7))
  else wrapping pr ((2 ^ 32 + 64 - (sizeLog2 + 7)) % 2 ^ 32)

namespace EncodedExtentPtr

def extentAllocationBlocksEncodingBits : Nat := 6

def maxExtentAllocationBlocks : Nat := 1 <<< extentAllocationBlocksEncodingBits

def encodeNil : Pattern := toPattern (~~~0#64)

def encode (extent : Option BlockRange) (indirect : Bool) : Comp Pattern :=
  match extent with
  | none => .ok encodeNil
  | some extent => do
    let allocationBlocks ← extent.blockCount
    if allocationBlocks = 0 ∨ allocationBlocks > maxExtentAllocationBlocks then
      err .internal
    else
      let encodedAllocationBlocks := BitVec.ofNat 64 (allocationBlocks - 1)
      let allocationBlocksBegin := BitVec.ofNat 64 extent.b
      let encodedBegin := allocationBlocksBegin <<< (extentAllocationBlocksEncodingBits + 1)
      if encodedBegin >>> (extentAllocationBlocksEncodingBits + 1) ≠ allocationBlocksBegin then
        err .internal
      else
        .ok (toPattern (encodedBegin ||| encodedAllocationBlocks <<< 1 |||
          BitVec.ofNat 64 indirect.toNat))

def decode (pr : Profile) (p : Pattern) (sizeLog2 : Nat) : Comp (Option (BlockRange × Bool)) :=
  if value p = 2 ^ 64 - 1 then
    .ok none
  else do
    let indirect := value p &&& 1 != 0
    let encoded := value p >>> 1
    let encodedAllocationBlocks := encoded &&& (2 ^ extentAllocationBlocksEncodingBits - 1)
    let allocationBlocks ← addU64 pr encodedAllocationBlocks 1
    let allocationBlocksBegin := encoded >>> extentAllocationBlocksEncodingBits
    let allocationBlocksEnd ← addU64 pr allocationBlocksBegin allocationBlocks
    let bits ← indexBits pr sizeLog2
    let excess ← shrU64 pr allocationBlocksEnd bits
    if excess ≠ 0 then
      formatErr .invalidExtents
    else
      let extent ← PhysicalExtents.unpackEntry (allocationBlocksBegin, allocationBlocks)
      .ok (some (extent, indirect))

end EncodedExtentPtr

namespace EncodedBlockPtr

def reservedEncodingBits : Nat := 7

def encodeNil : Pattern := toPattern (~~~0#64)

def encode (blockBegin : Option Nat) : Comp Pattern :=
  match blockBegin with
  | none => .ok encodeNil
  | some blockBegin =>
    let allocationBlocksBegin := BitVec.ofNat 64 blockBegin
    let encodedBegin := allocationBlocksBegin <<< reservedEncodingBits
    if encodedBegin >>> reservedEncodingBits ≠ allocationBlocksBegin then
      err .internal
    else
      .ok (toPattern encodedBegin)

def decode (pr : Profile) (p : Pattern) (sizeLog2 : Nat) : Comp (Option Nat) :=
  if value p = 2 ^ 64 - 1 then
    .ok none
  else do
    let allocationBlocksBegin := value p >>> reservedEncodingBits
    let shifted ← shlU64 pr allocationBlocksBegin reservedEncodingBits
    if shifted ≠ value p then
      formatErr .invalidExtents
    else
      let bits ← indexBits pr sizeLog2
      let excess ← shrU64 pr allocationBlocksBegin bits
      if excess ≠ 0 then
        formatErr .invalidExtents
      else
        .ok (some allocationBlocksBegin)

end EncodedBlockPtr

/-- The format document's maximum image size in units of Allocation Blocks. -/
def maxImageAllocationBlocks (sizeLog2 : Nat) : Nat := (2 ^ 64 - 1) / 2 ^ (sizeLog2 + 7)

def documentedNil : Pattern := Vector.replicate 8 0

/-- What the format document defines for an encoded extent pointer. -/
def documentedExtent (sizeLog2 : Nat) (p : Pattern) : Comp (Option (BlockRange × Bool)) :=
  let v := value p
  if p = documentedNil then
    .ok none
  else if v / 2 ^ 7 + (v / 2 % 2 ^ 6 + 1) > maxImageAllocationBlocks sizeLog2 then
    formatErr .invalidExtents
  else
    .ok (some (⟨v / 2 ^ 7, v / 2 ^ 7 + (v / 2 % 2 ^ 6 + 1)⟩, v % 2 = 1))

/-- What the format document defines for an encoded block pointer. A block's
length is implicit from the context, so it's only its beginning that may lie
beyond the maximum image size. -/
def documentedBlock (sizeLog2 : Nat) (p : Pattern) : Comp (Option Nat) :=
  let v := value p
  if p = documentedNil then
    .ok none
  else if v / 2 ^ 7 > maxImageAllocationBlocks sizeLog2 then
    formatErr .invalidExtents
  else
    .ok (some (v / 2 ^ 7))

theorem value_lt (p : Pattern) : value p < 2 ^ 64 := by
  simpa [value] using leValue_lt p.toList

theorem eq_of_value_eq {p q : Pattern} (h : value p = value q) : p = q := by
  apply Vector.toList_inj.mp
  apply eq_of_leValue_eq _ h
  simp

theorem value_eq_max_iff (p : Pattern) :
    value p = 2 ^ 64 - 1 ↔ p = EncodedExtentPtr.encodeNil := by
  have hnil : value EncodedExtentPtr.encodeNil = 2 ^ 64 - 1 := by decide
  refine ⟨fun h => eq_of_value_eq (h.trans hnil.symm), ?_⟩
  rintro rfl
  exact hnil

variable {sizeLog2 : Nat}

theorem indexBits_ok (pr : Profile) (hs : sizeLog2 + 7 < 64) :
    indexBits pr sizeLog2 = .ok (57 - sizeLog2) := by
  rw [indexBits, if_pos (by omega)]
  congr 1
  omega

theorem mul_sub_one_div {a b : Nat} (ha : 0 < a) (hb : 0 < b) : (a * b - 1) / a = b - 1 := by
  obtain ⟨c, rfl⟩ : ∃ c, b = c + 1 := ⟨b - 1, by omega⟩
  apply Nat.div_eq_of_lt_le
  · rw [Nat.add_sub_cancel, Nat.mul_comm c a, mul_succ]
    omega
  · rw [Nat.add_sub_cancel, succ_mul, mul_succ, Nat.mul_comm c a]
    omega

/-- An index fits the bits left for it just if it's not beyond the maximum image size. -/
theorem div_ne_zero_iff (hs : sizeLog2 + 7 < 64) (n : Nat) :
    n / 2 ^ (57 - sizeLog2) ≠ 0 ↔ n > maxImageAllocationBlocks sizeLog2 := by
  have hpos : 0 < 2 ^ (57 - sizeLog2) := Nat.two_pow_pos _
  have hsplit : 2 ^ 64 = 2 ^ (sizeLog2 + 7) * 2 ^ (57 - sizeLog2) := by
    rw [← Nat.pow_add]
    congr 1
    omega
  have hmax : maxImageAllocationBlocks sizeLog2 = 2 ^ (57 - sizeLog2) - 1 := by
    rw [maxImageAllocationBlocks, hsplit]
    exact mul_sub_one_div (Nat.two_pow_pos _) hpos
  rw [hmax, Nat.div_ne_zero_iff]
  omega

namespace EncodedExtentPtr

theorem decode_eq (pr : Profile) (p : Pattern) {sizeLog2 : Nat} (hs : sizeLog2 + 7 < 64)
    (hp : p ≠ encodeNil) :
    decode pr p sizeLog2 =
      if value p / 2 ^ 7 + (value p / 2 % 2 ^ 6 + 1) > maxImageAllocationBlocks sizeLog2 then
        formatErr .invalidExtents
      else
        .ok (some (BlockRange.mk (value p / 2 ^ 7) (value p / 2 ^ 7 + (value p / 2 % 2 ^ 6 + 1)),
          decide (value p % 2 = 1))) := by
  have hlt := value_lt p
  have hbegin : value p >>> 1 >>> 6 = value p / 2 ^ 7 := by
    rw [← shiftRight_add, shiftRight_eq_div_pow]
  have hcount : value p >>> 1 &&& (2 ^ 6 - 1) = value p / 2 % 2 ^ 6 := by
    rw [and_two_pow_sub_one_eq_mod, shiftRight_eq_div_pow]
  have hindirect : (value p &&& 1 != 0) = decide (value p % 2 = 1) := by
    rw [and_one_is_mod]
    rcases mod_two_eq_zero_or_one (value p) with h | h <;> simp [h]
  have hfits : value p / 2 ^ 7 + (value p / 2 % 2 ^ 6 + 1) < 2 ^ 64 := by omega
  rw [decode, if_neg (fun h => hp ((value_eq_max_iff p).mp h))]
  simp only [extentAllocationBlocksEncodingBits, hbegin, hcount, hindirect]
  rw [addU64_ok pr (by omega), ok_bind, addU64_ok pr hfits, ok_bind, indexBits_ok pr hs, ok_bind,
    shrU64_ok pr (by omega), ok_bind]
  simp only [div_ne_zero_iff hs, PhysicalExtents.unpackEntry, checkedAdd_ok hfits, ok_bind,
    pure_eq_ok]

end EncodedExtentPtr

namespace EncodedBlockPtr

theorem decode_eq (pr : Profile) (p : Pattern) {sizeLog2 : Nat} (hs : sizeLog2 + 7 < 64)
    (hp : p ≠ encodeNil) :
    decode pr p sizeLog2 =
      if value p % 2 ^ 7 ≠ 0 ∨ value p / 2 ^ 7 > maxImageAllocationBlocks sizeLog2 then
        formatErr .invalidExtents
      else
        .ok (some (value p / 2 ^ 7)) := by
  have hlt := value_lt p
  have hshift : value p / 2 ^ 7 * 2 ^ 7 ≠ value p ↔ value p % 2 ^ 7 ≠ 0 := by omega
  rw [decode, if_neg (fun h => hp ((value_eq_max_iff p).mp h))]
  simp only [reservedEncodingBits, shiftRight_eq_div_pow]
  rw [shlU64_ok pr (by decide) (by omega), ok_bind, indexBits_ok pr hs, ok_bind,
    shrU64_ok pr (by omega), ok_bind]
  simp only [div_ne_zero_iff hs, hshift]
  by_cases hreserved : value p % 2 ^ 7 ≠ 0
  · rw [if_pos hreserved, if_pos (Or.inl hreserved)]
  · rw [if_neg hreserved]
    simp only [hreserved, false_or]

end EncodedBlockPtr

theorem documentedNil_ne_encodeNil : documentedNil ≠ EncodedExtentPtr.encodeNil := by decide

theorem EncodedExtentPtr.decode_nil (pr : Profile) (sizeLog2 : Nat) :
    EncodedExtentPtr.decode pr EncodedExtentPtr.encodeNil sizeLog2 = .ok none :=
  if_pos ((value_eq_max_iff _).mpr rfl)

theorem EncodedBlockPtr.decode_nil (pr : Profile) (sizeLog2 : Nat) :
    EncodedBlockPtr.decode pr EncodedExtentPtr.encodeNil sizeLog2 = .ok none :=
  if_pos ((value_eq_max_iff _).mpr rfl)

theorem ite_err_ne_none {α : Type} {P : Prop} [Decidable P] (x : α) :
    (if P then formatErr .invalidExtents else .ok (some x) : Comp (Option α)) ≠ .ok none := by
  split <;> simp [formatErr, err]

theorem extent_decode_iff (pr : Profile) (hs : sizeLog2 + 7 < 64) (p : Pattern) :
    EncodedExtentPtr.decode pr p sizeLog2 = documentedExtent sizeLog2 p ↔
      p ≠ documentedNil ∧ p ≠ EncodedExtentPtr.encodeNil := by
  by_cases hones : p = EncodedExtentPtr.encodeNil
  · have hzero : p ≠ documentedNil := fun h => documentedNil_ne_encodeNil (h.symm.trans hones)
    refine iff_of_false ?_ (fun h => h.2 hones)
    rw [documentedExtent, if_neg hzero, hones, EncodedExtentPtr.decode_nil]
    exact (ite_err_ne_none _).symm
  · rw [EncodedExtentPtr.decode_eq pr p hs hones]
    by_cases hzero : p = documentedNil
    · refine iff_of_false ?_ (fun h => h.1 hzero)
      rw [documentedExtent, if_pos hzero]
      exact ite_err_ne_none _
    · refine iff_of_true ?_ ⟨hzero, hones⟩
      rw [documentedExtent, if_neg hzero]

theorem block_decode_iff (pr : Profile) (hs : sizeLog2 + 7 < 64) (p : Pattern) :
    EncodedBlockPtr.decode pr p sizeLog2 = documentedBlock sizeLog2 p ↔
      p ≠ documentedNil ∧ p ≠ EncodedExtentPtr.encodeNil ∧
        (value p % 2 ^ 7 = 0 ∨ value p / 2 ^ 7 > maxImageAllocationBlocks sizeLog2) := by
  by_cases hones : p = EncodedExtentPtr.encodeNil
  · have hzero : p ≠ documentedNil := fun h => documentedNil_ne_encodeNil (h.symm.trans hones)
    refine iff_of_false ?_ (fun h => h.2.1 hones)
    rw [documentedBlock, if_neg hzero, hones, EncodedBlockPtr.decode_nil]
    exact (ite_err_ne_none _).symm
  · rw [EncodedBlockPtr.decode_eq pr p hs hones]
    by_cases hzero : p = documentedNil
    · refine iff_of_false ?_ (fun h => h.1 hzero)
      rw [documentedBlock, if_pos hzero]
      exact ite_err_ne_none _
    · rw [documentedBlock, if_neg hzero]
      by_cases hbeyond : value p / 2 ^ 7 > maxImageAllocationBlocks sizeLog2
      · rw [if_pos (Or.inr hbeyond), if_pos hbeyond]
        exact iff_of_true rfl ⟨hzero, hones, Or.inr hbeyond⟩
      · rw [if_neg hbeyond]
        by_cases hreserved : value p % 2 ^ 7 = 0
        · rw [if_neg (not_or.mpr ⟨not_not.mpr hreserved, hbeyond⟩)]
          exact iff_of_true rfl ⟨hzero, hones, Or.inl hreserved⟩
        · rw [if_pos (Or.inl hreserved)]
          exact iff_of_false (by simp [formatErr, err])
            (fun h => h.2.2.elim hreserved hbeyond)

/-- The code has taken another pattern for NIL than the format document, and it
reserves the lower bits of a block pointer to be zero. -/
theorem decode_as_documented_iff (pr : Profile) (sizeLog2 : Nat) (hs : sizeLog2 + 7 < 64) :
    (∀ p, EncodedExtentPtr.decode pr p sizeLog2 = documentedExtent sizeLog2 p ↔
      p ≠ Vector.replicate 8 0 ∧ p ≠ Vector.replicate 8 0xff) ∧
    (∀ p, EncodedBlockPtr.decode pr p sizeLog2 = documentedBlock sizeLog2 p ↔
      p ≠ Vector.replicate 8 0 ∧ p ≠ Vector.replicate 8 0xff ∧
        (value p % 2 ^ 7 = 0 ∨ value p / 2 ^ 7 > maxImageAllocationBlocks sizeLog2)) ∧
    (∀ indirect, EncodedExtentPtr.encode none indirect ≠ .ok documentedNil) ∧
    EncodedBlockPtr.encode none ≠ .ok documentedNil := by
  have hones : EncodedExtentPtr.encodeNil = Vector.replicate 8 0xff := by decide
  refine ⟨fun p => ?_, fun p => ?_, ?_, ?_⟩
  · rw [← hones]
    exact extent_decode_iff pr hs p
  · rw [← hones]
    exact block_decode_iff pr hs p
  · intro indirect h
    exact documentedNil_ne_encodeNil (Except.ok.inj h).symm
  · intro h
    exact documentedNil_ne_encodeNil (Except.ok.inj h).symm

theorem decode_as_documented_iff_smallest :
    EncodedExtentPtr.decode .debug (toPattern 0x181) 0 = documentedExtent 0 (toPattern 0x181) :=
  ((decode_as_documented_iff .debug 0 (by decide)).1 _).mpr (by decide)

theorem documented_nil_misread :
    EncodedExtentPtr.decode .debug documentedNil 0 = .ok (some (⟨0, 1⟩, false)) ∧
      documentedExtent 0 documentedNil = .ok none := by
  decide

end CocoonFs.ExtentPtr
