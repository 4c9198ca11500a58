import CocoonFs.Checked
import Mathlib.Data.List.Range

namespace CocoonFs.Crc32

open Checked Nat
open List (append_assoc ext_getElem flatMap_append flatMap_cons flatMap_singleton foldl_append
  foldl_cons foldl_map map_append map_congr_left map_cons map_singleton mem_range range_add
  range_succ)
open BitVec (eq_of_getLsbD_eq getLsbD_append getLsbD_extractLsb' getLsbD_setWidth
  getLsbD_ushiftRight getLsbD_xor toNat_setWidth)

abbrev Byte := BitVec 8

def crc32LeLutLn : Vector (BitVec 32) 16 :=
  #v[0x00000000, 0x77073096, 0xee0e612c, 0x990951ba, 0x076dc419, 0x706af48f, 0xe963a535, 0x9e6495a3,
    0x0edb8832, 0x79dcb8a4, 0xe0d5e91e, 0x97d2d988, 0x09b64c2b, 0x7eb17cbd, 0xe7b82d07, 0x90bf1d91]

def crc32LeLutHn : Vector (BitVec 32) 16 :=
  #v[0x00000000, 0x1db71064, 0x3b6e20c8, 0x26d930ac, 0x76dc4190, 0x6b6b51f4, 0x4db26158, 0x5005713c,
    0xedb88320, 0xf00f9344, 0xd6d6a3e8, 0xcb61b38c, 0x9b64c2b0, 0x86d3d2d4, 0xa00ae278, 0xbdbdf21c]

/-- C.f. `snb_u8()` and `snb_u32()`. -/
def snb {w : Nat} (mask data : BitVec w) : BitVec w :=
  let t0 := (data ^^^ (data >>> 1)) &&& mask
  let t1 := t0 <<< 1
  data ^^^ t0 ^^^ t1

def snbU8 (data : Byte) : Byte := snb 0x55 data

def snbU32 (data : BitVec 32) : BitVec 32 := snb 0x55555555 data

def crc32leInit : BitVec 32 := ~~~0

def crc32leFinishSend (crc : BitVec 32) : BitVec 32 := ~~~crc

def crc32leFinishReceive (computedCrc receivedCrc : BitVec 32) : Bool :=
  crc32leFinishSend computedCrc == receivedCrc

theorem toNat_nibble (x : BitVec 32) : (x &&& 0xf).toNat = x.toNat % 16 := by
  rw [BitVec.toNat_and]
  exact and_two_pow_sub_one_eq_mod _ 4

theorem toNat_nibble_lt (x : BitVec 32) : (x &&& 0xf).toNat < 16 := by
  rw [toNat_nibble]
  exact mod_lt _ (by decide)

def lutStep (crc : BitVec 32) : BitVec 32 :=
  (crc >>> 8) ^^^ crc32LeLutLn.get ⟨(crc &&& 0xf).toNat, toNat_nibble_lt crc⟩ ^^^
    crc32LeLutHn.get ⟨((crc >>> 4) &&& 0xf).toNat, toNat_nibble_lt (crc >>> 4)⟩

def lutSteps : Nat → BitVec 32 → BitVec 32
  | 0, crc => crc
  | j + 1, crc => lutSteps j (lutStep crc)

def crc32leUpdateU8 (crc : BitVec 32) (data : Byte) : BitVec 32 := lutStep (crc ^^^ data.setWidth 32)

def crc32leUpdateU8Snb (crc : BitVec 32) (data : Byte) : BitVec 32 := crc32leUpdateU8 crc (snbU8 data)

def crc32leUpdateU32le (crc dataFromLe : BitVec 32) : BitVec 32 := lutSteps 4 (crc ^^^ dataFromLe)

def crc32leUpdateU32leSnb (crc dataFromLe : BitVec 32) : BitVec 32 :=
  crc32leUpdateU32le crc (snbU32 dataFromLe)

def crc32leUpdateU64le (crc : BitVec 32) (dataFromLe : BitVec 64) : BitVec 32 :=
  let crc := crc32leUpdateU32le crc (dataFromLe.setWidth 32)
  crc32leUpdateU32le crc ((dataFromLe >>> 32).setWidth 32)

def crc32leUpdateU64leSnb (crc : BitVec 32) (dataFromLe : BitVec 64) : BitVec 32 :=
  let crc := crc32leUpdateU32leSnb crc (dataFromLe.setWidth 32)
  crc32leUpdateU32leSnb crc ((dataFromLe >>> 32).setWidth 32)

inductive Endian where
  | little
  | big
  deriving DecidableEq, Repr

def Endian.load (e : Endian) (word : Vector Byte 4) : BitVec 32 :=
  match e with
  | .little => word[3] ++ word[2] ++ word[1] ++ word[0]
  | .big => word[0] ++ word[1] ++ word[2] ++ word[3]

def swapBytes (v : BitVec 32) : BitVec 32 :=
  v.extractLsb' 0 8 ++ v.extractLsb' 8 8 ++ v.extractLsb' 16 8 ++ v.extractLsb' 24 8

def Endian.toLe (e : Endian) (v : BitVec 32) : BitVec 32 :=
  match e with
  | .little => v
  | .big => swapBytes v

/-- What `align_to()` makes of a slice depends on where it is in memory. -/
structure AlignTo (data : List Byte) where
  head : List Byte
  middle : List (Vector Byte 4)
  tail : List Byte
  data_eq : data = head ++ middle.flatMap Vector.toList ++ tail

/-- C.f. `crc32le_update_data()` and `crc32le_update_data_snb()`. -/
def updateData (e : Endian) (updateU8 : BitVec 32 → Byte → BitVec 32)
    (updateU32le : BitVec 32 → BitVec 32 → BitVec 32) {data : List Byte} (crc : BitVec 32)
    (split : AlignTo data) : BitVec 32 :=
  let crc := split.head.foldl updateU8 crc
  let crc := split.middle.foldl (fun crc vNe => updateU32le crc (e.toLe (e.load vNe))) crc
  split.tail.foldl updateU8 crc

def crc32leUpdateData (e : Endian) {data : List Byte} : BitVec 32 → AlignTo data → BitVec 32 :=
  updateData e crc32leUpdateU8 crc32leUpdateU32le

def crc32leUpdateDataSnb (e : Endian) {data : List Byte} : BitVec 32 → AlignTo data → BitVec 32 :=
  updateData e crc32leUpdateU8Snb crc32leUpdateU32leSnb

def leBytes (n : Nat) {w : Nat} (v : BitVec w) : List Byte :=
  (List.range n).map (fun k => v.extractLsb' (8 * k) 8)

section Reference

def polynomial : BitVec 32 := 0xedb88320

def shift (crc : BitVec 32) : BitVec 32 :=
  (crc >>> 1) ^^^ if crc.getLsbD 0 then polynomial else 0#32

def shifts : Nat → BitVec 32 → BitVec 32
  | 0, crc => crc
  | n + 1, crc => shift (shifts n crc)

def bit (b : Bool) : BitVec 32 := if b then 1 else 0

def bitStep (crc : BitVec 32) (b : Bool) : BitVec 32 := shift (crc ^^^ bit b)

def crcOf (bits : List Bool) : BitVec 32 := ~~~(bits.foldl bitStep (~~~0))

/-- A number's bits, from the one for the term of highest degree on. -/
def bitsOf (n : Nat) {w : Nat} (v : BitVec w) : List Bool := (List.range n).map v.getLsbD

def dataBits (data : List Byte) : List Bool := data.flatMap (bitsOf 8)

def swapNeighbours : List Bool → List Bool
  | a :: b :: bits => b :: a :: swapNeighbours bits
  | bits => bits

theorem shift_xor (x y : BitVec 32) : shift (x ^^^ y) = shift x ^^^ shift y := by
  rw [shift, shift, shift, getLsbD_xor, BitVec.ushiftRight_xor_distrib]
  cases x.getLsbD 0 with
  | false => cases y.getLsbD 0 <;> simp [BitVec.xor_assoc]
  | true =>
    cases y.getLsbD 0 with
    | false =>
      simp only [Bool.xor_false, if_true, Bool.false_eq_true, if_false]
      ac_rfl
    | true =>
      simp only [Bool.xor_self, Bool.false_eq_true, if_false, if_true]
      rw [← BitVec.xor_self (x := polynomial)]
      ac_rfl

theorem shifts_xor (n : Nat) (x y : BitVec 32) : shifts n (x ^^^ y) = shifts n x ^^^ shifts n y := by
  induction n with
  | zero => rfl
  | succ n ih => rw [shifts, shifts, shifts, ih, shift_xor]

theorem shifts_add (m n : Nat) (x : BitVec 32) : shifts (m + n) x = shifts m (shifts n x) := by
  induction m with
  | zero => rw [Nat.zero_add, shifts]
  | succ m ih => rw [succ_add, shifts, shifts, ih]

/-- Nothing but zeros gets shifted out. -/
theorem shifts_of_low_zero (n : Nat) (x : BitVec 32) (h : ∀ i < n, x.getLsbD i = false) :
    shifts n x = x >>> n := by
  induction n with
  | zero => rfl
  | succ n ih =>
    rw [shifts, ih (fun i hi => h i (lt_succ_of_lt hi)), shift, getLsbD_ushiftRight,
      Nat.add_zero, h n (lt_succ_self n), BitVec.shiftRight_add]
    simp

/-- A number is its low bits and the rest. -/
theorem shifts_low (n : Nat) (x : BitVec 32) :
    shifts n x = shifts n ((x.setWidth n).setWidth 32) ^^^ (x >>> n) := by
  have hlow : ∀ i < n, (x ^^^ (x.setWidth n).setWidth 32).getLsbD i = false := by
    intro i hi
    simp only [getLsbD_xor, getLsbD_setWidth, hi, decide_true, Bool.true_and]
    by_cases h32 : i < 32
    · simp [h32]
    · simp [h32, BitVec.getLsbD_of_ge x i (Nat.not_lt.mp h32)]
  have hshift : (x ^^^ (x.setWidth n).setWidth 32) >>> n = x >>> n := by
    apply eq_of_getLsbD_eq
    intro i hi
    simp [getLsbD_ushiftRight, getLsbD_xor, getLsbD_setWidth]
  rw [← hshift, ← shifts_of_low_zero n _ hlow, ← shifts_xor]
  congr 1
  rw [BitVec.xor_comm, BitVec.xor_assoc, BitVec.xor_self, BitVec.xor_zero]

theorem bitStep_xor (crc v : BitVec 32) :
    shift (crc ^^^ v) = bitStep crc (v.getLsbD 0) ^^^ (v >>> 1) := by
  have hbit : (v.setWidth 1).setWidth 32 = bit (v.getLsbD 0) := by
    apply eq_of_getLsbD_eq
    intro i hi
    rw [bit, getLsbD_setWidth, getLsbD_setWidth]
    cases i with
    | zero => cases v.getLsbD 0 <;> simp
    | succ i => cases v.getLsbD 0 <;> simp
  have hlow := shifts_low 1 v
  rw [hbit] at hlow
  rw [bitStep, shift_xor, shift_xor, BitVec.xor_assoc]
  exact congrArg (shift crc ^^^ ·) hlow

theorem shifts_bits (n : Nat) (crc v : BitVec 32) :
    shifts n (crc ^^^ v) = (bitsOf n v).foldl bitStep crc ^^^ (v >>> n) := by
  induction n with
  | zero => rfl
  | succ n ih =>
    rw [shifts, ih, bitStep_xor, bitsOf, bitsOf, range_succ, map_append, foldl_append,
      BitVec.shiftRight_add, getLsbD_ushiftRight, Nat.add_zero]
    rfl

end Reference

section Bytes

variable {w : Nat}

theorem shifts_byte : ∀ b : Fin 256, shifts 8 (BitVec.ofNat 32 b) =
    crc32LeLutLn.get ⟨b % 16, Nat.mod_lt _ (by decide)⟩ ^^^
      crc32LeLutHn.get ⟨b / 16, Nat.div_lt_of_lt_mul b.isLt⟩ := by
  decide +kernel

/-- The tables have the remainders of a byte's halves. -/
theorem lutStep_eq (x : BitVec 32) : lutStep x = shifts 8 x := by
  have hlow : (x.setWidth 8).setWidth 32 = BitVec.ofNat 32 (x.toNat % 256) := by
    apply BitVec.eq_of_toNat_eq
    rw [toNat_setWidth, toNat_setWidth, BitVec.toNat_ofNat]
  have htable := shifts_byte ⟨x.toNat % 256, mod_lt _ (by decide)⟩
  rw [shifts_low 8 x, hlow, htable, lutStep, BitVec.xor_comm _ (x >>> 8), ← BitVec.xor_assoc]
  have hl : (⟨(x &&& 0xf).toNat, toNat_nibble_lt x⟩ : Fin 16) =
      ⟨x.toNat % 256 % 16, mod_lt _ (by decide)⟩ := by
    rw [Fin.mk.injEq, toNat_nibble]
    omega
  have hh : (⟨((x >>> 4) &&& 0xf).toNat, toNat_nibble_lt (x >>> 4)⟩ : Fin 16) =
      ⟨x.toNat % 256 / 16, Nat.div_lt_of_lt_mul (mod_lt _ (by decide))⟩ := by
    rw [Fin.mk.injEq, toNat_nibble, BitVec.toNat_ushiftRight, shiftRight_eq_div_pow]
    omega
  rw [hl, hh]

theorem lutSteps_eq (j : Nat) (x : BitVec 32) : lutSteps j x = shifts (j * 8) x := by
  induction j generalizing x with
  | zero => rw [Nat.zero_mul]; rfl
  | succ j ih => rw [lutSteps, ih, lutStep_eq, succ_mul, shifts_add]

theorem ushiftRight_setWidth (b : Byte) : b.setWidth 32 >>> 8 = 0#32 := by
  apply BitVec.eq_of_toNat_eq
  have hb := b.isLt
  rw [BitVec.toNat_ushiftRight, toNat_setWidth, shiftRight_eq_div_pow]
  exact div_eq_of_lt (Nat.lt_of_le_of_lt (mod_le _ _) hb)

theorem crc32leUpdateU8_eq (crc : BitVec 32) (data : Byte) :
    crc32leUpdateU8 crc data = (bitsOf 8 data).foldl bitStep crc := by
  have hbits : bitsOf 8 (data.setWidth 32) = bitsOf 8 data := by
    apply map_congr_left
    intro i hi
    rw [getLsbD_setWidth, decide_eq_true (by have := mem_range.mp hi; omega), Bool.true_and]
  rw [crc32leUpdateU8, lutStep_eq, shifts_bits, ushiftRight_setWidth, BitVec.xor_zero, hbits]

theorem bitsOf_leBytes (n : Nat) (v : BitVec w) : (leBytes n v).flatMap (bitsOf 8) = bitsOf (8 * n) v := by
  induction n with
  | zero => rfl
  | succ n ih =>
    rw [leBytes, range_succ, map_append, flatMap_append]
    change (leBytes n v).flatMap (bitsOf 8) ++ _ = _
    rw [ih, bitsOf, bitsOf, mul_succ, range_add, map_append, List.map_map, map_singleton,
      flatMap_singleton, bitsOf]
    congr 1
    apply map_congr_left
    intro i hi
    rw [getLsbD_extractLsb', decide_eq_true (mem_range.mp hi), Bool.true_and]
    rfl

theorem foldl_updateU8 (crc : BitVec 32) (data : List Byte) :
    data.foldl crc32leUpdateU8 crc = (dataBits data).foldl bitStep crc := by
  induction data generalizing crc with
  | nil => rfl
  | cons b data ih => rw [foldl_cons, ih, crc32leUpdateU8_eq, dataBits, dataBits, flatMap_cons,
      foldl_append]

theorem crc32leUpdateU32le_eq (crc v : BitVec 32) :
    crc32leUpdateU32le crc v = (leBytes 4 v).foldl crc32leUpdateU8 crc := by
  rw [foldl_updateU8, dataBits, bitsOf_leBytes, crc32leUpdateU32le, lutSteps_eq, shifts_bits]
  have hshift : v >>> (4 * 8) = 0#32 := BitVec.ushiftRight_eq_zero (Nat.le_refl 32)
  rw [hshift, BitVec.xor_zero]

/-- The two halves of a number. -/
theorem leBytes_halves (v : BitVec 64) :
    leBytes 8 v = leBytes 4 (v.setWidth 32) ++ leBytes 4 ((v >>> 32).setWidth 32) := by
  rw [leBytes, leBytes, leBytes, range_add (n := 4) (m := 4), map_append, List.map_map]
  congr 1
  · apply map_congr_left
    intro k hk
    have hk := mem_range.mp hk
    apply eq_of_getLsbD_eq
    intro i hi
    simp only [getLsbD_extractLsb', getLsbD_setWidth]
    rw [decide_eq_true (show 8 * k + i < 32 by omega), Bool.true_and]
  · apply map_congr_left
    intro k hk
    have hk := mem_range.mp hk
    apply eq_of_getLsbD_eq
    intro i hi
    simp only [Function.comp_apply, getLsbD_extractLsb', getLsbD_setWidth, getLsbD_ushiftRight]
    rw [decide_eq_true (show 8 * k + i < 32 by omega), Bool.true_and, Nat.mul_add, Nat.add_assoc]

theorem crc32leUpdateU64le_eq (crc : BitVec 32) (v : BitVec 64) :
    crc32leUpdateU64le crc v = (leBytes 8 v).foldl crc32leUpdateU8 crc := by
  rw [crc32leUpdateU64le, crc32leUpdateU32le_eq, crc32leUpdateU32le_eq, leBytes_halves, foldl_append]

end Bytes

section Swap

/-- The mask selects the first bit of each pair. -/
theorem getLsbD_snb {w : Nat} {mask : BitVec w} (hmask : ∀ i < w, mask.getLsbD i = decide (i % 2 = 0))
    (data : BitVec w) {i : Nat} (hi : i < w) :
    (snb mask data).getLsbD i = data.getLsbD (if i % 2 = 0 then i + 1 else i - 1) := by
  have hprev := hmask (i - 1) (by omega)
  rw [snb]
  simp only [getLsbD_xor, BitVec.getLsbD_and, BitVec.getLsbD_shiftLeft, getLsbD_ushiftRight,
    hmask i hi, hprev, hi, decide_true, Bool.true_and]
  by_cases heven : i % 2 = 0
  · rw [if_pos heven, decide_eq_true heven, Bool.and_true, Nat.add_comm 1 i]
    by_cases h0 : i < 1
    · cases data.getLsbD i <;> simp [h0]
    · cases data.getLsbD i <;> simp [h0, decide_eq_false (show ¬(i - 1) % 2 = 0 by omega)]
  · rw [if_neg heven, decide_eq_false heven, Bool.and_false, Bool.xor_false,
      decide_eq_true (show (i - 1) % 2 = 0 by omega), Bool.and_true,
      decide_eq_false (show ¬i < 1 by omega), Nat.add_sub_cancel' (show 1 ≤ i by omega)]
    cases data.getLsbD i <;> simp

theorem getLsbD_snbU8 (data : Byte) {i : Nat} (hi : i < 8) :
    (snbU8 data).getLsbD i = data.getLsbD (if i % 2 = 0 then i + 1 else i - 1) :=
  getLsbD_snb (by decide) data hi

theorem leBytes_snbU32 (v : BitVec 32) : leBytes 4 (snbU32 v) = (leBytes 4 v).map snbU8 := by
  rw [leBytes, leBytes, List.map_map]
  apply map_congr_left
  intro k hk
  have hk := mem_range.mp hk
  apply eq_of_getLsbD_eq
  intro i hi
  rw [Function.comp_apply, getLsbD_snbU8 _ hi, getLsbD_extractLsb', getLsbD_extractLsb', snbU32,
    getLsbD_snb (by decide) v (by omega), decide_eq_true hi, Bool.true_and]
  by_cases heven : i % 2 = 0
  · rw [if_pos heven, if_pos (by omega), decide_eq_true (by omega), Bool.true_and, Nat.add_assoc]
  · rw [if_neg heven, if_neg (by omega), decide_eq_true (by omega), Bool.true_and,
      Nat.add_sub_assoc (by omega)]

theorem bitsOf_snbU8 (data : Byte) (bits : List Bool) :
    bitsOf 8 (snbU8 data) ++ swapNeighbours bits = swapNeighbours (bitsOf 8 data ++ bits) := by
  have h : ∀ i < 8, (snbU8 data).getLsbD i = data.getLsbD (if i % 2 = 0 then i + 1 else i - 1) :=
    fun i hi => getLsbD_snbU8 data hi
  rw [bitsOf, bitsOf, map_congr_left (fun i hi => h i (mem_range.mp hi))]
  rfl

theorem dataBits_snbU8 (data : List Byte) :
    dataBits (data.map snbU8) = swapNeighbours (dataBits data) := by
  induction data with
  | nil => rfl
  | cons b data ih =>
    rw [dataBits, map_cons, flatMap_cons]
    change _ ++ dataBits (data.map snbU8) = _
    rw [ih, bitsOf_snbU8]
    rfl

theorem foldl_updateU8Snb (crc : BitVec 32) (data : List Byte) :
    data.foldl crc32leUpdateU8Snb crc = (swapNeighbours (dataBits data)).foldl bitStep crc := by
  rw [← dataBits_snbU8, ← foldl_updateU8, foldl_map]
  rfl

theorem crc32leUpdateU32leSnb_eq (crc v : BitVec 32) :
    crc32leUpdateU32leSnb crc v = (leBytes 4 v).foldl crc32leUpdateU8Snb crc := by
  rw [crc32leUpdateU32leSnb, crc32leUpdateU32le_eq, leBytes_snbU32, foldl_map]
  rfl

theorem crc32leUpdateU64leSnb_eq (crc : BitVec 32) (v : BitVec 64) :
    crc32leUpdateU64leSnb crc v = (leBytes 8 v).foldl crc32leUpdateU8Snb crc := by
  rw [crc32leUpdateU64leSnb, crc32leUpdateU32leSnb_eq, crc32leUpdateU32leSnb_eq, leBytes_halves,
    foldl_append]

end Swap

section Words

def fromLeBytes (word : Vector Byte 4) : BitVec 32 := word[3] ++ word[2] ++ word[1] ++ word[0]

theorem toLe_load (e : Endian) (word : Vector Byte 4) : e.toLe (e.load word) = fromLeBytes word := by
  cases e with
  | little => rfl
  | big =>
    apply eq_of_getLsbD_eq
    intro i hi
    simp only [Endian.toLe, Endian.load, swapBytes, fromLeBytes, getLsbD_append,
      getLsbD_extractLsb']
    grind

theorem extractLsb'_fromLeBytes (word : Vector Byte 4) {k : Nat} (hk : k < 4) :
    (fromLeBytes word).extractLsb' (8 * k) 8 = word[k] := by
  apply eq_of_getLsbD_eq
  intro i hi
  simp only [fromLeBytes, getLsbD_append, getLsbD_extractLsb', hi, decide_true, Bool.true_and]
  obtain rfl | rfl | rfl | rfl : k = 0 ∨ k = 1 ∨ k = 2 ∨ k = 3 := by omega
  all_goals grind

theorem leBytes_fromLeBytes (word : Vector Byte 4) : leBytes 4 (fromLeBytes word) = word.toList := by
  apply ext_getElem
  · simp [leBytes]
  · intro k h _
    have hk : k < 4 := by simpa [leBytes] using h
    simp [leBytes, extractLsb'_fromLeBytes word hk]

theorem fromLeBytes_leBytes (v : BitVec 32) : fromLeBytes ⟨(leBytes 4 v).toArray, rfl⟩ = v := by
  apply eq_of_getLsbD_eq
  intro i hi
  have hword : fromLeBytes ⟨(leBytes 4 v).toArray, rfl⟩ =
    v.extractLsb' 24 8 ++ v.extractLsb' 16 8 ++ v.extractLsb' 8 8 ++ v.extractLsb' 0 8 := rfl
  simp only [hword, getLsbD_append, getLsbD_extractLsb']
  grind

/-- It makes no difference how a slice gets split for the accesses to memory. -/
theorem updateData_eq (e : Endian) {updateU8 : BitVec 32 → Byte → BitVec 32}
    {updateU32le : BitVec 32 → BitVec 32 → BitVec 32}
    (h : ∀ crc v, updateU32le crc v = (leBytes 4 v).foldl updateU8 crc) {data : List Byte}
    (crc : BitVec 32) (split : AlignTo data) :
    updateData e updateU8 updateU32le crc split = data.foldl updateU8 crc := by
  have hmiddle : ∀ (words : List (Vector Byte 4)) crc,
      words.foldl (fun crc vNe => updateU32le crc (e.toLe (e.load vNe))) crc =
        (words.flatMap Vector.toList).foldl updateU8 crc := by
    intro words
    induction words with
    | nil => exact fun crc => rfl
    | cons word words ih =>
      intro crc
      rw [foldl_cons, ih, h, toLe_load, leBytes_fromLeBytes, flatMap_cons, foldl_append]
  rw [updateData]
  rw [hmiddle, ← foldl_append, ← foldl_append, ← append_assoc, ← split.data_eq]

end Words

end CocoonFs.Crc32
