import CocoonFs.Leb128Decode

namespace CocoonFs.Leb128Values

open Checked Codes Leb128 Leb128Decode List
open Nat (and_two_pow_sub_one_eq_mod mod_eq_of_lt mul_mod_mul_left or_lt_two_pow shiftLeft_eq
  two_pow_add_eq_or_of_lt)
open BitVec (eq_of_toInt_eq eq_of_toNat_eq getLsbD_setWidth le_toInt toInt_lt toNat_setWidth)

def group (b : Byte) : BitVec 7 := b.setWidth 7

def Continues (b : Byte) : Prop := b.getLsbD 7 = true

instance (b : Byte) : Decidable (Continues b) := inferInstanceAs (Decidable (b.getLsbD 7 = true))

/-- The unsigned value of a LEB128 number: continuation bytes and the byte that
terminates it, the least significant group first. It is not bounded. -/
def leb128uValue : List Byte → Byte → Nat
  | [], last => (group last).toNat
  | b :: front, last => (group b).toNat + 128 * leb128uValue front last

/-- In a signed number the terminating byte holds a two's complement group. -/
def leb128sValue : List Byte → Byte → Int
  | [], last => (group last).toInt
  | b :: front, last => (group b).toNat + 128 * leb128sValue front last

theorem group_lt (b : Byte) : (group b).toNat < 128 := (group b).isLt

theorem group_toInt (b : Byte) : -64 ≤ (group b).toInt ∧ (group b).toInt < 64 :=
  ⟨le_toInt (group b), toInt_lt⟩

section

variable (front : List Byte) (last : Byte)
include front last

theorem leb128uValue_lt :
    leb128uValue front last < 2 ^ (7 * (front.length + 1)) := by
  induction front with
  | nil => exact group_lt last
  | cons b front ih =>
    have hpow : 2 ^ (7 * (front.length + 1 + 1)) = 128 * 2 ^ (7 * (front.length + 1)) := by
      rw [Nat.mul_add 7 (front.length + 1), Nat.pow_add, Nat.mul_comm]
    rw [leb128uValue, length_cons, hpow]
    omega

theorem leb128sValue_bounds :
    -2 ^ (7 * front.length + 6) ≤ leb128sValue front last ∧
      leb128sValue front last < 2 ^ (7 * front.length + 6) := by
  induction front with
  | nil => exact group_toInt last
  | cons b front ih =>
    have hpow : (2 : Int) ^ (7 * (front.length + 1) + 6) = 128 * 2 ^ (7 * front.length + 6) := by
      rw [show 7 * (front.length + 1) + 6 = 7 * front.length + 6 + 7 by omega, pow_add, mul_comm]
      rfl
    rw [leb128sValue, length_cons, hpow]
    omega

theorem leb128uValue_eq_zero_iff :
    leb128uValue front last = 0 ↔ (∀ c ∈ front, group c = 0) ∧ group last = 0 := by
  have hzero (b : Byte) : (group b).toNat = 0 ↔ group b = 0 :=
    ⟨fun h => eq_of_toNat_eq h, fun h => by rw [h]; rfl⟩
  induction front with
  | nil => simp [leb128uValue, hzero]
  | cons b front ih =>
    rw [leb128uValue, forall_mem_cons, and_assoc]
    refine Iff.trans ?_ (and_congr (hzero b) ih)
    omega

theorem leb128sValue_eq_zero_iff :
    leb128sValue front last = 0 ↔ (∀ c ∈ front, group c = 0) ∧ group last = 0 := by
  have hzero (b : Byte) : (group b).toNat = 0 ↔ group b = 0 :=
    ⟨fun h => eq_of_toNat_eq h, fun h => by rw [h]; rfl⟩
  induction front with
  | nil =>
    have hlast : (group last).toInt = 0 ↔ group last = 0 :=
      ⟨fun h => eq_of_toInt_eq h, fun h => by rw [h]; rfl⟩
    simp [leb128sValue, hlast]
  | cons b front ih =>
    rw [leb128sValue, forall_mem_cons, and_assoc]
    refine Iff.trans ?_ (and_congr (hzero b) ih)
    omega

theorem leb128sValue_eq_neg_one_iff :
    leb128sValue front last = -1 ↔
      (∀ c ∈ front, group c = BitVec.allOnes 7) ∧ group last = BitVec.allOnes 7 := by
  have hones (b : Byte) : (group b).toNat = 127 ↔ group b = BitVec.allOnes 7 :=
    ⟨fun h => eq_of_toNat_eq h, fun h => by rw [h]; rfl⟩
  induction front with
  | nil =>
    have hlast : (group last).toInt = -1 ↔ group last = BitVec.allOnes 7 :=
      ⟨fun h => eq_of_toInt_eq h, fun h => by rw [h]; rfl⟩
    simp [leb128sValue, hlast]
  | cons b front ih =>
    rw [leb128sValue, forall_mem_cons, and_assoc]
    refine Iff.trans ?_ (and_congr (hones b) ih)
    omega

end

theorem continues_iff : ∀ b : Byte, Continues b ↔ b &&& 0x80 ≠ 0 := by
  intro b
  rw [Continues, ne_eq, and_0x80_eq_zero_iff, Bool.not_eq_false]

/-- A number is found at the front of anything that holds a terminating byte. -/
theorem exists_split (src : List Byte) :
    (∀ b ∈ src, Continues b) ∨ ∃ front last rest, src = front ++ last :: rest ∧
      (∀ b ∈ front, Continues b) ∧ ¬Continues last := by
  induction src with
  | nil => exact .inl (by simp)
  | cons b src ih =>
    by_cases hb : Continues b
    · obtain hall | ⟨front, last, rest, rfl, hfront, hlast⟩ := ih
      · exact .inl (forall_mem_cons.mpr ⟨hb, hall⟩)
      · exact .inr ⟨b :: front, last, rest, rfl, forall_mem_cons.mpr ⟨hb, hfront⟩, hlast⟩
    · exact .inr ⟨[], b, src, rfl, by simp, hb⟩

variable {value v : BitVec 64} {last : Byte} {front : List Byte} {i : Nat} {src : List Byte}

theorem skipOverlong_continuing {signMask b : Byte}
    (hb : Continues b) (hsrc : ∀ c ∈ src, Continues c) (r : BitVec 64 × List Byte) :
    skipOverlong signMask value b src ≠ .ok r := by
  induction src generalizing b with
  | nil =>
    rw [skipOverlong, if_neg ((continues_iff b).mp hb)]
    intro h
    cases h
  | cons c src ih =>
    rw [skipOverlong, if_neg ((continues_iff b).mp hb)]
    split
    · intro h
      cases h
    · exact ih (hsrc c (by simp)) (fun d hd => hsrc d (by simp [hd]))

section Loop

variable (tenthOk : Byte → Bool) (signMask : Byte → Byte) (complete : BitVec 64 → Nat → BitVec 64)

theorem decodeFrom_continuing (hsrc : ∀ c ∈ src, Continues c) (i : Nat)
    (value : BitVec 64) (r : BitVec 64 × List Byte) :
    decodeFrom tenthOk signMask complete i value src ≠ .ok r := by
  induction src generalizing i value with
  | nil =>
    intro h
    cases h
  | cons b src ih =>
    have hb := hsrc b (by simp)
    have hrest : ∀ c ∈ src, Continues c := fun c hc => hsrc c (by simp [hc])
    simp only [decodeFrom, if_neg ((continues_iff b).mp hb)]
    split
    · split
      · exact skipOverlong_continuing hb hrest r
      · intro h
        cases h
    · exact ih hrest _ _

end Loop

theorem xor_and_0x7f_ne_zero_iff (c m : Byte) : (c ^^^ m) &&& 0x7f ≠ 0 ↔ group c ≠ group m := by
  rw [not_iff_not]
  constructor
  · intro h
    apply BitVec.eq_of_getLsbD_eq
    intro j hj
    have hbit := congrArg (fun x : Byte => x.getLsbD j) h
    have h7f : (0x7f : Byte).getLsbD j = true := by
      interval_cases j <;> rfl
    rw [BitVec.getLsbD_and, BitVec.getLsbD_xor, h7f, Bool.and_true] at hbit
    rw [group, group, getLsbD_setWidth, getLsbD_setWidth]
    simpa [hj] using hbit
  · intro h
    apply BitVec.eq_of_getLsbD_eq
    intro j hj
    have hbit := congrArg (fun x : BitVec 7 => x.getLsbD j) h
    rw [group, group, getLsbD_setWidth, getLsbD_setWidth] at hbit
    have h7f : (0x7f : Byte).getLsbD j = decide (j < 7) := by
      interval_cases j <;> rfl
    change _ = (0#8).getLsbD j
    rw [BitVec.getLsbD_and, BitVec.getLsbD_xor, h7f, BitVec.getLsbD_zero]
    by_cases hj7 : j < 7
    · simpa [hj7] using hbit
    · simp [hj7]

theorem skipOverlong_iff {signMask : Byte} {b : Byte}
    {rest r : List Byte} (hb : Continues b) (hfront : ∀ c ∈ front, Continues c)
    (hlast : ¬Continues last) :
    skipOverlong signMask value b (front ++ last :: rest) = .ok (v, r) ↔
      v = value ∧ r = rest ∧ (∀ c ∈ front, group c = group signMask) ∧
        group last = group signMask := by
  induction front generalizing b with
  | nil =>
    have hend : last &&& 0x80 = 0 := not_not.mp (mt (continues_iff last).mpr hlast)
    rw [List.nil_append, skipOverlong, if_neg ((continues_iff b).mp hb)]
    by_cases h : group last = group signMask
    · rw [if_neg (mt (xor_and_0x7f_ne_zero_iff last signMask).mp (not_not.mpr h)),
        skipOverlong_end hend]
      simp [h, eq_comm]
    · rw [if_pos ((xor_and_0x7f_ne_zero_iff last signMask).mpr h)]
      simp [h]
  | cons c front ih =>
    rw [List.cons_append, skipOverlong, if_neg ((continues_iff b).mp hb)]
    by_cases h : group c = group signMask
    · have htail := ih (hfront c (by simp)) (fun d hd => hfront d (by simp [hd]))
      rw [if_neg (mt (xor_and_0x7f_ne_zero_iff c signMask).mp (not_not.mpr h)), forall_mem_cons]
      exact htail.trans (by simp [h])
    · rw [if_pos ((xor_and_0x7f_ne_zero_iff c signMask).mpr h), forall_mem_cons]
      simp [h]

def addGroup (value : BitVec 64) (i : Nat) (b : Byte) : BitVec 64 :=
  value ||| (b &&& 0x7f).setWidth 64 <<< (7 * i)

theorem addGroup_toNat (hi : i ≤ 9) (b : Byte) (hv : value.toNat < 2 ^ (7 * i)) :
    (addGroup value i b).toNat = value.toNat + 2 ^ (7 * i) * (group b).toNat % 2 ^ 64 := by
  have hlow : (b &&& 0x7f).toNat = (group b).toNat := by
    rw [BitVec.toNat_and, group, toNat_setWidth]
    exact and_two_pow_sub_one_eq_mod b.toNat 7
  have hpow : (2 : Nat) ^ 64 = 2 ^ (7 * i) * 2 ^ (64 - 7 * i) := by
    rw [← pow_add]
    congr 1
    omega
  rw [addGroup, BitVec.toNat_or, BitVec.toNat_shiftLeft, toNat_setWidth, hlow,
    mod_eq_of_lt (lt_trans (group_lt b) (by decide)), shiftLeft_eq,
    mul_comm (group b).toNat, hpow, mul_mod_mul_left, Nat.or_comm,
    ← two_pow_add_eq_or_of_lt hv, add_comm]

theorem addGroup_lt (hi : i < 9) (b : Byte) (hv : value.toNat < 2 ^ (7 * i)) :
    (addGroup value i b).toNat = value.toNat + 2 ^ (7 * i) * (group b).toNat ∧
      (addGroup value i b).toNat < 2 ^ (7 * (i + 1)) := by
  have hb := group_lt b
  have hpow : 2 ^ (7 * (i + 1)) = 2 ^ (7 * i) * 128 := pow_add 2 (7 * i) 7
  have hle : 2 ^ (7 * (i + 1)) ≤ 2 ^ 64 := Nat.pow_le_pow_right (by decide) (by omega)
  have hmul : 2 ^ (7 * i) * ((group b).toNat + 1) ≤ 2 ^ (7 * i) * 128 :=
    Nat.mul_le_mul_left _ hb
  rw [mul_add, mul_one] at hmul
  rw [addGroup_toNat (by omega) b hv, mod_eq_of_lt (by omega)]
  omega

/-- What makes a decoder one of the numbers with the value `val`: how a number of
less than ten bytes is completed, and what it accepts from the tenth byte on. -/
structure Reads (tenthOk : Byte → Bool) (signMask : Byte → Byte)
    (complete : BitVec 64 → Nat → BitVec 64) (val : List Byte → Byte → Int)
    (toInt : BitVec 64 → Int) : Prop where
  cons : ∀ b front last, val (b :: front) last = (group b).toNat + 128 * val front last
  injective : Function.Injective toInt
  complete : ∀ i value last, i < 9 → value.toNat < 2 ^ (7 * i) →
    toInt (complete (addGroup value i last) (i + 1)) = value.toNat + 2 ^ (7 * i) * val [] last
  tenth_last : ∀ value v last, value.toNat < 2 ^ 63 →
    (tenthOk last = true ∧ v = addGroup value 9 last ↔
      toInt v = value.toNat + 2 ^ 63 * val [] last)
  tenth : ∀ value v b front last, value.toNat < 2 ^ 63 →
    (tenthOk b = true ∧ v = addGroup value 9 b ∧ (∀ c ∈ front, group c = group (signMask b)) ∧
      group last = group (signMask b) ↔ toInt v = value.toNat + 2 ^ 63 * val (b :: front) last)

section Decoder

variable {tenthOk : Byte → Bool} {signMask : Byte → Byte} {complete : BitVec 64 → Nat → BitVec 64}
  {val : List Byte → Byte → Int} {toInt : BitVec 64 → Int} {value : BitVec 64}

section

variable (hr : Reads tenthOk signMask complete val toInt)
include hr

theorem Reads.decodeFrom_last {i : Nat} (hi : i ≤ 9) (hv : value.toNat < 2 ^ (7 * i)) {last : Byte}
    (hlast : ¬Continues last) (rest : List Byte) (v : BitVec 64) (r : List Byte) :
    decodeFrom tenthOk signMask complete i value (last :: rest) = .ok (v, r) ↔
      r = rest ∧ toInt v = value.toNat + 2 ^ (7 * i) * val [] last := by
  have hend : last &&& 0x80 = 0 := not_not.mp (mt (continues_iff last).mpr hlast)
  rw [decodeFrom]
  change (if i + 1 = 10 then
      if tenthOk last = true then skipOverlong (signMask last) (addGroup value i last) last rest
      else .error .decodeOverflow
    else if last &&& 0x80 = 0 then .ok (complete (addGroup value i last) (i + 1), rest)
    else _) = _ ↔ _
  by_cases hten : i + 1 = 10
  · obtain rfl : i = 9 := by omega
    have htenth := hr.tenth_last value v last hv
    rw [if_pos rfl, skipOverlong_end hend]
    refine Iff.trans ?_ (and_congr Iff.rfl htenth)
    split <;> rename_i hok <;> simp [hok, eq_comm, and_comm]
  · have hcomplete := hr.complete i value last (by omega) hv
    rw [if_neg hten, if_pos hend, ← hcomplete, hr.injective.eq_iff]
    simp [eq_comm, and_comm]

theorem Reads.decodeFrom_iff {i : Nat}
    (hi : i ≤ 9) (hv : value.toNat < 2 ^ (7 * i)) {front : List Byte}
    {last : Byte} (hfront : ∀ b ∈ front, Continues b) (hlast : ¬Continues last)
    (rest : List Byte) (v : BitVec 64) (r : List Byte) :
    decodeFrom tenthOk signMask complete i value (front ++ last :: rest) = .ok (v, r) ↔
      r = rest ∧ toInt v = value.toNat + 2 ^ (7 * i) * val front last := by
  induction front generalizing i value with
  | nil => exact hr.decodeFrom_last hi hv hlast rest v r
  | cons b front ih =>
    have hb := hfront b (by simp)
    have hfront' : ∀ c ∈ front, Continues c := fun c hc => hfront c (by simp [hc])
    rw [List.cons_append, decodeFrom]
    change (if i + 1 = 10 then
        if tenthOk b = true then
          skipOverlong (signMask b) (addGroup value i b) b (front ++ last :: rest)
        else .error .decodeOverflow
      else if b &&& 0x80 = 0 then _
      else decodeFrom tenthOk signMask complete (i + 1) (addGroup value i b)
        (front ++ last :: rest)) = _ ↔ _
    by_cases hten : i + 1 = 10
    · obtain rfl : i = 9 := by omega
      have htenth := hr.tenth value v b front last hv
      rw [if_pos rfl]
      refine Iff.trans ?_ (and_congr Iff.rfl htenth)
      split
      · rename_i hok
        refine (skipOverlong_iff hb hfront' hlast).trans ?_
        rw [and_left_comm]
        simp [hok]
      · rename_i hok
        simp [hok]
    · obtain ⟨hadd, hlt⟩ := addGroup_lt (by omega) b hv
      rw [if_neg hten, if_neg ((continues_iff b).mp hb)]
      refine (ih (by omega) hlt hfront').trans ?_
      have hsum :
          ((addGroup value i b).toNat : Int) + 2 ^ (7 * (i + 1)) * val front last =
          value.toNat + 2 ^ (7 * i) * val (b :: front) last := by
        rw [hadd, hr.cons, mul_add 7 i 1, pow_add]
        push_cast
        rw [mul_add, add_assoc, mul_assoc]
      rw [hsum]

theorem Reads.decode_iff (src : List Byte) (v : BitVec 64) (r : List Byte) :
    decodeFrom tenthOk signMask complete 0 0 src = .ok (v, r) ↔
      ∃ front last, (∀ b ∈ front, Continues b) ∧ ¬Continues last ∧ src = front ++ last :: r ∧
        val front last = toInt v := by
  have hnum {front : List Byte} {last : Byte} (hfront : ∀ b ∈ front, Continues b)
      (hlast : ¬Continues last) (rest : List Byte) :
      decodeFrom tenthOk signMask complete 0 0 (front ++ last :: rest) = .ok (v, r) ↔
        r = rest ∧ val front last = toInt v := by
    refine (hr.decodeFrom_iff (by decide) (by decide) hfront hlast rest v r).trans ?_
    rw [eq_comm (a := toInt v)]
    simp
  constructor
  · intro h
    obtain hall | ⟨front, last, rest, rfl, hfront, hlast⟩ := exists_split src
    · exact absurd h (decodeFrom_continuing _ _ _ hall 0 0 _)
    · obtain ⟨rfl, hval⟩ := (hnum hfront hlast rest).mp h
      exact ⟨front, last, hfront, hlast, rfl, hval⟩
  · rintro ⟨front, last, hfront, hlast, rfl, hval⟩
    exact (hnum hfront hlast r).mpr ⟨rfl, hval⟩

end

end Decoder

theorem unsigned_tenth_iff :
    ∀ b : Byte, ((b &&& 0x7f) >>> (63 % 7 + 1) == 0) = true ↔ (group b).toNat < 2 := by
  decide

theorem reads_leb128u :
    Reads (fun b => (b &&& 0x7f) >>> (63 % 7 + 1) == 0) (fun _ => 0) (fun value _ => value)
      (fun front last => leb128uValue front last) (fun v => v.toNat) := by
  have hadd {value : BitVec 64} (hv : value.toNat < 2 ^ 63) {b : Byte} (hb : (group b).toNat < 2) :
      (addGroup value 9 b).toNat = value.toNat + 2 ^ 63 * (group b).toNat := by
    rw [addGroup_toNat (by decide) b hv, mod_eq_of_lt (by omega)]
  refine ⟨fun b front last => by simp [leb128uValue], ?_, ?_, ?_, ?_⟩
  · intro v w h
    exact eq_of_toNat_eq (Int.ofNat.inj h)
  · intro i value last hi hv
    have h := (addGroup_lt hi last hv).1
    simp only [leb128uValue, h]
    rfl
  · intro value v last hv
    rw [unsigned_tenth_iff]
    simp only [leb128uValue]
    constructor
    · rintro ⟨hok, rfl⟩
      have h := hadd hv hok
      omega
    · intro h
      have hok : (group last).toNat < 2 := by omega
      refine ⟨hok, eq_of_toNat_eq ?_⟩
      have h := hadd hv hok
      omega
  · intro value v b front last hv
    have hzero : group 0 = 0 := rfl
    have hrest := leb128uValue_eq_zero_iff front last
    rw [unsigned_tenth_iff, hzero, ← hrest]
    simp only [leb128uValue]
    constructor
    · rintro ⟨hok, rfl, hz⟩
      have h := hadd hv hok
      omega
    · intro h
      have hok : (group b).toNat < 2 := by omega
      have hsum := hadd hv hok
      exact ⟨hok, eq_of_toNat_eq (by omega), by omega⟩

theorem signExtendU64_toInt {p : Nat} (hp : p < 64) :
    (signExtendU64 value p).toInt = (value.setWidth (p + 1)).toInt := by
  have h : signExtendU64 value p = (value.setWidth (p + 1)).signExtend 64 := by
    apply BitVec.eq_of_getLsbD_eq
    intro k hk
    rw [getLsbD_signExtendU64 _ _ _ hp hk, BitVec.getLsbD_signExtend]
    by_cases hkp : k < p + 1
    · rw [min_eq_left (by omega)]
      simp [hk, hkp]
    · rw [min_eq_right (by omega), BitVec.msb_eq_getLsbD_last]
      simp [hk, hkp]
  rw [h, BitVec.toInt_signExtend_of_le (by omega)]

theorem signed_tenth_iff : ∀ b : Byte, ((b ^^^ signExtendU8 b (63 % 7)) &&& 0x7f == 0) = true ↔
    group b = 0 ∨ group b = BitVec.allOnes 7 := by
  decide

theorem group_signMask : ∀ b : Byte, (group b = 0 → group (0#8 - (b >>> 6 &&& 1)) = 0) ∧
    (group b = BitVec.allOnes 7 → group (0#8 - (b >>> 6 &&& 1)) = BitVec.allOnes 7) := by
  decide

theorem addGroup_tenth_toInt (hv : value.toNat < 2 ^ 63) (b : Byte) :
    (group b = 0 → (addGroup value 9 b).toInt = value.toNat) ∧
      (group b = BitVec.allOnes 7 → (addGroup value 9 b).toInt = value.toNat - 2 ^ 63) := by
  have hadd := addGroup_toNat (i := 9) (by decide) b hv
  constructor
  · intro hb
    rw [hb] at hadd
    rw [BitVec.toInt_eq_toNat_of_lt (by rw [hadd]; simp; omega), hadd]
    simp
  · intro hb
    rw [hb] at hadd
    have hn : (addGroup value 9 b).toNat = value.toNat + 2 ^ 63 := hadd
    rw [BitVec.toInt_eq_toNat_cond, if_neg (by omega), hn]
    omega

theorem setWidth_toInt {x : BitVec 64}
    (hx : x.toNat = value.toNat + 2 ^ (7 * i) * (group last).toNat)
    (hlt : x.toNat < 2 ^ (7 * (i + 1))) (hv : value.toNat < 2 ^ (7 * i)) :
    (x.setWidth (7 * (i + 1))).toInt = value.toNat + 2 ^ (7 * i) * (group last).toInt := by
  have hpow : 2 ^ (7 * (i + 1)) = 2 ^ (7 * i) * 128 := pow_add 2 (7 * i) 7
  rw [BitVec.toInt_eq_toNat_cond, BitVec.toInt_eq_toNat_cond, toNat_setWidth, mod_eq_of_lt hlt]
  by_cases hsign : (group last).toNat < 64
  · have hmul : 2 ^ (7 * i) * ((group last).toNat + 1) ≤ 2 ^ (7 * i) * 64 :=
      Nat.mul_le_mul_left _ hsign
    rw [mul_add, mul_one] at hmul
    rw [if_pos (by omega), if_pos (by omega), hx]
    rfl
  · have hmul : 2 ^ (7 * i) * 64 ≤ 2 ^ (7 * i) * (group last).toNat :=
      Nat.mul_le_mul_left _ (by omega)
    rw [if_neg (by omega), if_neg (by omega), hx, hpow]
    push_cast
    rw [mul_sub, add_sub_assoc]

theorem reads_leb128s :
    Reads (fun b => (b ^^^ signExtendU8 b (63 % 7)) &&& 0x7f == 0)
      (fun b => 0#8 - (b >>> 6 &&& 1))
      (fun value encodedLen => signExtendU64 value (7 * encodedLen - 1))
      leb128sValue BitVec.toInt := by
  refine ⟨fun b front last => rfl, fun v w h => eq_of_toInt_eq h, ?_, ?_, ?_⟩
  · intro i value last hi hv
    obtain ⟨hadd, hlt⟩ := addGroup_lt hi last hv
    rw [signExtendU64_toInt (by omega), show 7 * (i + 1) - 1 + 1 = 7 * (i + 1) by omega]
    exact setWidth_toInt hadd hlt hv
  · intro value v last hv
    have hmin : -2 ^ 63 ≤ v.toInt := le_toInt v
    have hmax : v.toInt < 2 ^ 63 := toInt_lt
    obtain ⟨hzero, hones⟩ := addGroup_tenth_toInt hv last
    rw [signed_tenth_iff]
    simp only [leb128sValue]
    constructor
    · rintro ⟨hz | ho, rfl⟩
      · rw [hzero hz, hz]
        rfl
      · rw [hones ho, ho]
        rfl
    · intro h
      obtain hg | hg : (group last).toInt = 0 ∨ (group last).toInt = -1 := by omega
      · have hz : group last = 0 := eq_of_toInt_eq hg
        exact ⟨.inl hz, eq_of_toInt_eq (by rw [h, hzero hz, hg]; omega)⟩
      · have ho : group last = BitVec.allOnes 7 := eq_of_toInt_eq hg
        exact ⟨.inr ho, eq_of_toInt_eq (by rw [h, hones ho, hg]; omega)⟩
  · intro value v b front last hv
    have hmin : -2 ^ 63 ≤ v.toInt := le_toInt v
    have hmax : v.toInt < 2 ^ 63 := toInt_lt
    obtain ⟨hzero, hones⟩ := addGroup_tenth_toInt hv b
    obtain ⟨hmzero, hmones⟩ := group_signMask b
    have hrest := leb128sValue_eq_zero_iff front last
    have hrest' := leb128sValue_eq_neg_one_iff front last
    rw [signed_tenth_iff]
    simp only [leb128sValue]
    constructor
    · rintro ⟨hz | ho, rfl, hsame⟩
      · rw [hmzero hz] at hsame
        rw [hzero hz, hz, hrest.mpr hsame]
        simp
      · rw [hmones ho] at hsame
        rw [hones ho, ho, hrest'.mpr hsame]
        rfl
    · intro h
      obtain ⟨hg, hx⟩ | ⟨hg, hx⟩ : ((group b).toNat = 0 ∧ leb128sValue front last = 0) ∨
          ((group b).toNat = 127 ∧ leb128sValue front last = -1) := by omega
      · have hz : group b = 0 := eq_of_toNat_eq hg
        rw [hmzero hz]
        exact ⟨.inl hz, eq_of_toInt_eq (by rw [h, hzero hz, hg, hx]; simp), hrest.mp hx⟩
      · have ho : group b = BitVec.allOnes 7 := eq_of_toNat_eq hg
        rw [hmones ho]
        exact ⟨.inr ho, eq_of_toInt_eq (by rw [h, hones ho, hg, hx]; omega), hrest'.mp hx⟩

theorem significantBitsU64_le_of_lt {n : Nat} (hn : 0 < n)
    (hv : v.toNat < 2 ^ n) : significantBitsU64 v ≤ n := by
  have hor : (v ||| 1).toNat < 2 ^ n := by
    rw [BitVec.toNat_or]
    exact or_lt_two_pow hv (Nat.one_lt_two_pow hn.ne')
  have hne : v ||| 1 ≠ 0 := by
    intro h
    have hb := congrArg (fun x : BitVec 64 => x.getLsbD 0) h
    simp at hb
  have hpos : (v ||| 1).toNat ≠ 0 := fun h => hne (eq_of_toNat_eq h)
  have hlog : (v ||| 1).toNat.log2 < n := (Nat.log2_lt hpos).mpr hor
  rw [significantBitsU64, leadingZeros, if_neg hne]
  omega

theorem significantBitsI64_le_of_bounds {n : Nat} (hmin : -2 ^ n ≤ v.toInt)
    (hmax : v.toInt < 2 ^ n) : significantBitsI64 v ≤ n + 1 := by
  have hinv : (invertIfNegative v).toNat < 2 ^ n := by
    have hcast : ((2 ^ n : Nat) : Int) = 2 ^ n := by push_cast; rfl
    rw [invertIfNegative_eq]
    cases hm : v.msb with
    | false =>
      rw [BitVec.toInt_eq_msb_cond, hm] at hmax
      simp only [Bool.false_eq_true, if_false] at hmax ⊢
      omega
    | true =>
      rw [BitVec.toInt_eq_msb_cond, hm] at hmin
      simp only [if_true] at hmin ⊢
      rw [BitVec.toNat_not]
      omega
  rw [significantBitsI64, leadingZeros]
  by_cases hz : invertIfNegative v = 0
  · rw [if_pos hz]
    omega
  · have hpos : (invertIfNegative v).toNat ≠ 0 := fun h => hz (eq_of_toNat_eq h)
    have hlog : (invertIfNegative v).toNat.log2 < n := (Nat.log2_lt hpos).mpr hinv
    rw [if_neg hz]
    omega

theorem leb128uU64EncodedLen_le
    (h : leb128uValue front last = v.toNat) : leb128uU64EncodedLen v ≤ front.length + 1 := by
  have hspec := leb128uU64EncodedLen_spec v
  have hsig := significantBitsU64_le_of_lt (n := 7 * (front.length + 1)) (by omega)
    (h ▸ leb128uValue_lt front last)
  omega

theorem leb128sI64EncodedLen_le
    (h : leb128sValue front last = v.toInt) : leb128sI64EncodedLen v ≤ front.length + 1 := by
  have hspec := leb128sI64EncodedLen_spec v
  obtain ⟨hmin, hmax⟩ := leb128sValue_bounds front last
  rw [h] at hmin hmax
  have hsig := significantBitsI64_le_of_bounds hmin hmax
  omega

/-- The decoders read exactly the LEB128 numbers that fit, however long, and the
encoders write the shortest one. -/
theorem decode_iff_value :
    (∀ (src : List Byte) (v : BitVec 64) (rest : List Byte),
      leb128uU64Decode src = .ok (v, rest) ↔ ∃ front last, (∀ b ∈ front, Continues b) ∧
        ¬Continues last ∧ src = front ++ last :: rest ∧ leb128uValue front last = v.toNat) ∧
    (∀ (src : List Byte) (v : BitVec 64) (rest : List Byte),
      leb128sI64Decode src = .ok (v, rest) ↔ ∃ front last, (∀ b ∈ front, Continues b) ∧
        ¬Continues last ∧ src = front ++ last :: rest ∧ leb128sValue front last = v.toInt) ∧
    (∀ (v : BitVec 64) (tail : List Byte),
      leb128uU64Decode (leb128uU64Encode v ++ tail) = .ok (v, tail) ∧
        leb128sI64Decode (leb128sI64Encode v ++ tail) = .ok (v, tail)) ∧
    (∀ v : BitVec 64, (leb128uU64Encode v).length = leb128uU64EncodedLen v ∧
      (leb128sI64Encode v).length = leb128sI64EncodedLen v) ∧
    (∀ (v : BitVec 64) (front : List Byte) (last : Byte),
      (leb128uValue front last = v.toNat → leb128uU64EncodedLen v ≤ front.length + 1) ∧
        (leb128sValue front last = v.toInt → leb128sI64EncodedLen v ≤ front.length + 1)) := by
  refine ⟨fun src v rest => ?_, fun src v rest => reads_leb128s.decode_iff src v rest,
    fun v tail => ⟨leb128uU64Decode_encode v tail, leb128sI64Decode_encode v tail⟩,
    fun v => ⟨length_leb128uU64Encode v, length_leb128sI64Encode v⟩,
    fun v front last => ⟨leb128uU64EncodedLen_le, leb128sI64EncodedLen_le⟩⟩
  refine (reads_leb128u.decode_iff src v rest).trans ?_
  simp only [Nat.cast_inj]

/-- A 1 with nine bytes of padding, then another byte. -/
theorem decode_iff_value_overlong :
    leb128uU64Decode (0x81 :: List.replicate 9 0x80 ++ [0x00, 0x17]) = .ok (1, [0x17]) ∧
      leb128uU64EncodedLen 1 ≤ 11 :=
  ⟨(decode_iff_value.1 _ _ _).mpr ⟨0x81 :: List.replicate 9 0x80, 0x00, by decide, by decide,
      rfl, by decide⟩,
    (decode_iff_value.2.2.2.2 1 (0x81 :: List.replicate 9 0x80) 0x00).1 (by decide)⟩

end CocoonFs.Leb128Values
