import CocoonFs.BitmapWords

namespace CocoonFs.MaxstrLens

open Bitmap BitmapWords Checked Lanes Nat
open CacheSet (add)
open Nat (dvd_sub log mul_two two_pow_pos)
open BitVec (getLsbD_and getLsbD_xor getLsbD_zero isLt)

/-- The loop that retains the tails of the strings long enough for the alignment. -/
def alignStrings : Nat → Nat → BitmapWord → BitmapWord → BitmapWord × BitmapWord
  | 0, _, mask, w => (w, mask)
  | rounds + 1, sLog2, mask, w =>
    alignStrings rounds (sLog2 + 1) (mask ||| mask <<< 2 ^ sLog2)
      (w &&& w <<< 2 ^ sLog2 &&& ~~~mask)

/-- The blocks' most significant bits carried into, moved to the least significant
ones. -/
def carriedLsbs (pr : Profile) (y : BitmapWord) (log2 : Nat) (lsbsMask : BitmapWord) :
    Comp BitmapWord := do
  let carried ← add pr (y >>> 1) (~~~lsbsMask >>> 1)
  pure (carried >>> (2 ^ log2 - 1))

structure Lengths where
  sLog2 : Nat
  bitmapWord : BitmapWord
  sPerBlock : BitmapWord

/-- The first part: the largest power of two that fits each block's strings. -/
def doubleLengths (pr : Profile) (log2 : Nat) (lsbsMask : BitmapWord) :
    Nat → BitmapWord → Lengths → Comp Lengths
  | 0, _, s => .ok s
  | rounds + 1, mask, s => do
    let y := s.bitmapWord &&& s.bitmapWord <<< 2 ^ s.sLog2 &&& ~~~mask
    debugAssert pr (y &&& lsbsMask = 0)
    let carried ← carriedLsbs pr y log2 lsbsMask
    let nonzeroLsbs := carried &&& lsbsMask &&& s.sPerBlock >>> s.sLog2
    if nonzeroLsbs = 0 then pure s
    else do
      let sPerBlock ← add pr s.sPerBlock (nonzeroLsbs <<< s.sLog2)
      let selectMask ← blocksSelectMask pr log2 nonzeroLsbs
      doubleLengths pr log2 lsbsMask rounds (mask ||| mask <<< 2 ^ s.sLog2)
        ⟨s.sLog2 + 1, s.bitmapWord ^^^ ((s.bitmapWord ^^^ y) &&& selectMask), sPerBlock⟩

structure Refined where
  bitmapWord : BitmapWord
  sPerBlock : BitmapWord
  sMax : Nat
  blocksWithMaxStrLsbs : BitmapWord
  blocksWithSStrLsbs : BitmapWord

/-- The second part: the less significant bits of the lengths, most significant
ones first. -/
def refineLengths (pr : Profile) (log2 : Nat) (lsbsMask : BitmapWord) :
    Nat → Refined → Comp Refined
  | 0, s => .ok s
  | sLog2 + 1, s => do
    let y := s.bitmapWord &&& s.bitmapWord <<< 2 ^ sLog2
    let s ← if y ≠ 0 then do
        debugAssert pr (y &&& s.blocksWithSStrLsbs = 0)
        -- Neither the strings in the other blocks are excluded from the sum.
        let carried ← carriedLsbs pr y log2 lsbsMask
        let nonzeroLsbs := carried &&& s.blocksWithSStrLsbs
        let selectMask ← blocksSelectMask pr log2 nonzeroLsbs
        let anyMax := s.blocksWithMaxStrLsbs &&& nonzeroLsbs ≠ 0
        pure { s with
          bitmapWord := s.bitmapWord ^^^ ((s.bitmapWord ^^^ y) &&& selectMask)
          sPerBlock := s.sPerBlock ||| nonzeroLsbs <<< sLog2
          sMax := if anyMax then s.sMax ||| 2 ^ sLog2 else s.sMax
          blocksWithMaxStrLsbs := if anyMax then s.blocksWithMaxStrLsbs &&& nonzeroLsbs
            else s.blocksWithMaxStrLsbs }
      else pure s
    refineLengths pr log2 lsbsMask sLog2 { s with
      blocksWithSStrLsbs := s.blocksWithSStrLsbs ||| (s.sPerBlock >>> sLog2 &&& lsbsMask) }

/-- The length of the longest string found in any of the blocks, and the lengths
of the longest ones in each. -/
def blocksMaxstrLens (pr : Profile) (w : BitmapWord) (log2 : Nat) (lsbsMask : BitmapWord)
    (alignmentLog2 : Nat) (anchorsMask : BitmapWord) : Comp (Nat × BitmapWord) := do
  debugAssert pr (alignmentLog2 < log2)
  if w = 0 then pure (0, 0)
  else do
    let aligned := alignStrings alignmentLog2 0 lsbsMask w
    let w := aligned.1 &&& anchorsMask <<< (2 ^ alignmentLog2 - 1)
    if w = 0 then pure (0, 0)
    else do
      let nonzero ← nonzeroBlocksLsbs pr w log2 lsbsMask
      let lengths ← doubleLengths pr log2 lsbsMask (log2 - alignmentLog2) aligned.2
        ⟨alignmentLog2, w, nonzero <<< alignmentLog2⟩
      let longestLsbs := lengths.sPerBlock >>> lengths.sLog2 &&& lsbsMask
      let refined ← refineLengths pr log2 lsbsMask lengths.sLog2
        ⟨lengths.bitmapWord, lengths.sPerBlock, 2 ^ lengths.sLog2, longestLsbs, longestLsbs⟩
      pure (refined.sMax, refined.sPerBlock)

def IsString (w : BitmapWord) (b len : Nat) : Prop := ∀ j < len, w.getLsbD (b + j) = true

instance (w : BitmapWord) (b len : Nat) : Decidable (IsString w b len) :=
  inferInstanceAs (Decidable (∀ j < len, _))

def HasAlignedString (w : BitmapWord) (blockBegin blockLen alignmentLog2 len : Nat) : Prop :=
  len % 2 ^ alignmentLog2 = 0 ∧ ∃ b < blockLen + 1, b % 2 ^ alignmentLog2 = 0 ∧ b + len ≤ blockLen ∧
    IsString w (blockBegin + b) len

instance (w : BitmapWord) (blockBegin blockLen alignmentLog2 len : Nat) :
    Decidable (HasAlignedString w blockBegin blockLen alignmentLog2 len) :=
  inferInstanceAs (Decidable (_ ∧ ∃ b < blockLen + 1, _))

def maxstrLen (w : BitmapWord) (blockBegin blockLen alignmentLog2 : Nat) : Nat :=
  Nat.findGreatest (HasAlignedString w blockBegin blockLen alignmentLog2) blockLen

/-- An aligned string, not reaching to below some position, whose last bit is `p`. -/
def EndsString (w : BitmapWord) (lo alignmentLog2 len p : Nat) : Prop :=
  lo + len ≤ p + 1 ∧ (p + 1) % 2 ^ alignmentLog2 = 0 ∧ ∀ j < len, w.getLsbD (p - j) = true

instance (w : BitmapWord) (lo alignmentLog2 len p : Nat) :
    Decidable (EndsString w lo alignmentLog2 len p) :=
  inferInstanceAs (Decidable (_ ∧ _ ∧ ∀ j < len, _))

section Strings

variable {w : BitmapWord} {lo blockLen a : Nat}

theorem HasAlignedString.mono {len len' : Nat} (h : HasAlignedString w lo blockLen a len)
    (hle : len' ≤ len) (hmod : len' % 2 ^ a = 0) : HasAlignedString w lo blockLen a len' := by
  obtain ⟨-, b, hb, halign, hend, hall⟩ := h
  exact ⟨hmod, b, hb, halign, by omega, fun j hj => hall j (by omega)⟩

theorem hasAlignedString_maxstrLen (w : BitmapWord) (lo blockLen a : Nat) :
    HasAlignedString w lo blockLen a (maxstrLen w lo blockLen a) := by
  apply findGreatest_spec (zero_le blockLen)
  exact ⟨zero_mod _, 0, succ_pos _, zero_mod _, zero_le _, fun j hj => by omega⟩

theorem maxstrLen_mod (w : BitmapWord) (lo blockLen a : Nat) :
    maxstrLen w lo blockLen a % 2 ^ a = 0 := (hasAlignedString_maxstrLen w lo blockLen a).1

theorem maxstrLen_le (w : BitmapWord) (lo blockLen a : Nat) :
    maxstrLen w lo blockLen a ≤ blockLen := findGreatest_le blockLen

theorem hasAlignedString_iff {len : Nat} (hmod : len % 2 ^ a = 0) :
    HasAlignedString w lo blockLen a len ↔ len ≤ maxstrLen w lo blockLen a := by
  constructor
  · intro h
    obtain ⟨-, b, -, -, hend, -⟩ := id h
    exact le_findGreatest (by omega) h
  · exact fun hle => (hasAlignedString_maxstrLen w lo blockLen a).mono hle hmod

theorem exists_endsString_iff (hlo : lo % 2 ^ a = 0) {len : Nat} (hpos : 0 < len)
    (hmod : len % 2 ^ a = 0) :
    (∃ q < blockLen, EndsString w lo a len (lo + q)) ↔ len ≤ maxstrLen w lo blockLen a := by
  have hlo' := dvd_of_mod_eq_zero hlo
  have hlen' := dvd_of_mod_eq_zero hmod
  rw [← hasAlignedString_iff hmod]
  constructor
  · rintro ⟨q, hq, hle, halign, hall⟩
    have hbegin : 2 ^ a ∣ q + 1 - len := by
      have hsub := dvd_sub (dvd_sub (dvd_of_mod_eq_zero halign) hlo') hlen'
      rwa [show lo + q + 1 - lo - len = q + 1 - len by omega] at hsub
    refine ⟨hmod, q + 1 - len, by omega, mod_eq_zero_of_dvd hbegin, by omega, fun j hj => ?_⟩
    have hbit := hall (len - 1 - j) (by omega)
    rwa [show lo + q - (len - 1 - j) = lo + (q + 1 - len) + j by omega] at hbit
  · rintro ⟨-, b, -, halign, hend, hall⟩
    refine ⟨b + len - 1, by omega, by omega, ?_, fun j hj => ?_⟩
    · rw [show lo + (b + len - 1) + 1 = lo + b + len by omega]
      exact mod_eq_zero_of_dvd
        (Nat.dvd_add (Nat.dvd_add hlo' (dvd_of_mod_eq_zero halign)) hlen')
    · have hbit := hall (len - 1 - j) (by omega)
      rwa [show lo + b + (len - 1 - j) = lo + (b + len - 1) - j by omega] at hbit

/-- Two strings make up a longer one if the second one is not past the end of the
first one. -/
theorem endsString_add_iff {s d p : Nat} (hd : d ≤ s) (hs : 0 < s) (halign : d % 2 ^ a = 0) :
    EndsString w lo a (s + d) p ↔
      EndsString w lo a s p ∧ d ≤ p ∧ EndsString w lo a s (p - d) := by
  constructor
  · rintro ⟨hle, hend, hall⟩
    refine ⟨⟨by omega, hend, fun j hj => hall j (by omega)⟩, by omega, by omega, ?_, fun j hj => ?_⟩
    · have hsub := dvd_sub (dvd_of_mod_eq_zero hend) (dvd_of_mod_eq_zero halign)
      rw [show p - d + 1 = p + 1 - d by omega]
      exact mod_eq_zero_of_dvd hsub
    · have hbit := hall (j + d) (by omega)
      rwa [sub_add_eq, Nat.sub_right_comm] at hbit
  · rintro ⟨⟨hle, hend, hall⟩, hdp, hle', -, hall'⟩
    refine ⟨by omega, hend, fun j hj => ?_⟩
    by_cases hjs : j < s
    · exact hall j hjs
    · have hbit := hall' (j - d) (by omega)
      rwa [show p - d - (j - d) = p - j by omega] at hbit

theorem EndsString.dvd_of_sub {s d p : Nat} (hp : EndsString w lo a s p) (hd : d ≤ p)
    (hpd : EndsString w lo a s (p - d)) : d % 2 ^ a = 0 := by
  have hsub := dvd_sub (dvd_of_mod_eq_zero hp.2.1) (dvd_of_mod_eq_zero hpd.2.1)
  rw [show p + 1 - (p - d + 1) = d by omega] at hsub
  exact mod_eq_zero_of_dvd hsub

end Strings

variable {t len : Nat} {t : Nat} {word' sum : BitmapWord}

section Blocks

variable {w word m mask : BitmapWord} {log2 a : Nat}

def IsLowMask (log2 t : Nat) (m : BitmapWord) : Prop :=
  ∀ k < 2 ^ (6 - log2), ∀ q < 2 ^ log2, m.getLsbD (2 ^ log2 * k + q) = decide (q < 2 ^ t)

theorem isLowMask_zero (h : IsLsbsMask log2 mask) : IsLowMask log2 0 mask := by
  intro k hk q hq
  rw [h.getLsbD_lsb hk hq, pow_zero, decide_eq_decide]
  omega

theorem IsLowMask.double (h : IsLsbsMask log2 mask) (hm : IsLowMask log2 t m) :
    IsLowMask log2 (t + 1) (m ||| m <<< 2 ^ t) := by
  intro k hk q hq
  have hle := h.block_le hk
  rw [BitVec.getLsbD_or, BitVec.getLsbD_shiftLeft, hm k hk q hq,
    decide_eq_true (show 2 ^ log2 * k + q < 64 by omega), Bool.true_and]
  by_cases hlow : q < 2 ^ t
  · rw [decide_eq_true hlow, Bool.true_or, decide_eq_true (by rw [pow_succ]; omega)]
  · have hpos : 2 ^ log2 * k + q - 2 ^ t = 2 ^ log2 * k + (q - 2 ^ t) := by omega
    rw [hpos, hm k hk _ (lt_of_le_of_lt (sub_le q _) hq), decide_eq_false hlow,
      decide_eq_false (show ¬ 2 ^ log2 * k + q < 2 ^ t by omega), Bool.not_false, Bool.true_and,
      Bool.false_or, decide_eq_decide, pow_succ]
    omega

theorem getLsbD_combined (h : IsLsbsMask log2 mask) (hm : IsLowMask log2 t m) {k q : Nat}
    (hk : k < 2 ^ (6 - log2)) (hq : q < 2 ^ log2) :
    (word &&& word <<< 2 ^ t &&& ~~~m).getLsbD (2 ^ log2 * k + q) = true ↔
      word.getLsbD (2 ^ log2 * k + q) = true ∧ 2 ^ t ≤ q ∧
        word.getLsbD (2 ^ log2 * k + (q - 2 ^ t)) = true := by
  have hle := h.block_le hk
  have hlt : 2 ^ log2 * k + q < 64 := by omega
  rw [getLsbD_and, getLsbD_and, BitVec.getLsbD_not, BitVec.getLsbD_shiftLeft,
    hm k hk q hq, decide_eq_true hlt, Bool.true_and, Bool.true_and]
  by_cases hlow : q < 2 ^ t
  · rw [decide_eq_true hlow, Bool.not_true, Bool.and_false]
    constructor
    · intro hfalse
      cases hfalse
    · rintro ⟨-, hge, -⟩
      omega
  · rw [decide_eq_false hlow, decide_eq_false (show ¬ 2 ^ log2 * k + q < 2 ^ t by omega),
      Bool.not_false, Bool.true_and, Bool.and_true, Bool.and_eq_true,
      show 2 ^ log2 * k + q - 2 ^ t = 2 ^ log2 * k + (q - 2 ^ t) by omega]
    exact ⟨fun hbits => ⟨hbits.1, by omega, hbits.2⟩, fun hbits => ⟨hbits.1, hbits.2.2⟩⟩

theorem endsString_combined {lo s d q : Nat} (hd : d ≤ s) (hs : 0 < s) (halign : d % 2 ^ a = 0) :
    EndsString w lo a s (lo + q) ∧ d ≤ q ∧ EndsString w lo a s (lo + (q - d)) ↔
      EndsString w lo a (s + d) (lo + q) := by
  rw [endsString_add_iff hd hs halign]
  constructor
  · rintro ⟨hq, hdq, hqd⟩
    rw [← Nat.add_sub_assoc hdq] at hqd
    exact ⟨hq, by omega, hqd⟩
  · rintro ⟨hq, hdq, hqd⟩
    have hle := hqd.1
    rw [show lo + q - d = lo + (q - d) by omega] at hqd
    exact ⟨hq, by omega, hqd⟩

/-- The last bits of the strings of a length, without regard to the alignment. -/
theorem alignStrings_spec (h : IsLsbsMask log2 mask) (rounds : Nat) (hm : IsLowMask log2 t m)
    (hword : ∀ k < 2 ^ (6 - log2), ∀ q < 2 ^ log2, word.getLsbD (2 ^ log2 * k + q) = true ↔
      EndsString w (2 ^ log2 * k) 0 (2 ^ t) (2 ^ log2 * k + q)) :
    IsLowMask log2 (t + rounds) (alignStrings rounds t m word).2 ∧
      ∀ k < 2 ^ (6 - log2), ∀ q < 2 ^ log2,
        (alignStrings rounds t m word).1.getLsbD (2 ^ log2 * k + q) = true ↔
          EndsString w (2 ^ log2 * k) 0 (2 ^ (t + rounds)) (2 ^ log2 * k + q) := by
  induction rounds generalizing t m word with
  | zero => exact ⟨hm, hword⟩
  | succ rounds ih =>
    rw [alignStrings, add_comm rounds 1, ← add_assoc]
    apply ih (hm.double h)
    intro k hk q hq
    rw [getLsbD_combined h hm hk hq, hword k hk q hq, hword k hk (q - 2 ^ t) (lt_of_le_of_lt (sub_le q _) hq),
      pow_succ, mul_two]
    exact endsString_combined (le_refl _) (two_pow_pos t) (mod_one _)

/-- A block's length so far, along with the last bits of the strings of it. -/
structure Measured (w word sPerBlock : BitmapWord) (log2 a k len : Nat) : Prop where
  field : (lane (2 ^ log2) sPerBlock k).toNat = len
  bits : ∀ q < 2 ^ log2, word.getLsbD (2 ^ log2 * k + q) = true ↔
    0 < len ∧ EndsString w (2 ^ log2 * k) a len (2 ^ log2 * k + q)

theorem Measured.testBit {word sPerBlock : BitmapWord} {k len : Nat}
    (h : Measured w word sPerBlock log2 a k len) (ht : t < 2 ^ log2) :
    (sPerBlock >>> t).getLsbD (2 ^ log2 * k) = len.testBit t := by
  have hbit := getLsbD_lane (w := 2 ^ log2) sPerBlock k t
  rw [decide_eq_true ht, Bool.true_and, BitVec.getLsbD, h.field] at hbit
  rw [BitVec.getLsbD_ushiftRight, add_comm, hbit]

theorem getLsbD_select (x y select : BitmapWord) (p : Nat) :
    (x ^^^ ((x ^^^ y) &&& select)).getLsbD p =
      if select.getLsbD p = true then y.getLsbD p else x.getLsbD p := by
  rw [getLsbD_xor, getLsbD_and, getLsbD_xor]
  split
  · rename_i hset
    rw [hset, Bool.and_true, ← Bool.xor_assoc, Bool.xor_self, Bool.false_xor]
  · rename_i hclear
    rw [Bool.eq_false_iff.mpr hclear, Bool.and_false, Bool.xor_false]

/-- The length with all but its most significant bits cleared, down to bit `t`, but
with the most significant one set in any case. -/
def prefixLen (t len : Nat) : Nat :=
  if len = 0 then 0 else if len < 2 ^ t then 2 ^ log 2 len else len / 2 ^ t * 2 ^ t

/-- The greatest power of two below the length, `2 ^ t` at most. -/
def doubledLen (t len : Nat) : Nat :=
  if len = 0 then 0 else if len < 2 ^ t then 2 ^ log 2 len else 2 ^ t

theorem doubledLen_succ_of_lt (h : len < 2 ^ (t + 1)) :
    doubledLen (t + 1) len = doubledLen t len := by
  rw [doubledLen, doubledLen, if_pos h]
  split
  · rfl
  · split
    · rfl
    · rename_i hge
      rw [log_eq_of_pow_le_of_lt_pow (Nat.le_of_not_lt hge) h]

theorem doubledLen_of_ge (h : 2 ^ t ≤ len) : doubledLen t len = 2 ^ t := by
  have hpos := two_pow_pos t
  rw [doubledLen, if_neg (by omega), if_neg (Nat.not_lt_of_le h)]

theorem testBit_doubledLen (t len : Nat) : (doubledLen t len).testBit t = decide (2 ^ t ≤ len) := by
  rw [doubledLen]
  split
  · rename_i hzero
    rw [zero_testBit, hzero, eq_comm, decide_eq_false_iff_not]
    have hpos := two_pow_pos t
    omega
  · rename_i hne
    split
    · rename_i hlt
      have hlog : log 2 len < t := (log_lt_iff_lt_pow (by omega) hne).mpr hlt
      rw [testBit_two_pow, decide_eq_decide]
      omega
    · rename_i hge
      rw [testBit_two_pow_self, decide_eq_true (Nat.le_of_not_lt hge)]

theorem prefixLen_of_lt (h : len < 2 ^ (t + 1)) : prefixLen t len = doubledLen t len := by
  rw [prefixLen, doubledLen]
  split
  · rfl
  · split
    · rfl
    · rename_i hge
      rw [Nat.div_eq_of_lt_le (k := 1) (by omega) (by rw [pow_succ] at h; omega), one_mul]

theorem prefixLen_zero (len : Nat) : prefixLen 0 len = len := by
  rw [prefixLen]
  split
  · omega
  · rw [if_neg (by omega), pow_zero, Nat.div_one, mul_one]

theorem prefixLen_of_ge (h : 2 ^ t ≤ len) : prefixLen t len = len / 2 ^ t * 2 ^ t := by
  have hpos := two_pow_pos t
  rw [prefixLen, if_neg (by omega), if_neg (Nat.not_lt_of_le h)]

theorem prefixLen_step (h : 2 ^ (t + 1) ≤ len) :
    prefixLen t len = prefixLen (t + 1) len + if len.testBit t = true then 2 ^ t else 0 := by
  have hlt : 2 ^ t ≤ len := le_trans (Nat.pow_le_pow_right (by omega) (by omega)) h
  rw [prefixLen_of_ge hlt, prefixLen_of_ge h, testBit_eq_decide_div_mod_eq, pow_succ,
    ← Nat.div_div_eq_div_mul, mul_comm (2 ^ t) 2, ← mul_assoc]
  have hmod := div_add_mod (len / 2 ^ t) 2
  rcases mod_two_eq_zero_or_one (len / 2 ^ t) with hzero | hone
  · rw [hzero, decide_eq_false (by omega), if_neg Bool.false_ne_true]
    rw [hzero, add_zero, mul_comm] at hmod
    rw [add_zero, hmod]
  · rw [hone, decide_eq_true rfl, if_pos rfl]
    rw [hone, mul_comm] at hmod
    rw [← succ_mul, succ_eq_add_one, hmod]

theorem prefixLen_step_of_lt (h : len < 2 ^ (t + 1)) :
    prefixLen t len = prefixLen (t + 1) len := by
  rw [prefixLen_of_lt h, ← doubledLen_succ_of_lt h, prefixLen_of_lt]
  exact lt_trans h (Nat.pow_lt_pow_right (by omega) (by omega))

def blockMaxstrLen (w : BitmapWord) (log2 a k : Nat) : Nat :=
  maxstrLen w (2 ^ log2 * k) (2 ^ log2) a

theorem block_aligned (ha : a ≤ log2) (k : Nat) : 2 ^ log2 * k % 2 ^ a = 0 :=
  mod_eq_zero_of_dvd (Dvd.dvd.mul_right (pow_dvd_pow 2 ha) k)

theorem two_pow_mod (ha : a ≤ t) : 2 ^ t % 2 ^ a = 0 :=
  mod_eq_zero_of_dvd (pow_dvd_pow 2 ha)

theorem carriedLsbs_ok (pr : Profile) (h : IsLsbsMask log2 mask) (y : BitmapWord) :
    ∃ carried, carriedLsbs pr y log2 mask = .ok carried ∧
      ∀ k < 2 ^ (6 - log2), y.getLsbD (2 ^ log2 * k) = false →
        carried.getLsbD (2 ^ log2 * k) =
          (decide (∃ j < 2 ^ log2, y.getLsbD (2 ^ log2 * k + j) = true) ^^
            y.getLsbD (2 ^ log2 * (k + 1))) := by
  have hfits : (y >>> 1).toNat + (~~~mask >>> 1).toNat < 2 ^ 64 := by
    rw [BitVec.toNat_ushiftRight, BitVec.toNat_ushiftRight, shiftRight_eq_div_pow,
      shiftRight_eq_div_pow]
    omega
  refine ⟨_, by rw [carriedLsbs, CacheRows.add_ok pr hfits, ok_bind]; rfl, fun k hk hlsb => ?_⟩
  rw [BitVec.getLsbD_ushiftRight, Nat.add_comm, getLsbD_carried h hk hlsb]

section Combined

variable {sPerBlock y : BitmapWord} {k len d : Nat}

theorem Measured.unselected (h : Measured w word sPerBlock log2 a k len)
    (hword : ∀ q < 2 ^ log2, word'.getLsbD (2 ^ log2 * k + q) = word.getLsbD (2 ^ log2 * k + q))
    (hsum : (lane (2 ^ log2) sum k).toNat = len) : Measured w word' sum log2 a k len := by
  refine ⟨hsum, fun q hq => ?_⟩
  rw [hword q hq]
  exact h.bits q hq

variable (h : Measured w word sPerBlock log2 a k len) (hpos : 0 < len) (hd : d ≤ len)
  (halign : d % 2 ^ a = 0)
  (hy : ∀ q < 2 ^ log2, y.getLsbD (2 ^ log2 * k + q) = true ↔
    word.getLsbD (2 ^ log2 * k + q) = true ∧ d ≤ q ∧
      word.getLsbD (2 ^ log2 * k + (q - d)) = true)
include h hpos hd halign hy

theorem Measured.combined {q : Nat} (hq : q < 2 ^ log2) :
    y.getLsbD (2 ^ log2 * k + q) = true ↔
      EndsString w (2 ^ log2 * k) a (len + d) (2 ^ log2 * k + q) := by
  rw [hy q hq, h.bits q hq, h.bits (q - d) (lt_of_le_of_lt (sub_le q d) hq),
    ← endsString_combined hd hpos halign]
  constructor
  · rintro ⟨⟨-, hend⟩, hdq, -, hend'⟩
    exact ⟨hend, hdq, hend'⟩
  · rintro ⟨hend, hdq, hend'⟩
    exact ⟨⟨hpos, hend⟩, hdq, hpos, hend'⟩

theorem Measured.exists_combined_iff (ha : a ≤ log2) (hmod : len % 2 ^ a = 0) :
    (∃ q < 2 ^ log2, y.getLsbD (2 ^ log2 * k + q) = true) ↔ len + d ≤ blockMaxstrLen w log2 a k := by
  have hsum : (len + d) % 2 ^ a = 0 := mod_eq_zero_of_dvd
    (Nat.dvd_add (dvd_of_mod_eq_zero hmod) (dvd_of_mod_eq_zero halign))
  rw [blockMaxstrLen, ← exists_endsString_iff (block_aligned ha k) (by omega) hsum]
  constructor
  · rintro ⟨q, hq, hbit⟩
    exact ⟨q, hq, (h.combined hpos hd halign hy hq).mp hbit⟩
  · rintro ⟨q, hq, hend⟩
    exact ⟨q, hq, (h.combined hpos hd halign hy hq).mpr hend⟩

theorem Measured.selected
    (hword : ∀ q < 2 ^ log2, word'.getLsbD (2 ^ log2 * k + q) = y.getLsbD (2 ^ log2 * k + q))
    (hsum : (lane (2 ^ log2) sum k).toNat = len + d) :
    Measured w word' sum log2 a k (len + d) := by
  refine ⟨hsum, fun q hq => ?_⟩
  rw [hword q hq, h.combined hpos hd halign hy hq]
  exact ⟨fun hend => ⟨by omega, hend⟩, And.right⟩

end Combined

section Doubling

variable {sPerBlock y carried : BitmapWord} {t : Nat}

theorem getLsbD_combined_lsb (h : IsLsbsMask log2 mask) (hm : IsLowMask log2 t m) {k : Nat}
    (hk : k ≤ 2 ^ (6 - log2)) :
    (word &&& word <<< 2 ^ t &&& ~~~m).getLsbD (2 ^ log2 * k) = false := by
  rcases lt_or_eq_of_le hk with hlt | rfl
  · apply Bool.eq_false_iff.mpr
    intro hbit
    rw [← add_zero (2 ^ log2 * k), getLsbD_combined h hm hlt (two_pow_pos log2)] at hbit
    have hpos := two_pow_pos t
    omega
  · rw [← h.words_split]
    exact BitVec.getLsbD_of_ge _ 64 (le_refl 64)

theorem doubled_selects (h : IsLsbsMask log2 mask) (ha : a ≤ log2) (hat : a ≤ t) (ht : t < log2)
    (hm : IsLowMask log2 t m)
    (hmeas : ∀ k < 2 ^ (6 - log2), Measured w word sPerBlock log2 a k
      (doubledLen t (blockMaxstrLen w log2 a k)))
    (hbits : ∀ k < 2 ^ (6 - log2), carried.getLsbD (2 ^ log2 * k) =
      decide (∃ j < 2 ^ log2, (word &&& word <<< 2 ^ t &&& ~~~m).getLsbD (2 ^ log2 * k + j) = true)) :
    SelectsBlocks log2 (carried &&& mask &&& sPerBlock >>> t)
      (fun k => 2 ^ (t + 1) ≤ blockMaxstrLen w log2 a k) := by
  rw [BitVec.and_assoc, BitVec.and_comm mask, ← BitVec.and_assoc]
  apply h.selectsBlocks
  intro k hk
  have hcombined (hge : 2 ^ t ≤ blockMaxstrLen w log2 a k) := by
    have hmeas' := hmeas k hk
    rw [doubledLen_of_ge hge] at hmeas'
    exact hmeas'.exists_combined_iff (two_pow_pos t) (le_refl _) (two_pow_mod hat)
      (fun q hq => getLsbD_combined h hm hk hq) ha (two_pow_mod hat)
  rw [getLsbD_and, hbits k hk, (hmeas k hk).testBit (lt_trans ht Nat.lt_two_pow_self),
    testBit_doubledLen, Bool.and_eq_true, decide_eq_true_eq, decide_eq_true_eq, pow_succ,
    mul_two]
  constructor
  · rintro ⟨hex, hge⟩
    exact (hcombined hge).mp hex
  · intro hge
    have hge' : 2 ^ t ≤ blockMaxstrLen w log2 a k := by omega
    exact ⟨(hcombined hge').mpr hge, hge'⟩

theorem doubled_add_ok (pr : Profile) (h : IsLsbsMask log2 mask) (ht : t < log2)
    (hmeas : ∀ k < 2 ^ (6 - log2), Measured w word sPerBlock log2 a k
      (doubledLen t (blockMaxstrLen w log2 a k))) {x : BitmapWord}
    (hx : SelectsBlocks log2 x (fun k => 2 ^ (t + 1) ≤ blockMaxstrLen w log2 a k)) :
    ∃ sum, add pr sPerBlock (x <<< t) = .ok sum ∧ ∀ k < 2 ^ (6 - log2),
      (lane (2 ^ log2) sum k).toNat = doubledLen t (blockMaxstrLen w log2 a k) +
        if 2 ^ (t + 1) ≤ blockMaxstrLen w log2 a k then 2 ^ t else 0 := by
  have htlog : t < 2 ^ log2 := lt_trans ht Nat.lt_two_pow_self
  have hshift (k : Nat) (hk : k < 2 ^ (6 - log2)) : (lane (2 ^ log2) (x <<< t) k).toNat =
      if 2 ^ (t + 1) ≤ blockMaxstrLen w log2 a k then 2 ^ t else 0 := by
    rw [lane_lsbs_shiftLeft h hx.lsbsOnly htlog hk]
    simp only [hx.getLsbD hk]
    split
    · rw [BitVec.toNat_twoPow, mod_eq_of_lt (Nat.pow_lt_pow_right (by omega) htlog)]
    · rfl
  have hfield (k : Nat) (hk : k < 2 ^ (6 - log2)) :
      (lane (2 ^ log2) sPerBlock k).toNat + (lane (2 ^ log2) (x <<< t) k).toNat < 2 ^ 2 ^ log2 := by
    rw [hshift k hk]
    split
    · rename_i hge
      have hge' : 2 ^ t ≤ blockMaxstrLen w log2 a k :=
        le_trans (Nat.pow_le_pow_right (by omega) (by omega)) hge
      have hdouble : 2 ^ t + 2 ^ t ≤ 2 ^ log2 := by
        rw [← mul_two, ← pow_succ]
        exact Nat.pow_le_pow_right (by omega) ht
      rw [(hmeas k hk).field, doubledLen_of_ge hge']
      exact lt_of_le_of_lt hdouble Nat.lt_two_pow_self
    · exact isLt _
  have hfits : sPerBlock.toNat + (x <<< t).toNat < 2 ^ 64 := by
    have hlow := low_add_lt hfield
    rwa [← h.words_split, mod_eq_of_lt (isLt _), mod_eq_of_lt (isLt _)] at hlow
  refine ⟨_, CacheRows.add_ok pr hfits, fun k hk => ?_⟩
  rw [lane_add (h.block_le hk) (fun j hj => hfield j (lt_trans hj hk)), BitVec.toNat_add,
    mod_eq_of_lt (hfield k hk), (hmeas k hk).field, hshift k hk]

end Doubling

theorem doubleLengths_ok (pr : Profile) (h : IsLsbsMask log2 mask) (ha : a ≤ log2) (rounds : Nat)
    {s : Lengths} (hrounds : t + rounds = log2) (hat : a ≤ t) (hm : IsLowMask log2 t m)
    (hs : s.sLog2 = t)
    (hmeas : ∀ k < 2 ^ (6 - log2), Measured w s.bitmapWord s.sPerBlock log2 a k
      (doubledLen t (blockMaxstrLen w log2 a k))) :
    ∃ r, doubleLengths pr log2 mask rounds m s = .ok r ∧ t ≤ r.sLog2 ∧ r.sLog2 ≤ log2 ∧
      (∀ k < 2 ^ (6 - log2), blockMaxstrLen w log2 a k < 2 ^ (r.sLog2 + 1)) ∧
      (r.sLog2 = t ∨ ∃ k < 2 ^ (6 - log2), 2 ^ r.sLog2 ≤ blockMaxstrLen w log2 a k) ∧
      ∀ k < 2 ^ (6 - log2), Measured w r.bitmapWord r.sPerBlock log2 a k
        (doubledLen r.sLog2 (blockMaxstrLen w log2 a k)) := by
  induction rounds generalizing t m s with
  | zero =>
    obtain rfl : t = log2 := hrounds
    refine ⟨s, rfl, hs.ge, hs.le, fun k _ => ?_, .inl hs, fun k hk => ?_⟩
    · rw [hs, pow_succ]
      have hle := maxstrLen_le w (2 ^ t * k) (2 ^ t) a
      have hpos := two_pow_pos t
      rw [blockMaxstrLen]
      omega
    · rw [hs]
      exact hmeas k hk
  | succ rounds ih =>
    obtain ⟨sLog2, word, sPerBlock⟩ := s
    obtain rfl : t = sLog2 := hs.symm
    have ht : t < log2 := by omega
    obtain ⟨carried, hcarried, hbits⟩ := carriedLsbs_ok pr h (word &&& word <<< 2 ^ t &&& ~~~m)
    have hx := doubled_selects h ha hat ht hm hmeas (fun k hk => by
      rw [hbits k hk (getLsbD_combined_lsb h hm hk.le), getLsbD_combined_lsb h hm hk, Bool.xor_false])
    have hassert : word &&& word <<< 2 ^ t &&& ~~~m &&& mask = 0 := by
      apply BitVec.eq_of_getLsbD_eq
      intro p hp
      rw [getLsbD_and, show (0 : BitmapWord).getLsbD p = false from getLsbD_zero,
        h.bits p hp, Bool.and_eq_false_iff, decide_eq_false_iff_not, or_iff_not_imp_right, not_not]
      intro hmod
      obtain ⟨k, hk, rfl⟩ := h.exists_block hp hmod
      exact getLsbD_combined_lsb h hm hk.le
    rw [doubleLengths]
    dsimp only
    rw [debugAssert_ok pr hassert, ok_bind, hcarried, ok_bind]
    generalize carried &&& mask &&& sPerBlock >>> t = x at hx
    split
    · -- None of the blocks has a longer string.
      rename_i hzero
      refine ⟨_, rfl, le_refl t, ht.le, fun k hk => ?_, .inl rfl, hmeas⟩
      by_contra hge
      have hbit := (hx.getLsbD hk).mpr (Nat.le_of_not_lt hge)
      rw [hzero, show (0 : BitmapWord).getLsbD _ = false from getLsbD_zero] at hbit
      cases hbit
    · rename_i hne
      obtain ⟨p, -, hp⟩ := exists_bit hne
      obtain ⟨k₀, hk₀, -, hge₀⟩ := (hx p).mp hp
      obtain ⟨sum, hsum, hfields⟩ := doubled_add_ok pr h ht hmeas hx
      obtain ⟨select, hselect, hselected⟩ := blocksSelectMask_ok pr h hx.lsbsOnly
      rw [hsum, ok_bind, hselect, ok_bind]
      have hmeas' (k : Nat) (hk : k < 2 ^ (6 - log2)) : Measured w
          (word ^^^ ((word ^^^ (word &&& word <<< 2 ^ t &&& ~~~m)) &&& select)) sum log2 a k
          (doubledLen (t + 1) (blockMaxstrLen w log2 a k)) := by
        have hmeask := hmeas k hk
        have hfield := hfields k hk
        by_cases hge : 2 ^ (t + 1) ≤ blockMaxstrLen w log2 a k
        · have hge' : 2 ^ t ≤ blockMaxstrLen w log2 a k :=
            le_trans (Nat.pow_le_pow_right (by omega) (by omega)) hge
          rw [if_pos hge] at hfield
          rw [doubledLen_of_ge hge'] at hmeask hfield
          rw [doubledLen_of_ge hge, pow_succ, mul_two]
          exact hmeask.selected (two_pow_pos t) (le_refl _) (two_pow_mod hat)
            (fun q hq => getLsbD_combined h hm hk hq) (fun q hq => by
              rw [getLsbD_select, hselected k hk q hq, if_pos ((hx.getLsbD hk).mpr hge)]) hfield
        · rw [if_neg hge, add_zero] at hfield
          rw [doubledLen_succ_of_lt (Nat.lt_of_not_le hge)]
          exact hmeask.unselected (fun q hq => by
            rw [getLsbD_select, hselected k hk q hq,
              if_neg (fun hset => hge ((hx.getLsbD hk).mp hset))]) hfield
      obtain ⟨r, hr, hge, hle, hlt, hlast, hlens⟩ :=
        ih (s := ⟨t + 1, _, sum⟩) (by omega) (by omega) (hm.double h) rfl hmeas'
      refine ⟨r, hr, by omega, hle, hlt, .inr ?_, hlens⟩
      rcases hlast with hlast | hlast
      · rw [hlast]
        exact ⟨k₀, hk₀, hge₀⟩
      · exact hlast

end Blocks

end CocoonFs.MaxstrLens
