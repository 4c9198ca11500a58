import CocoonFs.Masks

namespace CocoonFs.GenRandomScalar

open Codes Multiprecision Masks Nat
open Mp (len_trunc ofBytes trunc value_trunc)
open BigEndian (bytes value)

/-- The operations on integers of bytes for the scalars of elliptic curves, the limbs of which
are `limbLen` bytes, but for the highest one. -/
structure EccCmpa extends Cmpa where
  /-- What is shifted out is in the most significant bits of the limb returned. -/
  ctRshiftMp : Mp → Nat → Mp × Nat
  ctRshiftMp_eq : ∀ op0 distance, distance < 8 * limbLen → ctRshiftMp op0 distance =
    (trunc op0.len (op0.value / 2 ^ distance),
      op0.value % 2 ^ distance * 2 ^ (8 * limbLen - distance))
  loadL : Mp → Nat → Nat
  loadL_eq : ∀ op0 i, limbLen * i < op0.len →
    loadL op0 i = op0.value / 256 ^ (limbLen * i) % 256 ^ limbLen
  storeL : Mp → Nat → Nat → Mp
  storeL_eq : ∀ op0 i l, limbLen * i < op0.len → l < 256 ^ limbLen →
    l < 256 ^ (op0.len - limbLen * i) → storeL op0 i l = trunc op0.len
      (op0.value - op0.value / 256 ^ (limbLen * i) % 256 ^ limbLen * 256 ^ (limbLen * i) +
        l * 256 ^ (limbLen * i))
  /-- `CtMpDivisor::new()` with the limb to subtract. -/
  ctMpDivisor : Mp → Nat → Option Mp
  ctMpDivisor_eq : ∀ op0 op1, op1 < op0.value →
    ctMpDivisor op0 op1 = some (trunc op0.len (op0.value - op1))
  /-- The first operand has the high part of the dividend. -/
  ctModHighMpMp : Mp → Mp → Mp → Mp
  ctModHighMpMp_eq : ∀ high low divisor, divisor.value ≠ 0 → ctModHighMpMp high low divisor =
    trunc low.len ((high.value * 256 ^ low.len + low.value) % divisor.value)

variable {σ : Type} (cmpa : EccCmpa)

/-- A shift to the right of the two integers, by moving what comes out of one into the other. -/
def rshiftExtra (extra result : Mp) (rshiftDistance : Nat) : Mp × Mp :=
  let (extra, extraShiftedOut) := cmpa.ctRshiftMp extra rshiftDistance
  let (result, _) := cmpa.ctRshiftMp result rshiftDistance
  let resultNHighLimbBytes := (result.len - 1) % cmpa.limbLen + 1
  let resultShiftIn := extraShiftedOut / 2 ^ (8 * (cmpa.limbLen - resultNHighLimbBytes))
  let resultNlimbs := cmpa.nlimbsForLen result.len
  (extra, cmpa.storeL result (resultNlimbs - 1)
    (cmpa.loadL result (resultNlimbs - 1) ||| resultShiftIn))

def oversample (orderNbits : Nat) (buf : List Byte) : Mp × Mp :=
  let extra := ofBytes (buf.take 8)
  let result := ofBytes (buf.drop 8)
  if orderNbits % 8 ≠ 0 then rshiftExtra cmpa extra result (8 - orderNbits % 8) else (extra, result)

def tcgTpm2GenRandomEcScalar (resultLen : Nat) (order : Mp) (orderNbits : Nat) (rng : Rng σ)
    (s : σ) : Crypto (List Byte × σ) := do
  failIf (resultLen ≠ order.len) .internal
  debugAssert (order.len = (orderNbits + 7) / 8)
  let (buf, s) ← rng.generate s (8 + resultLen)
  let (extra, result) := oversample cmpa orderNbits buf
  match cmpa.ctMpDivisor order 1 with
  | none => .error .panic
  | some orderMinusOneDivisor =>
    let result := cmpa.ctModHighMpMp extra result orderMinusOneDivisor
    .ok ((cmpa.ctAddMpL result 1).toBytes, s)

/-- The number that the first bits make, as many as given. -/
def leadingBits (buf : List Byte) (nbits : Nat) : Nat :=
  value buf / 2 ^ (8 * buf.length - nbits)

theorem value_take_drop (k : Nat) (bs : List Byte) : value bs =
    value (bs.take k) * 256 ^ (bs.drop k).length + value (bs.drop k) := by
  induction k generalizing bs with
  | zero => simp [value]
  | succ k ih =>
    cases bs with
    | nil => rfl
    | cons b bs =>
      have hlen : (bs.take k).length + (bs.drop k).length = bs.length := by
        rw [← List.length_append, List.take_append_drop]
      rw [List.take_succ_cons, List.drop_succ_cons, value, value, ih bs, ← hlen]
      ring

variable {cmpa}

/-- The highest limb's bytes. -/
theorem highLimb (cmpa : EccCmpa) {len : Nat} (h : 0 < len) :
    cmpa.limbLen * (cmpa.nlimbsForLen len - 1) + ((len - 1) % cmpa.limbLen + 1) = len ∧
      (len - 1) % cmpa.limbLen + 1 ≤ cmpa.limbLen := by
  have hpos := cmpa.limbLen_pos
  have hdiv : cmpa.nlimbsForLen len - 1 = (len - 1) / cmpa.limbLen := by
    rw [Cmpa.nlimbsForLen, show len + cmpa.limbLen - 1 = len - 1 + cmpa.limbLen by omega,
      Nat.add_div_right _ hpos, Nat.succ_sub_one]
  have hmod := Nat.mod_lt (len - 1) hpos
  have hsplit := Nat.div_add_mod (len - 1) cmpa.limbLen
  rw [hdiv]
  omega

theorem rshiftExtra_eq {extra result : Mp} {d : Nat} (hlen : 0 < result.len) (hd : d < 8) :
    rshiftExtra cmpa extra result d = (trunc extra.len (extra.value / 2 ^ d),
      trunc result.len
        (result.value / 2 ^ d + extra.value % 2 ^ d * 2 ^ (8 * result.len - d))) := by
  have hpos := cmpa.limbLen_pos
  obtain ⟨hsplit, hle⟩ := highLimb cmpa hlen
  rw [rshiftExtra, cmpa.ctRshiftMp_eq _ _ (by omega), cmpa.ctRshiftMp_eq _ _ (by omega)]
  dsimp only [len_trunc]
  set k := cmpa.nlimbsForLen result.len - 1
  set h := (result.len - 1) % cmpa.limbLen + 1
  have hh : 0 < h := succ_pos _
  obtain ⟨t, ht⟩ : ∃ t, 8 * h = t + d := ⟨8 * h - d, by omega⟩
  set x := extra.value % 2 ^ d
  have hx : x < 2 ^ d := mod_lt _ (Nat.two_pow_pos d)
  set r := result.value / 2 ^ d
  have hr : (trunc result.len r).value = r :=
    value_trunc (lt_of_le_of_lt (Nat.div_le_self _ _) result.fits)
  have hpow (n : Nat) : 256 ^ n = 2 ^ (8 * n) := (pow_mul 2 8 n).symm
  have htop : 2 ^ (8 * result.len - d) = 2 ^ t * 256 ^ (cmpa.limbLen * k) := by
    rw [hpow, ← pow_add]
    congr 1
    omega
  have hhigh : r / 256 ^ (cmpa.limbLen * k) < 2 ^ t := by
    rw [Nat.div_lt_iff_lt_mul (Nat.pow_pos (by decide)), ← htop,
      Nat.div_lt_iff_lt_mul (Nat.two_pow_pos d), ← pow_add]
    have hfits := result.fits
    rw [hpow] at hfits
    exact lt_of_lt_of_eq hfits (congrArg (2 ^ ·) (by omega))
  have hload : cmpa.loadL (trunc result.len r) k = r / 256 ^ (cmpa.limbLen * k) := by
    have hle' : 2 ^ t ≤ 256 ^ cmpa.limbLen := by
      rw [hpow]
      exact Nat.pow_le_pow_right (by decide) (by omega)
    rw [cmpa.loadL_eq _ _ (by rw [len_trunc]; omega), hr, mod_eq_of_lt (hhigh.trans_le hle')]
  have hshiftIn : x * 2 ^ (8 * cmpa.limbLen - d) / 2 ^ (8 * (cmpa.limbLen - h)) = x * 2 ^ t := by
    rw [show 8 * cmpa.limbLen - d = t + 8 * (cmpa.limbLen - h) by omega, pow_add, ← mul_assoc,
      Nat.mul_div_cancel _ (Nat.two_pow_pos _)]
  have hor : r / 256 ^ (cmpa.limbLen * k) ||| x * 2 ^ t =
      x * 2 ^ t + r / 256 ^ (cmpa.limbLen * k) := by
    rw [mul_comm x, Nat.two_pow_add_eq_or_of_lt hhigh, Nat.or_comm]
  have hnew : x * 2 ^ t + r / 256 ^ (cmpa.limbLen * k) < 256 ^ h := by
    calc x * 2 ^ t + r / 256 ^ (cmpa.limbLen * k) < x * 2 ^ t + 2 ^ t := Nat.add_lt_add_left hhigh _
      _ = (x + 1) * 2 ^ t := (succ_mul _ _).symm
      _ ≤ 2 ^ d * 2 ^ t := Nat.mul_le_mul_right _ hx
      _ = 256 ^ h := by rw [hpow, ht, ← pow_add, add_comm]
  have hback := Nat.div_mul_le_self r (256 ^ (cmpa.limbLen * k))
  rw [hload, hshiftIn, hor, cmpa.storeL_eq _ _ _ (by rw [len_trunc]; omega)
    (hnew.trans_le (Nat.pow_le_pow_right (by decide) hle))
    (lt_of_lt_of_eq hnew (congrArg (256 ^ ·) (by rw [len_trunc]; omega)))]
  have hload' := cmpa.loadL_eq (trunc result.len r) k (by rw [len_trunc]; omega)
  rw [hload, hr] at hload'
  rw [hr, ← hload', htop, add_mul]
  congr 2
  rw [mul_assoc]
  omega

theorem low_lt {len d x r : Nat} (hd : d ≤ 8 * len) (hx : x < 2 ^ d) (hr : r < 256 ^ len) :
    r / 2 ^ d + x * 2 ^ (8 * len - d) < 256 ^ len := by
  have hpow : 256 ^ len = 2 ^ (8 * len - d) * 2 ^ d := by
    rw [← pow_add, Nat.sub_add_cancel hd]
    exact (pow_mul 2 8 len).symm
  rw [hpow] at hr ⊢
  calc r / 2 ^ d + x * 2 ^ (8 * len - d) < 2 ^ (8 * len - d) + x * 2 ^ (8 * len - d) :=
        Nat.add_lt_add_right ((Nat.div_lt_iff_lt_mul (Nat.two_pow_pos d)).mpr hr) _
    _ = (x + 1) * 2 ^ (8 * len - d) := by ring
    _ ≤ 2 ^ d * 2 ^ (8 * len - d) := Nat.mul_le_mul_right _ hx
    _ = 2 ^ (8 * len - d) * 2 ^ d := mul_comm _ _

/-- Both parts together are the leading bits of what has been generated. -/
theorem oversample_eq (cmpa : EccCmpa) {orderNbits len : Nat} {buf : List Byte}
    (hbuf : buf.length = 8 + len)
    (hlen : len = (orderNbits + 7) / 8) (hpos : 0 < len) :
    (oversample cmpa orderNbits buf).2.len = len ∧
      (oversample cmpa orderNbits buf).1.value * 256 ^ len +
        (oversample cmpa orderNbits buf).2.value = leadingBits buf (orderNbits + 64) := by
  obtain ⟨d, hd⟩ : ∃ d, d = 8 * len - orderNbits := ⟨_, rfl⟩
  have hresult : (ofBytes (buf.drop 8)).len = len := by
    rw [Mp.len_ofBytes, List.length_drop, hbuf, Nat.add_sub_cancel_left]
  have hvalue := value_take_drop 8 buf
  have hexp : 8 * buf.length - (orderNbits + 64) = d := by omega
  rw [leadingBits, hexp, hvalue, oversample]
  change _ ∧ _ = (_ * 256 ^ (ofBytes (buf.drop 8)).len + _) / _
  rw [hresult, ← Mp.value_ofBytes, ← Mp.value_ofBytes]
  set extra := ofBytes (buf.take 8)
  set result := ofBytes (buf.drop 8)
  by_cases hbits : orderNbits % 8 ≠ 0
  · have hpow : 256 ^ len = 2 ^ d * 2 ^ (8 * len - d) := by
      rw [← pow_add, show d + (8 * len - d) = 8 * len by omega]
      exact (pow_mul 2 8 len).symm
    have hsplit : extra.value * 256 ^ len = 2 ^ d *
        (extra.value / 2 ^ d * 256 ^ len + extra.value % 2 ^ d * 2 ^ (8 * len - d)) := by
      calc extra.value * 256 ^ len
        _ = (2 ^ d * (extra.value / 2 ^ d) + extra.value % 2 ^ d) * 256 ^ len := by
          rw [Nat.div_add_mod]
        _ = 2 ^ d * (extra.value / 2 ^ d * 256 ^ len) + extra.value % 2 ^ d * 256 ^ len := by ring
        _ = _ := by rw [hpow]; ring
    rw [if_pos hbits, show 8 - orderNbits % 8 = d by omega, rshiftExtra_eq (by omega) (by omega),
      value_trunc (lt_of_le_of_lt (Nat.div_le_self _ _) extra.fits),
      value_trunc (low_lt (by omega) (mod_lt _ (Nat.two_pow_pos d)) result.fits), hresult,
      hsplit, Nat.mul_add_div (Nat.two_pow_pos d)]
    exact ⟨rfl, by ring⟩
  · have hzero : d = 0 := by omega
    rw [if_neg hbits, hzero, pow_zero, Nat.div_one]
    exact ⟨hresult, rfl⟩

variable (cmpa)

/-- The scalar is one more than the remainder of the random number, whatever the limbs. -/
theorem genRandomEcScalar_eq {order : Mp} {orderNbits : Nat} (horder : 1 < order.value)
    (hlen : order.len = (orderNbits + 7) / 8) (rng : Rng σ) (s : σ) :
    (tcgTpm2GenRandomEcScalar cmpa order.len order orderNbits rng s = do
      let (buf, s) ← rng.generate s (8 + order.len)
      .ok (bytes order.len (1 + leadingBits buf (orderNbits + 64) % (order.value - 1)),
        s)) ∧
      ∀ buf, 1 + leadingBits buf (orderNbits + 64) % (order.value - 1) ≤ order.value - 1 := by
  have hlt (c : Nat) : c % (order.value - 1) < order.value - 1 := mod_lt _ (by omega)
  refine ⟨?_, fun buf => ?_⟩
  · rw [tcgTpm2GenRandomEcScalar, failIf_neg (not_not.mpr rfl), bind_ok rfl, debugAssert_pos hlen]
    change (rng.generate s (8 + order.len) >>= _) = _
    cases hgen : rng.generate s (8 + order.len) with
    | error e => rfl
    | ok p =>
      obtain ⟨buf, s'⟩ := p
      have hbuf := rng.length_generate _ _ _ _ hgen
      have hfits := order.fits
      have hpos : 0 < order.len := by
        by_contra hzero
        rw [Nat.eq_zero_of_not_pos hzero, pow_zero] at hfits
        omega
      obtain ⟨hlow, hvalue⟩ := oversample_eq cmpa hbuf hlen hpos
      have hdivisor : (trunc order.len (order.value - 1)).value = order.value - 1 :=
        value_trunc (lt_of_le_of_lt (Nat.sub_le _ _) hfits)
      set c := leadingBits buf (orderNbits + 64)
      have hrem := hlt c
      have hfitsRem : c % (order.value - 1) < 256 ^ order.len := by omega
      have hfitsSum : c % (order.value - 1) + 1 < 256 ^ order.len := by omega
      dsimp only [bind, Except.bind]
      have hone : 1 < 256 ^ order.len := horder.trans hfits
      rw [cmpa.ctMpDivisor_eq order 1 horder]
      dsimp only
      rw [cmpa.ctModHighMpMp_eq _ _ _ (by rw [hdivisor]; omega), hdivisor, hlow, hvalue,
        cmpa.ctAddMpL_eq (trunc _ _) _ (Nat.one_lt_pow cmpa.limbLen_pos.ne' (by decide)) hone,
        value_trunc hfitsRem, Mp.toBytes, len_trunc, len_trunc,
        value_trunc hfitsSum, add_comm 1]
  · have := hlt (leadingBits buf (orderNbits + 64))
    omega

def reference : EccCmpa where
  toCmpa := Cmpa.reference
  ctRshiftMp op0 distance := (trunc op0.len (op0.value / 2 ^ distance),
    op0.value % 2 ^ distance * 2 ^ (8 * 8 - distance))
  ctRshiftMp_eq := fun _ _ _ => rfl
  loadL op0 i := op0.value / 256 ^ (8 * i) % 256 ^ 8
  loadL_eq := fun _ _ _ => rfl
  storeL op0 i l := trunc op0.len
    (op0.value - op0.value / 256 ^ (8 * i) % 256 ^ 8 * 256 ^ (8 * i) + l * 256 ^ (8 * i))
  storeL_eq := fun _ _ _ _ _ _ => rfl
  ctMpDivisor op0 op1 := if op1 < op0.value then some (trunc op0.len (op0.value - op1)) else none
  ctMpDivisor_eq := fun _ _ h => if_pos h
  ctModHighMpMp high low divisor :=
    trunc low.len ((high.value * 256 ^ low.len + low.value) % divisor.value)
  ctModHighMpMp_eq := fun _ _ _ _ => rfl

/-- A group of order 521, ten bits, so that the two most significant bits are in another byte. -/
theorem genRandomEcScalar_eq_tenBits :
    tcgTpm2GenRandomEcScalar reference 2 (ofBytes [2, 9]) 10 Rng.replaying
        [1, 0, 0, 0, 0, 0, 0, 0, 0, 63, 5] =
      .ok (bytes 2 (1 + leadingBits [1, 0, 0, 0, 0, 0, 0, 0, 0, 63] 74 % 520), [5]) :=
  (@genRandomEcScalar_eq _ reference (ofBytes [2, 9]) 10 (by decide) rfl Rng.replaying
    [1, 0, 0, 0, 0, 0, 0, 0, 0, 63, 5]).1

end CocoonFs.GenRandomScalar
