import CocoonFs.ChineseRemainder
import CocoonFs.Multiprecision
import Mathlib.Data.Nat.Size

namespace CocoonFs.RsaCrt

open Codes Multiprecision ChineseRemainder Nat
open Mp (eq_of_copyFrom len_trunc trunc value_trunc zero)

def minPublicExponent : Nat := 0x010001

def publicExponentIsValid (publicExponent : Mp) : Bool :=
  minPublicExponent ≤ publicExponent.value && publicExponent.value % 2 != 0 &&
    publicExponent.value.size ≤ 256

structure RsaPrivateKeyCrt where
  pLen : Nat
  p : Mp
  qLen : Nat
  q : Mp
  dP : Mp
  dQ : Mp
  pInvModQ : Mp

variable (cmpa : Cmpa)

def mapInvError (keyBinding : CtInvModMpMpError → Bool) :
    Except CtInvModMpMpError Mp → Crypto Mp
  | .ok r => .ok r
  | .error e => if keyBinding e then fail .keyBinding else fail .internal

def notCoprimeOrInvalid : CtInvModMpMpError → Bool
  | .operandsNotCoprime | .invalidModulus => true
  | .inconsistentOperandLengths | .insufficientResultSpace | .insufficientScratchSpace => false

/-- `CtMpDivisor::new()`, which refuses zero only. -/
def divisorNew (divisor : Mp) (e : CryptoError) : Crypto Unit := failIf (divisor.value = 0) e

/-- The factor `q` gets cut to its significant length. -/
def shrinkQ (q : Mp) : Crypto (Mp × Nat) := do
  debugAssert (q.value ≠ 0)
  failIf (q.value = 0) .keyBinding
  let qLen := (q.value.size + 7) / 8
  if cmpa.limbsLen qLen < q.len then
    let newQ ← (zero (cmpa.limbsLen qLen)).copyFrom q
    .ok (newQ, qLen)
  else
    .ok (q, qLen)

def computeQ (modulus p : Mp) (pLen : Nat) : Crypto (Mp × Nat) := do
  let modulusLen := modulus.len
  failIf (modulusLen = 0 ∨ pLen = 0 ∨ pLen > modulusLen ∨ modulus.value % 2 = 0 ∨ p.value % 2 = 0)
    .invalidPoint
  let modulusScratch ← (zero (cmpa.limbsLen modulusLen)).copyFrom modulus
  let qMaxLen := modulusLen - pLen + 1
  divisorNew p .internal
  match cmpa.ctDivMpMp modulusScratch p (cmpa.limbsLen qMaxLen) with
  | none => fail .internal
  | some (modulusScratch, q) =>
    failIf (modulusScratch.value ≠ 0) .keyBinding
    shrinkQ cmpa q

/-- `set_bit_to(0, ..)`. -/
def setBit0To (m : Mp) (bit : Bool) : Mp :=
  trunc m.len (m.value / 2 * 2 + bit.toNat)

/-- The buffer the exponent has been reduced in also takes the result, unless it is longer
than that. -/
def dPBuf (publicExponent pMinusOne eModPMinusOne : Mp) : Crypto Mp :=
  if publicExponent.len ≤ pMinusOne.len then .ok eModPMinusOne
  else (zero (cmpa.limbsLen pMinusOne.len)).copyFrom eModPMinusOne

/-- The factor is passed by reference and modified temporarily, so it is returned along. -/
def computeDP (publicExponent p : Mp) (scratch : List Nat) : Crypto (Mp × Mp) := do
  let eModPMinusOne ←
    (zero (cmpa.limbsLen (max p.len publicExponent.len))).copyFrom publicExponent
  let pMinusOne := setBit0To p false
  divisorNew pMinusOne .keyBinding
  let eModPMinusOne := cmpa.ctModMpMp eModPMinusOne pMinusOne
  let dP ← dPBuf cmpa publicExponent pMinusOne eModPMinusOne
  let r := cmpa.ctInvModMpMp dP pMinusOne scratch
  let p := setBit0To pMinusOne true
  let dP ← mapInvError notCoprimeOrInvalid r
  .ok (dP, p)

def computePInvModQ (p q : Mp) (scratch : List Nat) (scratch2 : Mp) : Crypto Mp := do
  let pModQScratch ← scratch2.copyFrom p
  divisorNew q .internal
  let pModQScratch := cmpa.ctModMpMp pModQScratch q
  let pModQScratch ← cmpa.shrinkTo pModQScratch q.len
  -- The length is taken for a number of limbs here, which makes for a larger buffer only.
  mapInvError notCoprimeOrInvalid
    (cmpa.ctInvModOddMpMp (q.len * cmpa.limbLen) pModQScratch q scratch)

def RsaPrivateKeyCrt.newFromPQ (pLen : Nat) (p : Mp) (qLen : Nat) (q publicExponent : Mp) :
    Crypto RsaPrivateKeyCrt := do
  let scratchLen := cmpa.limbsLen (max pLen qLen)
  let (dP, p) ← computeDP cmpa publicExponent p (List.replicate 4 scratchLen)
  let (dQ, q) ← computeDP cmpa publicExponent q (List.replicate 4 scratchLen)
  let pInvModQ ← computePInvModQ cmpa p q (List.replicate 2 scratchLen) (zero scratchLen)
  .ok ⟨pLen, p, qLen, q, dP, dQ, pInvModQ⟩

def RsaPrivateKeyCrt.newFromP (modulus p publicExponent : Mp) : Crypto RsaPrivateKeyCrt := do
  failIf (publicExponentIsValid publicExponent = false) .invalidParams
  failIf (modulus.value ≤ publicExponent.value) .invalidPoint
  let pLen := p.len
  let neP ← (zero (cmpa.limbsLen pLen)).copyFrom p
  let (q, qLen) ← computeQ cmpa modulus neP pLen
  RsaPrivateKeyCrt.newFromPQ cmpa pLen neP qLen q publicExponent

def mapExpError : Except CtExpModOddMpMpError Mp → Crypto Mp
  | .ok r => .ok r
  | .error _ => fail .internal

/-- The power of `y` modulo one of the factors, with the buffers to reduce `y` in and for
the result. Neither has its old contents looked at. -/
def expModFactor (y factor exponent yBuf resultBuf : Mp) (factorLen scratchLen : Nat) :
    Crypto Mp := do
  let yModFactor ← cmpa.shrinkTo yBuf (max y.len factorLen)
  let yModFactor ← yModFactor.copyFrom y
  divisorNew factor .internal
  let yModFactor := cmpa.ctModMpMp yModFactor factor
  let yModFactor ← cmpa.shrinkTo yModFactor factorLen
  let result ← cmpa.shrinkTo resultBuf factorLen
  mapExpError (cmpa.ctExpModOddMpMp result.len yModFactor factor exponent (8 * factorLen) scratchLen)

/-- `(xQ - xP) mod q`, up to a multiple of `q`. -/
def differenceModQ (scratch xP q : Mp) : Mp :=
  let (scratch, isNegative) := cmpa.ctSubMpMp scratch xP
  let scratch := cmpa.ctNegateCondMp scratch isNegative
  let scratch := cmpa.ctModMpMp scratch q
  let scratch := cmpa.ctNegateCondMp scratch isNegative
  cmpa.ctAddCondMpMp scratch q isNegative

/-- Garner's combination, with the first power in place of `y` and the buffer of the
reductions for the other addend. -/
def RsaPrivateKeyCrt.combine (key : RsaPrivateKeyCrt) (y yBuf xP xQ : Mp) : Crypto Mp := do
  let y ← y.copyFrom xP
  let scratch ← yBuf.copyFrom xQ
  let scratch := differenceModQ cmpa scratch y key.q
  let scratch := cmpa.ctMulTruncMpMp scratch key.qLen key.pInvModQ
  let scratch := cmpa.ctModMpMp scratch key.q
  let scratch := cmpa.ctMulTruncMpMp scratch key.qLen key.p
  .ok (cmpa.ctAddMpMp y scratch)

def RsaPrivateKeyCrt.decrypt (key : RsaPrivateKeyCrt) (y : Mp) : Crypto Mp := do
  let pQMaxLen := max key.pLen key.qLen
  let scratchLen := cmpa.limbsLen pQMaxLen
  -- The buffer gets used for the reductions of `y` as well as for the combination.
  let yModPBuf := zero (cmpa.limbsLen (max y.len (pQMaxLen + key.qLen)))
  let xPBuf := zero (cmpa.limbsLen pQMaxLen)
  let xP ← expModFactor cmpa y key.p key.dP yModPBuf xPBuf key.pLen scratchLen
  let xQ ← expModFactor cmpa y key.q key.dQ yModPBuf xPBuf key.qLen scratchLen
  key.combine cmpa y yModPBuf xP xQ

variable {cmpa}

/-- What a key needs of its numbers for the decryption to be right. -/
structure RsaPrivateKeyCrt.Binds (cmpa : Cmpa) (key : RsaPrivateKeyCrt) (n e : Nat) : Prop where
  modulus : n = key.p.value * key.q.value
  p_len : key.p.len = cmpa.limbsLen key.pLen
  p_lt : key.p.value < 256 ^ key.pLen
  p_odd : key.p.value % 2 = 1
  q_len : key.q.len = cmpa.limbsLen key.qLen
  q_lt : key.q.value < 256 ^ key.qLen
  q_odd : key.q.value % 2 = 1
  dP_lt : key.dP.value < key.p.value
  dP_inverse : key.dP.value * e ≡ 1 [MOD key.p.value - 1]
  dQ_lt : key.dQ.value < key.q.value
  dQ_inverse : key.dQ.value * e ≡ 1 [MOD key.q.value - 1]
  pInvModQ_lt : key.pInvModQ.value < key.q.value
  pInvModQ_inverse : key.pInvModQ.value * key.p.value ≡ 1 [MOD key.q.value]

variable {m publicExponent : Mp} {key : RsaPrivateKeyCrt} {e n : Nat}

theorem eq_of_mapInvError {keyBinding : CtInvModMpMpError → Bool}
    {r : Except CtInvModMpMpError Mp} (h : mapInvError keyBinding r = .ok m) :
    r = .ok m := by
  cases r with
  | ok r =>
    cases h
    rfl
  | error e =>
    rw [mapInvError] at h
    split at h <;> cases h

theorem value_setBit0To_false (hodd : m.value % 2 = 1) :
    (setBit0To m false).value = m.value - 1 := by
  have hval : m.value / 2 * 2 + Bool.toNat false = m.value - 1 := by
    rw [Bool.toNat_false]
    omega
  rw [setBit0To, hval]
  exact value_trunc (lt_of_le_of_lt (sub_le _ _) m.fits)

theorem setBit0To_true_false (hodd : m.value % 2 = 1) :
    setBit0To (setBit0To m false) true = m := by
  change trunc m.len _ = m
  apply Mp.trunc_eq
  rw [value_setBit0To_false hodd, Bool.toNat_true]
  omega

theorem value_dPBuf {pMinusOne eModPMinusOne : Mp}
    (h : dPBuf cmpa publicExponent pMinusOne eModPMinusOne = .ok m) :
    m.value = eModPMinusOne.value := by
  rw [dPBuf] at h
  split at h
  · cases h
    rfl
  · exact (eq_of_copyFrom h).2

theorem computeDP_spec {p dP p' : Mp} {scratch : List Nat} (hodd : p.value % 2 = 1)
    (h : computeDP cmpa publicExponent p scratch = .ok (dP, p')) :
    p' = p ∧ dP.value < p.value ∧ dP.value * publicExponent.value ≡ 1 [MOD p.value - 1] := by
  obtain ⟨e, he, h⟩ := ok_of_bind h
  obtain ⟨_, hpos, h⟩ := ok_of_bind h
  obtain ⟨buf, hbuf, h⟩ := ok_of_bind h
  obtain ⟨r, hr, h⟩ := ok_of_bind h
  cases h
  have hne := not_of_failIf hpos
  have hinv := cmpa.ctInvModMpMp_eq _ _ _ _ (eq_of_mapInvError hr)
  rw [value_dPBuf hbuf, cmpa.ctModMpMp_eq _ _ hne, Mp.value_mod_trunc,
    (eq_of_copyFrom he).2, value_setBit0To_false hodd] at hinv
  refine ⟨setBit0To_true_false hodd, lt_of_lt_of_le hinv.1 (sub_le _ _), ?_⟩
  exact ((mod_modEq _ _).mul_left _).symm.trans hinv.2

theorem computePInvModQ_spec {p q : Mp} {scratch : List Nat} {scratch2 : Mp}
    (hlen : cmpa.limbsLen q.len = q.len) (h : computePInvModQ cmpa p q scratch scratch2 = .ok m) :
    m.value < q.value ∧ m.value * p.value ≡ 1 [MOD q.value] := by
  obtain ⟨p', hp, h⟩ := ok_of_bind h
  obtain ⟨_, hpos, h⟩ := ok_of_bind h
  obtain ⟨p'', hshrink, h⟩ := ok_of_bind h
  have hne := not_of_failIf hpos
  have hinv := cmpa.ctInvModOddMpMp_eq _ _ _ _ _ (eq_of_mapInvError h)
  obtain ⟨_, hfits, hshrink⟩ := ok_of_bind hshrink
  cases hshrink
  rw [cmpa.ctModMpMp_eq _ _ hne, Mp.value_mod_trunc, (eq_of_copyFrom hp).2, hlen,
    value_trunc (lt_trans (mod_lt _ (pos_of_ne_zero hne)) q.fits)] at hinv
  exact ⟨hinv.1, ((mod_modEq _ _).mul_left _).symm.trans hinv.2⟩

theorem pow_256 (len : Nat) : 256 ^ len = 2 ^ (8 * len) := by
  rw [Nat.pow_mul]

theorem significantLen_le_iff (n len : Nat) : (n.size + 7) / 8 ≤ len ↔ n < 256 ^ len := by
  rw [pow_256, ← Nat.size_le]
  omega

theorem shrinkQ_spec {q q' : Mp} {qLen : Nat} (hlen : cmpa.limbsLen q.len = q.len)
    (h : shrinkQ cmpa q = .ok (q', qLen)) :
    q'.value = q.value ∧ q'.len = cmpa.limbsLen qLen ∧ q'.value < 256 ^ qLen := by
  obtain ⟨_, _, h⟩ := ok_of_bind h
  obtain ⟨_, _, h⟩ := ok_of_bind h
  dsimp only at h
  have hfits := (significantLen_le_iff q.value _).mp (le_refl _)
  split at h
  · obtain ⟨newQ, hnew, h⟩ := ok_of_bind h
    cases h
    obtain ⟨hnewLen, hnewValue⟩ := eq_of_copyFrom hnew
    exact ⟨hnewValue, hnewLen, hnewValue ▸ hfits⟩
  · rename_i hle
    cases h
    have hge := cmpa.limbsLen_mono ((significantLen_le_iff q.value q.len).mpr q.fits)
    rw [hlen] at hge
    exact ⟨rfl, le_antisymm (not_lt.mp hle) hge, hfits⟩

theorem computeQ_spec {modulus p q : Mp} {pLen qLen : Nat}
    (h : computeQ cmpa modulus p pLen = .ok (q, qLen)) :
    p.value % 2 = 1 ∧ modulus.value % 2 = 1 ∧ modulus.value = p.value * q.value ∧
      q.len = cmpa.limbsLen qLen ∧ q.value < 256 ^ qLen := by
  obtain ⟨_, hchecks, h⟩ := ok_of_bind h
  obtain ⟨modulusScratch, hcopy, h⟩ := ok_of_bind h
  obtain ⟨_, hp, h⟩ := ok_of_bind h
  have hchecks := not_of_failIf hchecks
  have hp := not_of_failIf hp
  cases hdiv : cmpa.ctDivMpMp modulusScratch p (cmpa.limbsLen (modulus.len - pLen + 1)) with
  | none =>
    rw [hdiv] at h
    cases h
  | some rq =>
    rw [hdiv] at h
    obtain ⟨_, hzero, h⟩ := ok_of_bind h
    obtain ⟨hr, hq, hqLen⟩ := cmpa.ctDivMpMp_eq _ _ _ _ _ hp hdiv
    obtain ⟨hvalue, hlen, hlt⟩ := shrinkQ_spec (by rw [hqLen, cmpa.limbsLen_limbsLen]) h
    have hzero := not_not.mp (not_of_failIf hzero)
    rw [hr, (eq_of_copyFrom hcopy).2] at hzero
    rw [(eq_of_copyFrom hcopy).2] at hq
    refine ⟨by omega, by omega, ?_, hlen, hlt⟩
    rw [hvalue, hq, Nat.mul_div_cancel' (dvd_of_mod_eq_zero hzero)]

theorem newFromPQ_binds {p q : Mp} {pLen qLen : Nat}
    (hp : p.len = cmpa.limbsLen pLen) (hpLt : p.value < 256 ^ pLen) (hpOdd : p.value % 2 = 1)
    (hq : q.len = cmpa.limbsLen qLen) (hqLt : q.value < 256 ^ qLen) (hqOdd : q.value % 2 = 1)
    (h : RsaPrivateKeyCrt.newFromPQ cmpa pLen p qLen q publicExponent = .ok key) :
    key.p = p ∧ key.q = q ∧ key.Binds cmpa (p.value * q.value) publicExponent.value := by
  obtain ⟨⟨dP, p'⟩, hdP, h⟩ := ok_of_bind h
  obtain ⟨⟨dQ, q'⟩, hdQ, h⟩ := ok_of_bind h
  obtain ⟨pInvModQ, hinv, h⟩ := ok_of_bind h
  cases h
  obtain ⟨rfl, hdPLt, hdPInverse⟩ := computeDP_spec hpOdd hdP
  obtain ⟨rfl, hdQLt, hdQInverse⟩ := computeDP_spec hqOdd hdQ
  obtain ⟨hinvLt, hinv⟩ := computePInvModQ_spec (by rw [hq, cmpa.limbsLen_limbsLen]) hinv
  refine ⟨rfl, rfl, ?_⟩
  exact { modulus := rfl, p_len := hp, p_lt := hpLt, p_odd := hpOdd, q_len := hq, q_lt := hqLt,
          q_odd := hqOdd, dP_lt := hdPLt, dP_inverse := hdPInverse, dQ_lt := hdQLt,
          dQ_inverse := hdQInverse, pInvModQ_lt := hinvLt, pInvModQ_inverse := hinv }

/-- Any key that gets accepted has the factors of the modulus and the inverses that go with
them. -/
theorem newFromP_binds {modulus p : Mp}
    (h : RsaPrivateKeyCrt.newFromP cmpa modulus p publicExponent = .ok key) :
    key.p.value = p.value ∧ key.Binds cmpa modulus.value publicExponent.value := by
  obtain ⟨_, _, h⟩ := ok_of_bind h
  obtain ⟨_, _, h⟩ := ok_of_bind h
  obtain ⟨neP, hneP, h⟩ := ok_of_bind h
  obtain ⟨⟨q, qLen⟩, hq, h⟩ := ok_of_bind h
  obtain ⟨hpLen, hpValue⟩ := eq_of_copyFrom hneP
  obtain ⟨hpOdd, hmodOdd, hmodulus, hqLen, hqLt⟩ := computeQ_spec hq
  have hqOdd : q.value % 2 = 1 := by
    rw [hmodulus, Nat.mul_mod, hpOdd] at hmodOdd
    omega
  obtain ⟨rfl, rfl, hbinds⟩ := newFromPQ_binds hpLen (hpValue ▸ p.fits) hpOdd hqLen hqLt hqOdd h
  exact ⟨hpValue, hmodulus ▸ hbinds⟩

theorem expModFactor_eq (y yBuf resultBuf : Mp) (scratchLen : Nat) {factor exponent : Mp}
    {factorLen : Nat}
    (hlen : factor.len = cmpa.limbsLen factorLen) (hlt : factor.value < 256 ^ factorLen)
    (hodd : factor.value % 2 = 1) (hone : 1 < factor.value) (hexp : exponent.value < factor.value)
    (hyBuf : cmpa.limbsLen (max y.len factorLen) ≤ yBuf.len)
    (hresult : cmpa.limbsLen factorLen ≤ resultBuf.len)
    (hscratch : cmpa.limbsLen factorLen ≤ scratchLen) :
    expModFactor cmpa y factor exponent yBuf resultBuf factorLen scratchLen =
      .ok (trunc (cmpa.limbsLen factorLen) (y.value ^ exponent.value % factor.value)) := by
  have hne : factor.value ≠ 0 := by omega
  have hreduced := mod_lt y.value (pos_of_ne_zero hne)
  have hy : y.value < 256 ^ cmpa.limbsLen (max y.len factorLen) :=
    Mp.lt_of_le (le_trans (le_max_left _ _) (cmpa.le_limbsLen _))
  have hle := cmpa.limbsLen_mono (le_max_right y.len factorLen)
  have hfits : y.value % factor.value < 256 ^ cmpa.limbsLen factorLen :=
    hlen ▸ lt_trans hreduced factor.fits
  rw [expModFactor, bind_ok (cmpa.shrinkTo_eq hyBuf), bind_ok (Mp.copyFrom_eq hy), divisorNew,
    bind_ok (failIf_neg hne _)]
  rw [cmpa.ctModMpMp_eq _ _ hne]
  simp only [len_trunc]
  rw [value_trunc hy, bind_ok (cmpa.shrinkTo_eq hle), bind_ok (cmpa.shrinkTo_eq hresult), value_trunc (lt_of_le_of_lt (mod_le _ _) hy),
    cmpa.ctExpModOddMpMp_eq, value_trunc hfits, ← pow_mod, len_trunc]
  · rfl
  · exact hodd
  · exact hone
  · rwa [value_trunc hfits]
  · rw [len_trunc, hlen]
  · rw [len_trunc, hlen]
  · rwa [hlen]
  · rw [← pow_256]
    exact lt_trans hexp hlt

theorem differenceModQ_of_le {scratch xP q : Mp} (hq : 0 < q.value)
    (hlen : xP.len ≤ scratch.len) (hle : xP.value ≤ scratch.value) :
    differenceModQ cmpa scratch xP q =
      trunc scratch.len ((scratch.value - xP.value) % q.value) := by
  have hfits := scratch.fits
  have hwrap : scratch.value + (256 ^ scratch.len - xP.value) =
      scratch.value - xP.value + 256 ^ scratch.len := by omega
  rw [differenceModQ, cmpa.ctSubMpMp_eq _ _ (Mp.lt_of_le hlen),
    decide_eq_false (not_lt.mpr hle), hwrap, Mp.trunc_add_pow]
  simp only [Cmpa.ctNegateCondMp, Cmpa.ctAddCondMpMp, Bool.false_eq_true, if_false]
  rw [cmpa.ctModMpMp_eq _ _ hq.ne', value_trunc (by omega), len_trunc]

/-- The remainder of a negative one's magnitude gets taken off the modulus again. -/
theorem differenceModQ_of_lt {scratch xP q : Mp} (hq : 0 < q.value) (hlen : xP.len ≤ scratch.len)
    (hqFits : q.value < 256 ^ scratch.len) (hlt : scratch.value < xP.value) :
    differenceModQ cmpa scratch xP q =
      trunc scratch.len (q.value - (xP.value - scratch.value) % q.value) := by
  have hxP : xP.value < 256 ^ scratch.len := Mp.lt_of_le hlen
  have hr := mod_lt (xP.value - scratch.value) hq
  have hnegate : cmpa.ctNegateMp (trunc scratch.len
      (scratch.value + (256 ^ scratch.len - xP.value))) =
        trunc scratch.len (xP.value - scratch.value) := by
    rw [cmpa.ctNegateMp_eq, value_trunc (by omega), len_trunc]
    congr 1
    omega
  have hmod : cmpa.ctModMpMp (trunc scratch.len (xP.value - scratch.value)) q =
      trunc scratch.len ((xP.value - scratch.value) % q.value) := by
    rw [cmpa.ctModMpMp_eq _ _ hq.ne', value_trunc (by omega), len_trunc]
  have hback : cmpa.ctNegateMp (trunc scratch.len ((xP.value - scratch.value) % q.value)) =
      trunc scratch.len (256 ^ scratch.len - (xP.value - scratch.value) % q.value) := by
    rw [cmpa.ctNegateMp_eq, value_trunc (by omega), len_trunc]
  have hwrap : 256 ^ scratch.len - (xP.value - scratch.value) % q.value + q.value =
      q.value - (xP.value - scratch.value) % q.value + 256 ^ scratch.len := by omega
  rw [differenceModQ, cmpa.ctSubMpMp_eq _ _ hxP, decide_eq_true hlt]
  simp only [Cmpa.ctNegateCondMp, Cmpa.ctAddCondMpMp, if_true]
  rw [hnegate, hmod, hback, cmpa.ctAddMpMp_eq (trunc scratch.len _) q hqFits, len_trunc, Mp.trunc_value_add, hwrap,
    Mp.trunc_add_pow]

variable (cmpa) in
theorem differenceModQ_spec (scratch xP : Mp) {q : Mp} (hq : 0 < q.value)
    (hlen : xP.len ≤ scratch.len) (hqFits : q.value < 256 ^ scratch.len) :
    ∃ diff, differenceModQ cmpa scratch xP q = trunc scratch.len diff ∧ diff ≤ q.value ∧
      xP.value + diff ≡ scratch.value [MOD q.value] := by
  rcases lt_or_ge scratch.value xP.value with hlt | hle
  · refine ⟨_, differenceModQ_of_lt hq hlen hqFits hlt, sub_le _ _, ?_⟩
    have hr := mod_lt (xP.value - scratch.value) hq
    have hdm := mod_add_div (xP.value - scratch.value) q.value
    have hsum : xP.value + (q.value - (xP.value - scratch.value) % q.value) =
        scratch.value + q.value * ((xP.value - scratch.value) / q.value + 1) := by
      rw [mul_succ]
      omega
    rw [hsum, Nat.ModEq, add_mul_mod_self_left]
  · refine ⟨_, differenceModQ_of_le hq hlen hle, (mod_lt _ hq).le, ?_⟩
    calc xP.value + (scratch.value - xP.value) % q.value
        ≡ xP.value + (scratch.value - xP.value) [MOD q.value] := (mod_modEq _ _).add_left _
      _ = scratch.value := Nat.add_sub_cancel' hle

variable (cmpa) in
/-- Multiplying the difference by the inverse and the remainder by the other factor never
exceeds the buffer. -/
theorem mulTrunc_eq (scratch p : Mp) {q pInvModQ : Mp} {qLen : Nat} (hqLen : q.value < 256 ^ qLen)
    (hscratch : scratch.value ≤ q.value) (hinv : pInvModQ.value < q.value)
    (hlen : qLen + qLen ≤ scratch.len) :
    cmpa.ctMulTruncMpMp (cmpa.ctModMpMp (cmpa.ctMulTruncMpMp scratch qLen pInvModQ) q) qLen p =
      trunc scratch.len (scratch.value * pInvModQ.value % q.value * p.value) := by
  have hq : 0 < q.value := lt_of_le_of_lt (zero_le _) hinv
  have hproduct : scratch.value * pInvModQ.value < 256 ^ scratch.len := by
    calc scratch.value * pInvModQ.value < 256 ^ qLen * 256 ^ qLen :=
          Nat.mul_lt_mul'' (lt_of_le_of_lt hscratch hqLen) (lt_trans hinv hqLen)
      _ = 256 ^ (qLen + qLen) := (pow_add _ _ _).symm
      _ ≤ 256 ^ scratch.len := Nat.pow_le_pow_right (by decide) hlen
  have hmod := mod_lt (scratch.value * pInvModQ.value) hq
  have hfits : (trunc scratch.len (scratch.value * pInvModQ.value % q.value)).value =
      scratch.value * pInvModQ.value % q.value :=
    value_trunc (lt_of_le_of_lt (mod_le _ _) hproduct)
  have hqLenLe : qLen ≤ scratch.len := by omega
  rw [cmpa.ctMulTruncMpMp_eq _ _ _ hqLenLe (lt_of_le_of_lt hscratch hqLen),
    cmpa.ctModMpMp_eq _ _ hq.ne', len_trunc, value_trunc hproduct,
    cmpa.ctMulTruncMpMp_eq (trunc scratch.len _) _ _ hqLenLe
      (by rw [hfits]; exact lt_trans hmod hqLen), hfits, len_trunc]

theorem combine_spec (y yBuf : Mp) {xP xQ : Mp}
    (h : key.Binds cmpa n e) (hxP : xP.value < key.p.value) (hxQ : xQ.value < key.q.value)
    (hn : n < 256 ^ y.len) (hyBuf : y.len ≤ yBuf.len) (hqBuf : key.qLen + key.qLen ≤ yBuf.len) :
    ∃ diff, key.combine cmpa y yBuf xP xQ = .ok (trunc y.len (garner key.p.value key.q.value
        key.pInvModQ.value diff xP.value)) ∧ xP.value + diff ≡ xQ.value [MOD key.q.value] := by
  have hq : 0 < key.q.value := zero_lt_of_lt hxQ
  have hpN : key.p.value ≤ n := h.modulus ▸ Nat.le_mul_of_pos_right _ hq
  have hqLtBuf : key.q.value < 256 ^ yBuf.len :=
    lt_of_lt_of_le h.q_lt (Nat.pow_le_pow_right (by decide) (by omega))
  have hxPFits : xP.value < 256 ^ y.len := by omega
  have hxQFits : xQ.value < 256 ^ yBuf.len := by omega
  obtain ⟨diff, hdiff, hdiffLe, hdiffEq⟩ := differenceModQ_spec cmpa (trunc yBuf.len xQ.value)
    (trunc y.len xP.value) hq hyBuf hqLtBuf
  have hdiffFits : diff < 256 ^ yBuf.len := by omega
  have hgarner := garner_lt key.pInvModQ.value diff hxP hq
  rw [← h.modulus] at hgarner
  have haddend : diff * key.pInvModQ.value % key.q.value * key.p.value < 256 ^ y.len :=
    lt_of_le_of_lt (Nat.le_add_left _ _) (lt_trans hgarner hn)
  have haddendBuf : diff * key.pInvModQ.value % key.q.value * key.p.value < 256 ^ yBuf.len :=
    lt_of_lt_of_le haddend (Nat.pow_le_pow_right (by decide) hyBuf)
  rw [value_trunc hxPFits, value_trunc hxQFits] at hdiffEq
  refine ⟨diff, ?_, hdiffEq⟩
  rw [RsaPrivateKeyCrt.combine, bind_ok (Mp.copyFrom_eq hxPFits), bind_ok (Mp.copyFrom_eq hxQFits)]
  dsimp only
  rw [hdiff, len_trunc, mulTrunc_eq cmpa (trunc yBuf.len diff) key.p h.q_lt
      (by rwa [value_trunc hdiffFits]) h.pInvModQ_lt hqBuf,
    len_trunc, value_trunc hdiffFits, cmpa.ctAddMpMp_eq (trunc y.len _) _
      (by rwa [value_trunc haddendBuf]), value_trunc haddendBuf, value_trunc hxPFits,
    len_trunc, garner]

theorem decrypt_eq_garner {y : Mp}
    (h : key.Binds cmpa n e) (hp : 1 < key.p.value) (hq : 1 < key.q.value) (hn : n < 256 ^ y.len) :
    ∃ diff, key.decrypt cmpa y = .ok (trunc y.len (garner key.p.value key.q.value
        key.pInvModQ.value diff (y.value ^ key.dP.value % key.p.value))) ∧
      y.value ^ key.dP.value % key.p.value + diff ≡ y.value ^ key.dQ.value [MOD key.q.value] := by
  have hscratch {len : Nat} (hle : len ≤ max key.pLen key.qLen) :
      cmpa.limbsLen len ≤ cmpa.limbsLen (max key.pLen key.qLen) := cmpa.limbsLen_mono hle
  have hbuf {len : Nat} (hle : len ≤ max y.len (max key.pLen key.qLen + key.qLen)) :
      cmpa.limbsLen len ≤ cmpa.limbsLen (max y.len (max key.pLen key.qLen + key.qLen)) :=
    cmpa.limbsLen_mono hle
  have hbufLen := cmpa.le_limbsLen (max y.len (max key.pLen key.qLen + key.qLen))
  have hxP := expModFactor_eq y
    (zero (cmpa.limbsLen (max y.len (max key.pLen key.qLen + key.qLen))))
    (zero (cmpa.limbsLen (max key.pLen key.qLen))) (cmpa.limbsLen (max key.pLen key.qLen))
    h.p_len h.p_lt h.p_odd hp h.dP_lt
    (hbuf (by omega)) (hscratch (le_max_left _ _)) (hscratch (le_max_left _ _))
  have hxQ := expModFactor_eq y
    (zero (cmpa.limbsLen (max y.len (max key.pLen key.qLen + key.qLen))))
    (zero (cmpa.limbsLen (max key.pLen key.qLen))) (cmpa.limbsLen (max key.pLen key.qLen))
    h.q_len h.q_lt h.q_odd hq h.dQ_lt
    (hbuf (by omega)) (hscratch (le_max_right _ _)) (hscratch (le_max_right _ _))
  have hpLt := mod_lt (y.value ^ key.dP.value) (zero_lt_of_lt hp)
  have hqLt := mod_lt (y.value ^ key.dQ.value) (zero_lt_of_lt hq)
  have hxPValue := value_trunc (h.p_len ▸ lt_trans hpLt key.p.fits)
  have hxQValue := value_trunc (h.q_len ▸ lt_trans hqLt key.q.fits)
  obtain ⟨diff, hcombine, hdiff⟩ := combine_spec y
    (zero (cmpa.limbsLen (max y.len (max key.pLen key.qLen + key.qLen)))) h
    (hxPValue.trans_lt hpLt) (hxQValue.trans_lt hqLt) hn
    (by rw [Mp.len_zero]; omega) (by rw [Mp.len_zero]; omega)
  rw [hxPValue, hxQValue] at hdiff
  refine ⟨diff, ?_, hdiff.trans (mod_modEq _ _)⟩
  rw [RsaPrivateKeyCrt.decrypt, bind_ok hxP, bind_ok hxQ, hcombine, hxPValue]

/-- The decryption of any key that has been accepted for a modulus that is the product of two
distinct primes. -/
theorem decrypt_eq_pow_mod {d : Nat} {y : Mp}
    (h : key.Binds cmpa n e) (hp : key.p.value.Prime) (hq : key.q.value.Prime)
    (hpq : key.p.value ≠ key.q.value) (hd : d * e ≡ 1 [MOD (key.p.value - 1) * (key.q.value - 1)])
    (hn : n < 256 ^ y.len) :
    key.decrypt cmpa y = .ok (trunc y.len (y.value ^ d % n)) := by
  obtain ⟨diff, hdecrypt, hdiff⟩ := decrypt_eq_garner h hp.one_lt hq.one_lt hn
  have hodd {r : Nat} (hr : r % 2 = 1) : r ≠ 2 := by
    rintro rfl
    exact absurd hr (by decide)
  rw [hdecrypt, garner_eq_pow hp hq (hodd h.p_odd) (hodd h.q_odd) hpq hd h.dP_inverse h.dQ_inverse
    h.pInvModQ_inverse hdiff, ← h.modulus]

end CocoonFs.RsaCrt
