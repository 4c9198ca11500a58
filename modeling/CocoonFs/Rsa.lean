import CocoonFs.RsaCrt
import Mathlib.NumberTheory.LucasLehmer
import Mathlib.Tactic.NormNum.Prime

namespace CocoonFs.Rsa

open Codes BigEndian Multiprecision RsaCrt ChineseRemainder Nat
open Mp (ofBytes toBytes value_trunc)
open RsaPrivateKeyCrt (newFromP)

/-- The most significant bit of the modulus is checked to be set when a key gets imported,
and set by construction of the factors when one is generated. -/
structure RsaPublicKey where
  modulus : List Byte
  publicExponent : List Byte
  msb_set : value modulus ≠ 0 ∧ 8 * modulus.length ≤ (value modulus).size

structure RsaKey where
  pubKey : RsaPublicKey
  privKey : Option RsaPrivateKeyCrt

variable (cmpa : Cmpa)

def encryptExpError : Except CtExpModOddMpMpError Mp → Crypto Mp
  | .ok r => .ok r
  | .error .invalidModulus => fail .invalidParams
  | .error .inconsistentOperandLengths => fail .invalidMessageLength
  | .error .insufficientResultSpace | .error .insufficientScratchSpace => fail .internal

def encrypt (x modulus publicExponent : Mp) : Crypto Mp := do
  failIf (modulus.value % 2 = 0) .invalidParams
  failIf (modulus.value ≤ x.value) .invalidMessageLength
  let modulusLen := cmpa.limbsLen modulus.len
  let result ← encryptExpError (cmpa.ctExpModOddMpMp modulusLen x modulus publicExponent
    publicExponent.value.size modulusLen)
  x.copyFrom result

namespace RsaPublicKey

def modulusLen (key : RsaPublicKey) : Nat := key.modulus.length

def encrypt (key : RsaPublicKey) (x : List Byte) : Crypto (List Byte) := do
  failIf (x.length < key.modulusLen) .invalidMessageLength
  let y ← Rsa.encrypt cmpa (ofBytes x) (ofBytes key.modulus) (ofBytes key.publicExponent)
  .ok y.toBytes

def tryFrom (publicExponent : BitVec 32) (modulus : List Byte) : Crypto RsaPublicKey := do
  let publicExponentBuf := bytes 4 publicExponent.toNat
  failIf (publicExponentIsValid (ofBytes publicExponentBuf) = false) .invalidParams
  if h : value modulus = 0 ∨ (value modulus).size < 8 * modulus.length then
    fail .invalidPoint
  else
    .ok ⟨modulus, publicExponentBuf, not_or.mp h |>.imp_right Nat.not_lt.mp⟩

end RsaPublicKey

namespace RsaKey

def tryFrom (publicExponent : BitVec 32) (modulus : List Byte) (p : Option (List Byte)) :
    Crypto RsaKey := do
  let pubKey ← RsaPublicKey.tryFrom publicExponent modulus
  match p with
  | some p =>
    let privKey ← newFromP cmpa (ofBytes pubKey.modulus) (ofBytes p)
      (ofBytes pubKey.publicExponent)
    .ok ⟨pubKey, some privKey⟩
  | none => .ok ⟨pubKey, none⟩

def encrypt (key : RsaKey) (x : List Byte) : Crypto (List Byte) := key.pubKey.encrypt cmpa x

def decrypt (key : RsaKey) (y : List Byte) : Crypto (List Byte) := do
  failIf (y.length < key.pubKey.modulusLen ∨ value key.pubKey.modulus ≤ value y)
    .invalidMessageLength
  match key.privKey with
  | none => fail .noKey
  | some privKey =>
    let x ← privKey.decrypt cmpa (ofBytes y)
    .ok x.toBytes

/-- The primitives of the key are permutations of the numbers below the modulus that are
inverse to one another. -/
structure Permutes (key : RsaKey) : Prop where
  encrypt : ∀ x, x.length = key.pubKey.modulusLen → value x < value key.pubKey.modulus →
    ∃ y, key.encrypt cmpa x = .ok y ∧ y.length = key.pubKey.modulusLen ∧
      value y < value key.pubKey.modulus ∧ key.decrypt cmpa y = .ok x
  decrypt : ∀ y, y.length = key.pubKey.modulusLen → value y < value key.pubKey.modulus →
    ∃ x, key.decrypt cmpa y = .ok x ∧ x.length = key.pubKey.modulusLen ∧
      value x < value key.pubKey.modulus ∧ key.encrypt cmpa x = .ok y

end RsaKey

variable {cmpa}

namespace RsaPublicKey

variable {key : RsaPublicKey}

variable {x : List Byte}

theorem encrypt_even (hlen : key.modulusLen ≤ x.length)
    (h : value key.modulus % 2 = 0) : key.encrypt cmpa x = fail .invalidParams := by
  rw [encrypt, bind_ok (failIf_neg (not_lt.mpr hlen) _), Rsa.encrypt, failIf_pos (by exact h)]
  rfl

theorem encrypt_range (hlen : key.modulusLen ≤ x.length)
    (hodd : value key.modulus % 2 = 1) (h : value key.modulus ≤ value x) :
    key.encrypt cmpa x = fail .invalidMessageLength := by
  have hne : ¬(ofBytes key.modulus).value % 2 = 0 := by
    change ¬value key.modulus % 2 = 0
    omega
  rw [encrypt, bind_ok (failIf_neg (not_lt.mpr hlen) _), Rsa.encrypt,
    bind_ok (failIf_neg hne _), failIf_pos (by exact h)]
  rfl

theorem value_lt_modulus {b : Byte} {bs : List Byte} (hlen : (b :: bs).length = key.modulusLen)
    (hb : b.toNat < 128) : value (b :: bs) < value key.modulus := by
  have hsize : 2 ^ (8 * key.modulus.length - 1) ≤ value key.modulus := by
    refine lt_size.mp (Nat.lt_of_lt_of_le (Nat.sub_one_lt ?_) key.msb_set.2)
    rw [modulusLen, List.length_cons] at hlen
    omega
  have hpow : 2 ^ (8 * key.modulus.length - 1) = 128 * 256 ^ bs.length := by
    rw [modulusLen, List.length_cons] at hlen
    rw [pow_256, ← hlen, show 8 * (bs.length + 1) - 1 = 7 + 8 * bs.length by omega, Nat.pow_add]
  calc value (b :: bs) < (b.toNat + 1) * 256 ^ bs.length := by
        rw [value, succ_mul]
        exact Nat.add_lt_add_left (value_lt bs) _
    _ ≤ 128 * 256 ^ bs.length := Nat.mul_le_mul_right _ hb
    _ ≤ value key.modulus := hpow ▸ hsize

theorem encrypt_eq (hlen : x.length = key.modulusLen)
    (hodd : value key.modulus % 2 = 1) (hx : value x < value key.modulus) (hone : 1 < value key.modulus) :
    key.encrypt cmpa x =
      .ok (bytes key.modulusLen (value x ^ value key.publicExponent % value key.modulus)) := by
  have hne : ¬(ofBytes key.modulus).value % 2 = 0 := by
    change ¬value key.modulus % 2 = 0
    omega
  have hmod := mod_lt (value x ^ value key.publicExponent) (zero_lt_of_lt hone)
  have hfits := lt_trans hmod (value_lt key.modulus)
  have hfitsX : value x ^ value key.publicExponent % value key.modulus < 256 ^ x.length := by
    rw [hlen]
    exact hfits
  have hfitsLimbs : value x ^ value key.publicExponent % value key.modulus <
      256 ^ cmpa.limbsLen key.modulus.length :=
    lt_of_lt_of_le hfits (Nat.pow_le_pow_right (by decide) (cmpa.le_limbsLen _))
  have hexp : cmpa.ctExpModOddMpMp (cmpa.limbsLen key.modulus.length) (ofBytes x)
      (ofBytes key.modulus) (ofBytes key.publicExponent)
      (ofBytes key.publicExponent).value.size (cmpa.limbsLen key.modulus.length) =
        .ok (Mp.trunc (cmpa.limbsLen key.modulus.length)
          (value x ^ value key.publicExponent % value key.modulus)) := by
    apply cmpa.ctExpModOddMpMp_eq
    · exact hodd
    · exact hone
    · exact hx
    · change (x.length + cmpa.limbLen - 1) / cmpa.limbLen = _
      rw [hlen]
      rfl
    · exact cmpa.le_limbsLen _
    · exact cmpa.le_limbsLen _
    · exact lt_size_self _
  have hprimitive : Rsa.encrypt cmpa (ofBytes x) (ofBytes key.modulus)
      (ofBytes key.publicExponent) = .ok (Mp.trunc x.length
        (value x ^ value key.publicExponent % value key.modulus)) := by
    rw [Rsa.encrypt, bind_ok (failIf_neg hne _), bind_ok (failIf_neg (by exact not_le.mpr hx) _)]
    dsimp only
    rw [show (ofBytes key.modulus).len = key.modulus.length from rfl, hexp]
    change (ofBytes x).copyFrom _ = _
    rw [Mp.copyFrom_eq (by rw [value_trunc hfitsLimbs]; exact hfitsX),
      value_trunc hfitsLimbs]
    rfl
  rw [encrypt, bind_ok (failIf_neg (by omega) _), bind_ok hprimitive, toBytes, Mp.len_trunc,
    value_trunc hfitsX, hlen]

end RsaPublicKey

namespace RsaKey

variable {key : RsaKey}

theorem Permutes.modulus_odd (h : key.Permutes cmpa) : value key.pubKey.modulus % 2 = 1 := by
  by_contra hodd
  have hzero : value (bytes key.pubKey.modulusLen 0) = 0 :=
    value_bytes (Nat.pow_pos (by decide))
  obtain ⟨y, hy, -⟩ := h.encrypt (bytes key.pubKey.modulusLen 0) (length_bytes _ _) (by
    rw [hzero]
    exact pos_of_ne_zero key.pubKey.msb_set.1)
  rw [RsaKey.encrypt, RsaPublicKey.encrypt_even (length_bytes _ _).ge (by omega)] at hy
  cases hy

/-- A string of the right length gets mapped to one of the same length, or else it is no number
below the modulus. -/
theorem Permutes.encrypt_cases (h : key.Permutes cmpa) {x : List Byte}
    (hlen : x.length = key.pubKey.modulusLen) :
    (value x < value key.pubKey.modulus ∧ ∃ y, key.pubKey.encrypt cmpa x = .ok y ∧
      y.length = key.pubKey.modulusLen ∧ key.decrypt cmpa y = .ok x) ∨
    (value key.pubKey.modulus ≤ value x ∧
      key.pubKey.encrypt cmpa x = fail .invalidMessageLength) := by
  rcases lt_or_ge (value x) (value key.pubKey.modulus) with hx | hx
  · obtain ⟨y, hy, hyLen, -, hdecrypt⟩ := h.encrypt x hlen hx
    exact .inl ⟨hx, y, hy, hyLen, hdecrypt⟩
  · exact .inr ⟨hx, RsaPublicKey.encrypt_range hlen.ge h.modulus_odd hx⟩

variable {y modulus : List Byte} {privKey : RsaPrivateKeyCrt}

theorem Permutes.decrypt_of_encrypt (h : key.Permutes cmpa) {x : List Byte}
    (hlen : x.length = key.pubKey.modulusLen) (hy : key.pubKey.encrypt cmpa x = .ok y) :
    y.length = key.pubKey.modulusLen ∧ key.decrypt cmpa y = .ok x := by
  rcases h.encrypt_cases hlen with ⟨-, y', hy', hyLen, hdecrypt⟩ | ⟨-, hfail⟩
  · rw [hy] at hy'
    cases hy'
    exact ⟨hyLen, hdecrypt⟩
  · rw [hy] at hfail
    cases hfail

theorem decrypt_some (h : key.privKey = some privKey)
    (hlen : y.length = key.pubKey.modulusLen) (hy : value y < value key.pubKey.modulus) :
    key.decrypt cmpa y = (do
      let x ← privKey.decrypt cmpa (ofBytes y)
      .ok x.toBytes) := by
  rw [decrypt, bind_ok (failIf_neg (by omega) _), h]

theorem decrypt_eq {d : Nat} (h : key.privKey = some privKey)
    (hbinds : privKey.Binds cmpa (value key.pubKey.modulus) (value key.pubKey.publicExponent))
    (hp : privKey.p.value.Prime) (hq : privKey.q.value.Prime)
    (hpq : privKey.p.value ≠ privKey.q.value)
    (hd : d * value key.pubKey.publicExponent ≡ 1
      [MOD (privKey.p.value - 1) * (privKey.q.value - 1)])
    (hlen : y.length = key.pubKey.modulusLen) (hy : value y < value key.pubKey.modulus) :
    key.decrypt cmpa y =
      .ok (bytes key.pubKey.modulusLen (value y ^ d % value key.pubKey.modulus)) := by
  have hfits : value y ^ d % value key.pubKey.modulus < 256 ^ y.length := by
    rw [hlen]
    exact lt_trans (mod_lt _ (zero_lt_of_lt hy)) (value_lt _)
  have hn : value key.pubKey.modulus < 256 ^ (ofBytes y).len :=
    Nat.lt_of_lt_of_eq (value_lt _) (congrArg (256 ^ ·) hlen.symm)
  rw [decrypt_some h hlen hy, bind_ok (decrypt_eq_pow_mod hbinds hp hq hpq hd hn), toBytes,
    Mp.len_trunc, Mp.len_ofBytes, Mp.value_ofBytes, value_trunc hfits, hlen]

theorem two_le_pred {r : Nat} (hr : r.Prime) (hodd : r % 2 = 1) : 2 ≤ r - 1 := by
  have := hr.two_le
  omega

theorem exists_inverse_exponent {n e : Nat}
    (h : privKey.Binds cmpa n e) (hp : privKey.p.value.Prime) (hq : privKey.q.value.Prime) :
    ∃ d, d * e ≡ 1 [MOD (privKey.p.value - 1) * (privKey.q.value - 1)] :=
  exists_inverse h.dP_inverse h.dQ_inverse (lt_of_lt_of_le (by decide)
    (Nat.mul_le_mul (two_le_pred hp h.p_odd) (two_le_pred hq h.q_odd)))

/-- Both powers are the identity when taken one after the other, in either order. -/
theorem permutes_of_binds (h : key.privKey = some privKey)
    (hbinds : privKey.Binds cmpa (value key.pubKey.modulus) (value key.pubKey.publicExponent))
    (hp : privKey.p.value.Prime) (hq : privKey.q.value.Prime)
    (hpq : privKey.p.value ≠ privKey.q.value) : key.Permutes cmpa := by
  obtain ⟨d, hd⟩ := exists_inverse_exponent hbinds hp hq
  have hodd : value key.pubKey.modulus % 2 = 1 := by
    rw [hbinds.modulus, Nat.mul_mod, hbinds.p_odd, hbinds.q_odd]
  have hone : 1 < value key.pubKey.modulus := by
    rw [hbinds.modulus]
    exact lt_of_lt_of_le (by decide) (Nat.mul_le_mul hp.two_le hq.two_le)
  have hpos : 0 < d * value key.pubKey.publicExponent := by
    refine pos_of_ne_zero ?_
    intro hzero
    rw [hzero] at hd
    have hdvd := dvd_one.mp (modEq_zero_iff_dvd.mp hd.symm)
    have := Nat.mul_le_mul (two_le_pred hp hbinds.p_odd) (two_le_pred hq hbinds.q_odd)
    omega
  have hinverse (x : Nat) (hx : x < value key.pubKey.modulus) :
      (x ^ value key.pubKey.publicExponent % value key.pubKey.modulus) ^ d %
          value key.pubKey.modulus = x ∧
        (x ^ d % value key.pubKey.modulus) ^ value key.pubKey.publicExponent %
          value key.pubKey.modulus = x := by
    have hself := pow_mul_modEq_self hp hq hpq hpos hd x
    rw [← hbinds.modulus] at hself
    rw [← pow_mod, ← pow_mod, ← pow_mul, ← pow_mul, mul_comm _ d]
    exact ⟨mod_eq_of_modEq hself hx, mod_eq_of_modEq hself hx⟩
  have hround {bs : List Byte} (hlen : bs.length = key.pubKey.modulusLen) :
      bytes key.pubKey.modulusLen (value bs) = bs := hlen ▸ bytes_value bs
  have hvalue (k : Nat) : value (bytes key.pubKey.modulusLen (k % value key.pubKey.modulus)) =
      k % value key.pubKey.modulus :=
    value_bytes (lt_trans (mod_lt _ (zero_lt_of_lt hone)) (value_lt _))
  constructor
  · intro x hlen hx
    refine ⟨_, RsaPublicKey.encrypt_eq hlen hodd hx hone, length_bytes _ _, ?_, ?_⟩
    · rw [hvalue]
      exact mod_lt _ (zero_lt_of_lt hone)
    · rw [decrypt_eq h hbinds hp hq hpq hd (length_bytes _ _)
        (by rw [hvalue]; exact mod_lt _ (zero_lt_of_lt hone)), hvalue, (hinverse _ hx).1,
        hround hlen]
  · intro y hlen hy
    refine ⟨_, decrypt_eq h hbinds hp hq hpq hd hlen hy, length_bytes _ _, ?_, ?_⟩
    · rw [hvalue]
      exact mod_lt _ (zero_lt_of_lt hone)
    · rw [encrypt, RsaPublicKey.encrypt_eq (length_bytes _ _) hodd
        (by rw [hvalue]; exact mod_lt _ (zero_lt_of_lt hone)) hone, hvalue,
        (hinverse _ hy).2, hround hlen]

variable {publicExponent : BitVec 32}

theorem modulus_of_tryFrom {key : RsaPublicKey}
    (h : RsaPublicKey.tryFrom publicExponent modulus = .ok key) : key.modulus = modulus := by
  obtain ⟨_, -, h⟩ := ok_of_bind h
  split at h
  · cases h
  · cases h
    rfl

theorem permutes_of_tryFrom {p : List Byte} {key : RsaKey}
    (h : tryFrom cmpa publicExponent modulus (some p) = .ok key) (hp : (value p).Prime)
    (hq : (value modulus / value p).Prime) (hpq : value p ≠ value modulus / value p) :
    key.Permutes cmpa ∧ key.pubKey.modulus = modulus := by
  obtain ⟨pubKey, hpub, h⟩ := ok_of_bind h
  obtain ⟨privKey, hnew, h⟩ := ok_of_bind h
  cases h
  obtain rfl := modulus_of_tryFrom hpub
  obtain ⟨hpValue, hbinds⟩ := newFromP_binds hnew
  simp only [Mp.value_ofBytes] at hpValue hbinds
  have hqValue : privKey.q.value = value pubKey.modulus / value p := by
    rw [hbinds.modulus, ← hpValue, Nat.mul_div_cancel_left _ (hpValue ▸ hp.pos)]
  rw [← hqValue, ← hpValue] at hpq
  rw [← hqValue] at hq
  rw [← hpValue] at hp
  exact ⟨permutes_of_binds rfl hbinds hp hq hpq, rfl⟩

/-- The Mersenne prime of exponent 127, and its product with the one of exponent 521. -/
def mersenneFactor : List Byte := 0x7f :: List.replicate 15 0xff

def mersenneModulus : List Byte :=
  List.replicate 15 0xff ++ 0xfd :: List.replicate 49 0xff ++ 0x80 :: List.replicate 14 0 ++ [0x01]

theorem mersenneKey_permutes : ∃ key, tryFrom Cmpa.reference 0x010001 mersenneModulus
    (some mersenneFactor) = .ok key ∧ key.Permutes Cmpa.reference ∧
      key.pubKey.modulusLen = 81 := by
  have hok : (tryFrom Cmpa.reference 0x010001 mersenneModulus (some mersenneFactor)).isOk = true := by
    decide +kernel
  obtain ⟨key, hkey⟩ : ∃ key, tryFrom Cmpa.reference 0x010001 mersenneModulus
      (some mersenneFactor) = .ok key := by
    cases h : tryFrom Cmpa.reference 0x010001 mersenneModulus (some mersenneFactor) with
    | error e =>
      rw [h] at hok
      cases hok
    | ok key => exact ⟨key, rfl⟩
  have hp : value mersenneFactor = mersenne 127 := by decide +kernel
  have hq : value mersenneModulus / mersenne 127 = mersenne 521 := by decide +kernel
  have hprime127 : (mersenne 127).Prime :=
    lucas_lehmer_sufficiency _ (by norm_num) (by norm_num)
  have hprime521 : (mersenne 521).Prime :=
    lucas_lehmer_sufficiency _ (by norm_num) (by norm_num)
  have hne : mersenne 127 ≠ mersenne 521 := strictMono_mersenne.injective.ne (by norm_num)
  obtain ⟨hperm, hmodulus⟩ := permutes_of_tryFrom hkey (hp ▸ hprime127)
    (by rw [hp, hq]; exact hprime521) (by rw [hp, hq]; exact hne)
  exact ⟨key, hkey, hperm, by rw [RsaPublicKey.modulusLen, hmodulus]; rfl⟩

end RsaKey

end CocoonFs.Rsa
