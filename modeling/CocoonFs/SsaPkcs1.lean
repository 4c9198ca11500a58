import CocoonFs.Layout
import CocoonFs.Rsa

namespace CocoonFs.SsaPkcs1

open Codes BigEndian Layout Multiprecision Rsa List
open List (replicate)

def digestInfoDerEncPrefix : TpmiAlgHash → List Byte
  | .sha1 => [0x30, 0x21, 0x30, 0x09, 0x06, 0x05, 0x2b, 0x0e, 0x03, 0x02, 0x1a, 0x05, 0x00, 0x04,
      0x14]
  | .sha256 => [0x30, 0x31, 0x30, 0x0d, 0x06, 0x09, 0x60, 0x86, 0x48, 0x01, 0x65, 0x03, 0x04, 0x02,
      0x01, 0x05, 0x00, 0x04, 0x20]
  | .sha384 => [0x30, 0x41, 0x30, 0x0d, 0x06, 0x09, 0x60, 0x86, 0x48, 0x01, 0x65, 0x03, 0x04, 0x02,
      0x02, 0x05, 0x00, 0x04, 0x30]
  | .sha512 => [0x30, 0x51, 0x30, 0x0d, 0x06, 0x09, 0x60, 0x86, 0x48, 0x01, 0x65, 0x03, 0x04, 0x02,
      0x03, 0x05, 0x00, 0x04, 0x40]
  | .sha3256 => [0x30, 0x31, 0x30, 0x0d, 0x06, 0x09, 0x60, 0x86, 0x48, 0x01, 0x65, 0x03, 0x04, 0x02,
      0x08, 0x05, 0x00, 0x04, 0x20]
  | .sha3384 => [0x30, 0x41, 0x30, 0x0d, 0x06, 0x09, 0x60, 0x86, 0x48, 0x01, 0x65, 0x03, 0x04, 0x02,
      0x09, 0x05, 0x00, 0x04, 0x30]
  | .sha3512 => [0x30, 0x51, 0x30, 0x0d, 0x06, 0x09, 0x60, 0x86, 0x48, 0x01, 0x65, 0x03, 0x04, 0x02,
      0x0a, 0x05, 0x00, 0x04, 0x40]
  | .sm3256 => [0x30, 0x30, 0x30, 0x0c, 0x06, 0x08, 0x2a, 0x81, 0x1c, 0x81, 0x45, 0x01, 0x83, 0x11,
      0x05, 0x00, 0x04, 0x20]

/-- The last byte of the prefix is the length octet of the digest. -/
def digestInfoDerEncPrefixToDigestLen (derEncPrefix : List Byte) : Nat :=
  (derEncPrefix.getLastD 0).toNat

variable (cmpa : Cmpa)

/-- `PS` with the bytes around it: all ones at first, with three bytes set after that. -/
def paddingString (psLen : Nat) : List Byte :=
  (((replicate psLen 0xff).set 0 0x00).set 1 0x01).set (psLen - 1) 0x02

def sign (digestHashAlg : TpmiAlgHash) (digest : List Byte) (key : RsaKey) : Crypto (List Byte) := do
  let derEncPrefix := digestInfoDerEncPrefix digestHashAlg
  let digestLen := digestInfoDerEncPrefixToDigestLen derEncPrefix
  failIf (digest.length ≠ digestLen) .internal
  debugAssert (digestLen = hashAlgDigestLen digestHashAlg)
  let digestInfoDerEncLen := derEncPrefix.length + digestLen
  let modulusLen := key.pubKey.modulusLen
  failIf (modulusLen < digestInfoDerEncLen + 11) .invalidParams
  let t := derEncPrefix ++ digest
  let ps := paddingString (modulusLen - digestInfoDerEncLen)
  key.decrypt cmpa (ps ++ t)

def mapEncryptError : Crypto (List Byte) → Crypto (List Byte)
  | .error (.error .invalidMessageLength) | .error (.error .invalidParams) =>
    fail .signatureVerificationFailure
  | r => r

/-- The encoded message is compared in place instead of being assembled another time. -/
def compareEncoding (derEncPrefix digest em : List Byte) (modulusLen digestLen : Nat) :
    Crypto Unit := do
  let digestInfoDerEncLen := derEncPrefix.length + digestLen
  failIf (modulusLen < digestInfoDerEncLen + 11) .signatureVerificationFailure
  let ps := em.take (modulusLen - digestInfoDerEncLen)
  let t := em.drop (modulusLen - digestInfoDerEncLen)
  failIf (t.take derEncPrefix.length ≠ derEncPrefix ∨ t.drop derEncPrefix.length ≠ digest)
    .signatureVerificationFailure
  let psLen := ps.length
  failIf (ps[0]? ≠ some 0x00 ∨ ps[1]? ≠ some 0x01 ∨ ps[psLen - 1]? ≠ some 0x02 ∨
    ((ps.take (psLen - 1)).drop 2).any (· != 0xff)) .signatureVerificationFailure

def verify (digestHashAlg : TpmiAlgHash) (digest signature : List Byte) (pubKey : RsaPublicKey) :
    Crypto Unit := do
  let digestLen := hashAlgDigestLen digestHashAlg
  failIf (digest.length ≠ digestLen) .internal
  let modulusLen := pubKey.modulusLen
  failIf (signature.length ≠ modulusLen) .signatureVerificationFailure
  let em ← mapEncryptError (pubKey.encrypt cmpa signature)
  let derEncPrefix := digestInfoDerEncPrefix digestHashAlg
  debugAssert (digestInfoDerEncPrefixToDigestLen derEncPrefix = digestLen)
  compareEncoding derEncPrefix digest em modulusLen digestLen

variable {cmpa}

/-! The encoding of RFC 8017, section 9.2. -/

/-- The DER encoding of a value with its tag, in the short form of the length. -/
def der (tag : Byte) (contents : List Byte) : List Byte :=
  tag :: BitVec.ofNat 8 contents.length :: contents

def algOid : TpmiAlgHash → List Byte
  | .sha1 => [0x2b, 0x0e, 0x03, 0x02, 0x1a]
  | .sha256 => [0x60, 0x86, 0x48, 0x01, 0x65, 0x03, 0x04, 0x02, 0x01]
  | .sha384 => [0x60, 0x86, 0x48, 0x01, 0x65, 0x03, 0x04, 0x02, 0x02]
  | .sha512 => [0x60, 0x86, 0x48, 0x01, 0x65, 0x03, 0x04, 0x02, 0x03]
  | .sha3256 => [0x60, 0x86, 0x48, 0x01, 0x65, 0x03, 0x04, 0x02, 0x08]
  | .sha3384 => [0x60, 0x86, 0x48, 0x01, 0x65, 0x03, 0x04, 0x02, 0x09]
  | .sha3512 => [0x60, 0x86, 0x48, 0x01, 0x65, 0x03, 0x04, 0x02, 0x0a]
  | .sm3256 => [0x2a, 0x81, 0x1c, 0x81, 0x45, 0x01, 0x83, 0x11]

/-- The sequence of the algorithm's identifier, with the null of its parameters, and the
digest. -/
def digestInfo (alg : TpmiAlgHash) (digest : List Byte) : List Byte :=
  der 0x30 (der 0x30 (der 0x06 (algOid alg) ++ der 0x05 []) ++ der 0x04 digest)

/-- The encoded message with the byte given in between the padding and `DigestInfo`. The
standard has zero there. -/
def encodedMessage (separator : Byte) (emLen : Nat) (alg : TpmiAlgHash) (digest : List Byte) :
    List Byte :=
  0x00 :: 0x01 :: (replicate (emLen - (digestInfo alg digest).length - 3) 0xff ++
    separator :: digestInfo alg digest)

theorem take_drop_iff {l a b : List Byte} {k : Nat} (h : a.length = k) :
    (l.take k = a ∧ l.drop k = b) ↔ l = a ++ b := by
  constructor
  · rintro ⟨rfl, rfl⟩
    exact (take_append_drop k l).symm
  · rintro rfl
    rw [← h]
    exact ⟨take_left, drop_left⟩

@[simp] theorem length_paddingString (psLen : Nat) : (paddingString psLen).length = psLen := by
  simp [paddingString]

variable {digest : List Byte} {alg : TpmiAlgHash} {emLen : Nat} {key : RsaKey}

theorem digestInfo_eq (h : digest.length = hashAlgDigestLen alg) :
    digestInfo alg digest = digestInfoDerEncPrefix alg ++ digest := by
  cases alg <;> simp [digestInfo, der, algOid, digestInfoDerEncPrefix, h, hashAlgDigestLen]

theorem digestInfoDerEncPrefixToDigestLen_eq (alg : TpmiAlgHash) :
    digestInfoDerEncPrefixToDigestLen (digestInfoDerEncPrefix alg) = hashAlgDigestLen alg := by
  cases alg <;> rfl

theorem length_digestInfo
    (h : digest.length = hashAlgDigestLen alg) : (digestInfo alg digest).length =
      (digestInfoDerEncPrefix alg).length + hashAlgDigestLen alg := by
  rw [digestInfo_eq h, length_append, h]

theorem paddingString_eq {psLen : Nat} (h : 3 ≤ psLen) :
    paddingString psLen = 0x00 :: 0x01 :: (replicate (psLen - 3) 0xff ++ [0x02]) := by
  obtain ⟨n, rfl⟩ := Nat.exists_eq_add_of_le' h
  have hlast : (replicate (n + 1) (0xff : Byte)).set n 0x02 =
      replicate n 0xff ++ [0x02] := by
    rw [replicate_succ', set_append_right _ _ (by simp)]
    simp
  rw [paddingString, replicate_succ, replicate_succ]
  change 0x00 :: 0x01 :: (replicate (n + 1) (0xff : Byte)).set n 0x02 = _
  rw [hlast, Nat.add_sub_cancel]

theorem length_encodedMessage (separator : Byte) (digest : List Byte)
    (hlong : (digestInfo alg digest).length + 11 ≤ emLen) :
    (encodedMessage separator emLen alg digest).length = emLen := by
  rw [encodedMessage]
  simp only [length_cons, length_append, length_replicate]
  omega

theorem append_padding_eq (hlong : (digestInfo alg digest).length + 11 ≤ emLen) :
    paddingString (emLen - (digestInfo alg digest).length) ++ digestInfo alg digest =
      encodedMessage 0x02 emLen alg digest := by
  rw [paddingString_eq (by omega), encodedMessage]
  simp

theorem sign_eq (key : RsaKey) (h : digest.length = hashAlgDigestLen alg) :
    sign cmpa alg digest key =
      if key.pubKey.modulusLen < (digestInfo alg digest).length + 11 then fail .invalidParams
      else key.decrypt cmpa (encodedMessage 0x02 key.pubKey.modulusLen alg digest) := by
  have hlen := digestInfoDerEncPrefixToDigestLen_eq alg
  rw [sign]
  dsimp only
  rw [bind_ok (failIf_neg (not_not.mpr (h.trans hlen.symm)) _), bind_ok (debugAssert_pos hlen),
    hlen, ← length_digestInfo h]
  split
  · rename_i hshort
    rw [failIf_pos hshort]
    rfl
  · rename_i hlong
    rw [bind_ok (failIf_neg hlong _), ← digestInfo_eq h, append_padding_eq (by omega)]

theorem padding_iff {ps : List Byte} (h : 3 ≤ ps.length) :
    (ps[0]? = some 0x00 ∧ ps[1]? = some 0x01 ∧ ps[ps.length - 1]? = some 0x02 ∧
        ((ps.take (ps.length - 1)).drop 2).any (· != 0xff) = false) ↔
      ps = paddingString ps.length := by
  obtain ⟨a, b, mid, c, rfl⟩ : ∃ a b mid c, ps = a :: b :: (mid ++ [c]) := by
    match ps, h with
    | a :: b :: c :: rest, _ =>
      exact ⟨a, b, _, _, by rw [dropLast_append_getLast (cons_ne_nil c rest)]⟩
  have hlen : (a :: b :: (mid ++ [c])).length = mid.length + 3 := by simp
  have hmid : mid.any (· != 0xff) = false ↔ mid = replicate mid.length 0xff := by
    rw [eq_replicate_iff]
    simp
  have hlast : (a :: b :: (mid ++ [c]))[mid.length + 3 - 1]? = some c := by
    simp
  have htake : ((a :: b :: (mid ++ [c])).take (mid.length + 3 - 1)).drop 2 = mid := by
    simp
  rw [paddingString_eq h, hlen, hlast, htake, hmid, Nat.add_sub_cancel]
  simp only [getElem?_cons_zero, getElem?_cons_succ, Option.some.injEq, List.cons.injEq]
  constructor
  · rintro ⟨ha, hb, hc, hrep⟩
    exact ⟨ha, hb, by rw [hc, ← hrep]⟩
  · rintro ⟨ha, hb, happ⟩
    obtain ⟨hrep, hc⟩ := append_inj happ (by simp)
    exact ⟨ha, hb, singleton_inj.mp hc, hrep⟩

theorem compareEncoding_iff {em : List Byte}
    (h : digest.length = hashAlgDigestLen alg) (hem : em.length = emLen) :
    compareEncoding (digestInfoDerEncPrefix alg) digest em emLen (hashAlgDigestLen alg) = .ok () ↔
      (digestInfo alg digest).length + 11 ≤ emLen ∧ em = encodedMessage 0x02 emLen alg digest := by
  rw [compareEncoding]
  rw [failIf_bind_iff, failIf_bind_iff, failIf_eq_ok_iff, ← length_digestInfo h, not_lt,
    and_congr_right_iff]
  intro hlong
  have hps : (em.take (emLen - (digestInfo alg digest).length)).length =
      emLen - (digestInfo alg digest).length := by
    rw [length_take]
    omega
  simp only [not_or, not_not, Bool.not_eq_true]
  rw [padding_iff (by omega), take_drop_iff rfl, ← digestInfo_eq h, hps, and_comm,
    take_drop_iff (length_paddingString _), append_padding_eq hlong]

theorem mapEncryptError_ok (em : List Byte) : mapEncryptError (.ok em) = .ok em := rfl

theorem of_mapEncryptError {r : Crypto (List Byte)} {em : List Byte}
    (h : mapEncryptError r = .ok em) : r = .ok em := by
  unfold mapEncryptError at h
  split at h
  · cases h
  · cases h
  · exact h

theorem verify_iff (signature : List Byte)
    (hkey : key.Permutes cmpa) (h : digest.length = hashAlgDigestLen alg) :
    verify cmpa alg digest signature key.pubKey = .ok () ↔
      (digestInfo alg digest).length + 11 ≤ key.pubKey.modulusLen ∧
        signature.length = key.pubKey.modulusLen ∧
        key.encrypt cmpa signature =
          .ok (encodedMessage 0x02 key.pubKey.modulusLen alg digest) := by
  rw [verify]
  rw [failIf_bind_iff, failIf_bind_iff, not_not, not_not]
  constructor
  · rintro ⟨-, hlen, hverify⟩
    obtain ⟨em, hem, hverify⟩ := ok_of_bind hverify
    obtain ⟨_, -, hverify⟩ := ok_of_bind hverify
    have hem := of_mapEncryptError hem
    have hemLen : em.length = key.pubKey.modulusLen := by
      rcases hkey.encrypt_cases hlen with ⟨-, y, hy, hyLen, -⟩ | ⟨-, hfail⟩
      · rw [hem] at hy
        cases hy
        exact hyLen
      · rw [hem] at hfail
        cases hfail
    obtain ⟨hlong, rfl⟩ := (compareEncoding_iff h hemLen).mp hverify
    exact ⟨hlong, hlen, hem⟩
  · rintro ⟨hlong, hlen, hem⟩
    refine ⟨h, hlen, ?_⟩
    change key.pubKey.encrypt cmpa signature = _ at hem
    rw [hem, bind_ok (mapEncryptError_ok _), bind_ok (debugAssert_pos (digestInfoDerEncPrefixToDigestLen_eq alg))]
    exact (compareEncoding_iff h (length_encodedMessage _ _ hlong)).mpr ⟨hlong, rfl⟩

/-- The signer succeeds exactly on moduli that are long enough, with the private operation
applied to the standard's encoded message. -/
def SignConforms (cmpa : Cmpa) (alg : TpmiAlgHash) (digest : List Byte) (key : RsaKey) : Prop :=
  ((∃ signature, sign cmpa alg digest key = .ok signature) ↔
    (digestInfo alg digest).length + 11 ≤ key.pubKey.modulusLen) ∧
  ((digestInfo alg digest).length + 11 ≤ key.pubKey.modulusLen →
    sign cmpa alg digest key =
      key.decrypt cmpa (encodedMessage 0x00 key.pubKey.modulusLen alg digest))

/-- The verifier accepts exactly what has the modulus' length and is mapped to the standard's
encoded message, which there is for moduli long enough only. -/
def VerifyConforms (cmpa : Cmpa) (alg : TpmiAlgHash) (digest : List Byte) (key : RsaKey)
    (signature : List Byte) : Prop :=
  verify cmpa alg digest signature key.pubKey = .ok () ↔
    (digestInfo alg digest).length + 11 ≤ key.pubKey.modulusLen ∧
      signature.length = key.pubKey.modulusLen ∧
      key.encrypt cmpa signature = .ok (encodedMessage 0x00 key.pubKey.modulusLen alg digest)

theorem encodedMessage_ne (emLen : Nat) (alg : TpmiAlgHash) (digest : List Byte) :
    encodedMessage 0x02 emLen alg digest ≠ encodedMessage 0x00 emLen alg digest := by
  intro h
  rw [encodedMessage, encodedMessage, List.cons.injEq, List.cons.injEq, append_cancel_left_eq,
    List.cons.injEq] at h
  exact absurd h.2.2.1 (by decide)

/-- Any encoded message is below the modulus, so it is what the public operation maps some
string to. -/
theorem exists_signature (hkey : key.Permutes cmpa) (separator : Byte)
        (hlong : (digestInfo alg digest).length + 11 ≤ key.pubKey.modulusLen) :
    ∃ signature, key.decrypt cmpa (encodedMessage separator key.pubKey.modulusLen alg digest) =
        .ok signature ∧ signature.length = key.pubKey.modulusLen ∧
      key.encrypt cmpa signature =
        .ok (encodedMessage separator key.pubKey.modulusLen alg digest) := by
  obtain ⟨signature, hdecrypt, hlen, -, hencrypt⟩ := hkey.decrypt _
    (length_encodedMessage separator digest hlong)
    (RsaPublicKey.value_lt_modulus (length_encodedMessage separator digest hlong) (by decide))
  exact ⟨signature, hdecrypt, hlen, hencrypt⟩

theorem signConforms_iff (hkey : key.Permutes cmpa) (h : digest.length = hashAlgDigestLen alg) :
    SignConforms cmpa alg digest key ↔
      key.pubKey.modulusLen < (digestInfo alg digest).length + 11 := by
  rw [SignConforms, sign_eq key h]
  constructor
  · rintro ⟨-, hsign⟩
    by_contra hlong
    have hlong := not_lt.mp hlong
    have heq := hsign hlong
    rw [if_neg (not_lt.mpr hlong)] at heq
    obtain ⟨s₂, hs₂, -, hm₂⟩ := exists_signature hkey 0x02 hlong
    obtain ⟨s₀, hs₀, -, hm₀⟩ := exists_signature hkey 0x00 hlong
    rw [hs₂, hs₀, Except.ok.injEq] at heq
    rw [heq, hm₀, Except.ok.injEq] at hm₂
    exact encodedMessage_ne _ _ _ hm₂.symm
  · intro hshort
    rw [if_pos hshort]
    refine ⟨⟨?_, fun hlong => absurd hshort (not_lt.mpr hlong)⟩,
      fun hlong => absurd hshort (not_lt.mpr hlong)⟩
    rintro ⟨signature, hfail⟩
    cases hfail

/-- The verifier goes wrong on the strings that either of the two messages is recovered from. -/
theorem verifyConforms_iff
    (hkey : key.Permutes cmpa) (h : digest.length = hashAlgDigestLen alg) (signature : List Byte) :
    VerifyConforms cmpa alg digest key signature ↔
      ((digestInfo alg digest).length + 11 ≤ key.pubKey.modulusLen →
        signature.length = key.pubKey.modulusLen →
        key.encrypt cmpa signature ≠
            .ok (encodedMessage 0x00 key.pubKey.modulusLen alg digest) ∧
          key.encrypt cmpa signature ≠
            .ok (encodedMessage 0x02 key.pubKey.modulusLen alg digest)) := by
  rw [VerifyConforms, verify_iff signature hkey h, and_congr_right_iff]
  refine imp_congr_right fun hlong => ?_
  rw [and_congr_right_iff]
  refine imp_congr_right fun hlen => ?_
  constructor
  · intro hiff
    constructor
    · intro h0
      have h2 := hiff.mpr h0
      rw [h0, Except.ok.injEq] at h2
      exact encodedMessage_ne _ _ _ h2.symm
    · intro h2
      have h0 := hiff.mp h2
      rw [h2, Except.ok.injEq] at h0
      exact encodedMessage_ne _ _ _ h0
  · rintro ⟨h0, h2⟩
    exact ⟨fun h => absurd h h2, fun h => absurd h h0⟩

theorem not_verifyConforms (hkey : key.Permutes cmpa) (h : digest.length = hashAlgDigestLen alg)
    (hlong : (digestInfo alg digest).length + 11 ≤ key.pubKey.modulusLen) :
    ∃ signature, ¬VerifyConforms cmpa alg digest key signature := by
  obtain ⟨signature, -, hlen, hem⟩ := exists_signature hkey 0x02 hlong
  exact ⟨signature, fun hconforms =>
    ((verifyConforms_iff hkey h signature).mp hconforms hlong hlen).2 hem⟩

end CocoonFs.SsaPkcs1
