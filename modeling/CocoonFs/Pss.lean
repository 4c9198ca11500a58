import CocoonFs.Masks
import CocoonFs.SsaPkcs1

namespace CocoonFs.Pss

open Codes BigEndian Layout Multiprecision Masks Patches Rsa SsaPkcs1 List
open List (length replicate)

variable {σ : Type} (cmpa : Cmpa) (hashes : Hashes) (mgf1 : MaskGens)

/-- `db[0] &= !0x80` -/
def clearTopBit : List Byte → List Byte
  | [] => []
  | b :: bs => (b &&& 0x7f) :: bs

/-- The hash of `M' = 0x00 .. 0x00 || digest || salt`. -/
def mPrimeHash (mPrimeHashAlg : TpmiAlgHash) (digest salt : List Byte) : List Byte :=
  hashes.digest mPrimeHashAlg (replicate 8 0 ++ digest ++ salt)

def saltLen (modulusLen hlen : Nat) : Nat := min (modulusLen - hlen - 2) hlen

/-- `EM = maskedDB || H || 0xbc`, with the salt at the end of `DB`. -/
def encode (digest salt : List Byte) (dbLen slen : Nat) (mPrimeHashAlg mgf1HashAlg : TpmiAlgHash) :
    List Byte :=
  let db := (replicate dbLen 0).set (dbLen - slen - 1) 0x01
  let db := patch db (dbLen - slen) salt
  let signatureH := mPrimeHash hashes mPrimeHashAlg digest salt
  let db := xorBytes db (mgf1.mask mgf1HashAlg signatureH db.length)
  clearTopBit db ++ signatureH ++ [0xbc]

def sign (digest : List Byte) (key : RsaKey) (mPrimeHashAlg mgf1HashAlg : TpmiAlgHash)
    (rng : Rng σ) (s : σ) : Crypto (List Byte × σ) := do
  let modulusLen := key.pubKey.modulusLen
  let hlen := hashAlgDigestLen mPrimeHashAlg
  failIf (modulusLen < hlen + 2) .invalidParams
  let slen := saltLen modulusLen hlen
  let dbLen := modulusLen - 1 - hlen
  debugAssert (slen < dbLen)
  let (salt, s) ← rng.generate s slen
  let signature ← key.decrypt cmpa
    (encode hashes mgf1 digest salt dbLen slen mPrimeHashAlg mgf1HashAlg)
  .ok (signature, s)

/-- What follows the leftmost byte that is not zero, which has to be one. -/
def saltOfDb (db : List Byte) : Crypto (List Byte) :=
  match db.findIdx? (· != 0) with
  | none => fail .signatureVerificationFailure
  | some dbPadEndPos => do
    failIf (db[dbPadEndPos]? ≠ some 0x01) .signatureVerificationFailure
    .ok (db.drop (dbPadEndPos + 1))

def verifyEncoding (digest em : List Byte) (mPrimeHashAlg mgf1HashAlg : TpmiAlgHash) :
    Crypto Unit := do
  let hlen := hashAlgDigestLen mPrimeHashAlg
  failIf (em.length < hlen + 2 ∨ em[em.length - 1]? ≠ some 0xbc) .signatureVerificationFailure
  let db := em.take (em.length - hlen - 1)
  let signatureH := (em.drop (em.length - hlen - 1)).take hlen
  failIf (db.headD 0 &&& 0x80 ≠ 0) .signatureVerificationFailure
  let db := xorBytes db (mgf1.mask mgf1HashAlg signatureH db.length)
  let salt ← saltOfDb (clearTopBit db)
  failIf (mPrimeHash hashes mPrimeHashAlg digest salt ≠ signatureH) .signatureVerificationFailure

def verify (digest signature : List Byte) (pubKey : RsaPublicKey)
    (mPrimeHashAlg mgf1HashAlg : TpmiAlgHash) : Crypto Unit := do
  failIf (signature.length ≠ pubKey.modulusLen) .signatureVerificationFailure
  let em ← mapEncryptError (pubKey.encrypt cmpa signature)
  verifyEncoding hashes mgf1 digest em mPrimeHashAlg mgf1HashAlg

variable {cmpa} {mPrimeHashAlg mgf1HashAlg : TpmiAlgHash} {digest : List Byte}

/-- The consistent encodings of RFC 8017, section 9.1.2, for some length of the salt. -/
def Encodes (mPrimeHashAlg mgf1HashAlg : TpmiAlgHash) (digest em : List Byte) : Prop :=
  ∃ maskedDb h n salt, em = maskedDb ++ h ++ [0xbc] ∧ h.length = hashAlgDigestLen mPrimeHashAlg ∧
    maskedDb.headD 0 &&& 0x80 = 0 ∧
    clearTopBit (xorBytes maskedDb (mgf1.mask mgf1HashAlg h maskedDb.length)) =
      replicate n 0 ++ 0x01 :: salt ∧
    h = mPrimeHash hashes mPrimeHashAlg digest salt

@[simp] theorem length_clearTopBit (bs : List Byte) : (clearTopBit bs).length = bs.length := by
  cases bs <;> rfl

theorem headD_clearTopBit (bs : List Byte) : (clearTopBit bs).headD 0 &&& 0x80 = 0 := by
  cases bs with
  | nil => rfl
  | cons b bs =>
    change b &&& 0x7f &&& 0x80 = 0
    rw [BitVec.and_assoc]
    exact BitVec.and_zero

theorem toNat_lt_of_and {b : Byte} (h : b &&& 0x80 = 0) : b.toNat < 128 := by
  have hmsb : b.msb = false := by
    have := congrArg BitVec.msb h
    rwa [BitVec.msb_and, show (0x80 : Byte).msb = true from rfl, Bool.and_true] at this
  exact BitVec.toNat_lt_of_msb_false hmsb

theorem clearTopBit_xorBytes (bs mask : List Byte) :
    clearTopBit (xorBytes (clearTopBit bs) mask) = clearTopBit (xorBytes bs mask) := by
  cases bs with
  | nil => rfl
  | cons b bs =>
    cases mask with
    | nil => rfl
    | cons m mask =>
      change ((b &&& 0x7f ^^^ m) &&& 0x7f) :: _ = ((b ^^^ m) &&& 0x7f) :: _
      congr 1
      ext i hi
      simp only [BitVec.getElem_and, BitVec.getElem_xor]
      cases b[i] <;> cases m[i] <;> cases (0x7f : Byte)[i] <;> rfl

theorem saltOfDb_zero (db : List Byte) : saltOfDb (0x00 :: db) = saltOfDb db := by
  rw [saltOfDb, saltOfDb, findIdx?_cons]
  cases db.findIdx? (· != 0) <;> rfl

theorem saltOfDb_cons {b : Byte} (hb : b ≠ 0x00) (db : List Byte) :
    saltOfDb (b :: db) = (do
      failIf (b ≠ 0x01) .signatureVerificationFailure
      .ok db) := by
  rw [saltOfDb, findIdx?_cons, if_pos (bne_iff_ne.mpr hb)]
  simp

theorem saltOfDb_iff (db salt : List Byte) :
    saltOfDb db = .ok salt ↔ ∃ n, db = replicate n 0 ++ 0x01 :: salt := by
  induction db with
  | nil => simp [saltOfDb, fail]
  | cons b db ih =>
    by_cases hb : b = 0x00
    · subst hb
      rw [saltOfDb_zero, ih]
      constructor
      · rintro ⟨n, rfl⟩
        exact ⟨n + 1, rfl⟩
      · rintro ⟨n, h⟩
        cases n with
        | zero => cases h
        | succ n => exact ⟨n, (List.cons.inj h).2⟩
    · rw [saltOfDb_cons hb, failIf_bind_iff, Except.ok.injEq]
      constructor
      · rintro ⟨hone, rfl⟩
        exact ⟨0, by rw [not_not.mp hone]; rfl⟩
      · rintro ⟨n, h⟩
        cases n with
        | zero => exact ⟨not_not.mpr (List.cons.inj h).1, (List.cons.inj h).2⟩
        | succ n => exact absurd (List.cons.inj h).1 hb

theorem split_iff {em : List Byte} {hlen : Nat} :
    (¬(em.length < hlen + 2 ∨ em[em.length - 1]? ≠ some 0xbc)) ↔
      ∃ maskedDb h : List Byte, em = maskedDb ++ h ++ [0xbc] ∧ h.length = hlen ∧ maskedDb ≠ [] := by
  rw [not_or, not_lt, not_not]
  constructor
  · rintro ⟨hlong, hlast⟩
    obtain ⟨em, b, rfl⟩ : ∃ em' b, em = em' ++ [b] := by
      refine (eq_nil_or_concat' em).resolve_left ?_
      rintro rfl
      cases hlong
    rw [length_append, length_singleton, Nat.add_sub_cancel] at hlast
    rw [length_append, length_singleton] at hlong
    rw [getElem?_concat_length, Option.some.injEq] at hlast
    refine ⟨em.take (em.length - hlen), em.drop (em.length - hlen), ?_, ?_, ?_⟩
    · rw [take_append_drop, hlast]
    · rw [length_drop]
      omega
    · intro hnil
      have := congrArg length hnil
      rw [length_take, length_nil] at this
      omega
  · rintro ⟨maskedDb, h, rfl, rfl, hne⟩
    have hpos := length_pos_iff.mpr hne
    simp only [length_append, length_singleton, Nat.add_sub_cancel]
    exact ⟨by omega, by rw [← length_append, getElem?_concat_length]⟩

theorem verifyEncoding_iff (em : List Byte) :
    verifyEncoding hashes mgf1 digest em mPrimeHashAlg mgf1HashAlg = .ok () ↔
      Encodes hashes mgf1 mPrimeHashAlg mgf1HashAlg digest em := by
  rw [verifyEncoding]
  rw [failIf_bind_iff, split_iff]
  constructor
  · rintro ⟨⟨maskedDb, h, rfl, hlen, -⟩, heq⟩
    have hcut : (maskedDb ++ h ++ [0xbc]).length - hashAlgDigestLen mPrimeHashAlg - 1 =
        maskedDb.length := by
      simp only [length_append, length_singleton]
      omega
    rw [hcut, append_assoc, take_left, drop_left, take_left' hlen, failIf_bind_iff] at heq
    obtain ⟨htop, heq⟩ := heq
    obtain ⟨salt, hsalt, heq⟩ := ok_of_bind heq
    obtain ⟨n, hdb⟩ := (saltOfDb_iff _ _).mp hsalt
    exact ⟨maskedDb, h, n, salt, rfl, hlen, not_not.mp htop, hdb,
      (not_not.mp (failIf_eq_ok_iff.mp heq)).symm⟩
  · rintro ⟨maskedDb, h, n, salt, rfl, hlen, htop, hdb, hh⟩
    have hcut : (maskedDb ++ h ++ [0xbc]).length - hashAlgDigestLen mPrimeHashAlg - 1 =
        maskedDb.length := by
      simp only [length_append, length_singleton]
      omega
    have hne : maskedDb ≠ [] := by
      rintro rfl
      have := congrArg length hdb
      simp [xorBytes, clearTopBit] at this
    refine ⟨⟨maskedDb, h, rfl, hlen, hne⟩, ?_⟩
    rw [hcut, append_assoc, take_left, drop_left, take_left' hlen,
      failIf_bind_iff, bind_ok ((saltOfDb_iff _ _).mpr ⟨n, hdb⟩)]
    exact ⟨not_not.mpr htop, failIf_eq_ok_iff.mpr (not_not.mpr hh.symm)⟩

theorem verify_iff {key : RsaKey} (hkey : key.Permutes cmpa) (signature : List Byte) :
    verify cmpa hashes mgf1 digest signature key.pubKey mPrimeHashAlg mgf1HashAlg = .ok () ↔
      signature.length = key.pubKey.modulusLen ∧ value signature < value key.pubKey.modulus ∧
        ∃ em, key.encrypt cmpa signature = .ok em ∧
          Encodes hashes mgf1 mPrimeHashAlg mgf1HashAlg digest em := by
  rw [verify, failIf_bind_iff, not_not, and_congr_right_iff]
  intro hlen
  rcases hkey.encrypt_cases hlen with ⟨hlt, em, hem, -, -⟩ | ⟨hge, hfail⟩
  · rw [hem, bind_ok (show mapEncryptError (.ok em) = .ok em from rfl), verifyEncoding_iff]
    constructor
    · exact fun h => ⟨hlt, em, hem, h⟩
    · rintro ⟨-, em', hem', h⟩
      rw [RsaKey.encrypt, hem, Except.ok.injEq] at hem'
      exact hem' ▸ h
  · rw [hfail]
    constructor
    · intro h
      cases h
    · rintro ⟨hlt, -⟩
      exact absurd hlt (Nat.not_lt.mpr hge)

variable {salt : List Byte}

theorem dataBlock_eq {dbLen : Nat} (h : salt.length < dbLen) :
    ∃ n, n + 1 + salt.length = dbLen ∧
      patch ((replicate dbLen (0 : Byte)).set (dbLen - salt.length - 1) 0x01)
        (dbLen - salt.length) salt = replicate n 0 ++ 0x01 :: salt := by
  obtain ⟨n, rfl⟩ := Nat.exists_eq_add_of_lt h
  have hn : salt.length + n + 1 - salt.length - 1 = n := by omega
  have hset : (replicate (salt.length + n + 1) (0 : Byte)).set n 0x01 =
      replicate n 0 ++ [0x01] ++ replicate salt.length 0 ++ [] := by
    have hzeros : replicate (salt.length + n + 1) (0 : Byte) =
        replicate n 0 ++ 0 :: replicate salt.length 0 := by
      rw [← replicate_succ, replicate_append_replicate]
      congr 1
      omega
    rw [hzeros, set_append_right _ _ (by simp)]
    simp
  have hbegin : (replicate n (0 : Byte) ++ [0x01]).length =
      salt.length + n + 1 - salt.length := by
    simp only [length_append, length_replicate, length_singleton]
    omega
  refine ⟨n, by omega, ?_⟩
  rw [hn, hset, patch_append hbegin (length_replicate ..)]
  simp

variable (mPrimeHashAlg mgf1HashAlg) (digest) in
theorem encode_encodes {dbLen slen : Nat} (hsalt : salt.length = slen) (h : slen < dbLen) :
    (encode hashes mgf1 digest salt dbLen slen mPrimeHashAlg mgf1HashAlg).length =
        dbLen + hashAlgDigestLen mPrimeHashAlg + 1 ∧
      Encodes hashes mgf1 mPrimeHashAlg mgf1HashAlg digest
        (encode hashes mgf1 digest salt dbLen slen mPrimeHashAlg mgf1HashAlg) := by
  subst hsalt
  obtain ⟨n, hn, hdb⟩ := dataBlock_eq h
  have hhash := hashes.length_digest mPrimeHashAlg (replicate 8 0 ++ digest ++ salt)
  have hmask := mgf1.length_mask mgf1HashAlg (mPrimeHash hashes mPrimeHashAlg digest salt)
    (replicate n (0 : Byte) ++ 0x01 :: salt).length
  rw [encode, hdb]
  constructor
  · rw [length_append, length_append, length_clearTopBit, length_xorBytes hmask,
      mPrimeHash, hhash, length_append, length_replicate, length_cons, length_singleton, ← hn]
    omega
  · refine ⟨_, _, n, salt, rfl, hhash, headD_clearTopBit _, ?_, rfl⟩
    rw [length_clearTopBit, length_xorBytes hmask, clearTopBit_xorBytes, xorBytes_xorBytes hmask]
    -- Neither a zero byte nor the delimiter has its top bit set.
    cases n <;> rfl

/-- The top bit being clear, the encoding stands for a number below the modulus. -/
theorem Encodes.value_lt_modulus {pubKey : RsaPublicKey} {em : List Byte}
    (h : Encodes hashes mgf1 mPrimeHashAlg mgf1HashAlg digest em)
    (hlen : em.length = pubKey.modulusLen) : value em < value pubKey.modulus := by
  obtain ⟨maskedDb, hash, n, salt, rfl, -, htop, hdb, -⟩ := h
  cases maskedDb with
  | nil =>
    have := congrArg length hdb
    simp [xorBytes, clearTopBit] at this
  | cons b maskedDb =>
    exact RsaPublicKey.value_lt_modulus hlen (toNat_lt_of_and htop)

theorem sign_verifies {key : RsaKey} (hkey : key.Permutes cmpa)
    (hlong : hashAlgDigestLen mPrimeHashAlg + 2 ≤ key.pubKey.modulusLen) {rng : Rng σ} {s s' : σ}
    (hsalt : rng.generate s
      (saltLen key.pubKey.modulusLen (hashAlgDigestLen mPrimeHashAlg)) = .ok (salt, s')) :
    ∃ signature, sign cmpa hashes mgf1 digest key mPrimeHashAlg mgf1HashAlg rng s =
        .ok (signature, s') ∧
      verify cmpa hashes mgf1 digest signature key.pubKey mPrimeHashAlg mgf1HashAlg = .ok () := by
  have hslen : saltLen key.pubKey.modulusLen (hashAlgDigestLen mPrimeHashAlg) <
      key.pubKey.modulusLen - 1 - hashAlgDigestLen mPrimeHashAlg := by
    rw [saltLen]
    omega
  obtain ⟨hlen, hencodes⟩ := encode_encodes hashes mgf1 mPrimeHashAlg mgf1HashAlg digest
    (rng.length_generate _ _ _ _ hsalt) hslen
  have hemLen := hlen.trans (show _ = key.pubKey.modulusLen by omega)
  obtain ⟨signature, hdecrypt, hsigLen, hlt, hencrypt⟩ :=
    hkey.decrypt _ hemLen (hencodes.value_lt_modulus hashes mgf1 hemLen)
  refine ⟨signature, ?_, (verify_iff hashes mgf1 hkey signature).mpr
    ⟨hsigLen, hlt, _, hencrypt, hencodes⟩⟩
  rw [sign]
  dsimp only
  rw [bind_ok (failIf_neg (Nat.not_lt.mpr hlong) _), bind_ok (debugAssert_pos hslen), bind_ok hsalt]
  rw [bind_ok hdecrypt]

end CocoonFs.Pss
