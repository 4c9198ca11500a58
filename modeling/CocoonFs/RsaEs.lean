import CocoonFs.Masks
import CocoonFs.Rsa

namespace CocoonFs.RsaEs

open Codes BigEndian Layout Multiprecision Masks Patches Rsa List
open List (cons_append replicate)

variable {σ : Type} (cmpa : Cmpa)

namespace Oaep

/-- `lHash || PS || 0x01 || M`, assembled in a buffer of zeros. -/
def dataBlock (lhash x : List Byte) (dbLen : Nat) : List Byte :=
  let db := patch (replicate dbLen 0) 0 lhash
  let db := db.set (dbLen - x.length - 1) 0x01
  patch db (dbLen - x.length) x

def encrypt (hashes : Hashes) (mgf1 : MaskGens) (x : List Byte) (label : Option (List Byte))
    (pubKey : RsaPublicKey) (hashAlg mgf1HashAlg : TpmiAlgHash) (rng : Rng σ) (s : σ) :
    Crypto (List Byte × σ) := do
  let hlen := hashAlgDigestLen hashAlg
  failIf (pubKey.modulusLen < 2 * hlen + 2) .invalidParams
  let maxMLen := pubKey.modulusLen - 2 * hlen - 2
  failIf (x.length > maxMLen) .invalidMessageLength
  let dbLen := pubKey.modulusLen - (1 + hlen)
  let db := dataBlock (hashes.digest hashAlg (label.getD [])) x dbLen
  let (seed, s) ← rng.generate s hlen
  let db := xorBytes db (mgf1.mask mgf1HashAlg seed db.length)
  let seed := xorBytes seed (mgf1.mask mgf1HashAlg db seed.length)
  let y ← pubKey.encrypt cmpa (0x00 :: seed ++ db)
  .ok (y, s)

/-- The search for the end of the padding. Bytes only get looked at as long as everything
seen has been fine. -/
def findPsEnd : Bool → List Byte → Nat → Option Nat
  | _, [], _ => none
  | formatIsOk, b :: bs, i =>
    let formatIsOk := formatIsOk && b.toNat ≤ 1
    if select formatIsOk 0 b.toNat = 1 then some i else findPsEnd formatIsOk bs (i + 1)

def unpad (formatIsOk : Bool) (db : List Byte) : Crypto (List Byte) :=
  match findPsEnd formatIsOk db 0 with
  | none => fail .invalidPadding
  | some psEnd => .ok (db.drop (psEnd + 1))

def decrypt (hashes : Hashes) (mgf1 : MaskGens) (y : List Byte) (label : Option (List Byte))
    (key : RsaKey) (hashAlg mgf1HashAlg : TpmiAlgHash) : Crypto (List Byte) := do
  let modulusLen := key.pubKey.modulusLen
  let hlen := hashAlgDigestLen hashAlg
  failIf (modulusLen < 2 * hlen + 2) .invalidParams
  failIf (y.length ≠ modulusLen) .invalidMessageLength
  let em ← key.decrypt cmpa y
  let firstByte := em.headD 0
  let seed := (em.take (1 + hlen)).drop 1
  let db := em.drop (1 + hlen)
  let seed := xorBytes seed (mgf1.mask mgf1HashAlg db seed.length)
  let db := xorBytes db (mgf1.mask mgf1HashAlg seed db.length)
  let lhash := hashes.digest hashAlg (label.getD [])
  unpad (firstByte == 0 && lhash == db.take hlen) (db.drop hlen)

end Oaep

variable {cmpa} {key : RsaKey} {rng : Rng σ} {s s' : σ} {pubKey : RsaPublicKey}

namespace Oaep

variable (hashes : Hashes) (mgf1 : MaskGens) (label : Option (List Byte))
  (hashAlg mgf1HashAlg : TpmiAlgHash)

/-- The block `0x00 || maskedSeed || maskedDB` for the message, with some number of zeros in
front of it. -/
def Encodes (em m : List Byte) : Prop :=
  ∃ maskedSeed maskedDb n, em = 0x00 :: (maskedSeed ++ maskedDb) ∧
    maskedSeed.length = hashAlgDigestLen hashAlg ∧
    xorBytes maskedDb (mgf1.mask mgf1HashAlg
        (xorBytes maskedSeed (mgf1.mask mgf1HashAlg maskedDb maskedSeed.length)) maskedDb.length) =
      hashes.digest hashAlg (label.getD []) ++ replicate n 0 ++ 0x01 :: m

theorem findPsEnd_false (bs : List Byte) (i : Nat) : findPsEnd false bs i = none := by
  induction bs generalizing i with
  | nil => rfl
  | cons b bs ih => exact ih (i + 1)

theorem findPsEnd_zero (bs : List Byte) (i : Nat) :
    findPsEnd true (0x00 :: bs) i = findPsEnd true bs (i + 1) := rfl

theorem findPsEnd_one (bs : List Byte) (i : Nat) : findPsEnd true (0x01 :: bs) i = some i := rfl

theorem findPsEnd_other {b : Byte} (h0 : b ≠ 0x00) (h1 : b ≠ 0x01) (bs : List Byte) (i : Nat) :
    findPsEnd true (b :: bs) i = none := by
  have hb : ¬b.toNat ≤ 1 := by
    intro hle
    rcases Nat.le_one_iff_eq_zero_or_eq_one.mp hle with hb | hb
    · exact h0 (BitVec.eq_of_toNat_eq hb)
    · exact h1 (BitVec.eq_of_toNat_eq hb)
  rw [findPsEnd, decide_eq_false hb]
  exact findPsEnd_false bs (i + 1)

theorem findPsEnd_iff (bs : List Byte) (i j : Nat) :
    findPsEnd true bs i = some j ↔
      ∃ n, j = i + n ∧ ∃ m, bs = replicate n 0x00 ++ 0x01 :: m := by
  induction bs generalizing i with
  | nil => simp [findPsEnd]
  | cons b bs ih =>
    by_cases h0 : b = 0x00
    · subst h0
      rw [findPsEnd_zero, ih]
      constructor
      · rintro ⟨n, rfl, m, rfl⟩
        exact ⟨n + 1, by omega, m, rfl⟩
      · rintro ⟨n, rfl, m, h⟩
        cases n with
        | zero => cases h
        | succ n => exact ⟨n, by omega, m, (List.cons.inj h).2⟩
    · by_cases h1 : b = 0x01
      · subst h1
        rw [findPsEnd_one, Option.some.injEq]
        constructor
        · rintro rfl
          exact ⟨0, rfl, bs, rfl⟩
        · rintro ⟨n, rfl, m, h⟩
          cases n with
          | zero => rfl
          | succ n => cases h
      · rw [findPsEnd_other h0 h1]
        constructor
        · intro h
          cases h
        · rintro ⟨n, -, m, h⟩
          cases n with
          | zero => exact absurd (List.cons.inj h).1 h1
          | succ n => exact absurd (List.cons.inj h).1 h0

theorem unpad_iff (formatIsOk : Bool) (db m : List Byte) :
    unpad formatIsOk db = .ok m ↔
      formatIsOk = true ∧ ∃ n, db = replicate n 0x00 ++ 0x01 :: m := by
  cases formatIsOk with
  | false =>
    rw [unpad, findPsEnd_false]
    constructor
    · intro h
      cases h
    · rintro ⟨h, -⟩
      cases h
  | true =>
    rw [unpad]
    cases hfind : findPsEnd true db 0 with
    | none =>
      constructor
      · intro h
        cases h
      · rintro ⟨-, n, h⟩
        have := (findPsEnd_iff db 0 n).mpr ⟨n, (zero_add n).symm, m, h⟩
        rw [hfind] at this
        cases this
    | some j =>
      obtain ⟨n, hj, m', hm'⟩ := (findPsEnd_iff db 0 j).mp hfind
      rw [zero_add] at hj
      subst hj
      have hdrop : db.drop (j + 1) = m' := by
        rw [hm', append_cons, drop_left' (by simp)]
      rw [Except.ok.injEq, hdrop]
      constructor
      · rintro rfl
        exact ⟨rfl, j, hm'⟩
      · rintro ⟨-, n', h⟩
        have hsome := (findPsEnd_iff db 0 n').mpr ⟨n', (zero_add n').symm, m, h⟩
        rw [hfind, Option.some.injEq] at hsome
        subst hsome
        rw [hm', append_cancel_left_eq] at h
        exact (List.cons.inj h).2

theorem unpad_ok_or (formatIsOk : Bool) (db : List Byte) :
    (∃ m, unpad formatIsOk db = .ok m) ∨ unpad formatIsOk db = fail .invalidPadding := by
  rw [unpad]
  cases findPsEnd formatIsOk db 0 with
  | none => exact .inr rfl
  | some psEnd => exact .inl ⟨_, rfl⟩

variable {hashes mgf1 label hashAlg mgf1HashAlg}

variable {em m y x : List Byte}

theorem Encodes.length_le (h : Encodes hashes mgf1 label hashAlg mgf1HashAlg em m) :
    2 * hashAlgDigestLen hashAlg + 2 ≤ em.length := by
  obtain ⟨maskedSeed, maskedDb, n, rfl, hseed, hdb⟩ := h
  have hlen := congrArg List.length hdb
  rw [length_xorBytes (mgf1.length_mask _ _ _)] at hlen
  simp only [length_append, length_cons, hashes.length_digest] at hlen ⊢
  omega

/-- The data block of a recovered block, after removing both masks. -/
def unmaskedDb (mgf1 : MaskGens) (mgf1HashAlg : TpmiAlgHash) (hlen : Nat) (em : List Byte) :
    List Byte :=
  let seed := (em.take (1 + hlen)).drop 1
  let db := em.drop (1 + hlen)
  xorBytes db (mgf1.mask mgf1HashAlg (xorBytes seed (mgf1.mask mgf1HashAlg db seed.length)) db.length)

theorem unmaskedDb_cons (b : Byte) {maskedSeed : List Byte} (maskedDb : List Byte) {hlen : Nat}
    (h : maskedSeed.length = hlen) :
    unmaskedDb mgf1 mgf1HashAlg hlen (b :: (maskedSeed ++ maskedDb)) =
      xorBytes maskedDb (mgf1.mask mgf1HashAlg
        (xorBytes maskedSeed (mgf1.mask mgf1HashAlg maskedDb maskedSeed.length)) maskedDb.length) := by
  subst h
  rw [unmaskedDb, add_comm, take_succ_cons, drop_succ_cons, take_left,
    drop_left, drop_succ_cons, drop_zero]

theorem unpad_iff_encodes (hlen : 1 + hashAlgDigestLen hashAlg ≤ em.length) :
    unpad (em.headD 0 == 0 && hashes.digest hashAlg (label.getD []) ==
        (unmaskedDb mgf1 mgf1HashAlg (hashAlgDigestLen hashAlg) em).take (hashAlgDigestLen hashAlg))
      ((unmaskedDb mgf1 mgf1HashAlg (hashAlgDigestLen hashAlg) em).drop
        (hashAlgDigestLen hashAlg)) = .ok m ↔
      Encodes hashes mgf1 label hashAlg mgf1HashAlg em m := by
  have hlhash := hashes.length_digest hashAlg (label.getD [])
  rw [unpad_iff, Bool.and_eq_true, beq_iff_eq, beq_iff_eq]
  constructor
  · rintro ⟨⟨hfirst, htake⟩, n, hdrop⟩
    cases em with
    | nil =>
      rw [length_nil] at hlen
      omega
    | cons b rest =>
      have hseed : (rest.take (hashAlgDigestLen hashAlg)).length = hashAlgDigestLen hashAlg := by
        rw [length_take]
        rw [length_cons] at hlen
        omega
      have hrest := take_append_drop (hashAlgDigestLen hashAlg) rest
      refine ⟨_, rest.drop (hashAlgDigestLen hashAlg), n, ?_, hseed, ?_⟩
      · rw [hrest]
        exact congrArg (· :: rest) hfirst
      · rw [← unmaskedDb_cons b _ hseed, hrest, append_assoc, ← hdrop, htake,
          take_append_drop]
  · rintro ⟨maskedSeed, maskedDb, n, rfl, hseed, hdb⟩
    rw [unmaskedDb_cons _ _ hseed, hdb, append_assoc, take_left' hlhash, drop_left' hlhash]
    exact ⟨⟨rfl, rfl⟩, n, rfl⟩

theorem decrypt_eq (hlong : 2 * hashAlgDigestLen hashAlg + 2 ≤ key.pubKey.modulusLen)
    (hlen : y.length = key.pubKey.modulusLen) (hem : key.decrypt cmpa y = .ok em) :
    decrypt cmpa hashes mgf1 y label key hashAlg mgf1HashAlg =
      unpad (em.headD 0 == 0 && hashes.digest hashAlg (label.getD []) ==
          (unmaskedDb mgf1 mgf1HashAlg (hashAlgDigestLen hashAlg) em).take
            (hashAlgDigestLen hashAlg))
        ((unmaskedDb mgf1 mgf1HashAlg (hashAlgDigestLen hashAlg) em).drop
          (hashAlgDigestLen hashAlg)) := by
  rw [decrypt]
  rw [bind_ok (failIf_neg (not_lt.mpr hlong) _), bind_ok (failIf_neg (not_not.mpr hlen) _),
    bind_ok hem]
  rfl

/-- Of the blocks recovered from ciphertexts, the decryption accepts the ones that encode a
message. -/
theorem decrypt_iff (hlen : y.length = key.pubKey.modulusLen)
    (hem : key.decrypt cmpa y = .ok em) (hemLen : em.length = key.pubKey.modulusLen) :
    decrypt cmpa hashes mgf1 y label key hashAlg mgf1HashAlg = .ok m ↔
      Encodes hashes mgf1 label hashAlg mgf1HashAlg em m := by
  by_cases hlong : 2 * hashAlgDigestLen hashAlg + 2 ≤ key.pubKey.modulusLen
  · rw [decrypt_eq hlong hlen hem, unpad_iff_encodes (by omega)]
  · rw [decrypt]
    rw [failIf_pos (not_le.mp hlong)]
    constructor
    · intro h
      cases h
    · intro h
      exact absurd (hemLen ▸ h.length_le) hlong

theorem decrypt_rejects (hlen : y.length = key.pubKey.modulusLen)
    (hem : key.decrypt cmpa y = .ok em) (hemLen : em.length = key.pubKey.modulusLen)
    (hlong : 2 * hashAlgDigestLen hashAlg + 2 ≤ key.pubKey.modulusLen)
    (hnot : ∀ m, ¬Encodes hashes mgf1 label hashAlg mgf1HashAlg em m) :
    decrypt cmpa hashes mgf1 y label key hashAlg mgf1HashAlg = fail .invalidPadding := by
  rw [decrypt_eq hlong hlen hem]
  rcases unpad_ok_or (em.headD 0 == 0 && hashes.digest hashAlg (label.getD []) ==
      (unmaskedDb mgf1 mgf1HashAlg (hashAlgDigestLen hashAlg) em).take (hashAlgDigestLen hashAlg))
    ((unmaskedDb mgf1 mgf1HashAlg (hashAlgDigestLen hashAlg) em).drop (hashAlgDigestLen hashAlg))
    with ⟨m, hm⟩ | hfail
  · exact absurd ((unpad_iff_encodes (by omega)).mp hm) (hnot m)
  · exact hfail

theorem decrypt_short (hshort : key.pubKey.modulusLen < 2 * hashAlgDigestLen hashAlg + 2) :
    decrypt cmpa hashes mgf1 y label key hashAlg mgf1HashAlg = fail .invalidParams := by
  rw [decrypt]
  rw [failIf_pos hshort]
  rfl

variable (mgf1) (mgf1HashAlg) in
theorem unmask_mask (seed db : List Byte) :
    let maskedDb := xorBytes db (mgf1.mask mgf1HashAlg seed db.length)
    let maskedSeed := xorBytes seed (mgf1.mask mgf1HashAlg maskedDb seed.length)
    maskedDb.length = db.length ∧ maskedSeed.length = seed.length ∧
      xorBytes maskedDb (mgf1.mask mgf1HashAlg
        (xorBytes maskedSeed (mgf1.mask mgf1HashAlg maskedDb maskedSeed.length)) maskedDb.length) =
          db := by
  intro maskedDb maskedSeed
  have hdb : maskedDb.length = db.length := length_xorBytes (mgf1.length_mask ..)
  have hseed : maskedSeed.length = seed.length := length_xorBytes (mgf1.length_mask ..)
  refine ⟨hdb, hseed, ?_⟩
  rw [hseed, hdb, xorBytes_xorBytes (mgf1.length_mask ..), xorBytes_xorBytes (mgf1.length_mask ..)]

theorem dataBlock_eq (lhash x : List Byte) {dbLen : Nat}
    (h : lhash.length + x.length + 1 ≤ dbLen) : ∃ n, dataBlock lhash x dbLen =
      lhash ++ replicate n 0 ++ 0x01 :: x := by
  obtain ⟨n, rfl⟩ := Nat.exists_eq_add_of_le h
  refine ⟨n, ?_⟩
  have hlhash : patch (replicate (lhash.length + x.length + 1 + n) 0) 0 lhash =
      lhash ++ replicate n 0 ++ 0x00 :: replicate x.length 0 := by
    have hzeros : replicate (lhash.length + x.length + 1 + n) (0 : Byte) =
        [] ++ replicate lhash.length 0 ++ replicate (n + (x.length + 1)) 0 := by
      rw [List.nil_append, replicate_append_replicate]
      congr 1
      omega
    rw [hzeros, patch_append length_nil (length_replicate ..), List.nil_append, append_assoc,
      ← replicate_append_replicate, replicate_succ]
  have hset : (lhash ++ replicate n (0 : Byte) ++ 0x00 :: replicate x.length 0).set
      (lhash.length + n) 0x01 = lhash ++ replicate n 0 ++ [0x01] ++ replicate x.length 0 ++
        [] := by
    rw [set_append_right _ _ (by simp)]
    simp
  have hpos : lhash.length + x.length + 1 + n - x.length - 1 = lhash.length + n := by omega
  have hbegin : (lhash ++ replicate n (0 : Byte) ++ [0x01]).length =
      lhash.length + x.length + 1 + n - x.length := by
    simp only [length_append, length_replicate, length_singleton]
    omega
  rw [dataBlock, hlhash, hpos, hset, patch_append hbegin (length_replicate ..)]
  simp

theorem length_dataBlock {lhash : List Byte} {dbLen : Nat}
    (h : lhash.length + x.length + 1 ≤ dbLen) : (dataBlock lhash x dbLen).length = dbLen := by
  have hlhash : (patch (replicate dbLen (0 : Byte)) 0 lhash).length = dbLen := by
    rw [length_patch (by rw [length_replicate]; omega), length_replicate]
  rw [dataBlock, length_patch] <;> rw [length_set, hlhash]
  omega

theorem encrypt_encodes
    (h : encrypt cmpa hashes mgf1 x label pubKey hashAlg mgf1HashAlg rng s = .ok (y, s')) :
    ∃ em, em.length = pubKey.modulusLen ∧ pubKey.encrypt cmpa em = .ok y ∧
      Encodes hashes mgf1 label hashAlg mgf1HashAlg em x := by
  have hlhash := hashes.length_digest hashAlg (label.getD [])
  obtain ⟨_, hlong, h⟩ := ok_of_bind h
  obtain ⟨_, hx, h⟩ := ok_of_bind h
  obtain ⟨⟨seed, s₁⟩, hseed, h⟩ := ok_of_bind h
  obtain ⟨y', hy, h⟩ := ok_of_bind h
  cases h
  have hlong := not_of_failIf hlong
  have hx := not_of_failIf hx
  have hseed := rng.length_generate _ _ _ _ hseed
  have hdbLen : (hashes.digest hashAlg (label.getD [])).length + x.length + 1 ≤
      pubKey.modulusLen - (1 + hashAlgDigestLen hashAlg) := by omega
  obtain ⟨n, hdb⟩ := dataBlock_eq _ _ hdbLen
  obtain ⟨hmaskedDb, hmaskedSeed, hunmask⟩ := unmask_mask mgf1 mgf1HashAlg seed
    (dataBlock (hashes.digest hashAlg (label.getD [])) x
      (pubKey.modulusLen - (1 + hashAlgDigestLen hashAlg)))
  refine ⟨_, ?_, hy, _, _, n, rfl, hmaskedSeed.trans hseed, hunmask.trans hdb⟩
  simp only [length_append, length_cons]
  rw [hmaskedSeed, hmaskedDb, hseed, length_dataBlock hdbLen]
  omega

theorem decrypt_encrypt (hkey : key.Permutes cmpa)
    (h : encrypt cmpa hashes mgf1 x label key.pubKey hashAlg mgf1HashAlg rng s = .ok (y, s')) :
    decrypt cmpa hashes mgf1 y label key hashAlg mgf1HashAlg = .ok x := by
  obtain ⟨em, hemLen, hy, hencodes⟩ := encrypt_encodes h
  obtain ⟨hyLen, hem⟩ := hkey.decrypt_of_encrypt hemLen hy
  exact (decrypt_iff hyLen hem hemLen).mpr hencodes

end Oaep

namespace EsPkcs1

def maxRetries : Nat := 16

variable {bs em m y : List Byte} {i : Nat}

theorem findIdx_zero (h : bs.findIdx? (· == 0) = some i) :
    i < bs.length ∧ bs[i]? = some 0 ∧ ∀ b ∈ bs.take i, b ≠ 0 := by
  obtain ⟨hi, hzero, hbefore⟩ := findIdx?_eq_some_iff_getElem.mp h
  refine ⟨hi, ?_, ?_⟩
  · rw [getElem?_eq_getElem hi, Option.some.injEq]
    exact beq_iff_eq.mp hzero
  · intro b hb
    obtain ⟨j, hj, rfl⟩ := mem_iff_getElem.mp hb
    rw [length_take] at hj
    rw [getElem_take]
    exact fun hb => hbefore j (by omega) (beq_iff_eq.mpr hb)

theorem findIdx_nonZero (h : bs.findIdx? (· != 0) = some i) :
    ∃ b bs', bs.drop i = b :: bs' ∧ b ≠ 0 := by
  obtain ⟨hi, hne, -⟩ := findIdx?_eq_some_iff_getElem.mp h
  exact ⟨_, _, drop_eq_getElem_cons hi, bne_iff_ne.mp hne⟩

theorem findIdx_nonZero_lt (h : bs.tail.findIdx? (· != 0) = some i) :
    i + 1 < bs.length := by
  have hlt := (findIdx?_eq_some_iff_getElem.mp h).1
  rw [length_tail] at hlt
  omega

/-- One pass over freshly generated bytes: each zero byte is replaced by the non-zero one that
follows, with what comes in between consumed. Returned are the bytes that are done, the ones
that are not, and whether any byte has been replaced. -/
def replaceZeros (padding : List Byte) : List Byte × List Byte × Bool :=
  match _h : padding.findIdx? (· == 0) with
  | none => ([], padding, false)
  | some zeroIndex =>
    match _h' : (padding.drop zeroIndex).tail.findIdx? (· != 0) with
    | none => (padding.take zeroIndex, padding.drop zeroIndex, false)
    | some i =>
      -- The index is the one after the zero byte.
      let rest := (padding.drop zeroIndex).drop (i + 1) ++ replicate (i + 1) 0
      let (done, rest', _) := replaceZeros rest.tail
      (padding.take zeroIndex ++ rest.take 1 ++ done, rest', true)
termination_by padding.length
decreasing_by
  have hlt := (findIdx_zero _h).1
  have hlt' := findIdx_nonZero_lt _h'
  simp only [List.length_tail, List.length_append, List.length_drop, List.length_replicate] at hlt' ⊢
  omega

/-- The bytes that are done are fine, and so are the others unless there is a zero in front. -/
structure Replaced (padding done rest : List Byte) (progress : Bool) : Prop where
  length : done.length + rest.length = padding.length
  done_ne : ∀ b ∈ done, b ≠ 0
  rest_ne : (∀ b ∈ rest, b ≠ 0) ∨ rest.head? = some 0
  progress_lt : progress = true → rest.length < padding.length

theorem replaceZeros_replaced (padding : List Byte) :
    Replaced padding (replaceZeros padding).1 (replaceZeros padding).2.1
      (replaceZeros padding).2.2 := by
  fun_induction replaceZeros padding with
  | case1 padding h =>
    have hne := findIdx?_eq_none_iff.mp h
    refine ⟨zero_add _, by simp, .inl ?_, by simp⟩
    intro b hb heq
    have := hne b hb
    rw [heq] at this
    exact absurd this (by decide)
  | case2 padding zeroIndex h h' =>
    obtain ⟨hlt, hzero, hbefore⟩ := findIdx_zero h
    refine ⟨?_, hbefore, .inr ?_, by simp⟩
    · rw [← length_append, take_append_drop]
    · rw [head?_drop, hzero]
  | case3 padding zeroIndex h i h' rest done rest' progress heq ih =>
    obtain ⟨hlt, hzero, hbefore⟩ := findIdx_zero h
    have hlt' := findIdx_nonZero_lt h'
    obtain ⟨b, bs, hb, hne⟩ := findIdx_nonZero h'
    rw [heq] at ih
    have hrest : rest = b :: (bs ++ replicate (i + 1) 0) := by
      have hdrop : (padding.drop zeroIndex).drop (i + 1) = b :: bs := by
        rw [← hb, drop_tail]
      rw [← cons_append, ← hdrop]
    have hlen : rest.length = padding.length - zeroIndex := by
      rw [length_append, length_drop, length_replicate, length_drop]
      rw [length_drop] at hlt'
      omega
    have htail : rest.tail.length = padding.length - zeroIndex - 1 := by
      rw [length_tail, hlen]
    have hsum := ih.length
    dsimp only at hsum
    refine ⟨?_, ?_, ih.rest_ne, fun _ => ?_⟩
    · rw [hrest]
      simp only [length_append, length_take, take_succ_cons, take_zero, length_singleton]
      omega
    · intro c hc
      rw [hrest] at hc
      simp only [mem_append, take_succ_cons, take_zero, mem_singleton] at hc
      rcases hc with (hc | rfl) | hc
      · exact hbefore c hc
      · exact hne
      · exact ih.done_ne c hc
    · dsimp only
      omega

def fillLoop (rng : Rng σ) (s : σ) (done padding : List Byte) (retries : Nat) :
    Crypto (List Byte × List Byte × σ) :=
  if padding = [] ∨ maxRetries ≤ retries then .ok (done, padding, s)
  else match _h : rng.generate s padding.length with
    | .error e => .error e
    | .ok (generated, s) =>
      let replaced := replaceZeros generated
      fillLoop rng s (done ++ replaced.1) replaced.2.1 (if replaced.2.2 then 0 else retries + 1)
termination_by (padding.length, maxRetries - retries)
decreasing_by
  have hlen := rng.length_generate _ _ _ _ _h
  have hreplaced := replaceZeros_replaced generated
  have hsum := hreplaced.length
  cases hprogress : (replaceZeros generated).2.2 with
  | true =>
    have hlt := hreplaced.progress_lt hprogress
    exact Prod.Lex.left _ _ (hlen ▸ hlt)
  | false =>
    exact Prod.Lex.right' _ (by omega) (by rw [dif_neg (by decide)]; omega)

def fillPaddingWithNonzeroRandomBytes (rng : Rng σ) (s : σ) (len : Nat) :
    Crypto (List Byte × σ) := do
  let (done, padding, s) ← fillLoop rng s [] (replicate len 0) 0
  failIf (padding.head? = some 0) .randomSamplingRetriesExceeded
  .ok (done ++ padding, s)

def encrypt (cmpa : Cmpa) (x : List Byte) (pubKey : RsaPublicKey) (rng : Rng σ) (s : σ) :
    Crypto (List Byte × σ) := do
  let modulusLen := pubKey.modulusLen
  failIf (modulusLen < x.length + 11) .invalidMessageLength
  let (ps, s) ← fillPaddingWithNonzeroRandomBytes rng s (modulusLen - x.length - 3)
  let y ← pubKey.encrypt cmpa (0x00 :: 0x02 :: (ps ++ 0x00 :: x))
  .ok (y, s)

/-- The search for the zero byte at the end of the padding, with all ones in place of the
bytes if something has been wrong before. -/
def findPaddingEnd (formatIsOk : Bool) : List Byte → Nat → Option Nat
  | [], _ => none
  | b :: bs, i =>
    if select formatIsOk (2 ^ 64 - 1) b.toNat = 0 then some i
    else findPaddingEnd formatIsOk bs (i + 1)

def unpad (em : List Byte) : Crypto (List Byte) :=
  let formatIsOk := em[0]? == some 0x00 && em[1]? == some 0x02 &&
    ((em.drop 2).take 8).all (· != 0x00)
  match findPaddingEnd formatIsOk (em.drop 10) 0 with
  | none => fail .invalidPadding
  | some paddingEnd => .ok (em.drop (paddingEnd + 10 + 1))

def decrypt (cmpa : Cmpa) (y : List Byte) (key : RsaKey) : Crypto (List Byte) := do
  let modulusLen := key.pubKey.modulusLen
  failIf (y.length ≠ modulusLen ∨ modulusLen < 11) .invalidMessageLength
  let em ← key.decrypt cmpa y
  unpad em

/-- The block for the message, with a padding string of at least eight bytes. -/
def Encodes (em m : List Byte) : Prop :=
  ∃ ps : List Byte, em = 0x00 :: 0x02 :: (ps ++ 0x00 :: m) ∧ 8 ≤ ps.length ∧ ∀ b ∈ ps, b ≠ 0x00

theorem fillLoop_spec {done padding done' padding' : List Byte}
    {retries : Nat} (h : fillLoop rng s done padding retries = .ok (done', padding', s'))
    (hdone : ∀ b ∈ done, b ≠ 0x00)
    (hpadding : retries = 0 ∨ (∀ b ∈ padding, b ≠ 0x00) ∨ padding.head? = some 0x00) :
    done'.length + padding'.length = done.length + padding.length ∧ (∀ b ∈ done', b ≠ 0x00) ∧
      ((∀ b ∈ padding', b ≠ 0x00) ∨ padding'.head? = some 0x00) := by
  fun_induction fillLoop rng s done padding retries with
  | case1 s done padding retries hstop =>
    cases h
    refine ⟨rfl, hdone, ?_⟩
    rcases hstop with rfl | hretries
    · exact .inl (by simp)
    · exact hpadding.resolve_left (by rw [maxRetries] at hretries; omega)
  | case2 s done padding retries hgo e he =>
    cases h
  | case3 s done padding retries hgo generated s₁ hgen replaced ih =>
    have hlen := rng.length_generate _ _ _ _ hgen
    have hreplaced := replaceZeros_replaced generated
    have hsum := hreplaced.length
    obtain ⟨hlength, hne⟩ := ih h (by
      intro b hb
      rcases mem_append.mp hb with hb | hb
      · exact hdone b hb
      · exact hreplaced.done_ne b hb) (.inr hreplaced.rest_ne)
    refine ⟨?_, hne⟩
    rw [hlength, length_append]
    dsimp only [replaced]
    omega

theorem fillPadding_spec {len : Nat} {ps : List Byte}
    (h : fillPaddingWithNonzeroRandomBytes rng s len = .ok (ps, s')) :
    ps.length = len ∧ ∀ b ∈ ps, b ≠ 0x00 := by
  obtain ⟨⟨done, padding, s₁⟩, hloop, h⟩ := ok_of_bind h
  obtain ⟨_, hhead, h⟩ := ok_of_bind h
  cases h
  obtain ⟨hlen, hdone, hpadding⟩ := fillLoop_spec hloop (by simp) (.inl rfl)
  have hpadding := hpadding.resolve_right (not_of_failIf hhead)
  rw [length_append, hlen, length_nil, length_replicate, zero_add]
  refine ⟨rfl, fun b hb => ?_⟩
  rcases mem_append.mp hb with hb | hb
  · exact hdone b hb
  · exact hpadding b hb

theorem findPaddingEnd_false (bs : List Byte) (i : Nat) : findPaddingEnd false bs i = none := by
  induction bs generalizing i with
  | nil => rfl
  | cons b bs ih => exact ih (i + 1)

theorem findPaddingEnd_iff (bs : List Byte) (i j : Nat) :
    findPaddingEnd true bs i = some j ↔
      ∃ ps : List Byte, j = i + ps.length ∧ (∀ b ∈ ps, b ≠ 0x00) ∧ ∃ m, bs = ps ++ 0x00 :: m := by
  induction bs generalizing i with
  | nil => simp [findPaddingEnd]
  | cons b bs ih =>
    have hselect : select true (2 ^ 64 - 1) b.toNat = b.toNat := rfl
    rw [findPaddingEnd, hselect]
    by_cases hb : b = 0x00
    · subst hb
      rw [if_pos (by rfl), Option.some.injEq]
      constructor
      · rintro rfl
        exact ⟨[], rfl, by simp, bs, rfl⟩
      · rintro ⟨ps, rfl, hps, m, h⟩
        cases ps with
        | nil => rfl
        | cons c ps => exact absurd (List.cons.inj h).1.symm (hps c (mem_cons_self ..))
    · have hne : ¬b.toNat = 0 := fun h => hb (BitVec.eq_of_toNat_eq h)
      rw [if_neg hne, ih]
      constructor
      · rintro ⟨ps, rfl, hps, m, rfl⟩
        refine ⟨b :: ps, ?_, ?_, m, rfl⟩
        · rw [length_cons]
          omega
        · intro c hc
          rcases mem_cons.mp hc with rfl | hc
          · exact hb
          · exact hps c hc
      · rintro ⟨ps, rfl, hps, m, h⟩
        cases ps with
        | nil => exact absurd (List.cons.inj h).1 hb
        | cons c ps =>
          refine ⟨ps, ?_, fun d hd => hps d (mem_cons_of_mem _ hd), m, (List.cons.inj h).2⟩
          rw [length_cons]
          omega

theorem format_iff (em : List Byte) (h : 11 ≤ em.length) :
    (em[0]? == some 0x00 && em[1]? == some 0x02 && ((em.drop 2).take 8).all (· != 0x00)) = true ↔
      ∃ ps : List Byte, ps.length = 8 ∧ (∀ b ∈ ps, b ≠ 0x00) ∧
        em = 0x00 :: 0x02 :: (ps ++ em.drop 10) := by
  obtain ⟨a, b, rest, rfl⟩ : ∃ a b rest, em = a :: b :: rest := by
    match em, h with
    | a :: b :: rest, _ => exact ⟨a, b, rest, rfl⟩
  simp only [length_cons] at h
  have hdrop : (a :: b :: rest).drop 10 = rest.drop 8 := rfl
  have htake : ((a :: b :: rest).drop 2).take 8 = rest.take 8 := rfl
  have hall : (rest.take 8).all (· != 0x00) = true ↔ ∀ c ∈ rest.take 8, c ≠ 0x00 := by simp
  rw [hdrop, htake, Bool.and_eq_true, Bool.and_eq_true, hall]
  simp only [getElem?_cons_zero, getElem?_cons_succ, beq_iff_eq, Option.some.injEq]
  constructor
  · rintro ⟨⟨rfl, rfl⟩, hne⟩
    refine ⟨rest.take 8, ?_, hne, ?_⟩
    · rw [length_take]
      omega
    · rw [take_append_drop]
  · rintro ⟨ps, hlen, hps, heq⟩
    simp only [List.cons.injEq] at heq
    obtain ⟨ha, hb, hrest⟩ := heq
    refine ⟨⟨ha, hb⟩, ?_⟩
    rw [hrest, take_left' hlen]
    exact hps

theorem unpad_of_encodes (h : Encodes em m) : unpad em = .ok m := by
  obtain ⟨ps, rfl, hlen, hps⟩ := h
  have hdrop : (0x00 :: 0x02 :: (ps ++ 0x00 :: m)).drop 10 = ps.drop 8 ++ 0x00 :: m := by
    change (ps ++ 0x00 :: m).drop 8 = _
    rw [drop_append_of_le_length hlen]
  have hformat := (format_iff (0x00 :: 0x02 :: (ps ++ 0x00 :: m)) (by
    simp only [length_cons, length_append]
    omega)).mpr ⟨ps.take 8, by rw [length_take]; omega,
      fun b hb => hps b (mem_of_mem_take hb), by
        rw [hdrop, ← append_assoc, take_append_drop]⟩
  have hfind := (findPaddingEnd_iff (ps.drop 8 ++ 0x00 :: m) 0 (ps.drop 8).length).mpr
    ⟨ps.drop 8, (zero_add _).symm, fun b hb => hps b (mem_of_mem_drop hb), m, rfl⟩
  have hm : (0x00 :: 0x02 :: (ps ++ 0x00 :: m)).drop ((ps.drop 8).length + 10 + 1) = m := by
    have hlen' : (0x00 :: 0x02 :: (ps ++ [0x00])).length = (ps.drop 8).length + 10 + 1 := by
      simp only [length_cons, length_append, length_nil, length_drop]
      omega
    rw [append_cons, ← cons_append, ← cons_append, drop_left' hlen']
  rw [unpad, hformat, hdrop, hfind]
  dsimp only
  rw [hm]

theorem encodes_of_unpad (hlen : 11 ≤ em.length) (h : unpad em = .ok m) :
    Encodes em m := by
  rw [unpad] at h
  split at h
  · cases h
  · rename_i j hj
    cases h
    cases hformat : (em[0]? == some 0x00 && em[1]? == some 0x02 &&
        ((em.drop 2).take 8).all (· != 0x00)) with
    | false =>
      rw [hformat, findPaddingEnd_false] at hj
      cases hj
    | true =>
      rw [hformat] at hj
      obtain ⟨ps, hpsLen, hps, hem⟩ := (format_iff em hlen).mp hformat
      obtain ⟨ps', rfl, hps', m, hm⟩ := (findPaddingEnd_iff _ _ _).mp hj
      have hdrop : em.drop (0 + ps'.length + 10 + 1) = m := by
        rw [zero_add, add_right_comm, add_comm, ← drop_drop, hm, append_cons,
          drop_left' (by simp)]
      refine ⟨ps ++ ps', ?_, by rw [length_append]; omega, fun b hb => ?_⟩
      · rw [hdrop, append_assoc, ← hm]
        exact hem
      · rcases mem_append.mp hb with hb | hb
        · exact hps b hb
        · exact hps' b hb

theorem unpad_ok_or (em : List Byte) :
    (∃ m, unpad em = .ok m) ∨ unpad em = fail .invalidPadding := by
  rw [unpad]
  split
  · exact .inr rfl
  · exact .inl ⟨_, rfl⟩

theorem Encodes.length_le (h : Encodes em m) : 11 ≤ em.length := by
  obtain ⟨ps, rfl, hlen, -⟩ := h
  simp only [length_cons, length_append]
  omega

theorem decrypt_eq (hlong : 11 ≤ key.pubKey.modulusLen)
    (hlen : y.length = key.pubKey.modulusLen) (hem : key.decrypt cmpa y = .ok em) :
    decrypt cmpa y key = unpad em := by
  rw [decrypt]
  rw [bind_ok (failIf_neg (by omega) _), bind_ok hem]

theorem decrypt_short (hshort : key.pubKey.modulusLen < 11) :
    decrypt cmpa y key = fail .invalidMessageLength := by
  rw [decrypt]
  rw [failIf_pos (.inr hshort)]
  rfl

theorem decrypt_iff (hlen : y.length = key.pubKey.modulusLen)
    (hem : key.decrypt cmpa y = .ok em) (hemLen : em.length = key.pubKey.modulusLen) :
    decrypt cmpa y key = .ok m ↔ Encodes em m := by
  by_cases hlong : 11 ≤ key.pubKey.modulusLen
  · rw [decrypt_eq hlong hlen hem]
    exact ⟨encodes_of_unpad (hemLen ▸ hlong), unpad_of_encodes⟩
  · rw [decrypt_short (not_le.mp hlong)]
    constructor
    · intro h
      cases h
    · intro h
      exact absurd (hemLen ▸ h.length_le) hlong

theorem decrypt_rejects (hlen : y.length = key.pubKey.modulusLen)
    (hem : key.decrypt cmpa y = .ok em) (hemLen : em.length = key.pubKey.modulusLen)
    (hlong : 11 ≤ key.pubKey.modulusLen) (hnot : ∀ m, ¬Encodes em m) :
    decrypt cmpa y key = fail .invalidPadding := by
  rw [decrypt_eq hlong hlen hem]
  rcases unpad_ok_or em with ⟨m, hm⟩ | hfail
  · exact absurd (encodes_of_unpad (hemLen ▸ hlong) hm) (hnot m)
  · exact hfail

theorem encrypt_encodes {x : List Byte} (h : encrypt cmpa x pubKey rng s = .ok (y, s')) :
    ∃ em, em.length = pubKey.modulusLen ∧ pubKey.encrypt cmpa em = .ok y ∧ Encodes em x := by
  obtain ⟨_, hlong, h⟩ := ok_of_bind h
  obtain ⟨⟨ps, s₁⟩, hps, h⟩ := ok_of_bind h
  obtain ⟨y', hy, h⟩ := ok_of_bind h
  cases h
  have hlong := not_of_failIf hlong
  obtain ⟨hlen, hne⟩ := fillPadding_spec hps
  refine ⟨_, ?_, hy, ps, rfl, by omega, hne⟩
  simp only [length_cons, length_append]
  omega

theorem decrypt_encrypt (hkey : key.Permutes cmpa)
    {x : List Byte} (h : encrypt cmpa x key.pubKey rng s = .ok (y, s')) :
    decrypt cmpa y key = .ok x := by
  obtain ⟨em, hemLen, hy, hencodes⟩ := encrypt_encodes h
  obtain ⟨hyLen, hem⟩ := hkey.decrypt_of_encrypt hemLen hy
  exact (decrypt_iff hyLen hem hemLen).mpr hencodes

end EsPkcs1

variable (cmpa) in
/-- The ciphertexts that the decryption accepts are the ones whose recovered block encodes a
message, all of the others being rejected for one and the same reason. -/
def Decides (key : RsaKey) (decrypt : List Byte → Crypto (List Byte))
    (Encodes : List Byte → List Byte → Prop) (rejection : CryptoError) : Prop :=
  ∀ y, y.length = key.pubKey.modulusLen → value y < value key.pubKey.modulus →
    ∃ em, key.decrypt cmpa y = .ok em ∧ (∀ m, decrypt y = .ok m ↔ Encodes em m) ∧
      ((∀ m, ¬Encodes em m) → decrypt y = fail rejection)

theorem Oaep.decides (hkey : key.Permutes cmpa) (hashes : Hashes) (mgf1 : MaskGens)
    (label : Option (List Byte)) (hashAlg mgf1HashAlg : TpmiAlgHash) :
    Decides cmpa key (fun y => Oaep.decrypt cmpa hashes mgf1 y label key hashAlg mgf1HashAlg)
      (Oaep.Encodes hashes mgf1 label hashAlg mgf1HashAlg)
      (if key.pubKey.modulusLen < 2 * hashAlgDigestLen hashAlg + 2 then .invalidParams
        else .invalidPadding) := by
  intro y hlen hy
  obtain ⟨em, hem, hemLen, -⟩ := hkey.decrypt y hlen hy
  refine ⟨em, hem, fun m => Oaep.decrypt_iff hlen hem hemLen, fun hnot => ?_⟩
  split
  · rename_i hshort
    exact Oaep.decrypt_short hshort
  · rename_i hlong
    exact Oaep.decrypt_rejects hlen hem hemLen (not_lt.mp hlong) hnot

theorem EsPkcs1.decides (hkey : key.Permutes cmpa) :
    Decides cmpa key (fun y => EsPkcs1.decrypt cmpa y key) EsPkcs1.Encodes
      (if key.pubKey.modulusLen < 11 then .invalidMessageLength else .invalidPadding) := by
  intro y hlen hy
  obtain ⟨em, hem, hemLen, -⟩ := hkey.decrypt y hlen hy
  refine ⟨em, hem, fun m => EsPkcs1.decrypt_iff hlen hem hemLen, fun hnot => ?_⟩
  split
  · rename_i hshort
    exact EsPkcs1.decrypt_short hshort
  · rename_i hlong
    exact EsPkcs1.decrypt_rejects hlen hem hemLen (not_lt.mp hlong) hnot

end CocoonFs.RsaEs
