import CocoonFs.Drbg

namespace CocoonFs.DrbgReference

open Codes BigEndian Multiprecision SliceCursors Drbg List Nat
open Mp (trunc)

variable (H : HashAlg)

/-! The Hash_DRBG construction of NIST SP 800-90A Rev. 1, with V and C as numbers. -/

def seedlen : Nat := if H.digestLen ≤ 32 then 55 else 110

@[ext] structure State where
  v : Nat
  c : Nat
  reseedCounter : Nat

/-- The state of the reference for the one with V and C as byte strings of the seed's length. -/
def State.toDrbg (s : State) : HashDrbg :=
  ⟨s.reseedCounter, bytes (seedlen H) s.v, bytes (seedlen H) s.c⟩

/-- The digests for so many counter values, from the one given on. -/
def dfDigests (nOutputBits : Nat) (input : List Byte) : Nat → Nat → List Byte
  | 0, _ => []
  | len + 1, counter =>
    H.digest (bytes 1 counter ++ bytes 4 nOutputBits ++ input) ++
      dfDigests nOutputBits input len (counter + 1)

def digestsFor (len : Nat) : Nat := (len + H.digestLen - 1) / H.digestLen

def hashDf (input : List Byte) (outputLen : Nat) : List Byte :=
  (dfDigests H (8 * outputLen) input (digestsFor H outputLen) 1).take outputLen

def instantiate (entropy nonce personalization : List Byte) : State :=
  let seed := hashDf H (entropy ++ nonce ++ personalization) (seedlen H)
  let c := hashDf H (0x00 :: seed) (seedlen H)
  ⟨value seed, value c, 1⟩

def reseed (s : State) (entropy additionalInput : List Byte) : State :=
  let seed := hashDf H (0x01 :: bytes (seedlen H) s.v ++ entropy ++ additionalInput) (seedlen H)
  let c := hashDf H (0x00 :: seed) (seedlen H)
  ⟨value seed, value c, 1⟩

/-- The digests of so many consecutive values of `data`. -/
def genDigests : Nat → Nat → List Byte
  | 0, _ => []
  | m + 1, data =>
    H.digest (bytes (seedlen H) data) ++ genDigests m ((data + 1) % 256 ^ seedlen H)

def hashgen (v requested : Nat) : List Byte :=
  (genDigests H (digestsFor H requested) v).take requested

/-- Hash_DRBG_Generate_algorithm, 10.1.1.4, or the indication that a reseed is required. -/
def generate (s : State) (requested : Nat) (additionalInput : List Byte) :
    Option (List Byte × State) :=
  if maxRequests < s.reseedCounter then none
  else
    let v := if additionalInput = [] then s.v
      else (s.v + value (H.digest (0x02 :: bytes (seedlen H) s.v ++ additionalInput))) %
        256 ^ seedlen H
    let returned := hashgen H v requested
    let h := value (H.digest (0x03 :: bytes (seedlen H) v))
    some (returned, ⟨(v + h + s.c + s.reseedCounter) % 256 ^ seedlen H, s.c, s.reseedCounter + 1⟩)

/-- The limit on a request, rounded down to a multiple of the digest length. -/
def requestLimit : Nat := maxRequestLen - maxRequestLen % H.digestLen

/-- Consecutive requests for so many bytes altogether, up to the first one that fails. -/
def generateCut (s : State) (len : Nat) (additionalInput : List Byte) :
    List Byte × State × Option RngGenerateError :=
  if _h : len = 0 then ([], s, none)
  else
    match generate H s (min (requestLimit H) len) additionalInput with
    | none => ([], s, some .reseedRequired)
    | some (returned, s) =>
      let cut := generateCut s (len - min (requestLimit H) len) additionalInput
      (returned ++ cut.1, cut.2)
termination_by len
decreasing_by
  have hpos : 0 < requestLimit H := maxRequestLen_pos
  omega

/-- The reference's version of a call, of which only the total length of the output and the
additional input as a whole matter. -/
def exec (s : State) : Call → List Byte × State × Bool
  | .generate output additionalInput =>
    let cut := generateCut H s output.flatten.length (additionalInput.getD []).flatten
    (cut.1, cut.2.1, cut.2.2.isNone)
  | .reseed entropy additionalInput =>
    if entropy.length < minSeedEntropyLen H then ([], s, false)
    else ([], reseed H s entropy (additionalInput.getD []).flatten, true)

def run (s : State) : List Call → List (List Byte × Bool) × State
  | [] => ([], s)
  | call :: calls =>
    let done := exec H s call
    let rest := run done.2.1 calls
    ((done.1, done.2.2) :: rest.1, rest.2)

variable {H} {cmpa : Cmpa}

theorem seedlenForHashAlg_eq : seedlenForHashAlg H = .ok (seedlen H) := by
  rw [seedlenForHashAlg, seedlen]
  split
  · rfl
  · rw [if_pos H.digestLen_le]

theorem seedlen_cases : seedlen H = 55 ∨ seedlen H = 110 := by
  rw [seedlen]
  split
  · exact .inl rfl
  · exact .inr rfl

theorem digestLen_le_seedlen : H.digestLen ≤ seedlen H := by
  have := H.digestLen_le
  rw [seedlen]
  split <;> omega

theorem digestsFor_zero : digestsFor H 0 = 0 :=
  div_eq_of_lt (by have := H.digestLen_pos; omega)

theorem digestsFor_short {len : Nat} (hpos : 0 < len) (hle : len ≤ H.digestLen) :
    digestsFor H len = 1 := by
  refine Nat.div_eq_of_lt_le ?_ ?_ <;> omega

theorem digestsFor_long {len : Nat} (h : H.digestLen ≤ len) :
    digestsFor H len = digestsFor H (len - H.digestLen) + 1 := by
  have hsum : len + H.digestLen - 1 = len - H.digestLen + H.digestLen - 1 + H.digestLen := by
    omega
  rw [digestsFor, hsum, add_div_right _ H.digestLen_pos, digestsFor]

theorem digestsFor_le (len : Nat) : digestsFor H len ≤ len := by
  cases len with
  | zero => exact digestsFor_zero.le
  | succ n =>
    refine Nat.div_le_of_le_mul ?_
    have := Nat.le_mul_of_pos_left n H.digestLen_pos
    rw [mul_succ]
    omega

theorem hashDfLoop_eq {nOutputBits counter remaining : Nat} {input additionalInput : List Byte}
    (h : counter + digestsFor H remaining ≤ 255) :
    hashDfLoop H nOutputBits input additionalInput counter remaining =
      .ok ((dfDigests H nOutputBits (input ++ additionalInput) (digestsFor H remaining)
        (counter + 1)).take remaining) := by
  fun_induction hashDfLoop H nOutputBits input additionalInput counter remaining with
  | case1 counter => rfl
  | case2 counter remaining hne ih =>
    have hdigest : H.digest (bytes 1 (counter + 1) ++ bytes 4 nOutputBits ++ input ++
        additionalInput) = H.digest (bytes 1 (counter + 1) ++ bytes 4 nOutputBits ++
          (input ++ additionalInput)) := by
      rw [append_assoc _ input]
    by_cases hle : H.digestLen ≤ remaining
    · rw [digestsFor_long hle] at h
      have hrest := ih hle (by omega)
      rw [bind_ok (failIf_neg (by omega) _), if_pos hle, bind_ok hrest, digestsFor_long hle, dfDigests,
        hdigest, List.take_append, H.length_digest,
        take_of_length_le (le_trans (H.length_digest _).le hle)]
    · have hone := digestsFor_short (pos_of_ne_zero hne) (Nat.le_of_not_le hle)
      rw [bind_ok (failIf_neg (by omega) _), if_neg hle, hone, dfDigests, hdigest, dfDigests,
        List.append_nil]

theorem hashDf_eq (input additionalInput : List Byte) :
    Drbg.hashDf H input additionalInput (seedlen H) =
      .ok (hashDf H (input ++ additionalInput) (seedlen H)) := by
  have hlen := seedlen_cases (H := H)
  have hdigests := digestsFor_le (H := H) (seedlen H)
  rw [Drbg.hashDf, bind_ok (debugAssert_pos (by omega)), bind_ok (failIf_neg (by omega) _),
    bind_ok (failIf_neg (by omega) _), hashDfLoop_eq (by omega), hashDf, mul_comm]

theorem length_dfDigests (nOutputBits : Nat) (input : List Byte) (len counter : Nat) :
    (dfDigests H nOutputBits input len counter).length = len * H.digestLen := by
  induction len generalizing counter with
  | zero => rw [zero_mul]; rfl
  | succ len ih => rw [dfDigests, length_append, H.length_digest, ih, succ_mul, add_comm]

theorem le_digestsFor_mul (len : Nat) : len ≤ digestsFor H len * H.digestLen := by
  have hlt := lt_mul_div_succ (len + H.digestLen - 1) H.digestLen_pos
  rw [mul_succ] at hlt
  rw [digestsFor, mul_comm]
  omega

theorem length_hashDf (input : List Byte) (outputLen : Nat) :
    (hashDf H input outputLen).length = outputLen := by
  rw [hashDf, length_take, length_dfDigests, min_eq_left (le_digestsFor_mul _)]

/-- As the hash derivation function returns it, the seed is as long as V and C are. -/
theorem bytes_value_hashDf (input : List Byte) :
    bytes (seedlen H) (value (hashDf H input (seedlen H))) = hashDf H input (seedlen H) := by
  have := bytes_value (hashDf H input (seedlen H))
  rwa [length_hashDf] at this

theorem instantiate_eq {entropy : List Byte} {nonce personalization : Option (List Byte)}
    (h : minSeedEntropyLen H ≤ entropy.length) :
    Drbg.instantiate H entropy nonce personalization =
      .ok ((instantiate H entropy (nonce.getD []) (personalization.getD [])).toDrbg H) := by
  rw [Drbg.instantiate, bind_ok (failIf_neg (not_lt.mpr h) _), bind_ok seedlenForHashAlg_eq]
  rw [bind_ok (hashDf_eq _ _), List.append_nil, bind_ok (hashDf_eq _ _), List.append_nil,
    instantiate, State.toDrbg, bytes_value_hashDf, bytes_value_hashDf]

theorem reseed_eq (s : State) {entropy : List Byte} {additionalInput : Option (List (List Byte))}
    (h : minSeedEntropyLen H ≤ entropy.length) :
    Drbg.reseed H (s.toDrbg H) entropy additionalInput =
      .ok ((reseed H s entropy (additionalInput.getD []).flatten).toDrbg H) := by
  have hv : (s.toDrbg H).v.length = seedlen H := length_bytes _ _
  have hc : (s.toDrbg H).c.length = seedlen H := length_bytes _ _
  rw [Drbg.reseed, bind_ok (failIf_neg (not_lt.mpr h) _)]
  rw [hv, hc, bind_ok (hashDf_eq _ _), bind_ok (hashDf_eq _ _), List.append_nil, reseed,
    State.toDrbg, State.toDrbg, bytes_value_hashDf, bytes_value_hashDf]

theorem genDigests_mod (m data : Nat) :
    genDigests H m (data % 256 ^ seedlen H) = genDigests H m data := by
  cases m with
  | zero => rfl
  | succ m => rw [genDigests, genDigests, bytes_mod, mod_add_mod]

theorem putDigest_eq {digest outputSlice : List Byte} (output : List (List Byte))
    (hdigest : digest.length = H.digestLen) (hslice : outputSlice.length ≤ H.digestLen) :
    (putDigest H digest outputSlice output).1 =
        digest.take (outputSlice ++ output.flatten).length ∧
      (putDigest H digest outputSlice output).2.flatten =
        (outputSlice ++ output.flatten).drop H.digestLen := by
  rw [putDigest]
  split
  · rename_i heq
    rw [drop_left' heq, take_of_length_le (by rw [length_append]; omega)]
    exact ⟨rfl, rfl⟩
  · obtain ⟨hwritten, hrest, -⟩ := copyFromIter_spec (fun _ b => b) output
      [digest.drop outputSlice.length]
    dsimp only
    rw [hwritten, hrest, zipWith_snd, flatten_singleton]
    constructor
    · rw [length_append, ← take_add]
    · rw [length_drop, hdigest, drop_append, drop_of_length_le hslice,
        List.nil_append]

theorem toBytes_trunc (len n : Nat) : (trunc len n).toBytes = bytes len n := bytes_mod len n

variable (cmpa) in
theorem ctAddMpL_trunc {len : Nat} (hlen : 0 < len) (n : Nat) :
    cmpa.ctAddMpL (trunc len n) 1 = trunc len (n + 1) := by
  rw [cmpa.ctAddMpL_eq _ _ (one_lt_pow cmpa.limbLen_pos.ne' (by decide))
    (one_lt_pow hlen.ne' (by decide)), Mp.len_trunc, Mp.trunc_value_add]

variable (cmpa) in
/-- Digest by digest. The request is either for all of the output or for a multiple of the
digest length, so no digest but the last is cut short. -/
theorem hashgenLoop_eq (output : List (List Byte)) (a k : Nat) {remainingLen : Nat}
    (hpos : 0 < remainingLen) (hle : remainingLen ≤ output.flatten.length)
    (hcut : H.digestLen ∣ remainingLen ∨ remainingLen = output.flatten.length) :
    ∃ rest n, hashgenLoop cmpa H output (trunc (seedlen H) (a + k)) (trunc 8 k)
        remainingLen = .ok ((genDigests H (digestsFor H remainingLen) (a + k)).take remainingLen,
          rest, trunc (seedlen H) (a + n), trunc 8 n) ∧
      rest.flatten = output.flatten.drop remainingLen ∧ n ≤ k + digestsFor H remainingLen := by
  induction remainingLen using Nat.strong_induction_on generalizing output k with
  | h remainingLen ih =>
    have hseedlen : 0 < seedlen H := lt_of_lt_of_le H.digestLen_pos digestLen_le_seedlen
    obtain ⟨outputSlice, output', hnext⟩ : ∃ outputSlice output',
        nextSlice (some H.digestLen) output = some (outputSlice, output') := by
      cases hnext : nextSlice (some H.digestLen) output with
      | none =>
        rw [(nextSlice_none _ _).mp hnext, length_nil] at hle
        omega
      | some next => exact ⟨next.1, next.2, rfl⟩
    have hsplit := flatten_nextSlice hnext
    have hcut' : H.digestLen ≤ remainingLen ∨ remainingLen = output.flatten.length :=
      hcut.imp_left (le_of_dvd hpos)
    obtain ⟨hwritten, hrest⟩ := putDigest_eq output'
      (H.length_digest (bytes (seedlen H) (a + k))) (length_nextSlice_le hnext)
    rw [← hsplit] at hwritten hrest
    have hlen : ((H.digest (bytes (seedlen H) (a + k))).take output.flatten.length).length =
        min output.flatten.length H.digestLen := by
      rw [length_take, H.length_digest]
    have hdigest := H.length_digest (bytes (seedlen H) (a + k))
    rw [hashgenLoop, hnext]
    dsimp only
    rw [toBytes_trunc, bind_ok (debugAssert_pos (by
      rw [totalLen_eq, ← length_append, ← hsplit]
      exact hcut')), hwritten, hlen, bind_ok (debugAssert_pos (by omega))]
    split
    · rename_i hdone
      have hshort : remainingLen ≤ H.digestLen := by omega
      have htake : (H.digest (bytes (seedlen H) (a + k))).take output.flatten.length =
          (H.digest (bytes (seedlen H) (a + k))).take remainingLen := by
        rcases hcut' with hlong | heq
        · rw [take_of_length_le (by omega), take_of_length_le (by omega)]
        · rw [heq]
      refine ⟨(putDigest H (H.digest (bytes (seedlen H) (a + k))) outputSlice output').2, k, ?_, ?_,
        by omega⟩
      · rw [digestsFor_short hpos hshort, genDigests, genDigests, List.append_nil, htake]
      · rw [hrest]
        rcases hcut' with hlong | heq
        · rw [le_antisymm hlong hshort]
        · rw [drop_of_length_le (by omega), drop_of_length_le (by omega)]
    · rename_i hmore
      have hlong : H.digestLen < remainingLen := by omega
      have hmin : min output.flatten.length H.digestLen = H.digestLen := by omega
      have hpos' := H.digestLen_pos
      obtain ⟨rest, n, hloop, hflat, hn⟩ := ih (remainingLen - H.digestLen) (by omega)
        (putDigest H (H.digest (bytes (seedlen H) (a + k))) outputSlice output').2 (k + 1) (by omega) (by rw [hrest, length_drop]; omega) (by
          rw [hrest, length_drop]
          exact hcut.imp (fun h => Nat.dvd_sub h (dvd_refl _)) (by omega))
      have hfull : (H.digest (bytes (seedlen H) (a + k))).take output.flatten.length =
          H.digest (bytes (seedlen H) (a + k)) := take_of_length_le (by omega)
      have hfull' : (H.digest (bytes (seedlen H) (a + k))).take remainingLen =
          H.digest (bytes (seedlen H) (a + k)) := take_of_length_le (by omega)
      refine ⟨rest, n, ?_, ?_, ?_⟩
      · rw [ctAddMpL_trunc cmpa hseedlen, ctAddMpL_trunc cmpa (by decide), hmin, add_assoc,
          bind_ok hloop, digestsFor_long hlong.le, genDigests, genDigests_mod, List.take_append,
          hdigest, hfull, hfull', add_assoc]
      · rw [hflat, hrest, drop_drop]
        congr 1
        omega
      · rw [digestsFor_long hlong.le]
        omega

theorem ofBytes_bytes (len n : Nat) : Mp.ofBytes (bytes len n) = trunc len n := by
  ext
  · exact length_bytes len n
  · exact value_bytes_mod len n

variable (cmpa) in
theorem sub_vDelta {len n : Nat} (a : Nat) (hlen : 3 ≤ len) (hn : n ≤ 2 ^ 16) :
    (if cmpa.ctIsZeroMp (trunc 8 n) then trunc len (a + n)
      else (cmpa.ctSubMpMp (trunc len (a + n)) (trunc 8 n)).1) = trunc len a := by
  have hvalue : (trunc 8 n).value = n :=
    Mp.value_trunc (lt_of_le_of_lt hn (by decide))
  have hfits : n < 256 ^ len := by
    calc n ≤ 2 ^ 16 := hn
      _ < 256 ^ 3 := by decide
      _ ≤ 256 ^ len := Nat.pow_le_pow_right (by decide) hlen
  rw [cmpa.ctIsZeroMp_eq, hvalue]
  split
  · rename_i hzero
    rw [of_decide_eq_true hzero, add_zero]
  · rw [cmpa.ctSubMpMp_eq _ _ (hvalue.symm ▸ hfits), hvalue, Mp.len_trunc, Mp.trunc_value_add,
      add_assoc, Nat.add_sub_cancel' hfits.le, Mp.trunc_add_pow]

theorem requestLimit_pos : 0 < requestLimit H := maxRequestLen_pos

theorem digestLen_dvd_requestLimit : H.digestLen ∣ requestLimit H := dvd_sub_mod _

variable (cmpa) in
theorem hashgen_eq (output : List (List Byte)) (a : Nat) :
    ∃ rest, Drbg.hashgen cmpa H output (bytes (seedlen H) a) =
        .ok (hashgen H a (min (requestLimit H) output.flatten.length), rest, bytes (seedlen H) a) ∧
      rest.flatten = output.flatten.drop (min (requestLimit H) output.flatten.length) := by
  rw [Drbg.hashgen, ← requestLimit]
  dsimp only
  rw [totalLen_eq]
  split
  · rename_i hzero
    exact ⟨output, by rw [hzero]; rfl, by rw [hzero]; rfl⟩
  · rename_i hne
    obtain ⟨rest, n, hloop, hflat, hn⟩ := hashgenLoop_eq cmpa output a 0
      (pos_of_ne_zero hne) (min_le_right _ _) (by
        rcases le_total (requestLimit H) output.flatten.length with h | h
        · exact .inl (min_eq_left h ▸ digestLen_dvd_requestLimit)
        · exact .inr (min_eq_right h))
    have hlen := seedlen_cases (H := H)
    have hlimit : requestLimit H ≤ 2 ^ 16 := sub_le _ _
    have hdigests := digestsFor_le (H := H) (min (requestLimit H) output.flatten.length)
    refine ⟨rest, ?_, hflat⟩
    rw [ofBytes_bytes, show Mp.zero 8 = trunc 8 0 from rfl]
    rw [add_zero] at hloop
    rw [bind_ok hloop]
    rw [sub_vDelta cmpa a (by omega) (by omega), toBytes_trunc, hashgen]

variable (cmpa) in
theorem addMpMp_eq {w : List Byte} (n : Nat) (hw : w.length ≤ seedlen H) :
    addMpMp cmpa (bytes (seedlen H) n) w = bytes (seedlen H) (n + value w) := by
  have hfits : value w < 256 ^ seedlen H :=
    lt_of_lt_of_le (value_lt w) (Nat.pow_le_pow_right (by decide) hw)
  rw [addMpMp, ofBytes_bytes, cmpa.ctAddMpMp_eq _ _ (by exact hfits), Mp.len_trunc,
    Mp.trunc_value_add, toBytes_trunc, Mp.value_ofBytes]

variable (cmpa) in
theorem addMpMp_digest (n : Nat) (m : List Byte) :
    addMpMp cmpa (bytes (seedlen H) n) (H.digest m) =
      bytes (seedlen H) (n + value (H.digest m)) :=
  addMpMp_eq cmpa n (by rw [H.length_digest]; exact digestLen_le_seedlen)

def requestV (s : State) (additionalInput : List Byte) : Nat :=
  if additionalInput = [] then s.v
  else (s.v + value (H.digest (0x02 :: bytes (seedlen H) s.v ++ additionalInput))) %
    256 ^ seedlen H

variable (cmpa) in
theorem additionalInputToV_eq (s : State) (additionalInput : Option (List (List Byte))) :
    additionalInputToV cmpa H (bytes (seedlen H) s.v) additionalInput =
      bytes (seedlen H) (requestV (H := H) s (additionalInput.getD []).flatten) := by
  cases additionalInput with
  | none => rfl
  | some additionalInput =>
    rw [additionalInputToV, requestV, Option.getD_some]
    by_cases hnil : additionalInput.flatten = []
    · rw [if_pos ((SliceCursors.isEmpty_iff _).mpr hnil), if_pos hnil]
    · rw [if_neg (fun h => hnil ((SliceCursors.isEmpty_iff _).mp h)), if_neg hnil, addMpMp_digest,
        bytes_mod]

def nextState (s : State) (v : Nat) : State :=
  ⟨(v + value (H.digest (0x03 :: bytes (seedlen H) v)) + s.c + s.reseedCounter) %
    256 ^ seedlen H, s.c, s.reseedCounter + 1⟩

variable (cmpa) in
theorem updateState_eq (s : State) (v : Nat) (h : s.reseedCounter ≤ maxRequests) :
    updateState cmpa H (s.toDrbg H) (bytes (seedlen H) v) =
      (nextState (H := H) s v).toDrbg H := by
  have hcounter : value (bytes 8 s.reseedCounter) = s.reseedCounter :=
    value_bytes (lt_of_le_of_lt h (by decide))
  have hlen := seedlen_cases (H := H)
  have hc : addMpMp cmpa (bytes (seedlen H) (v + value (H.digest (0x03 :: bytes (seedlen H) v))))
      (bytes (seedlen H) s.c) =
        bytes (seedlen H) (v + value (H.digest (0x03 :: bytes (seedlen H) v)) + s.c) := by
    rw [addMpMp_eq cmpa _ (length_bytes _ _).le, value_bytes_mod, add_comm, bytes_mod_add, add_comm]
  rw [updateState, State.toDrbg, State.toDrbg, nextState]
  rw [addMpMp_digest, hc, addMpMp_eq cmpa _ (by rw [length_bytes]; omega), hcounter, bytes_mod]

theorem generate_of_le {s : State} (h : s.reseedCounter ≤ maxRequests) (requested : Nat)
    (additionalInput : List Byte) :
    generate H s requested additionalInput =
      some (hashgen H (requestV (H := H) s additionalInput) requested,
        nextState (H := H) s (requestV (H := H) s additionalInput)) := by
  rw [generate, if_neg (not_lt.mpr h)]
  rfl

variable (cmpa) in
theorem generate_eq (s : State) (output : List (List Byte))
    (additionalInput : Option (List (List Byte))) :
    Drbg.generate cmpa H (s.toDrbg H) output additionalInput =
      .ok ((generateCut H s output.flatten.length (additionalInput.getD []).flatten).1,
        (generateCut H s output.flatten.length (additionalInput.getD []).flatten).2.1.toDrbg H,
        (generateCut H s output.flatten.length (additionalInput.getD []).flatten).2.2) := by
  induction hn : output.flatten.length using Nat.strong_induction_on generalizing s output with
  | h n ih =>
    subst hn
    rw [Drbg.generate]
    split
    · rename_i hempty
      rw [(SliceCursors.isEmpty_iff _).mp hempty, length_nil, generateCut]
      rfl
    · rename_i hne
      have hpos : output.flatten.length ≠ 0 := by
        rw [Ne, length_eq_zero_iff, ← SliceCursors.isEmpty_iff, hne]
        simp
      rw [generateCut, dif_neg hpos]
      by_cases hcounter : maxRequests < s.reseedCounter
      · rw [if_pos (by exact hcounter), generate, if_pos hcounter]
      · rw [if_neg (by exact hcounter), generate_of_le (not_lt.mp hcounter)]
        obtain ⟨rest, hgen, hflat⟩ := hashgen_eq cmpa output
          (requestV (H := H) s (additionalInput.getD []).flatten)
        have hv : additionalInputToV cmpa H (s.toDrbg H).v additionalInput =
            bytes (seedlen H) (requestV (H := H) s (additionalInput.getD []).flatten) :=
          additionalInputToV_eq cmpa s additionalInput
        have hrest : rest.flatten.length = output.flatten.length -
            min (requestLimit H) output.flatten.length := by
          rw [hflat, length_drop]
        have hlimit := requestLimit_pos (H := H)
        split
        · rename_i e he
          rw [hv, hgen] at he
          cases he
        · rename_i written rest' v he
          rw [hv, hgen] at he
          cases he
          rw [updateState_eq cmpa s _ (not_lt.mp hcounter),
            bind_ok (ih rest.flatten.length (by omega) _ rest rfl), hrest]

variable (cmpa) in
theorem exec_eq (s : State) (call : Call) :
    call.exec cmpa H (s.toDrbg H) =
      .ok ((exec H s call).1, (exec H s call).2.1.toDrbg H, (exec H s call).2.2) := by
  cases call with
  | generate output additionalInput =>
    rw [Call.exec, bind_ok (generate_eq cmpa s output additionalInput)]
    rfl
  | reseed entropy additionalInput =>
    rw [Call.exec, exec]
    by_cases hshort : entropy.length < minSeedEntropyLen H
    · rw [Drbg.reseed, failIf_pos hshort, if_pos hshort]
      rfl
    · rw [reseed_eq s (not_lt.mp hshort), if_neg hshort]

variable (cmpa) in
theorem run_eq (s : State) (calls : List Call) :
    Drbg.run cmpa H (s.toDrbg H) calls = .ok ((run H s calls).1, (run H s calls).2.toDrbg H) := by
  induction calls generalizing s with
  | nil => rfl
  | cons call calls ih =>
    rw [Drbg.run, bind_ok (exec_eq cmpa s call)]
    dsimp only
    rw [bind_ok (ih _)]
    rfl

/-- A hash function with a digest of twenty bytes, the last ones of the message. -/
def lastBytes : HashAlg where
  digestLen := 20
  digest m := bytes 20 (value m)
  length_digest := fun _ => length_bytes _ _
  digestLen_pos := by decide
  digestLen_le := by decide
  preimageSecurityStrength := some 160

end CocoonFs.DrbgReference
