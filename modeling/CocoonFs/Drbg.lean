import CocoonFs.Multiprecision
import CocoonFs.SliceCursors

namespace CocoonFs.Drbg

open Codes BigEndian Multiprecision SliceCursors

structure HashAlg where
  digestLen : Nat
  digest : List Byte → List Byte
  length_digest : ∀ m, (digest m).length = digestLen
  digestLen_pos : 0 < digestLen
  digestLen_le : digestLen ≤ 64
  preimageSecurityStrength : Option Nat

structure HashDrbg where
  reseedCounter : Nat
  v : List Byte
  c : List Byte
  deriving DecidableEq

inductive RngGenerateError where
  | reseedRequired
  deriving DecidableEq, Repr

def maxRequests : Nat := 2 ^ 48

def maxRequestLen : Nat := 2 ^ 16

variable (cmpa : Cmpa) (H : HashAlg)

def minSeedEntropyLen : Nat :=
  match H.preimageSecurityStrength with
  | some strength => (strength + 7) / 8
  | none => H.digestLen

def seedlenForHashAlg : Crypto Nat :=
  if H.digestLen ≤ 32 then .ok 55
  else if H.digestLen ≤ 64 then .ok 110
  else fail .unsupportedSecurityStrength

/-- `ct_add_mp_mp()` on big-endian bytes. -/
def addMpMp (v w : List Byte) : List Byte :=
  (cmpa.ctAddMpMp (Mp.ofBytes v) (Mp.ofBytes w)).toBytes

def hashDfLoop (nOutputBits : Nat) (input additionalInput : List Byte) (counter remaining : Nat) :
    Crypto (List Byte) :=
  if _h : remaining = 0 then .ok []
  else do
    failIf (255 < counter + 1) .requestTooBig
    let inputHeader := bytes 1 (counter + 1) ++ bytes 4 nOutputBits
    let digest := H.digest (inputHeader ++ input ++ additionalInput)
    if H.digestLen ≤ remaining then
      let output ← hashDfLoop nOutputBits input additionalInput (counter + 1)
        (remaining - H.digestLen)
      .ok (digest ++ output)
    else .ok (digest.take remaining)
termination_by remaining
decreasing_by
  have := H.digestLen_pos
  omega

def hashDf (input additionalInput : List Byte) (outputLen : Nat) : Crypto (List Byte) := do
  debugAssert (outputLen ≤ 255)
  failIf (2 ^ 32 ≤ outputLen) .requestTooBig
  failIf (2 ^ 32 ≤ outputLen * 8) .requestTooBig
  hashDfLoop H (outputLen * 8) input additionalInput 0 outputLen

def instantiate (entropy : List Byte) (nonce personalization : Option (List Byte)) :
    Crypto HashDrbg := do
  failIf (entropy.length < minSeedEntropyLen H) .insufficientSeedLength
  let seedlen ← seedlenForHashAlg H
  let seedMaterial := entropy ++ nonce.getD [] ++ personalization.getD []
  let v ← hashDf H seedMaterial [] seedlen
  let c ← hashDf H (0x00 :: v) [] seedlen
  .ok ⟨1, v, c⟩

/-- V and C are swapped first, the buffers keeping their lengths. -/
def reseed (self : HashDrbg) (entropy : List Byte) (additionalInput : Option (List (List Byte))) :
    Crypto HashDrbg := do
  failIf (entropy.length < minSeedEntropyLen H) .insufficientSeedLength
  let seedMaterial := 0x01 :: self.v ++ entropy
  let v ← hashDf H seedMaterial (additionalInput.getD []).flatten self.c.length
  let c ← hashDf H (0x00 :: v) [] self.v.length
  .ok ⟨1, v, c⟩

/-- A digest is written to the slice at hand, and from there on to the ones that follow. -/
def putDigest (digest outputSlice : List Byte) (output : List (List Byte)) :
    List Byte × List (List Byte) :=
  if outputSlice.length = H.digestLen then (digest, output)
  else
    let copied := copyFromIter (fun _ b => b) output [digest.drop outputSlice.length]
    (digest.take outputSlice.length ++ copied.1, copied.2.1)

theorem length_putDigest_le (digest outputSlice : List Byte) (output : List (List Byte)) :
    (putDigest H digest outputSlice output).2.flatten.length ≤ output.flatten.length := by
  rw [putDigest]
  split
  · exact Nat.le_refl _
  · rw [(copyFromIter_spec _ _ _).2.1, List.length_drop]
    exact Nat.sub_le _ _

/-- V is incremented in place, with the number of increments counted along. -/
def hashgenLoop (output : List (List Byte)) (v vDelta : Mp) (remainingLen : Nat) :
    Crypto (List Byte × List (List Byte) × Mp × Mp) :=
  match _h : nextSlice (some H.digestLen) output with
  | none => .ok ([], [], v, vDelta)
  | some (outputSlice, output') => do
    debugAssert (H.digestLen ≤ remainingLen ∨
      remainingLen = outputSlice.length + totalLen output')
    let put := putDigest H (H.digest v.toBytes) outputSlice output'
    debugAssert (put.1.length ≤ remainingLen)
    if remainingLen - put.1.length = 0 then .ok (put.1, put.2, v, vDelta)
    else do
      let (written, rest) ← hashgenLoop put.2 (cmpa.ctAddMpL v 1) (cmpa.ctAddMpL vDelta 1)
        (remainingLen - put.1.length)
      .ok (put.1 ++ written, rest)
termination_by output.flatten.length
decreasing_by
  have hpos := nextSlice_pos H.digestLen_pos _h
  have hle := length_putDigest_le H (H.digest v.toBytes) outputSlice output'
  rw [flatten_nextSlice _h, List.length_append]
  omega

def hashgen (output : List (List Byte)) (v : List Byte) :
    Crypto (List Byte × List (List Byte) × List Byte) := do
  let maxRequestLen := maxRequestLen - maxRequestLen % H.digestLen
  let requestedLen := totalLen output
  let remainingLen := min maxRequestLen requestedLen
  if remainingLen = 0 then .ok ([], output, v)
  else do
    let (written, rest, v, vDelta) ← hashgenLoop cmpa H output (Mp.ofBytes v) (Mp.zero 8)
      remainingLen
    let v := if cmpa.ctIsZeroMp vDelta then v else (cmpa.ctSubMpMp v vDelta).1
    .ok (written, rest, v.toBytes)

/-- Steps 2 and 3 of the generation, up to the hash of the updated state. -/
def additionalInputToV (v : List Byte) (additionalInput : Option (List (List Byte))) : List Byte :=
  match additionalInput with
  | none => v
  | some additionalInput =>
    if isEmpty additionalInput then v
    else addMpMp cmpa v (H.digest (0x02 :: v ++ additionalInput.flatten))

def updateState (self : HashDrbg) (v : List Byte) : HashDrbg :=
  let h := H.digest (0x03 :: v)
  let v := addMpMp cmpa v h
  let v := addMpMp cmpa v self.c
  let v := addMpMp cmpa v (bytes 8 self.reseedCounter)
  ⟨self.reseedCounter + 1, v, self.c⟩

variable {cmpa} {H} {output rest : List (List Byte)}

theorem length_flatten_hashgenLoop {v vDelta v' vDelta' : Mp}
    {remainingLen : Nat} {written : List Byte}
    (h : hashgenLoop cmpa H output v vDelta remainingLen = .ok (written, rest, v', vDelta')) :
    rest.flatten.length ≤ output.flatten.length ∧
      (output.flatten ≠ [] → rest.flatten.length < output.flatten.length) := by
  fun_induction hashgenLoop cmpa H output v vDelta remainingLen generalizing written rest with
  | case1 output v vDelta remainingLen hnone =>
    cases h
    rw [(nextSlice_none _ _).mp hnone]
    exact ⟨Nat.le_refl _, fun hne => absurd rfl hne⟩
  | case2 output v vDelta remainingLen outputSlice output' hsome ih =>
    obtain ⟨_, -, h⟩ := ok_of_bind h
    obtain ⟨_, -, h⟩ := ok_of_bind h
    have hpos := nextSlice_pos H.digestLen_pos hsome
    have hle := length_putDigest_le H (H.digest v.toBytes) outputSlice output'
    have hsplit := congrArg List.length (flatten_nextSlice hsome)
    rw [List.length_append] at hsplit
    split at h
    · cases h
      exact ⟨by omega, fun _ => by omega⟩
    · obtain ⟨⟨written', rest'⟩, hloop, h⟩ := ok_of_bind h
      cases h
      have := (ih hloop).1
      exact ⟨by omega, fun _ => by omega⟩

theorem maxRequestLen_pos : 0 < maxRequestLen - maxRequestLen % H.digestLen := by
  have hlt := Nat.mod_lt maxRequestLen H.digestLen_pos
  have hle := H.digestLen_le
  rw [maxRequestLen] at hlt ⊢
  omega

theorem length_flatten_hashgen {v v' written : List Byte}
    (h : hashgen cmpa H output v = .ok (written, rest, v')) (hne : isEmpty output = false) :
    rest.flatten.length < output.flatten.length := by
  have hne : output.flatten ≠ [] := by
    rw [Ne, ← SliceCursors.isEmpty_iff, hne]
    simp
  rw [hashgen] at h
  split at h
  · rename_i hzero
    have := List.length_pos_iff.mpr hne
    have := maxRequestLen_pos (H := H)
    rw [totalLen_eq] at hzero
    omega
  · obtain ⟨⟨written', rest', v', vDelta'⟩, hloop, h⟩ := ok_of_bind h
    cases h
    exact (length_flatten_hashgenLoop hloop).2 hne

variable (cmpa) (H)

/-- One request after the other, for as long as there is any output left. What has been written
before a failure stays so. -/
def generate (self : HashDrbg) (output : List (List Byte))
    (additionalInput : Option (List (List Byte))) :
    Crypto (List Byte × HashDrbg × Option RngGenerateError) :=
  match _h : isEmpty output with
  | true => .ok ([], self, none)
  | false =>
    if maxRequests < self.reseedCounter then .ok ([], self, some .reseedRequired)
    else
      match _hgen : hashgen cmpa H output (additionalInputToV cmpa H self.v additionalInput) with
      | .error e => .error e
      | .ok (written, rest, v) => do
        let (written', result) ← generate (updateState cmpa H self v) rest additionalInput
        .ok (written ++ written', result)
termination_by output.flatten.length
decreasing_by exact length_flatten_hashgen _hgen _h

inductive Call where
  | generate (output : List (List Byte)) (additionalInput : Option (List (List Byte)))
  | reseed (entropy : List Byte) (additionalInput : Option (List (List Byte)))

def Call.exec (drbg : HashDrbg) : Call → Crypto (List Byte × HashDrbg × Bool)
  | .generate output additionalInput => do
    let (written, drbg, e) ← Drbg.generate cmpa H drbg output additionalInput
    .ok (written, drbg, e.isNone)
  | .reseed entropy additionalInput =>
    match Drbg.reseed H drbg entropy additionalInput with
    | .ok drbg => .ok ([], drbg, true)
    | .error (.error _) => .ok ([], drbg, false)
    | .error .panic => .error .panic

def run (drbg : HashDrbg) : List Call → Crypto (List (List Byte × Bool) × HashDrbg)
  | [] => .ok ([], drbg)
  | call :: calls => do
    let (written, drbg, success) ← call.exec cmpa H drbg
    let (results, drbg) ← run drbg calls
    .ok ((written, success) :: results, drbg)

end CocoonFs.Drbg
