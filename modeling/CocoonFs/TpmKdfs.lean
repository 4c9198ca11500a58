import CocoonFs.KdfStreams

namespace CocoonFs.TpmKdfs

open Codes BigEndian Layout Masks Multiprecision SliceCursors FixedBlockKdf FixedBlockKdfRuns List
  KdfStreams

structure Hmacs where
  digest : TpmiAlgHash → List Byte → List Byte → List Byte
  length_digest : ∀ alg key m, (digest alg key m).length = hashAlgDigestLen alg

structure HashInstance where
  alg : TpmiAlgHash
  data : List Byte
  deriving DecidableEq, Repr

namespace HashInstance

def new (alg : TpmiAlgHash) : HashInstance := ⟨alg, []⟩

def update (self : HashInstance) (data : List Byte) : HashInstance :=
  { self with data := self.data ++ data }

/-- The conversion of the buffer to an array of the digest's length panics on any other length. -/
def finalizeInto (hashes : Hashes) (self : HashInstance) (digest : List Byte) :
    Crypto (List Byte) := do
  debugAssert (digest.length = hashAlgDigestLen self.alg)
  .ok (hashes.digest self.alg self.data)

theorem finalizeInto_eq (hashes : Hashes) (self : HashInstance) (digest : List Byte) :
    self.finalizeInto hashes digest = if digest.length = hashAlgDigestLen self.alg
      then .ok (hashes.digest self.alg self.data) else .error .panic := by
  rw [finalizeInto, debugAssert]
  by_cases h : digest.length = hashAlgDigestLen self.alg
  · rw [if_pos h, if_pos h]
    rfl
  · rw [if_neg h, if_neg h]
    rfl

end HashInstance

structure HmacInstance where
  alg : TpmiAlgHash
  key : List Byte
  data : List Byte
  deriving DecidableEq, Repr

namespace HmacInstance

def new (alg : TpmiAlgHash) (key : List Byte) : HmacInstance := ⟨alg, key, []⟩

def update (self : HmacInstance) (data : List Byte) : HmacInstance :=
  { self with data := self.data ++ data }

def finalizeInto (hmacs : Hmacs) (self : HmacInstance) (digest : List Byte) :
    Crypto (List Byte) := do
  debugAssert (digest.length = hashAlgDigestLen self.alg)
  .ok (hmacs.digest self.alg self.key self.data)

theorem finalizeInto_eq (hmacs : Hmacs) (self : HmacInstance) (digest : List Byte) :
    self.finalizeInto hmacs digest = if digest.length = hashAlgDigestLen self.alg
      then .ok (hmacs.digest self.alg self.key self.data) else .error .panic := by
  rw [finalizeInto, debugAssert]
  by_cases h : digest.length = hashAlgDigestLen self.alg
  · rw [if_pos h, if_pos h]
    rfl
  · rw [if_neg h, if_neg h]
    rfl

end HmacInstance

theorem hashAlgDigestLen_pos (alg : TpmiAlgHash) : 0 < hashAlgDigestLen alg := by
  cases alg <;> decide

/-- How a block is made: from the other inputs, the number of bits in total and the number of the
block, on top of an instance that is at its beginning. -/
structure Finish (ι π : Type) where
  digestLen : ι → Nat
  digest : π → BitVec 32 → Nat → ι → List Byte
  finalizeInto : π → BitVec 32 → Nat → ι → List Byte → Crypto (List Byte)
  length_digest : ∀ input bits i inst, (digest input bits i inst).length = digestLen inst
  finalizeInto_eq : ∀ input bits i inst output, finalizeInto input bits i inst output =
    if output.length = digestLen inst then .ok (digest input bits i inst) else .error .panic

/-- What `TcgTpm2KdfA` and `TcgTpm2KdfE` have in common. -/
structure TcgTpm2Kdf (ι π : Type) where
  inst : Option ι
  blockLen : Nat
  blockLen_pos : 0 < blockLen
  input : π
  nTotalOutputBits : BitVec 32
  nBlocksGenerated : Nat

def clearFirstOctet (mask : Byte) : List Byte → Crypto (List Byte)
  | [] => .error .panic
  | b :: bs => .ok ((b &&& ~~~mask) :: bs)

def fillZeros (output : List Byte) (len : Nat) : List Byte :=
  output.take len ++ List.replicate (output.length - len) 0

variable {output : List Byte}

namespace TcgTpm2Kdf

variable {ι π : Type}

def totalOutputLen (self : TcgTpm2Kdf ι π) : Nat := (self.nTotalOutputBits.toNat + 7) / 8

def remainingOutputLen (self : TcgTpm2Kdf ι π) : Nat :=
  self.totalOutputLen - self.nBlocksGenerated * self.blockLen

def firstOctetClearMask (self : TcgTpm2Kdf ι π) : Byte :=
  if self.nBlocksGenerated ≠ 0 ∨ self.nTotalOutputBits.toNat % 8 = 0 then 0
  else ~~~(0 : Byte) <<< (self.nTotalOutputBits.toNat % 8)

/-- The instance is stolen for the last block, and cloned for the others. -/
def advance (self : TcgTpm2Kdf ι π) (inst : ι) : TcgTpm2Kdf ι π :=
  { self with
    inst := if self.blockLen < self.remainingOutputLen then some inst else none
    nBlocksGenerated := self.nBlocksGenerated + 1 }

@[simp] theorem advance_nBlocksGenerated (self : TcgTpm2Kdf ι π) (inst : ι) :
    (self.advance inst).nBlocksGenerated = self.nBlocksGenerated + 1 := rfl

def generateBlock (finish : Finish ι π) (self : TcgTpm2Kdf ι π) (output : List Byte) :
    Crypto (List Byte × Nat × TcgTpm2Kdf ι π) := do
  debugAssert (output.length = self.blockLen)
  let remainingOutputLen := self.remainingOutputLen
  match self.inst with
  | none => fail .internal
  | some inst =>
    debugAssert (self.nBlocksGenerated + 1 < 2 ^ 32)
    let kdf := self.advance inst
    let digest ← finish.finalizeInto self.input self.nTotalOutputBits kdf.nBlocksGenerated inst output
    let output ← clearFirstOctet self.firstOctetClearMask digest
    let output := if remainingOutputLen < self.blockLen then fillZeros output remainingOutputLen
      else output
    .ok (output, min self.blockLen remainingOutputLen, kdf)

/-- What the block is, with the excess bits of the first and the excess bytes of the last. -/
def block (finish : Finish ι π) (self : TcgTpm2Kdf ι π) (inst : ι) : List Byte :=
  let digest := finish.digest self.input self.nTotalOutputBits (self.nBlocksGenerated + 1) inst
  let output := (digest.head?.map (· &&& ~~~self.firstOctetClearMask)).toList ++ digest.tail
  if self.remainingOutputLen < self.blockLen then fillZeros output self.remainingOutputLen else output

theorem length_fillZeros {len : Nat} (h : len ≤ output.length) :
    (fillZeros output len).length = output.length := by
  rw [fillZeros, length_append, length_take, length_replicate]
  omega

section

variable (finish : Finish ι π) (self : TcgTpm2Kdf ι π)
include finish self

theorem length_block {inst : ι}
    (h : finish.digestLen inst = self.blockLen) : (self.block finish inst).length = self.blockLen := by
  have hpos := self.blockLen_pos
  have hlen := finish.length_digest self.input self.nTotalOutputBits (self.nBlocksGenerated + 1) inst
  obtain ⟨b, bs, hdigest⟩ := exists_cons_of_length_pos (by omega : 0 <
    (finish.digest self.input self.nTotalOutputBits (self.nBlocksGenerated + 1) inst).length)
  rw [hdigest, length_cons] at hlen
  rw [block, hdigest]
  dsimp only [head?_cons, Option.map_some, Option.toList_some, tail_cons, singleton_append]
  split
  · rw [length_fillZeros, length_cons, hlen, h]
    rw [length_cons]
    omega
  · rw [length_cons, hlen, h]

theorem generateBlock_eq {inst : ι} (hinst : self.inst = some inst)
    (hdigest : finish.digestLen inst = self.blockLen) (hlen : output.length = self.blockLen)
    (hcount : self.nBlocksGenerated + 1 < 2 ^ 32) :
    self.generateBlock finish output =
      .ok (self.block finish inst, min self.blockLen self.remainingOutputLen,
        self.advance inst) := by
  have hpos := self.blockLen_pos
  have hdigestLen :=
    finish.length_digest self.input self.nTotalOutputBits (self.nBlocksGenerated + 1) inst
  obtain ⟨b, bs, hcons⟩ := exists_cons_of_length_pos (by omega : 0 <
    (finish.digest self.input self.nTotalOutputBits (self.nBlocksGenerated + 1) inst).length)
  have hfinal := finish.finalizeInto_eq self.input self.nTotalOutputBits
    (self.nBlocksGenerated + 1) inst output
  rw [if_pos (hlen.trans hdigest.symm)] at hfinal
  rw [generateBlock, bind_ok (debugAssert_pos hlen), hinst]
  dsimp only
  rw [bind_ok (debugAssert_pos hcount), advance_nBlocksGenerated, bind_ok hfinal, block, hcons]
  rfl

theorem length_generateBlock {output block : List Byte} {n : Nat} {kdf : TcgTpm2Kdf ι π}
    (h : self.generateBlock finish output = .ok (block, n, kdf)) : block.length = output.length := by
  obtain ⟨_, hassert, hrest⟩ := ok_of_bind h
  have hlen := of_debugAssert hassert
  cases hinst : self.inst with
  | none =>
    rw [hinst] at hrest
    cases hrest
  | some inst =>
    rw [hinst] at hrest
    obtain ⟨_, hcount, hrest⟩ := ok_of_bind hrest
    obtain ⟨digest, hfinal, -⟩ := ok_of_bind hrest
    rw [finish.finalizeInto_eq] at hfinal
    split at hfinal
    · rename_i hdigest
      have hdigest := hdigest.symm.trans hlen
      rw [self.generateBlock_eq finish hinst hdigest hlen (of_debugAssert hcount)] at h
      cases h
      rw [length_block finish self hdigest, hlen]
    · cases hfinal

end

def kdf (finish : Finish ι π) : FixedBlockOutputKdf (TcgTpm2Kdf ι π) where
  blockLen := blockLen
  blockLen_pos := blockLen_pos
  maxRemainingLen self := some self.remainingOutputLen
  generateBlock self output := self.generateBlock finish output
  length_generateBlock := fun self _ _ _ _ h => self.length_generateBlock finish h

theorem remainingOutputLen_advance (self : TcgTpm2Kdf ι π) (inst : ι) :
    (self.advance inst).remainingOutputLen =
      self.remainingOutputLen - min self.blockLen self.remainingOutputLen := by
  calc (self.advance inst).remainingOutputLen
    _ = self.totalOutputLen - (self.nBlocksGenerated * self.blockLen + self.blockLen) := by
      rw [remainingOutputLen, advance, Nat.succ_mul]
      rfl
    _ = self.remainingOutputLen - self.blockLen := by rw [← Nat.sub_sub, remainingOutputLen]
    _ = self.remainingOutputLen - min self.blockLen self.remainingOutputLen := by omega

/-- As long as there is something left to generate, there is an instance to do it with. -/
def Inv (finish : Finish ι π) (self : TcgTpm2Kdf ι π) : Prop :=
  0 < self.remainingOutputLen → ∃ inst, self.inst = some inst ∧ finish.digestLen inst = self.blockLen

variable {self : TcgTpm2Kdf ι π}

theorem nBlocksGenerated_lt (h : 0 < self.remainingOutputLen) :
    self.nBlocksGenerated + 1 < 2 ^ 32 := by
  have hle := Nat.le_mul_of_pos_right self.nBlocksGenerated self.blockLen_pos
  rw [remainingOutputLen, totalOutputLen] at h
  omega

theorem Inv.next {finish : Finish ι π} (h : self.Inv finish)
    (hpos : 0 < self.remainingOutputLen) : ∃ block n kdf', Next (kdf finish) (Inv finish)
      remainingOutputLen remainingOutputLen self block n kdf' := by
  obtain ⟨inst, hinst, hdigest⟩ := h hpos
  have hnext := self.remainingOutputLen_advance inst
  refine ⟨self.block finish inst, min self.blockLen self.remainingOutputLen, self.advance inst,
    ⟨?_, rfl, min_le_right _ _, ?_, rfl, hnext, hnext⟩⟩
  · intro buf hbuf
    exact self.generateBlock_eq finish hinst hdigest hbuf (nBlocksGenerated_lt hpos)
  · intro hleft
    have hlong : self.blockLen < self.remainingOutputLen := by omega
    exact ⟨inst, if_pos hlong, hdigest⟩

def lawful (finish : Finish ι π) : Lawful (kdf finish) where
  Inv := Inv finish
  remaining := remainingOutputLen
  safe := remainingOutputLen
  safe_le _ := Nat.le_refl _
  maxRemainingLen_eq _ _ := rfl
  exists_next _ := Inv.next

end TcgTpm2Kdf

structure KdfAInput where
  label : List Byte
  contextU : Option (List Byte)
  contextV : Option (List Byte)

/-- `new()` of either, which makes an instance unless there's nothing to generate with it. -/
def newKdf {ι π : Type} (hashAlg : TpmiAlgHash) (inst : ι) (input : π) (nTotalOutputBits : BitVec 32) :
    TcgTpm2Kdf ι π where
  inst := if nTotalOutputBits ≠ 0 then some inst else none
  blockLen := hashAlgDigestLen hashAlg
  blockLen_pos := hashAlgDigestLen_pos hashAlg
  input := input
  nTotalOutputBits := nTotalOutputBits
  nBlocksGenerated := 0

theorem newKdf_inv {ι π : Type} {finish : Finish ι π} {hashAlg : TpmiAlgHash} {inst : ι}
    (hdigest : finish.digestLen inst = hashAlgDigestLen hashAlg) (input : π)
    (nTotalOutputBits : BitVec 32) :
    (newKdf hashAlg inst input nTotalOutputBits).Inv finish := by
  intro hpos
  refine ⟨inst, if_pos ?_, hdigest⟩
  rintro rfl
  exact absurd hpos (by simp [newKdf, TcgTpm2Kdf.remainingOutputLen, TcgTpm2Kdf.totalOutputLen])

namespace TcgTpm2KdfA

/-- A label that ends in a zero byte needs no separator behind it, and neither does an empty one. -/
def labelZeroSep (input : KdfAInput) : Option (List Byte) :=
  if (input.label.getLast?.map (· != 0)).getD false then some [0] else none

def message (input : KdfAInput) (nTotalOutputBits : BitVec 32) (i : Nat) : List Byte :=
  bytes 4 i ++ input.label ++ (labelZeroSep input).getD [] ++ input.contextU.getD [] ++
    input.contextV.getD [] ++ bytes 4 nTotalOutputBits.toNat

def finish (hmacs : Hmacs) : Finish HmacInstance KdfAInput where
  digestLen hmac := hashAlgDigestLen hmac.alg
  digest input bits i hmac :=
    hmacs.digest hmac.alg hmac.key (hmac.update (message input bits i)).data
  finalizeInto input bits i hmac := (hmac.update (message input bits i)).finalizeInto hmacs
  length_digest := fun _ _ _ _ => hmacs.length_digest _ _ _
  finalizeInto_eq := fun _ _ _ _ _ => HmacInstance.finalizeInto_eq _ _ _

def kdf (hmacs : Hmacs) : FixedBlockOutputKdf (TcgTpm2Kdf HmacInstance KdfAInput) :=
  TcgTpm2Kdf.kdf (finish hmacs)

def new (hashAlg : TpmiAlgHash) (key label : List Byte) (contextU contextV : Option (List Byte))
    (nTotalOutputBits : BitVec 32) : TcgTpm2Kdf HmacInstance KdfAInput :=
  newKdf hashAlg (.new hashAlg key) ⟨label, contextU, contextV⟩ nTotalOutputBits

end TcgTpm2KdfA

structure KdfEInput where
  usage : List Byte
  z : List Byte
  partyUInfo : List Byte
  partyVInfo : List Byte

namespace TcgTpm2KdfE

def message (input : KdfEInput) (counter : Nat) : List Byte :=
  bytes 4 counter ++ input.z ++ input.usage ++ [0] ++ input.partyUInfo ++ input.partyVInfo

def finish (hashes : Hashes) : Finish HashInstance KdfEInput where
  digestLen hash := hashAlgDigestLen hash.alg
  digest input _ i hash := hashes.digest hash.alg (hash.update (message input i)).data
  finalizeInto input _ i hash := (hash.update (message input i)).finalizeInto hashes
  length_digest := fun _ _ _ _ => hashes.length_digest _ _
  finalizeInto_eq := fun _ _ _ _ _ => HashInstance.finalizeInto_eq _ _ _

def kdf (hashes : Hashes) : FixedBlockOutputKdf (TcgTpm2Kdf HashInstance KdfEInput) :=
  TcgTpm2Kdf.kdf (finish hashes)

def new (hashAlg : TpmiAlgHash) (z usage partyUInfo partyVInfo : List Byte)
    (nTotalOutputBits : BitVec 32) : TcgTpm2Kdf HashInstance KdfEInput :=
  newKdf hashAlg (.new hashAlg) ⟨usage, z, partyUInfo, partyVInfo⟩ nTotalOutputBits

end TcgTpm2KdfE

structure RFC8017Mgf1 where
  hashInstance : Option HashInstance
  blockLen : Nat
  blockLen_pos : 0 < blockLen
  counter : Nat
  counterLast : Nat
  deriving DecidableEq

namespace RFC8017Mgf1

def new (hashAlg : TpmiAlgHash) (totalOutputLen : Nat) (seed : List Byte) : Crypto RFC8017Mgf1 := do
  let counterLast := (totalOutputLen - 1) / hashAlgDigestLen hashAlg
  failIf (2 ^ 32 ≤ counterLast) .requestTooBig
  .ok {
    hashInstance := some ((HashInstance.new hashAlg).update seed)
    blockLen := hashAlgDigestLen hashAlg
    blockLen_pos := hashAlgDigestLen_pos hashAlg
    counter := 0
    counterLast }

def maxRemainingLen (self : RFC8017Mgf1) : Nat :=
  self.counterLast * self.blockLen + self.blockLen - self.counter * self.blockLen

def advance (self : RFC8017Mgf1) (hash : HashInstance) : RFC8017Mgf1 :=
  { self with
    hashInstance := if self.counter ≠ self.counterLast then some hash else none
    counter := (self.counter + 1) % 2 ^ 32 }

def generateBlock (hashes : Hashes) (self : RFC8017Mgf1) (output : List Byte) :
    Crypto (List Byte × Nat × RFC8017Mgf1) := do
  debugAssert (output.length = self.blockLen)
  match self.hashInstance with
  | none => fail .internal
  | some hash =>
    let digest ← (hash.update (bytes 4 self.counter)).finalizeInto hashes output
    .ok (digest, self.blockLen, self.advance hash)

theorem length_generateBlock (hashes : Hashes) (self : RFC8017Mgf1) {output block : List Byte}
    {n : Nat} {kdf : RFC8017Mgf1} (h : self.generateBlock hashes output = .ok (block, n, kdf)) :
    block.length = output.length := by
  obtain ⟨_, -, h⟩ := ok_of_bind h
  cases hinst : self.hashInstance with
  | none =>
    rw [hinst] at h
    cases h
  | some hash =>
    rw [hinst] at h
    obtain ⟨digest, hfinal, h⟩ := ok_of_bind h
    obtain ⟨_, hlen, hfinal⟩ := ok_of_bind hfinal
    cases hfinal
    cases h
    rw [hashes.length_digest, of_debugAssert hlen]

theorem generateBlock_eq (hashes : Hashes) (self : RFC8017Mgf1) {hash : HashInstance}
    (hinst : self.hashInstance = some hash)
    (hdigest : hashAlgDigestLen hash.alg = self.blockLen) (hlen : output.length = self.blockLen) :
    self.generateBlock hashes output =
      .ok (hashes.digest hash.alg (hash.update (bytes 4 self.counter)).data, self.blockLen,
        self.advance hash) := by
  have hfinal : (hash.update (bytes 4 self.counter)).finalizeInto hashes output =
      .ok (hashes.digest hash.alg (hash.update (bytes 4 self.counter)).data) :=
    (HashInstance.finalizeInto_eq _ _ _).trans (if_pos (hlen.trans hdigest.symm))
  rw [generateBlock, bind_ok (debugAssert_pos hlen), hinst]
  dsimp only
  rw [bind_ok hfinal]

def kdf (hashes : Hashes) : FixedBlockOutputKdf RFC8017Mgf1 where
  blockLen := blockLen
  blockLen_pos := blockLen_pos
  maxRemainingLen self := some self.maxRemainingLen
  generateBlock := generateBlock hashes
  length_generateBlock := fun self _ _ _ _ h => self.length_generateBlock hashes h

/-- What there is before the block that makes the counter wrap around. -/
def safeLen (self : RFC8017Mgf1) : Nat :=
  min self.maxRemainingLen ((2 ^ 32 - 1 - self.counter) * self.blockLen)

theorem maxRemainingLen_eq (self : RFC8017Mgf1) :
    self.maxRemainingLen = (self.counterLast + 1 - self.counter) * self.blockLen := by
  rw [maxRemainingLen, Nat.sub_mul, Nat.succ_mul]

structure Inv (kdf : RFC8017Mgf1) : Prop where
  hashInstance : kdf.counter ≤ kdf.counterLast → ∃ hash, kdf.hashInstance = some hash ∧
    hashAlgDigestLen hash.alg = kdf.blockLen

theorem new_inv {hashAlg : TpmiAlgHash} {totalOutputLen : Nat} {seed : List Byte}
    {kdf : RFC8017Mgf1} (h : new hashAlg totalOutputLen seed = .ok kdf) : kdf.Inv := by
  obtain ⟨_, -, h⟩ := ok_of_bind h
  cases h
  exact ⟨fun _ => ⟨_, rfl, rfl⟩⟩

theorem Inv.next {hashes : Hashes} {kdf : RFC8017Mgf1} (h : kdf.Inv) (hpos : 0 < kdf.safeLen) :
    ∃ block n kdf', Next (RFC8017Mgf1.kdf hashes) Inv maxRemainingLen safeLen kdf block n kdf' := by
  have hremaining := kdf.maxRemainingLen_eq
  obtain ⟨hmax, hsafe⟩ := Nat.lt_min.mp hpos
  have hlast : kdf.counter ≤ kdf.counterLast := by
    rw [hremaining] at hmax
    have := Nat.pos_of_mul_pos_right hmax
    omega
  have hwrap : kdf.counter + 1 < 2 ^ 32 := by
    have := Nat.pos_of_mul_pos_right hsafe
    omega
  obtain ⟨hash, hinst, hdigest⟩ := h.hashInstance hlast
  have hcounter : (kdf.advance hash).counter = kdf.counter + 1 := Nat.mod_eq_of_lt hwrap
  have hremaining' : (kdf.advance hash).maxRemainingLen = kdf.maxRemainingLen - kdf.blockLen := by
    rw [maxRemainingLen_eq, hremaining, hcounter, Nat.add_sub_add_right, Nat.sub_add_comm hlast,
      Nat.succ_mul, Nat.add_sub_cancel]
    rfl
  have hle : kdf.blockLen ≤ kdf.maxRemainingLen := by
    rw [hremaining]
    exact Nat.le_mul_of_pos_left _ (by omega)
  have hle' : kdf.blockLen ≤ (2 ^ 32 - 1 - kdf.counter) * kdf.blockLen :=
    Nat.le_mul_of_pos_left _ (by omega)
  refine ⟨hashes.digest hash.alg (hash.update (bytes 4 kdf.counter)).data, kdf.blockLen,
    kdf.advance hash, ⟨?_, (min_eq_left hle).symm, Nat.le_min.mpr ⟨hle, hle'⟩, ⟨?_⟩, rfl,
      hremaining', ?_⟩⟩
  · intro buf hbuf
    exact kdf.generateBlock_eq hashes hinst hdigest hbuf
  · intro hlast'
    rw [hcounter] at hlast'
    have hne : kdf.counter ≠ kdf.counterLast := ne_of_lt hlast'
    exact ⟨hash, if_pos hne, hdigest⟩
  · have hsub : 2 ^ 32 - 1 - (kdf.counter + 1) = 2 ^ 32 - 1 - kdf.counter - 1 := rfl
    rw [safeLen, hremaining', hcounter, hsub, Nat.sub_mul, one_mul]
    exact Nat.sub_min_sub_right _ _ _

/-- After all blocks but the last one with the last value of the counter, what remains is right. -/
def lawful (hashes : Hashes) : Lawful (kdf hashes) where
  Inv := Inv
  remaining := maxRemainingLen
  safe := safeLen
  safe_le _ := Nat.min_le_left _ _
  maxRemainingLen_eq _ _ := rfl
  exists_next _ := Inv.next

end RFC8017Mgf1

/-- Whatever is requested of an instance of one of the functions, and however the requests are
sliced, is served from the blocks in order, as long as a short block at the end doesn't have to be
distributed over slices and the counter doesn't wrap around. -/
theorem kdfs_serve_blocks (hashes : Hashes) (hmacs : Hmacs) :
    (∀ hashAlg key label contextU contextV nTotalOutputBits,
      ServesBlocks (TcgTpm2Kdf.lawful (TcgTpm2KdfA.finish hmacs))
          (TcgTpm2KdfA.new hashAlg key label contextU contextV nTotalOutputBits) ∧
        ServesBlocksOnce (TcgTpm2Kdf.lawful (TcgTpm2KdfA.finish hmacs))
          (TcgTpm2KdfA.new hashAlg key label contextU contextV nTotalOutputBits)) ∧
    (∀ hashAlg z usage partyUInfo partyVInfo nTotalOutputBits,
      ServesBlocks (TcgTpm2Kdf.lawful (TcgTpm2KdfE.finish hashes))
          (TcgTpm2KdfE.new hashAlg z usage partyUInfo partyVInfo nTotalOutputBits) ∧
        ServesBlocksOnce (TcgTpm2Kdf.lawful (TcgTpm2KdfE.finish hashes))
          (TcgTpm2KdfE.new hashAlg z usage partyUInfo partyVInfo nTotalOutputBits)) ∧
    ∀ hashAlg totalOutputLen seed kdf, RFC8017Mgf1.new hashAlg totalOutputLen seed = .ok kdf →
      ServesBlocks (RFC8017Mgf1.lawful hashes) kdf := by
  refine ⟨?_, ?_, ?_⟩
  · intro hashAlg key label contextU contextV nTotalOutputBits
    have hinv := newKdf_inv (show (TcgTpm2KdfA.finish hmacs).digestLen (.new hashAlg key) =
      hashAlgDigestLen hashAlg from rfl) ⟨label, contextU, contextV⟩ nTotalOutputBits
    exact ⟨servesBlocks hinv, servesBlocksOnce hinv⟩
  · intro hashAlg z usage partyUInfo partyVInfo nTotalOutputBits
    have hinv := newKdf_inv (show (TcgTpm2KdfE.finish hashes).digestLen (.new hashAlg) =
      hashAlgDigestLen hashAlg from rfl) ⟨usage, z, partyUInfo, partyVInfo⟩ nTotalOutputBits
    exact ⟨servesBlocks hinv, servesBlocksOnce hinv⟩
  · intro hashAlg totalOutputLen seed kdf h
    exact servesBlocks (RFC8017Mgf1.new_inv h)

def lastByteHmacs : Hmacs where
  digest alg key m := List.replicate (hashAlgDigestLen alg) ((key ++ m).getLastD 0)
  length_digest := fun _ _ _ => List.length_replicate

def lastByteHashes : Hashes where
  digest alg m := List.replicate (hashAlgDigestLen alg) (m.getLastD 0)
  length_digest := fun _ _ => List.length_replicate

theorem kdfs_serve_blocks_twoBytes : ∃ trace key,
    FixedBlockKdf.run (TcgTpm2KdfA.kdf lastByteHmacs)
        (.new (TcgTpm2KdfA.kdf lastByteHmacs) (TcgTpm2KdfA.new .sha1 [1] [2] none none 16))
        [.chunk [[0, 0], [0]], .chunk [[], [0, 0], []]] = .ok trace ∧
      Serves (TcgTpm2KdfA.kdf lastByteHmacs)
        (.new (TcgTpm2KdfA.kdf lastByteHmacs) (TcgTpm2KdfA.new .sha1 [1] [2] none none 16)) trace key ∧
      FrontOfBlocks (TcgTpm2KdfA.kdf lastByteHmacs) (TcgTpm2KdfA.new .sha1 [1] [2] none none 16) key := by
  refine ((kdfs_serve_blocks lastByteHashes lastByteHmacs).1 .sha1 [1] [2] none none 16).1 _ ?_
  refine ⟨.inl (by decide), fun written self' h => ?_⟩
  cases h
  refine ⟨.inr ⟨by decide, .inr ?_⟩, fun _ _ _ => trivial⟩
  exact rfl

/-- The short block at the end is what both slices are for. -/
theorem kdf_panics_twoSlices :
    (TcgTpm2KdfA.new .sha1 [1] [2] none none 16).remainingOutputLen = 2 ∧
    (BufferedFixedBlockOutputKdf.new (TcgTpm2KdfA.kdf lastByteHmacs)
      (TcgTpm2KdfA.new .sha1 [1] [2] none none 16)).generateChunk (TcgTpm2KdfA.kdf lastByteHmacs)
      [[0], [0]] = .error .panic := by
  refine ⟨rfl, ?_⟩
  have hdrain : copyFromIter copy [[0], [0]] [bufTail (List.replicate 20 0) 0] =
      ([], [[0], [0]], []) := by
    rw [copyFromIter]
    rfl
  have hloop : chunkLoop (TcgTpm2KdfA.kdf lastByteHmacs)
      (TcgTpm2KdfA.new .sha1 [1] [2] none none 16) ⟨20, by decide⟩ (List.replicate 20 0) 0 [[0], [0]] =
      .error .panic := by
    rw [chunkLoop]
    rfl
  have himpl : generateChunkImpl (TcgTpm2KdfA.kdf lastByteHmacs)
      (TcgTpm2KdfA.new .sha1 [1] [2] none none 16) [[0], [0]] (List.replicate 20 0) 0 =
      .error .panic := by
    rw [generateChunkImpl, failIf_neg (by decide), bind_ok rfl, hdrain]
    rw [bind_ok (debugAssert_pos (by decide))]
    exact bind_error hloop _
  exact bind_error himpl _

end CocoonFs.TpmKdfs
