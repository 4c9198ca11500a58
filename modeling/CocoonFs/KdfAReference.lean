import CocoonFs.TpmKdfs

namespace CocoonFs.KdfAReference

open Codes BigEndian Layout Multiprecision SliceCursors FixedBlockKdf FixedBlockKdfRuns List
  KdfStreams TpmKdfs

/-- The arguments of `new()`. -/
structure KdfA where
  hashAlg : TpmiAlgHash
  key : List Byte
  input : KdfAInput
  bits : BitVec 32

namespace KdfA

variable (hmacs : Hmacs) (a : KdfA) (sep : List Byte)

def octets : Nat := (a.bits.toNat + 7) / 8

def digestLen : Nat := hashAlgDigestLen a.hashAlg

def hmac : HmacInstance := .new a.hashAlg a.key

def new : TcgTpm2Kdf HmacInstance KdfAInput :=
  TcgTpm2KdfA.new a.hashAlg a.key a.input.label a.input.contextU a.input.contextV a.bits

/-- The excess bits are the most significant ones. -/
def clearExcess (b : Byte) : Byte :=
  if a.bits.toNat % 8 = 0 then b else b &&& BitVec.ofNat 8 (2 ^ (a.bits.toNat % 8) - 1)

/-- The counter's block, with the octets there are between the label and the context. -/
def block (i : Nat) : List Byte :=
  hmacs.digest a.hashAlg a.key (bytes 4 i ++ a.input.label ++ sep ++ a.input.contextU.getD [] ++
    a.input.contextV.getD [] ++ bytes 4 a.bits.toNat)

/-- What is left of `KDFa()`'s output from some block on. -/
def outputFrom (i : Nat) : List Byte :=
  let blocks := (List.range' (i + 1) (a.octets - i)).flatMap (a.block hmacs sep)
  blocks.take (a.octets - i * a.digestLen)

def output : List Byte := (a.outputFrom hmacs sep 0).modifyHead a.clearExcess

/-- A zero byte, unless the label ends in one itself. -/
def separator : List Byte := if a.input.label.getLast? = some 0 then [] else [0]

def labelZeroSep : List Byte := (TcgTpm2KdfA.labelZeroSep a.input).getD []

/-- An instance that has generated so many blocks. -/
def generated (i : Nat) : TcgTpm2Kdf HmacInstance KdfAInput :=
  { a.new with
    inst := if i * a.digestLen < a.octets then some a.hmac else none
    nBlocksGenerated := i }

/-- The first octet's excess bits cleared, in what is left from its beginning. -/
def masked (i : Nat) (bs : List Byte) : List Byte :=
  if i = 0 then bs.modifyHead a.clearExcess else bs

theorem digestLen_pos : 0 < a.digestLen := hashAlgDigestLen_pos a.hashAlg

section Blocks

variable {hmacs : Hmacs} {a : KdfA} {sep : List Byte} {i : Nat}

theorem length_block (hmacs : Hmacs) (a : KdfA) (sep : List Byte) (i : Nat) :
    (a.block hmacs sep i).length = a.digestLen := hmacs.length_digest _ _ _

theorem outputFrom_eq (h : i * a.digestLen < a.octets) : a.outputFrom hmacs sep i =
    (a.block hmacs sep (i + 1)).take (a.octets - i * a.digestLen) ++
      a.outputFrom hmacs sep (i + 1) := by
  have hlt : i < a.octets := lt_of_le_of_lt (Nat.le_mul_of_pos_right i a.digestLen_pos) h
  obtain ⟨count, hcount⟩ : ∃ count, a.octets - i = count + 1 :=
    Nat.exists_eq_succ_of_ne_zero (by omega)
  have hcount' : a.octets - (i + 1) = count := by omega
  rw [outputFrom, outputFrom, hcount, hcount', range'_succ, flatMap_cons, take_append,
    length_block, Nat.sub_sub, Nat.succ_mul]

theorem new_eq : a.new = a.generated 0 := by
  rw [generated, new, TcgTpm2KdfA.new, newKdf]
  congr 1
  refine if_congr ?_ rfl rfl
  rw [ne_eq, ← BitVec.toNat_inj, show BitVec.toNat (0 : BitVec 32) = 0 from rfl, octets]
  omega

theorem advance_generated : (a.generated i).advance a.hmac = a.generated (i + 1) := by
  rw [TcgTpm2Kdf.advance, generated, generated]
  congr 1
  refine if_congr ?_ rfl rfl
  rw [Nat.succ_mul]
  exact Nat.lt_sub_iff_add_lt'

theorem firstOctetClearMask_eq (i : Nat) (b : Byte) :
    b &&& ~~~(a.generated i).firstOctetClearMask = if i = 0 then a.clearExcess b else b := by
  have hmask : ∀ k < 8, ~~~(~~~(0 : Byte) <<< k) = BitVec.ofNat 8 (2 ^ k - 1) := by decide
  rw [TcgTpm2Kdf.firstOctetClearMask, clearExcess]
  change b &&& ~~~(if i ≠ 0 ∨ a.bits.toNat % 8 = 0 then 0 else _) = _
  by_cases hi : i = 0
  · by_cases hbits : a.bits.toNat % 8 = 0
    · rw [if_pos (.inr hbits), if_pos hi, if_pos hbits]
      exact BitVec.and_allOnes
    · rw [if_neg (not_or.mpr ⟨not_not.mpr hi, hbits⟩), if_pos hi, if_neg hbits]
      exact congrArg _ (hmask _ (Nat.mod_lt _ (by decide)))
  · rw [if_pos (.inl hi), if_neg hi]
    exact BitVec.and_allOnes

theorem take_fillZeros {bs : List Byte} {len left : Nat} (h : bs.length = len) :
    (if left < len then fillZeros bs left else bs).take (min len left) = bs.take left := by
  subst h
  split
  · rename_i hlt
    rw [min_eq_right hlt.le, fillZeros, take_append_of_le_length, take_take, min_self]
    rw [length_take, min_eq_left hlt.le]
  · rw [min_comm, ← take_eq_take_min]

theorem take_block (h : i * a.digestLen < a.octets) :
    ((a.generated i).block (TcgTpm2KdfA.finish hmacs) a.hmac).take
        (min (a.generated i).blockLen (a.generated i).remainingOutputLen) =
      a.masked i ((a.block hmacs a.labelZeroSep (i + 1)).take (a.octets - i * a.digestLen)) := by
  have hlen := length_block hmacs a a.labelZeroSep (i + 1)
  obtain ⟨b, bs, hdigest⟩ := exists_cons_of_length_pos (lt_of_lt_of_eq a.digestLen_pos hlen.symm)
  have hfinish : (TcgTpm2KdfA.finish hmacs).digest (a.generated i).input
      (a.generated i).nTotalOutputBits ((a.generated i).nBlocksGenerated + 1) a.hmac = b :: bs :=
    hdigest
  obtain ⟨left, hleft⟩ : ∃ left, a.octets - i * a.digestLen = left + 1 :=
    Nat.exists_eq_succ_of_ne_zero (by omega)
  have hremaining : (a.generated i).remainingOutputLen = left + 1 := hleft
  rw [TcgTpm2Kdf.block, hfinish, take_fillZeros, hremaining, hleft, hdigest]
  · change ((b &&& ~~~(a.generated i).firstOctetClearMask) :: bs).take _ = _
    rw [firstOctetClearMask_eq, masked, take_succ_cons, take_succ_cons]
    split <;> rfl
  · exact (congrArg length hdigest).symm.trans hlen

theorem masked_outputFrom (h : i * a.digestLen < a.octets) :
    a.masked i (a.outputFrom hmacs sep i) =
      a.masked i ((a.block hmacs sep (i + 1)).take (a.octets - i * a.digestLen)) ++
        a.masked (i + 1) (a.outputFrom hmacs sep (i + 1)) := by
  rw [outputFrom_eq h, masked, masked, masked, if_neg (Nat.succ_ne_zero i)]
  split
  · obtain ⟨b, bs, hblock⟩ := exists_cons_of_length_pos (lt_of_lt_of_eq a.digestLen_pos
      (length_block hmacs a sep (i + 1)).symm)
    obtain ⟨left, hleft⟩ : ∃ left, a.octets - i * a.digestLen = left + 1 :=
      Nat.exists_eq_succ_of_ne_zero (by omega)
    rw [hblock, hleft, take_succ_cons]
    rfl
  · rfl

/-- From any number of blocks on, there is another one unless all of it is there. -/
theorem generateBlock_generated (i : Nat) {buf : List Byte}
    (hbuf : buf.length = (TcgTpm2KdfA.kdf hmacs).blockLen (a.generated i)) :
    (TcgTpm2KdfA.kdf hmacs).generateBlock (a.generated i) buf =
      if i * a.digestLen < a.octets
      then .ok ((a.generated i).block (TcgTpm2KdfA.finish hmacs) a.hmac,
        min (a.generated i).blockLen (a.generated i).remainingOutputLen, a.generated (i + 1))
      else fail .internal := by
  split
  · rename_i h
    rw [← advance_generated]
    exact TcgTpm2Kdf.generateBlock_eq _ _ (if_pos h) rfl hbuf
      (TcgTpm2Kdf.nBlocksGenerated_lt (Nat.sub_pos_of_lt h))
  · rename_i h
    have hinst : (a.generated i).inst = none := if_neg h
    exact (bind_ok (debugAssert_pos hbuf) _).trans (by rw [hinst])

/-- What comes block by block is what `KDFa()` begins with. -/
theorem blocks_generated {n : Nat} {stream : List Byte} {kdf' : TcgTpm2Kdf HmacInstance KdfAInput}
    (h : blocks (TcgTpm2KdfA.kdf hmacs) n (a.generated i) = some (stream, kdf')) :
    kdf' = a.generated (i + n) ∧
      stream ++ a.masked (i + n) (a.outputFrom hmacs a.labelZeroSep (i + n)) =
        a.masked i (a.outputFrom hmacs a.labelZeroSep i) := by
  induction n generalizing i stream with
  | zero =>
    cases h
    exact ⟨rfl, rfl⟩
  | succ n ih =>
    rw [blocks, generateBlock_generated i length_replicate] at h
    by_cases hi : i * a.digestLen < a.octets
    · rw [if_pos hi] at h
      obtain ⟨⟨rest, kdf₁⟩, hrest, hstream⟩ := Option.map_eq_some_iff.mp h
      cases hstream
      obtain ⟨hkdf, hih⟩ := ih hrest
      rw [Nat.add_right_comm, Nat.add_assoc] at hkdf hih
      refine ⟨hkdf, ?_⟩
      rw [masked_outputFrom hi, ← hih, append_assoc, take_block hi]
    · rw [if_neg hi] at h
      cases h

end Blocks

/-- What an instance delivers for all there is of it, and that it ends there. -/
structure Delivers (reference : List Byte) : Prop where
  generate (output : List (List Byte)) (htotal : totalLen output = a.octets)
    (hfits : ShortBlockFits (TcgTpm2KdfA.kdf hmacs) a.octets a.new 0 output) :
    generate (TcgTpm2KdfA.kdf hmacs) a.new a.new.remainingOutputLen output = .ok reference
  generateAndXor (output : List (List Byte)) (htotal : totalLen output = a.octets) :
    generateAndXor (TcgTpm2KdfA.kdf hmacs) a.new a.new.remainingOutputLen output =
      .ok (zipWith (· ^^^ ·) output.flatten reference)
  ends (n : Nat) (stream buf : List Byte) (kdf' : TcgTpm2Kdf HmacInstance KdfAInput)
    (hblocks : blocks (TcgTpm2KdfA.kdf hmacs) n a.new = some (stream, kdf'))
    (hbuf : buf.length = (TcgTpm2KdfA.kdf hmacs).blockLen kdf') :
    if 0 < kdf'.remainingOutputLen
    then ∃ block, (TcgTpm2KdfA.kdf hmacs).generateBlock kdf' buf = .ok block
    else (TcgTpm2KdfA.kdf hmacs).generateBlock kdf' buf = fail .internal

section Reference

variable {hmacs : Hmacs} {a : KdfA} {sep : List Byte}

theorem front_eq {stream : List Byte} (h : FrontOfBlocks (TcgTpm2KdfA.kdf hmacs) a.new stream)
    (hlen : stream.length = a.octets) : stream = a.output hmacs a.labelZeroSep := by
  obtain ⟨n, blocks, kdf', hblocks, hstart⟩ := h
  rw [new_eq] at hblocks
  obtain ⟨-, hfront⟩ := blocks_generated hblocks
  refine (hstart.trans ⟨_, hfront⟩).eq_of_length_le ?_
  rw [masked, if_pos rfl, length_modifyHead, outputFrom, hlen, Nat.zero_mul]
  exact length_take_le _ _

theorem delivers_labelZeroSep : a.Delivers hmacs (a.output hmacs a.labelZeroSep) := by
  have hserves : ServesBlocksOnce (TcgTpm2Kdf.lawful (TcgTpm2KdfA.finish hmacs)) a.new :=
    servesBlocksOnce (newKdf_inv rfl a.input a.bits)
  have hremaining : a.new.remainingOutputLen = a.octets := by
    rw [TcgTpm2Kdf.remainingOutputLen, show a.new.nBlocksGenerated = 0 from rfl, Nat.zero_mul]
    rfl
  refine ⟨?_, ?_, ?_⟩
  · intro output htotal hfits
    rw [← hremaining] at hfits
    obtain ⟨stream, hok, hlen, hfront⟩ :=
      ((hserves output).2 (htotal.trans hremaining.symm).le).2 hfits
    rw [← front_eq hfront (hlen.trans htotal)]
    exact hok
  · intro output htotal
    obtain ⟨stream, hok, hlen, hfront⟩ :=
      ((hserves output).2 (htotal.trans hremaining.symm).le).1
    rw [← front_eq hfront (hlen.trans htotal)]
    exact hok
  · intro n stream buf kdf' hblocks hbuf
    rw [new_eq] at hblocks
    obtain ⟨rfl, -⟩ := blocks_generated hblocks
    rw [generateBlock_generated _ hbuf]
    by_cases hlt : (0 + n) * a.digestLen < a.octets
    · have hpos : 0 < (a.generated (0 + n)).remainingOutputLen := Nat.sub_pos_of_lt hlt
      rw [if_pos hpos]
      exact ⟨_, if_pos hlt⟩
    · have hzero : ¬ 0 < (a.generated (0 + n)).remainingOutputLen :=
        fun hpos => hlt (Nat.lt_of_sub_pos hpos)
      rw [if_neg hzero]
      exact if_neg hlt

theorem labelZeroSep_eq (h : a.input.label ≠ []) : a.labelZeroSep = a.separator := by
  rw [labelZeroSep, TcgTpm2KdfA.labelZeroSep, separator, getLast?_eq_some_getLast h]
  by_cases hlast : a.input.label.getLast h = 0
  · rw [hlast]
    rfl
  · rw [if_neg fun hsome => hlast (Option.some.inj hsome), Option.map_some, Option.getD_some,
      if_pos (bne_iff_ne.mpr hlast)]
    rfl

/-- An HMAC that tells even lengths from odd ones. -/
def parityHmacs : Hmacs where
  digest alg _ m := replicate (hashAlgDigestLen alg) (if m.length % 2 = 0 then 0 else 255)
  length_digest := fun _ _ _ => length_replicate

theorem head_output (h : a.bits ≠ 0) : (a.output parityHmacs sep).head? = some (a.clearExcess
    (if (bytes 4 1 ++ a.input.label ++ sep ++ a.input.contextU.getD [] ++
      a.input.contextV.getD [] ++ bytes 4 a.bits.toNat).length % 2 = 0 then 0 else 255)) := by
  have hpos : 0 < a.bits.toNat := Nat.pos_of_ne_zero fun hzero => h (BitVec.eq_of_toNat_eq hzero)
  obtain ⟨len, hlen⟩ := Nat.exists_eq_succ_of_ne_zero a.digestLen_pos.ne'
  obtain ⟨octets, hoctets⟩ : ∃ octets, a.octets = octets + 1 :=
    Nat.exists_eq_succ_of_ne_zero (by rw [KdfA.octets]; omega)
  rw [output, outputFrom_eq (by omega), Nat.zero_mul, hoctets, block, parityHmacs]
  change (modifyHead _ (take _ (replicate a.digestLen _) ++ _)).head? = _
  rw [hlen, replicate_succ]
  rfl

/-- With an empty label, there's no separator where there should be one. -/
theorem not_delivers (hlabel : a.input.label = []) (hbits : a.bits ≠ 0) :
    ¬ a.Delivers parityHmacs (a.output parityHmacs a.separator) := by
  intro h
  have hfits : ShortBlockFits (TcgTpm2KdfA.kdf parityHmacs) a.octets a.new 0
      [replicate a.octets 0] := by
    right
    rw [TailWhole]
    split <;> trivial
  have htotal : totalLen [replicate a.octets (0 : Byte)] = a.octets := by
    rw [totalLen_eq, flatten_singleton, length_replicate]
  have houtputs := Except.ok.inj ((h.generate _ htotal hfits).symm.trans
    (delivers_labelZeroSep.generate _ htotal hfits))
  have hmask : ∀ k < 8, (if k = 0 then 255 else (255 : Byte) &&& BitVec.ofNat 8 (2 ^ k - 1)) ≠
      if k = 0 then 0 else (0 : Byte) &&& BitVec.ofNat 8 (2 ^ k - 1) := by decide
  have hne : a.clearExcess 255 ≠ a.clearExcess 0 := hmask _ (Nat.mod_lt _ (by decide))
  have hheads := congrArg head? houtputs
  have hsep : a.labelZeroSep = [] := by
    rw [labelZeroSep, TcgTpm2KdfA.labelZeroSep, hlabel]
    rfl
  have hsep' : a.separator = [0] := by
    rw [separator, hlabel]
    rfl
  rw [hsep, hsep', head_output hbits, head_output hbits, Option.some.injEq] at hheads
  simp only [length_append, length_cons, length_nil] at hheads
  split at hheads <;> split at hheads
  · omega
  · exact hne hheads.symm
  · exact hne hheads
  · omega

/-- The octets are those of `KDFa()` unless the label is empty, which the separator has been
forgotten for. -/
theorem delivers_iff (a : KdfA) : (∀ hmacs, a.Delivers hmacs (a.output hmacs a.separator)) ↔
    a.input.label ≠ [] ∨ a.bits = 0 := by
  constructor
  · intro h
    by_contra hnot
    obtain ⟨hlabel, hbits⟩ := not_or.mp hnot
    exact not_delivers (not_not.mp hlabel) hbits (h parityHmacs)
  · rintro (hlabel | hbits) hmacs
    · rw [← labelZeroSep_eq hlabel]
      exact delivers_labelZeroSep
    · have hnil : ∀ sep, a.output hmacs sep = [] := by
        intro sep
        have hoctets : a.octets = 0 := by
          rw [octets, hbits]
          rfl
        rw [output, outputFrom, hoctets, Nat.zero_sub, take_zero]
        rfl
      rw [hnil, ← hnil]
      exact delivers_labelZeroSep

def emptyLabel : KdfA := ⟨.sha1, [1], ⟨[], none, none⟩, 8⟩

theorem delivers_without_separator :
    ¬ emptyLabel.Delivers parityHmacs (emptyLabel.output parityHmacs emptyLabel.separator) :=
  not_delivers rfl (by decide)

end Reference

end KdfA

end CocoonFs.KdfAReference
