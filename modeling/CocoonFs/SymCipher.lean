import CocoonFs.BlockTransformSteps

namespace CocoonFs.SymCipher

open Codes BigEndian Multiprecision SliceCursors BlockTransforms BlockTransformSteps List

variable {σ : Type}

section

variable (bt : BlockTransform σ) (blockLen : { n : Nat // 0 < n }) (enablePartialLastBlock : Bool)

def transformLoop (dst src : List (List Byte)) (scratch : List Byte) (st : σ) :
    Crypto (List Byte × σ) :=
  match _h : transformNextBlocks bt blockLen enablePartialLastBlock dst src scratch st with
  | .error e => .error e
  | .ok none => .ok ([], st)
  | .ok (some step) => do
    let (written, st) ← transformLoop step.dst step.src step.scratch step.st
    .ok (step.written ++ written, st)
termination_by dst.flatten.length
decreasing_by exact transformNextBlocks_dst_lt _h

def transformLoopInPlace (dst : List (List Byte)) (scratch : List Byte) (st : σ) :
    Crypto (List Byte × σ) :=
  match _h : transformNextBlocksInPlace bt blockLen enablePartialLastBlock dst scratch st with
  | .error e => .error e
  | .ok none => .ok ([], st)
  | .ok (some step) => do
    let (written, st) ← transformLoopInPlace step.dst step.scratch step.st
    .ok (step.written ++ written, st)
termination_by dst.flatten.length
decreasing_by exact transformNextBlocksInPlace_dst_lt _h

end

variable {bt : BlockTransform σ} {blockLen : { n : Nat // 0 < n }} {enablePartialLastBlock : Bool}

section Advances

variable {dst src : List (List Byte)} {st : σ} {step : Step σ} {front : List Byte}
  (h : Advances bt blockLen dst src st step front)

include h

theorem Advances.length_src : src.flatten.length = front.length + step.src.flatten.length := by
  rw [h.src_eq, length_append]

theorem Advances.allowed (hallowed : Allowed blockLen enablePartialLastBlock src.flatten.length) :
    Allowed blockLen enablePartialLastBlock step.src.flatten.length := by
  refine hallowed.imp_right fun hdvd => ?_
  rcases h.whole with hwhole | hdone
  · rw [Advances.length_src h] at hdvd
    exact (Nat.dvd_add_right hwhole).mp hdvd
  · rw [hdone]
    exact Nat.dvd_zero _

/-- What the step has transformed, and what there is left to transform from the state after it. -/
theorem Advances.transformAll_eq :
    (step.written ++ (transformAll bt blockLen step.st step.src.flatten).1,
        (transformAll bt blockLen step.st step.src.flatten).2) =
      transformAll bt blockLen st src.flatten := by
  have hwritten : step.written = (transformAll bt blockLen st front).1 :=
    congrArg Prod.fst h.transformed
  have hst : step.st = (transformAll bt blockLen st front).2 := congrArg Prod.snd h.transformed
  rw [h.src_eq, hwritten, hst]
  rcases h.whole with hwhole | hdone
  · rw [transformAll_append bt blockLen st _ hwhole]
  · rw [hdone, transformAll_nil, List.append_nil, List.append_nil]

end Advances

/-- The loop gets to its end, with each block of the source transformed once and in order. -/
theorem transformLoop_eq {dst src : List (List Byte)} {scratch : List Byte} (st : σ)
    (hscratch : scratch.length = blockLen.1) (hlen : dst.flatten.length = src.flatten.length)
    (hallowed : Allowed blockLen enablePartialLastBlock src.flatten.length) :
    transformLoop bt blockLen enablePartialLastBlock dst src scratch st =
      .ok (transformAll bt blockLen st src.flatten) := by
  induction hn : src.flatten.length using Nat.strong_induction_on
    generalizing dst src scratch st with
  | h n ih =>
    subst hn
    rw [transformLoop]
    by_cases hsrc : src.flatten = []
    · have hdst : dst.flatten = [] := eq_nil_of_length_eq_zero (by rw [hlen, hsrc]; rfl)
      have hdone := @transformNextBlocks_done σ bt blockLen enablePartialLastBlock dst src scratch st
        hdst hsrc
      split
      · rename_i he
        rw [hdone] at he
        cases he
      · rw [hsrc, transformAll_nil]
      · rename_i he
        rw [hdone] at he
        cases he
    · obtain ⟨step, front, hstep, hadvances⟩ :=
        @transformNextBlocks_advances σ bt blockLen enablePartialLastBlock dst src scratch st hscratch
          hlen hsrc hallowed
      have hpos := length_pos_iff.mpr hadvances.ne_nil
      have hsrcLen := Advances.length_src hadvances
      have hdstLen := congrArg List.length hadvances.dst_eq
      rw [length_drop] at hdstLen
      have hrest : transformLoop bt blockLen enablePartialLastBlock step.dst step.src step.scratch
          step.st = .ok (transformAll bt blockLen step.st step.src.flatten) :=
        ih step.src.flatten.length (by omega) step.st hadvances.scratch (by omega)
          (Advances.allowed hadvances hallowed) rfl
      split
      · rename_i he
        rw [hstep] at he
        cases he
      · rename_i he
        rw [hstep] at he
        cases he
      · rename_i step' he
        rw [hstep] at he
        cases he
        rw [bind_ok hrest, ← Advances.transformAll_eq hadvances]

theorem transformLoopInPlace_eq {dst : List (List Byte)} {scratch : List Byte} (st : σ)
    (hscratch : scratch.length = blockLen.1)
    (hallowed : Allowed blockLen enablePartialLastBlock dst.flatten.length) :
    transformLoopInPlace bt blockLen enablePartialLastBlock dst scratch st =
      .ok (transformAll bt blockLen st dst.flatten) := by
  induction hn : dst.flatten.length using Nat.strong_induction_on generalizing dst scratch st with
  | h n ih =>
    subst hn
    rw [transformLoopInPlace]
    by_cases hdst : dst.flatten = []
    · have hdone := @transformNextBlocksInPlace_done σ bt blockLen enablePartialLastBlock dst scratch
        st hdst
      split
      · rename_i he
        rw [hdone] at he
        cases he
      · rw [hdst, transformAll_nil]
      · rename_i he
        rw [hdone] at he
        cases he
    · obtain ⟨step, front, hstep, hsrc, hadvances⟩ :=
        @transformNextBlocksInPlace_advances σ bt blockLen enablePartialLastBlock dst scratch st
          hscratch hdst hallowed
      have hpos := length_pos_iff.mpr hadvances.ne_nil
      have hdstLen := Advances.length_src hadvances
      have hallowed' := Advances.allowed hadvances hallowed
      rw [hsrc] at hdstLen hallowed'
      have hrest : transformLoopInPlace bt blockLen enablePartialLastBlock step.dst step.scratch
          step.st = .ok (transformAll bt blockLen step.st step.dst.flatten) :=
        ih step.dst.flatten.length (by omega) step.st hadvances.scratch hallowed' rfl
      split
      · rename_i he
        rw [hstep] at he
        cases he
      · rename_i he
        rw [hstep] at he
        cases he
      · rename_i step' he
        rw [hstep] at he
        cases he
        rw [bind_ok hrest, ← Advances.transformAll_eq hadvances, hsrc]

/-- A block cipher mode of operation with a cipher keyed already. The initialization vector can be
retrieved, and the mode started from there again. -/
structure Mode (σ : Type) extends BlockTransform σ where
  blockLen : { n : Nat // 0 < n }
  supportsPartialLastBlock : Bool
  ivLen : Nat
  innerIvInit : List Byte → σ
  ivState : σ → List Byte
  length_ivState : ∀ st, (ivState st).length = ivLen
  innerIvInit_ivState : ∀ st, innerIvInit (ivState st) = st

variable (mode : Mode σ)

def checkMessageLength (dstLen : Nat) (ivOut : Option Nat) : Crypto Unit :=
  if dstLen % mode.blockLen.1 ≠ 0 then do
    failIf (mode.supportsPartialLastBlock = false) .invalidMessageLength
    failIf (ivOut.isSome = true) .internal
  else .ok ()

def newImplInstance (iv : List Byte) (ivOut : Option Nat) : Crypto σ := do
  failIf (iv.length ≠ mode.ivLen) .invalidIV
  failIf ((ivOut.map (· != mode.ivLen)).getD false = true) .internal
  .ok (mode.innerIvInit iv)

/-- What `encrypt()` and `decrypt()` do, which write the final initialization vector to the buffer
given, if there is one. -/
def transform (iv : List Byte) (dst src : List (List Byte)) (ivOut : Option Nat) :
    Crypto (List Byte × Option (List Byte)) := do
  let dstLen := totalLen dst
  checkMessageLength mode dstLen ivOut
  failIf (totalLen src ≠ dstLen) .internal
  let st ← newImplInstance mode iv ivOut
  let (written, st) ← transformLoop mode.toBlockTransform mode.blockLen
    mode.supportsPartialLastBlock dst src (List.replicate mode.blockLen.1 0) st
  .ok (written, ivOut.map fun _ => mode.ivState st)

def transformInPlace (iv : List Byte) (dst : List (List Byte)) (ivOut : Option Nat) :
    Crypto (List Byte × Option (List Byte)) := do
  checkMessageLength mode (totalLen dst) ivOut
  let st ← newImplInstance mode iv ivOut
  let (written, st) ← transformLoopInPlace mode.toBlockTransform mode.blockLen
    mode.supportsPartialLastBlock dst (List.replicate mode.blockLen.1 0) st
  .ok (written, ivOut.map fun _ => mode.ivState st)

/-- A message in pieces, each with the initialization vector that the one before has left. -/
def transformPieces (iv : List Byte) :
    List (List (List Byte) × List (List Byte)) → List (List Byte) × List (List Byte) →
    Crypto (List Byte)
  | [], (dst, src) => do
    let (written, _) ← transform mode iv dst src none
    .ok written
  | (dst, src) :: pieces, last => do
    let (written, iv) ← transform mode iv dst src (some mode.ivLen)
    let rest ← transformPieces (iv.getD []) pieces last
    .ok (written ++ rest)

variable {pieces : List (List (List Byte) × List (List Byte))}

section

variable {mode} {iv : List Byte} {dst src : List (List Byte)} {ivOut : Option Nat}

def IvOutFits (mode : Mode σ) (len : Nat) (ivOut : Option Nat) : Prop :=
  ∀ ivOutLen, ivOut = some ivOutLen → ivOutLen = mode.ivLen ∧ mode.blockLen.1 ∣ len

theorem checkMessageLength_ok {len : Nat}
    (hallowed : Allowed mode.blockLen mode.supportsPartialLastBlock len)
    (hout : IvOutFits mode len ivOut) : checkMessageLength mode len ivOut = .ok () := by
  rw [checkMessageLength]
  split
  · rename_i hpartial
    have hnot : ¬mode.blockLen.1 ∣ len := fun hdvd => hpartial (Nat.mod_eq_zero_of_dvd hdvd)
    have hsupports := hallowed.resolve_right hnot
    rw [hsupports, failIf_neg (by decide), bind_ok rfl]
    cases ivOut with
    | none => rfl
    | some ivOutLen => exact absurd (hout ivOutLen rfl).2 hnot
  · rfl

theorem newImplInstance_ok {len : Nat} (hiv : iv.length = mode.ivLen)
    (hout : IvOutFits mode len ivOut) :
    newImplInstance mode iv ivOut = .ok (mode.innerIvInit iv) := by
  rw [newImplInstance, failIf_neg (not_not.mpr hiv), bind_ok rfl]
  cases ivOut with
  | none => rfl
  | some ivOutLen =>
    rw [(hout ivOutLen rfl).1, Option.map_some, bne_self_eq_false]
    rfl

variable (mode) in
/-- The message with all blocks transformed, and the state after it. -/
def transformed (iv : List Byte) (msg : List Byte) : List Byte × σ :=
  transformAll mode.toBlockTransform mode.blockLen (mode.innerIvInit iv) msg

/-- Started again from the vector retrieved, the mode goes on where it has been. -/
theorem transformed_append (iv : List Byte) {xs : List Byte} (ys : List Byte)
    (h : mode.blockLen.1 ∣ xs.length) :
    (transformed mode iv (xs ++ ys)).1 = (transformed mode iv xs).1 ++
      (transformed mode (mode.ivState (transformed mode iv xs).2) ys).1 := by
  rw [transformed, transformAll_append _ _ _ ys h]
  rw [transformed, transformed, mode.innerIvInit_ivState]

theorem transform_eq (hiv : iv.length = mode.ivLen) (hlen : totalLen dst = totalLen src)
    (hallowed : Allowed mode.blockLen mode.supportsPartialLastBlock (totalLen src))
    (hout : IvOutFits mode (totalLen src) ivOut) :
    transform mode iv dst src ivOut = .ok ((transformed mode iv src.flatten).1,
      ivOut.map fun _ => mode.ivState (transformed mode iv src.flatten).2) := by
  have hflat := hlen
  have hsrc := hallowed
  rw [totalLen_eq, totalLen_eq] at hflat
  rw [totalLen_eq] at hsrc
  have hloop : transformLoop mode.toBlockTransform mode.blockLen mode.supportsPartialLastBlock dst
      src (List.replicate mode.blockLen.1 0) (mode.innerIvInit iv) =
      .ok (transformed mode iv src.flatten) :=
    transformLoop_eq _ length_replicate hflat hsrc
  rw [transform, hlen, bind_ok (checkMessageLength_ok hallowed hout),
    failIf_neg (not_not.mpr rfl), bind_ok rfl, bind_ok (newImplInstance_ok hiv hout), bind_ok hloop]

theorem transformInPlace_eq (hiv : iv.length = mode.ivLen)
    (hallowed : Allowed mode.blockLen mode.supportsPartialLastBlock (totalLen dst))
    (hout : IvOutFits mode (totalLen dst) ivOut) :
    transformInPlace mode iv dst ivOut = .ok ((transformed mode iv dst.flatten).1,
      ivOut.map fun _ => mode.ivState (transformed mode iv dst.flatten).2) := by
  have hdst := hallowed
  rw [totalLen_eq] at hdst
  have hloop : transformLoopInPlace mode.toBlockTransform mode.blockLen
      mode.supportsPartialLastBlock dst (List.replicate mode.blockLen.1 0) (mode.innerIvInit iv) =
      .ok (transformed mode iv dst.flatten) :=
    transformLoopInPlace_eq _ length_replicate hdst
  rw [transformInPlace, bind_ok (checkMessageLength_ok hallowed hout),
    bind_ok (newImplInstance_ok hiv hout), bind_ok hloop]

/-- Messages of equal length in whole blocks, all but the last one perhaps. -/
structure PiecesFit (mode : Mode σ) (pieces : List (List (List Byte) × List (List Byte)))
    (last : List (List Byte) × List (List Byte)) : Prop where
  length_eq : ∀ p ∈ pieces, totalLen p.1 = totalLen p.2
  whole : ∀ p ∈ pieces, mode.blockLen.1 ∣ totalLen p.2
  last_length_eq : totalLen last.1 = totalLen last.2
  last_allowed : Allowed mode.blockLen mode.supportsPartialLastBlock (totalLen last.2)

theorem dvd_length_pieces {d : Nat}
    (h : ∀ p ∈ pieces, d ∣ totalLen p.2) : d ∣ (pieces.map (·.2.flatten)).flatten.length := by
  induction pieces with
  | nil => exact Nat.dvd_zero d
  | cons p pieces ih =>
    have hp := h p mem_cons_self
    rw [totalLen_eq] at hp
    rw [map_cons, flatten_cons, length_append]
    exact Nat.dvd_add hp (ih fun q hq => h q (mem_cons_of_mem _ hq))

theorem transformPieces_eq
    {last : List (List Byte) × List (List Byte)} (h : PiecesFit mode pieces last)
    (hiv : iv.length = mode.ivLen) :
    transformPieces mode iv pieces last =
      .ok (transformed mode iv ((pieces.map (·.2.flatten)).flatten ++ last.2.flatten)).1 := by
  induction pieces generalizing iv with
  | nil =>
    rw [transformPieces, bind_ok (transform_eq hiv h.last_length_eq h.last_allowed (by
      intro _ hnone
      cases hnone))]
    rfl
  | cons p pieces ih =>
    have hp : p ∈ p :: pieces := mem_cons_self
    have hrest : PiecesFit mode pieces last :=
      { h with
        length_eq := fun q hq => h.length_eq q (mem_cons_of_mem _ hq)
        whole := fun q hq => h.whole q (mem_cons_of_mem _ hq) }
    have hwhole := h.whole p hp
    have hout : IvOutFits mode (totalLen p.2) (some mode.ivLen) := by
      intro ivOutLen hsome
      cases hsome
      exact ⟨rfl, hwhole⟩
    have hfirst := transform_eq hiv (h.length_eq p hp) (.inr hwhole) hout
    have hiv' := mode.length_ivState (transformed mode iv p.2.flatten).2
    rw [totalLen_eq] at hwhole
    rw [transformPieces, bind_ok hfirst]
    dsimp only [Option.map_some, Option.getD_some]
    rw [bind_ok (ih hrest hiv'), map_cons, flatten_cons, append_assoc,
      transformed_append iv _ hwhole]

end

/-- Whatever the slices of source and destination, the blocks of the message are transformed from
left to right, with a partial last block filled up and cut off again, and the same in place. A
message in pieces of whole blocks comes out as the one at once. -/
theorem transform_blocks :
    (∀ (bt : BlockTransform σ) (blockLen : { n : Nat // 0 < n }) (enablePartialLastBlock : Bool)
        (dst src : List (List Byte)) (scratch : List Byte) (st : σ),
      scratch.length = blockLen.1 → totalLen dst = totalLen src →
      enablePartialLastBlock = true ∨ blockLen.1 ∣ totalLen src →
        (transformAll bt blockLen st src.flatten).1.length = totalLen dst ∧
          transformLoop bt blockLen enablePartialLastBlock dst src scratch st =
            .ok (transformAll bt blockLen st src.flatten) ∧
          transformLoopInPlace bt blockLen enablePartialLastBlock src scratch st =
            .ok (transformAll bt blockLen st src.flatten)) ∧
    ∀ (mode : Mode σ) (iv : List Byte) (pieces : List (List (List Byte) × List (List Byte)))
        (last : List (List Byte) × List (List Byte)) (dst src : List (List Byte)),
      iv.length = mode.ivLen → PiecesFit mode pieces last →
      src.flatten = (pieces.map (·.2.flatten)).flatten ++ last.2.flatten →
      totalLen dst = totalLen src →
        ∃ out, transformPieces mode iv pieces last = .ok out ∧
          transform mode iv dst src none = .ok (out, none) ∧
          transformInPlace mode iv src none = .ok (out, none) := by
  refine ⟨?_, ?_⟩
  · intro bt blockLen enablePartialLastBlock dst src scratch st hscratch hlen hallowed
    rw [totalLen_eq] at hallowed
    rw [hlen, totalLen_eq]
    rw [totalLen_eq, totalLen_eq] at hlen
    exact ⟨length_transformAll bt blockLen st _, transformLoop_eq st hscratch hlen hallowed,
      transformLoopInPlace_eq st hscratch hallowed⟩
  · intro mode iv pieces last dst src hiv hpieces hsrc hlen
    have hallowed : Allowed mode.blockLen mode.supportsPartialLastBlock (totalLen src) := by
      refine hpieces.last_allowed.imp_right fun hdvd => ?_
      rw [totalLen_eq, hsrc, length_append, ← totalLen_eq last.2]
      exact Nat.dvd_add (dvd_length_pieces hpieces.whole) hdvd
    have hout : IvOutFits mode (totalLen src) none := by
      intro _ hnone
      cases hnone
    refine ⟨_, transformPieces_eq hpieces hiv, ?_, ?_⟩
    · rw [transform_eq hiv hlen hallowed hout, hsrc]
      rfl
    · rw [transformInPlace_eq hiv hallowed hout, hsrc]
      rfl

def counterMode : Mode (BitVec 16) where
  transform st dst src :=
    ((List.range dst.length).map fun i =>
      (src.getD dst).getD i 0 ^^^ (bytes 2 st.toNat).getD i 0, st + 1)
  length_transform st dst src := by rw [List.length_map, List.length_range]
  transform_some st dst src h := by rw [h]; rfl
  blockLen := ⟨2, Nat.two_pos⟩
  supportsPartialLastBlock := true
  ivLen := 2
  innerIvInit iv := BitVec.ofNat 16 (value iv)
  ivState st := bytes 2 st.toNat
  length_ivState st := length_bytes _ _
  innerIvInit_ivState st := by
    rw [value_bytes st.isLt, BitVec.ofNat_toNat, BitVec.setWidth_eq]

theorem transform_blocks_counterMode :
    transformLoop counterMode.toBlockTransform counterMode.blockLen true [[0], [0, 0], [0]]
        [[1, 2, 3], [], [4]] [0, 0] 0x00ff =
      .ok (transformAll counterMode.toBlockTransform counterMode.blockLen 0x00ff
        [1, 2, 3, 4]) ∧
    ∃ out, transformPieces counterMode [0x00, 0xff] [([[0], [0]], [[1, 2]])] ([[0]], [[], [3]]) =
        .ok out ∧
      transform counterMode [0x00, 0xff] [[0, 0, 0]] [[1], [2, 3]] none = .ok (out, none) ∧
      transformInPlace counterMode [0x00, 0xff] [[1], [2, 3]] none = .ok (out, none) :=
  ⟨(transform_blocks.1 counterMode.toBlockTransform counterMode.blockLen true
      [[0], [0, 0], [0]] [[1, 2, 3], [], [4]] _ _ rfl rfl (.inl rfl)).2.1,
    transform_blocks.2 counterMode _ _ _ _ _ rfl
      ⟨by decide, by decide, rfl, .inl rfl⟩ rfl rfl⟩

end CocoonFs.SymCipher
