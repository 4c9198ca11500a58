import CocoonFs.BlockTransforms

namespace CocoonFs.BlockTransformSteps

open Codes Multiprecision SliceCursors BlockTransforms List

variable {σ : Type} {bt : BlockTransform σ} {blockLen : { n : Nat // 0 < n }}

/-- A step transforms some of the source from its front, in whole blocks unless it is all there is
left, and leaves the result in as much of the destination. -/
structure Advances (bt : BlockTransform σ) (blockLen : { n : Nat // 0 < n })
    (dst src : List (List Byte)) (st : σ) (step : Step σ) (front : List Byte) : Prop where
  ne_nil : front ≠ []
  src_eq : src.flatten = front ++ step.src.flatten
  dst_eq : step.dst.flatten = dst.flatten.drop front.length
  whole : blockLen.1 ∣ front.length ∨ step.src.flatten = []
  transformed : (step.written, step.st) = transformAll bt blockLen st front
  scratch : step.scratch.length = blockLen.1

def Allowed (blockLen : { n : Nat // 0 < n }) (enablePartialLastBlock : Bool) (len : Nat) : Prop :=
  enablePartialLastBlock = true ∨ blockLen.1 ∣ len

theorem copy_eq (dst src : List (List Byte)) :
    (copyFromIter copy dst src).1 = src.flatten.take dst.flatten.length ∧
      (copyFromIter copy dst src).2.1.flatten = dst.flatten.drop src.flatten.length ∧
      (copyFromIter copy dst src).2.2.flatten = src.flatten.drop dst.flatten.length := by
  obtain ⟨hwritten, hdst, hsrc⟩ := copyFromIter_spec copy dst src
  have hcopy : copy = fun _ b => b := rfl
  rw [hcopy, zipWith_snd, ← hcopy] at hwritten
  exact ⟨hwritten, hdst, hsrc⟩

theorem gather_eq {scratch firstSlice : List Byte} (src : List (List Byte))
    (hscratch : scratch.length = blockLen.1) (hfirst : firstSlice.length ≤ blockLen.1) :
    ∃ tail src', gather scratch firstSlice src =
        ((firstSlice ++ src.flatten).take blockLen.1 ++ tail,
          ((firstSlice ++ src.flatten).take blockLen.1).length, src') ∧
      src'.flatten = (firstSlice ++ src.flatten).drop blockLen.1 ∧
      ((firstSlice ++ src.flatten).take blockLen.1 ++ tail).length = blockLen.1 := by
  obtain ⟨hwritten, -, hsrc⟩ := copy_eq [scratch.drop firstSlice.length] src
  rw [flatten_singleton, length_drop, hscratch] at hwritten hsrc
  have hblock : (firstSlice ++ src.flatten).take blockLen.1 =
      firstSlice ++ src.flatten.take (blockLen.1 - firstSlice.length) := by
    rw [List.take_append, take_of_length_le hfirst]
  rw [gather, hwritten, hblock, length_append]
  refine ⟨_, _, rfl, ?_, ?_⟩
  · rw [hsrc, drop_append, drop_of_length_le hfirst, List.nil_append]
  · rw [length_append, length_append, length_drop, hscratch, length_take]
    omega

theorem fillPartial_eq {enablePartialLastBlock : Bool} {block tail : List Byte}
    (hlen : (block ++ tail).length = blockLen.1)
    (hallowed : Allowed blockLen enablePartialLastBlock block.length) (hne : block ≠ []) :
    fillPartial blockLen enablePartialLastBlock (block ++ tail) block.length =
      .ok (block ++ List.replicate (blockLen.1 - block.length) 0) := by
  have hpos := length_pos_iff.mpr hne
  have hle := hlen
  rw [length_append] at hle
  rw [fillPartial]
  split
  · rename_i hpartial
    have henable : enablePartialLastBlock = true := by
      refine hallowed.resolve_right fun hdvd => hpartial ?_
      exact le_antisymm (by omega) (Nat.le_of_dvd hpos hdvd)
    rw [henable, if_neg (by decide), take_left, hlen]
  · rename_i hfull
    have htail : tail = [] := eq_nil_of_length_eq_zero (by omega)
    rw [htail, not_not.mp hfull, Nat.sub_self]
    rfl

theorem transformAll_block (st : σ) {block : List Byte} (hne : block ≠ [])
    (hblock : block.length ≤ blockLen.1) :
    transformAll bt blockLen st block =
      ((bt.transform st (block ++ List.replicate (blockLen.1 - block.length) 0) none).1.take
          block.length,
        (bt.transform st (block ++ List.replicate (blockLen.1 - block.length) 0) none).2) :=
  transformAll_partial bt blockLen st hne hblock

variable {step : Step σ} {firstDstSlice firstSrcSlice : List Byte} {dst' src' : List (List Byte)}
  {firstDstSlice : List Byte} {bs : List Byte}

section

variable {enablePartialLastBlock : Bool} {dst src : List (List Byte)} {scratch : List Byte}

theorem take_ne_nil (h : bs ≠ []) : bs.take blockLen.1 ≠ [] := by
  rw [← length_pos_iff] at h ⊢
  rw [length_take]
  omega

theorem Allowed.take (h : Allowed blockLen enablePartialLastBlock bs.length) :
    Allowed blockLen enablePartialLastBlock (bs.take blockLen.1).length := by
  refine h.imp_right fun hdvd => ?_
  rw [length_take]
  rcases Nat.eq_zero_or_pos bs.length with hzero | hpos
  · rw [hzero, Nat.min_zero]
    exact dvd_zero _
  · rw [min_eq_left (Nat.le_of_dvd hpos hdvd)]

theorem whole_take (bs : List Byte) :
    blockLen.1 ∣ (bs.take blockLen.1).length ∨ bs.drop blockLen.1 = [] := by
  rcases le_total blockLen.1 bs.length with h | h
  · left
    rw [length_take, min_eq_left h]
  · exact .inr (drop_of_length_le h)

theorem take_append_take_drop (out : List Byte) {d n : Nat} (h : d ≤ n) :
    out.take d ++ (out.take n).drop d = out.take n := by
  conv_rhs => rw [← take_append_drop d (out.take n), take_take, min_eq_left h]

section

variable (st : σ) (hscratch : scratch.length = blockLen.1)
include st hscratch

theorem transformStraddling_advances (hdst : firstDstSlice.length ≤ blockLen.1)
    (hsrc : firstSrcSlice.length ≤ blockLen.1) (hne : firstSrcSlice ++ src.flatten ≠ [])
    (hlen : (firstDstSlice ++ dst.flatten).length = (firstSrcSlice ++ src.flatten).length)
    (hallowed : Allowed blockLen enablePartialLastBlock (firstSrcSlice ++ src.flatten).length) :
    ∃ step, transformStraddling bt blockLen enablePartialLastBlock firstDstSlice firstSrcSlice dst
        src scratch st = .ok step ∧
      Advances bt blockLen (firstDstSlice :: dst) (firstSrcSlice :: src) st step
        ((firstSrcSlice ++ src.flatten).take blockLen.1) := by
  obtain ⟨tail, src', hgather, hsrc', hfull⟩ := gather_eq src hscratch hsrc
  obtain ⟨block, hblock⟩ : ∃ block, block = (firstSrcSlice ++ src.flatten).take blockLen.1 :=
    ⟨_, rfl⟩
  have hblockLen := congrArg List.length hblock
  rw [length_take] at hblockLen
  have hblockNe : block ≠ [] := hblock ▸ take_ne_nil hne
  have hfill := fillPartial_eq (hblock ▸ hfull) (hblock ▸ hallowed.take) hblockNe
  rw [← hblock] at hgather ⊢
  obtain ⟨out, hout⟩ : ∃ out, out = bt.transform st
    (block ++ List.replicate (blockLen.1 - block.length) 0) none := ⟨_, rfl⟩
  have houtLen : out.1.length = blockLen.1 := by
    rw [hout, bt.length_transform, length_append, length_replicate]
    omega
  rw [length_append] at hlen
  have hle : firstDstSlice.length ≤ block.length := by omega
  have hrest : ((out.1.take block.length).drop firstDstSlice.length).length =
      block.length - firstDstSlice.length := by
    rw [length_drop, length_take]
    omega
  obtain ⟨copied, hcopied⟩ : ∃ copied, copied =
    copyFromIter copy dst [(out.1.take block.length).drop firstDstSlice.length] := ⟨_, rfl⟩
  obtain ⟨hwritten, hdst', -⟩ := copy_eq dst [(out.1.take block.length).drop firstDstSlice.length]
  have hall : ((out.1.take block.length).drop firstDstSlice.length).take dst.flatten.length =
      (out.1.take block.length).drop firstDstSlice.length :=
    take_of_length_le (by omega)
  rw [flatten_singleton, hall, ← hcopied] at hwritten
  rw [flatten_singleton, hrest, ← hcopied] at hdst'
  have hcount : ¬firstDstSlice.length + copied.1.length ≠ block.length := by
    rw [hwritten, hrest]
    omega
  refine ⟨⟨out.1.take firstDstSlice.length ++ copied.1, copied.2.1, src', out.1, out.2⟩, ?_,
    hblockNe, ?_, ?_, ?_, ?_, houtLen⟩
  · rw [transformStraddling, bind_ok (debugAssert_pos hscratch), hgather]
    dsimp only
    rw [bind_ok hfill, failIf_neg (by omega), bind_ok rfl, ← hout, bind_ok (debugAssert_pos hle),
      ← hcopied, failIf_neg hcount, bind_ok rfl]
  · rw [flatten_cons, hsrc', hblock, take_append_drop]
  · rw [hdst', flatten_cons, drop_append, drop_of_length_le hle, List.nil_append]
  · rw [hsrc', hblock]
    exact whole_take _
  · rw [hwritten, take_append_take_drop _ hle, transformAll_block st hblockNe (by omega), hout]

/-- What is read ahead isn't taken away, and gets overwritten by the same amount. -/
theorem transformStraddlingInPlace_advances
    (hdst : firstDstSlice.length ≤ blockLen.1) (hne : firstDstSlice ++ dst.flatten ≠ [])
    (hallowed : Allowed blockLen enablePartialLastBlock (firstDstSlice ++ dst.flatten).length) :
    ∃ step, transformStraddlingInPlace bt blockLen enablePartialLastBlock firstDstSlice dst scratch
        st = .ok step ∧
      step.src = step.dst ∧
      Advances bt blockLen (firstDstSlice :: dst) (firstDstSlice :: dst) st step
        ((firstDstSlice ++ dst.flatten).take blockLen.1) := by
  obtain ⟨tail, src', hgather, -, hfull⟩ := gather_eq dst hscratch hdst
  obtain ⟨block, hblock⟩ : ∃ block, block = (firstDstSlice ++ dst.flatten).take blockLen.1 :=
    ⟨_, rfl⟩
  have hblockLen := congrArg List.length hblock
  rw [length_take, length_append] at hblockLen
  have hblockNe : block ≠ [] := hblock ▸ take_ne_nil hne
  have hfill := fillPartial_eq (hblock ▸ hfull) (hblock ▸ hallowed.take) hblockNe
  rw [← hblock] at hgather ⊢
  obtain ⟨out, hout⟩ : ∃ out, out = bt.transform st
    (block ++ List.replicate (blockLen.1 - block.length) 0) none := ⟨_, rfl⟩
  have houtLen : out.1.length = blockLen.1 := by
    rw [hout, bt.length_transform, length_append, length_replicate]
    omega
  have hle : firstDstSlice.length ≤ block.length := by omega
  have hrest : (out.1.drop firstDstSlice.length).length = blockLen.1 - firstDstSlice.length := by
    rw [length_drop, houtLen]
  obtain ⟨copied, hcopied⟩ : ∃ copied, copied =
    copyFromIter copy dst [out.1.drop firstDstSlice.length] := ⟨_, rfl⟩
  obtain ⟨hwritten, hdst', -⟩ := copy_eq dst [out.1.drop firstDstSlice.length]
  have hcut : (out.1.drop firstDstSlice.length).take dst.flatten.length =
      (out.1.take block.length).drop firstDstSlice.length := by
    rw [drop_take, take_eq_take_min, hrest]
    congr 1
    omega
  rw [flatten_singleton, hcut, ← hcopied] at hwritten
  rw [flatten_singleton, hrest, ← hcopied] at hdst'
  have hcount : firstDstSlice.length + copied.1.length = block.length := by
    rw [hwritten, length_drop, length_take, houtLen]
    omega
  have hleft : copied.2.1.flatten = (firstDstSlice ++ dst.flatten).drop blockLen.1 := by
    rw [hdst', drop_append, drop_of_length_le hdst, List.nil_append]
  refine ⟨⟨out.1.take firstDstSlice.length ++ copied.1, copied.2.1, copied.2.1, out.1, out.2⟩, ?_,
    rfl, hblockNe, ?_, ?_, ?_, ?_, houtLen⟩
  · rw [transformStraddlingInPlace, bind_ok (debugAssert_pos hscratch), hgather]
    dsimp only
    rw [bind_ok hfill, ← hout, ← hcopied, bind_ok (debugAssert_pos hcount)]
  · rw [flatten_cons, hleft, hblock, take_append_drop]
  · rw [flatten_cons, hleft, hblockLen]
    rcases le_total blockLen.1 (firstDstSlice.length + dst.flatten.length) with h | h
    · rw [min_eq_left h]
    · have hlen : (firstDstSlice ++ dst.flatten).length =
          firstDstSlice.length + dst.flatten.length := length_append
      rw [min_eq_right h, drop_of_length_le (by omega), drop_of_length_le hlen.le]
  · rw [hleft, hblock]
    exact whole_take _
  · rw [hwritten, take_append_take_drop _ hle, transformAll_block st hblockNe (by omega), hout]

theorem block_advances
    {written : List Byte × σ} (hdst : dst.flatten = firstDstSlice ++ dst'.flatten)
    (hsrc : src.flatten = firstSrcSlice ++ src'.flatten)
    (hdstLen : firstDstSlice.length = blockLen.1) (hsrcLen : firstSrcSlice.length = blockLen.1)
    (hwritten : written = bt.transform st firstSrcSlice none) :
    Advances bt blockLen dst src st ⟨written.1, dst', src', scratch, written.2⟩ firstSrcSlice := by
  refine ⟨?_, hsrc, ?_, .inl (dvd_of_eq hsrcLen.symm), ?_, hscratch⟩
  · rw [← length_pos_iff]
    omega
  · rw [hdst, drop_left' (hdstLen.trans hsrcLen.symm)]
  · have := transformAll_cons bt blockLen st [] hsrcLen
    rw [List.append_nil, transformAll_nil, List.append_nil] at this
    rw [this, hwritten]

theorem batch_advances {batchDstSlice front : List Byte} {batchSrcSlice : Option (List Byte)}
    (hfront : front = batchSrcSlice.getD batchDstSlice) (hne : front ≠ [])
    (hdst : dst.flatten = batchDstSlice ++ dst'.flatten)
    (hsrc : src.flatten = front ++ src'.flatten)
    (hlen : front.length = batchDstSlice.length) (hdvd : blockLen.1 ∣ batchDstSlice.length) :
    Advances bt blockLen dst src st
      ⟨(transformBatch bt blockLen batchDstSlice batchSrcSlice st).1, dst', src', scratch,
        (transformBatch bt blockLen batchDstSlice batchSrcSlice st).2⟩ front := by
  refine ⟨hne, hsrc, ?_, .inl (hlen ▸ hdvd), ?_, hscratch⟩
  · rw [hdst, drop_left' hlen.symm]
  · rw [hfront]
    exact transformBatch_eq bt blockLen st (hfront ▸ hlen) hdvd

end

theorem Advances.of_flatten {st : σ} {front : List Byte}
    (h : Advances bt blockLen dst' src' st step front)
    (hdst : dst.flatten = dst'.flatten) (hsrc : src.flatten = src'.flatten) :
    Advances bt blockLen dst src st step front :=
  { h with src_eq := hsrc.trans h.src_eq, dst_eq := by rw [h.dst_eq, hdst] }

theorem nextSlice_some {maxLen : Option Nat} {slices : List (List Byte)} (h : slices.flatten ≠ []) :
    ∃ slice rest, nextSlice maxLen slices = some (slice, rest) := by
  cases hnext : nextSlice maxLen slices with
  | none => exact absurd ((nextSlice_none _ _).mp hnext) h
  | some next => exact ⟨next.1, next.2, rfl⟩

theorem length_batchLen {len n : Nat} (hlen : 2 * blockLen.1 ≤ len)
    (hn : n = batchLen len blockLen.1) : 0 < n ∧ n ≤ len ∧ blockLen.1 ∣ n := by
  have hlt := Nat.mod_lt len blockLen.2
  rw [batchLen_eq] at hn
  exact ⟨by omega, by omega, hn ▸ Nat.dvd_sub_mod len⟩

theorem nextSlice_batch {n : Nat} {slices : List (List Byte)} (hpos : 0 < n)
    (hle : n ≤ nextSliceLen slices) : ∃ slice rest, nextSlice (some n) slices = some (slice, rest) ∧
      slice.length = n := by
  have hne : slices.flatten ≠ [] := by
    rw [Ne, ← nextSliceLen_eq_zero]
    omega
  obtain ⟨slice, rest, hnext⟩ := nextSlice_some hne
  exact ⟨slice, rest, hnext, (length_nextSlice hnext).trans (min_eq_left hle)⟩

section

variable (st : σ) (hscratch : scratch.length = blockLen.1)
  (hlen : dst.flatten.length = src.flatten.length) (hne : src.flatten ≠ [])
  (hallowed : Allowed blockLen enablePartialLastBlock src.flatten.length)
include st hscratch hlen hne hallowed

theorem transformBlock_advances :
    ∃ step front, transformBlock bt blockLen enablePartialLastBlock dst src scratch st =
      .ok (some step) ∧ Advances bt blockLen dst src st step front := by
  have hdstNe : dst.flatten ≠ [] := by
    rw [← length_pos_iff] at hne ⊢
    omega
  obtain ⟨firstDstSlice, dst', hdst⟩ := @nextSlice_some (some blockLen.1) _ hdstNe
  obtain ⟨firstSrcSlice, src', hsrc⟩ := @nextSlice_some (some blockLen.1) _ hne
  have hdst' := flatten_nextSlice hdst
  have hsrc' := flatten_nextSlice hsrc
  rw [transformBlock, hdst]
  rw [hsrc]
  dsimp only
  split
  · rename_i hfull
    refine ⟨_, firstSrcSlice, rfl, block_advances st hscratch hdst' hsrc' hfull.2 hfull.1 ?_⟩
    exact bt.transform_some _ _ _ (hfull.2.trans hfull.1.symm)
  · rw [hdst', hsrc'] at hlen
    rw [hsrc'] at hne hallowed
    obtain ⟨step, hstep, hadvances⟩ := transformStraddling_advances st hscratch
      (length_nextSlice_le hdst) (length_nextSlice_le hsrc) hne hlen hallowed
    refine ⟨step, _, ?_, hadvances.of_flatten hdst' hsrc'⟩
    rw [bind_ok hstep]

theorem transformNextBlocks_advances :
    ∃ step front, transformNextBlocks bt blockLen enablePartialLastBlock dst src scratch st =
      .ok (some step) ∧ Advances bt blockLen dst src st step front := by
  rw [transformNextBlocks]
  split
  · rename_i hbatch
    obtain ⟨hpos, hle, hdvd⟩ := length_batchLen (Nat.le_min.mpr hbatch) rfl
    obtain ⟨batchDstSlice, dst', hdst, hdstLen⟩ :=
      nextSlice_batch hpos (le_trans hle (min_le_left _ _))
    obtain ⟨batchSrcSlice, src', hsrc, hsrcLen⟩ :=
      nextSlice_batch hpos (le_trans hle (min_le_right _ _))
    have hsrcNe : batchSrcSlice ≠ [] := by
      rw [← length_pos_iff]
      omega
    dsimp only
    rw [hdst, hsrc]
    exact ⟨_, batchSrcSlice, rfl, batch_advances st hscratch rfl hsrcNe (flatten_nextSlice hdst)
      (flatten_nextSlice hsrc) (hsrcLen.trans hdstLen.symm) (hdstLen ▸ hdvd)⟩
  · exact transformBlock_advances st hscratch hlen hne hallowed

end

theorem transformNextBlocks_done (st : σ) (hdst : dst.flatten = []) (hsrc : src.flatten = []) :
    transformNextBlocks bt blockLen enablePartialLastBlock dst src scratch st = .ok none := by
  have hempty := (SliceCursors.isEmpty_iff src).mpr hsrc
  rw [transformNextBlocks, (nextSliceLen_eq_zero dst).mpr hdst, if_neg (by omega), transformBlock,
    (nextSlice_none _ _).mpr hdst, hempty]
  rfl

theorem transformNextBlocksInPlace_advances (st : σ) (hscratch : scratch.length = blockLen.1)
    (hne : dst.flatten ≠ [])
    (hallowed : Allowed blockLen enablePartialLastBlock dst.flatten.length) :
    ∃ step front, transformNextBlocksInPlace bt blockLen enablePartialLastBlock dst scratch st =
      .ok (some step) ∧ step.src = step.dst ∧ Advances bt blockLen dst dst st step front := by
  rw [transformNextBlocksInPlace]
  split
  · rename_i hbatch
    obtain ⟨hpos, hle, hdvd⟩ := length_batchLen hbatch rfl
    obtain ⟨batchDstSlice, dst', hdst, hdstLen⟩ := nextSlice_batch hpos hle
    have hdstNe : batchDstSlice ≠ [] := by
      rw [← length_pos_iff]
      omega
    rw [hdst]
    have hflat := flatten_nextSlice hdst
    exact ⟨_, batchDstSlice, rfl, rfl, batch_advances st hscratch rfl hdstNe hflat hflat rfl
      (hdstLen ▸ hdvd)⟩
  · obtain ⟨firstDstSlice, dst', hdst⟩ := @nextSlice_some (some blockLen.1) _ hne
    have hdst' := flatten_nextSlice hdst
    rw [hdst]
    dsimp only
    split
    · rename_i hfull
      exact ⟨_, firstDstSlice, rfl, rfl, block_advances st hscratch hdst' hdst' hfull hfull rfl⟩
    · rw [hdst'] at hne hallowed
      obtain ⟨step, hstep, hsrc, hadvances⟩ := transformStraddlingInPlace_advances st hscratch
        (length_nextSlice_le hdst) hne hallowed
      refine ⟨step, _, ?_, hsrc, hadvances.of_flatten hdst' hdst'⟩
      rw [bind_ok hstep]

theorem transformNextBlocksInPlace_done (st : σ) (hdst : dst.flatten = []) :
    transformNextBlocksInPlace bt blockLen enablePartialLastBlock dst scratch st = .ok none := by
  rw [transformNextBlocksInPlace, (nextSliceLen_eq_zero dst).mpr hdst, if_neg (by omega),
    (nextSlice_none _ _).mpr hdst]

theorem length_copyFromIter_le (src : List (List Byte)) :
    (copyFromIter copy dst src).2.1.flatten.length ≤ dst.flatten.length := by
  rw [(copy_eq dst src).2.1, length_drop]
  exact Nat.sub_le _ _

theorem length_nextSlice_lt {n : Nat} {slice : List Byte} {slices rest : List (List Byte)}
    (hn : 0 < n) (h : nextSlice (some n) slices = some (slice, rest)) :
    rest.flatten.length < slices.flatten.length := by
  have hpos := nextSlice_pos hn h
  rw [flatten_nextSlice h, length_append]
  omega

theorem transformStraddling_dst_le {st : σ}
    (h : transformStraddling bt blockLen enablePartialLastBlock firstDstSlice firstSrcSlice dst src
      scratch st = .ok step) : step.dst.flatten.length ≤ dst.flatten.length := by
  obtain ⟨_, -, h⟩ := ok_of_bind h
  obtain ⟨_, -, h⟩ := ok_of_bind h
  obtain ⟨_, -, h⟩ := ok_of_bind h
  obtain ⟨_, -, h⟩ := ok_of_bind h
  obtain ⟨_, -, h⟩ := ok_of_bind h
  cases h
  exact length_copyFromIter_le _

theorem transformBlock_dst_lt {st : σ}
    (h : transformBlock bt blockLen enablePartialLastBlock dst src scratch st = .ok (some step)) :
    step.dst.flatten.length < dst.flatten.length := by
  rw [transformBlock] at h
  split at h
  · split at h <;> cases h
  · rename_i firstDstSlice dst' hdst
    have hlt := length_nextSlice_lt blockLen.2 hdst
    split at h
    · cases h
    · split at h
      · cases h
        exact hlt
      · obtain ⟨step', hstep, h⟩ := ok_of_bind h
        cases h
        exact lt_of_le_of_lt (transformStraddling_dst_le hstep) hlt

/-- Any step takes something of the destination, so that the loop comes to its end. -/
theorem transformNextBlocks_dst_lt {st : σ}
    (h : transformNextBlocks bt blockLen enablePartialLastBlock dst src scratch st =
      .ok (some step)) : step.dst.flatten.length < dst.flatten.length := by
  rw [transformNextBlocks] at h
  split at h
  · rename_i hbatch
    have hpos := (length_batchLen (Nat.le_min.mpr hbatch) rfl).1
    dsimp only at h
    split at h
    · rename_i hdst _
      cases h
      exact length_nextSlice_lt hpos hdst
    · cases h
  · exact transformBlock_dst_lt h

theorem transformStraddlingInPlace_dst_le {st : σ}
    (h : transformStraddlingInPlace bt blockLen enablePartialLastBlock firstDstSlice dst scratch st =
      .ok step) : step.dst.flatten.length ≤ dst.flatten.length := by
  obtain ⟨_, -, h⟩ := ok_of_bind h
  obtain ⟨_, -, h⟩ := ok_of_bind h
  obtain ⟨_, -, h⟩ := ok_of_bind h
  cases h
  exact length_copyFromIter_le _

theorem transformNextBlocksInPlace_dst_lt {st : σ}
    (h : transformNextBlocksInPlace bt blockLen enablePartialLastBlock dst scratch st =
      .ok (some step)) : step.dst.flatten.length < dst.flatten.length := by
  rw [transformNextBlocksInPlace] at h
  split at h
  · rename_i hbatch
    have hpos := (length_batchLen hbatch rfl).1
    split at h
    · cases h
    · rename_i hdst
      cases h
      exact length_nextSlice_lt hpos hdst
  · split at h
    · cases h
    · rename_i firstDstSlice dst' hdst
      have hlt := length_nextSlice_lt blockLen.2 hdst
      split at h
      · cases h
        exact hlt
      · obtain ⟨step', hstep, h⟩ := ok_of_bind h
        cases h
        exact lt_of_le_of_lt (transformStraddlingInPlace_dst_le hstep) hlt

end

end CocoonFs.BlockTransformSteps
