import CocoonFs.Multiprecision
import CocoonFs.SliceCursors

namespace CocoonFs.BlockTransforms

open Codes Multiprecision SliceCursors
open List (length_append length_drop length_take replicate)

/-- One block of a block cipher mode of operation: without a source the block is transformed in
place, and with one it comes out the same. -/
structure BlockTransform (σ : Type) where
  transform : σ → List Byte → Option (List Byte) → List Byte × σ
  length_transform : ∀ st dst src, (transform st dst src).1.length = dst.length
  transform_some : ∀ st dst src, dst.length = src.length →
    transform st dst (some src) = transform st src none

variable {σ : Type} (bt : BlockTransform σ) (blockLen : { n : Nat // 0 < n })

def copy (_ : Byte) (b : Byte) : Byte := b

def isPow2 (n : Nat) : Bool := n == 2 ^ Nat.log2 n

/-- Masking with `!(block_len - 1)` clears as many bits at the bottom as get shifted out. -/
def batchLen (len blockLen : Nat) : Nat :=
  if isPow2 blockLen then len >>> Nat.log2 blockLen <<< Nat.log2 blockLen
  else len - len % blockLen

theorem batchLen_eq (len blockLen : Nat) : batchLen len blockLen = len - len % blockLen := by
  rw [batchLen]
  split
  · rename_i h
    have hpow : 2 ^ Nat.log2 blockLen = blockLen := (beq_iff_eq.mp h).symm
    rw [Nat.shiftLeft_eq, Nat.shiftRight_eq_div_pow, hpow, Nat.mul_comm]
    have := Nat.div_add_mod len blockLen
    omega
  · rfl

/-- The loop over the blocks of a batch, with what is written to the destination. -/
def transformBatch (dst : List Byte) (src : Option (List Byte)) (st : σ) : List Byte × σ :=
  if _h : dst = [] then ([], st)
  else
    let block := bt.transform st (dst.take blockLen.1) (src.map (·.take blockLen.1))
    let rest := transformBatch (dst.drop blockLen.1) (src.map (·.drop blockLen.1)) block.2
    (block.1 ++ rest.1, rest.2)
termination_by dst.length
decreasing_by
  have := blockLen.2
  have := List.length_pos_iff.mpr _h
  rw [length_drop]
  omega

/-- What a step has written to the front of the destination, and what is left for the next one. -/
structure Step (σ : Type) where
  written : List Byte
  dst : List (List Byte)
  src : List (List Byte)
  scratch : List Byte
  st : σ

/-- Fills the scratch block from the slice given and the ones that follow: the block, how much of
it has been filled, and what is left of the source. -/
def gather (scratch firstSlice : List Byte) (src : List (List Byte)) :
    List Byte × Nat × List (List Byte) :=
  let copied := copyFromIter copy [scratch.drop firstSlice.length] src
  let srcBlockLen := firstSlice.length + copied.1.length
  (firstSlice ++ copied.1 ++ scratch.drop srcBlockLen, srcBlockLen, copied.2.2)

/-- `fill(0)` behind a partial last block, unless there must not be any. -/
def fillPartial (enablePartialLastBlock : Bool) (scratch : List Byte) (srcBlockLen : Nat) :
    Crypto (List Byte) :=
  if srcBlockLen ≠ blockLen.1 then
    if enablePartialLastBlock = false then fail .internal
    else .ok (scratch.take srcBlockLen ++ replicate (scratch.length - srcBlockLen) 0)
  else .ok scratch

def transformStraddling (enablePartialLastBlock : Bool) (firstDstSlice firstSrcSlice : List Byte)
    (dst src : List (List Byte)) (scratch : List Byte) (st : σ) : Crypto (Step σ) := do
  debugAssert (scratch.length = blockLen.1)
  let (scratch, srcBlockLen, src) := gather scratch firstSrcSlice src
  let scratch ← fillPartial blockLen enablePartialLastBlock scratch srcBlockLen
  failIf (srcBlockLen = blockLen.1 ∧ srcBlockLen < firstDstSlice.length) .internal
  let block := bt.transform st scratch none
  debugAssert (firstDstSlice.length ≤ srcBlockLen)
  let copied := copyFromIter copy dst
    [(block.1.take srcBlockLen).drop firstDstSlice.length]
  failIf (firstDstSlice.length + copied.1.length ≠ srcBlockLen) .internal
  .ok ⟨block.1.take firstDstSlice.length ++ copied.1, copied.2.1, src, block.1, block.2⟩

def transformBlock (enablePartialLastBlock : Bool) (dst src : List (List Byte))
    (scratch : List Byte) (st : σ) : Crypto (Option (Step σ)) :=
  match nextSlice (some blockLen.1) dst with
  | none =>
    if isEmpty src = false then fail .internal else .ok none
  | some (firstDstSlice, dst) =>
    match nextSlice (some blockLen.1) src with
    | none => fail .internal
    | some (firstSrcSlice, src) =>
      if firstSrcSlice.length = blockLen.1 ∧ firstDstSlice.length = blockLen.1 then
        let block := bt.transform st firstDstSlice (some firstSrcSlice)
        .ok (some ⟨block.1, dst, src, scratch, block.2⟩)
      else do
        let step ← transformStraddling bt blockLen enablePartialLastBlock firstDstSlice
          firstSrcSlice dst src scratch st
        .ok (some step)

def transformNextBlocks (enablePartialLastBlock : Bool) (dst src : List (List Byte))
    (scratch : List Byte) (st : σ) : Crypto (Option (Step σ)) :=
  if 2 * blockLen.1 ≤ nextSliceLen dst ∧ 2 * blockLen.1 ≤ nextSliceLen src then
    let batchLen := batchLen (min (nextSliceLen dst) (nextSliceLen src)) blockLen.1
    match nextSlice (some batchLen) dst, nextSlice (some batchLen) src with
    | some (batchDstSlice, dst), some (batchSrcSlice, src) =>
      let batch := transformBatch bt blockLen batchDstSlice (some batchSrcSlice) st
      .ok (some ⟨batch.1, dst, src, scratch, batch.2⟩)
    | _, _ => fail .internal
  else transformBlock bt blockLen enablePartialLastBlock dst src scratch st

/-- The bytes following are read ahead, and then written to from where they started. -/
def transformStraddlingInPlace (enablePartialLastBlock : Bool) (firstDstSlice : List Byte)
    (dst : List (List Byte)) (scratch : List Byte) (st : σ) : Crypto (Step σ) := do
  debugAssert (scratch.length = blockLen.1)
  let (scratch, srcBlockLen, _) := gather scratch firstDstSlice dst
  let scratch ← fillPartial blockLen enablePartialLastBlock scratch srcBlockLen
  let block := bt.transform st scratch none
  let copied := copyFromIter copy dst [block.1.drop firstDstSlice.length]
  debugAssert (firstDstSlice.length + copied.1.length = srcBlockLen)
  .ok ⟨block.1.take firstDstSlice.length ++ copied.1, copied.2.1, copied.2.1, block.1, block.2⟩

def transformNextBlocksInPlace (enablePartialLastBlock : Bool) (dst : List (List Byte))
    (scratch : List Byte) (st : σ) : Crypto (Option (Step σ)) :=
  if 2 * blockLen.1 ≤ nextSliceLen dst then
    match nextSlice (some (batchLen (nextSliceLen dst) blockLen.1)) dst with
    | none => fail .internal
    | some (batchDstSlice, dst) =>
      let batch := transformBatch bt blockLen batchDstSlice none st
      .ok (some ⟨batch.1, dst, dst, scratch, batch.2⟩)
  else
    match nextSlice (some blockLen.1) dst with
    | none => .ok none
    | some (firstDstSlice, dst) =>
      if firstDstSlice.length = blockLen.1 then
        let block := bt.transform st firstDstSlice none
        .ok (some ⟨block.1, dst, dst, scratch, block.2⟩)
      else do
        let step ← transformStraddlingInPlace bt blockLen enablePartialLastBlock firstDstSlice dst
          scratch st
        .ok (some step)

/-- The blocks from left to right, the last one filled with zeros and cut off again. -/
def transformAll (st : σ) (msg : List Byte) : List Byte × σ :=
  if _h : msg = [] then ([], st)
  else
    let block := msg.take blockLen.1
    let transformed :=
      bt.transform st (block ++ replicate (blockLen.1 - block.length) 0) none
    let rest := transformAll transformed.2 (msg.drop blockLen.1)
    (transformed.1.take block.length ++ rest.1, rest.2)
termination_by msg.length
decreasing_by
  have := blockLen.2
  have := List.length_pos_iff.mpr _h
  rw [length_drop]
  omega

theorem transformAll_nil (st : σ) : transformAll bt blockLen st [] = ([], st) := by
  rw [transformAll, dif_pos rfl]

theorem length_transformAll (st : σ) (msg : List Byte) :
    (transformAll bt blockLen st msg).1.length = msg.length := by
  fun_induction transformAll bt blockLen st msg with
  | case1 => rfl
  | case2 st msg hne block transformed rest ih =>
    have hblock : block.length = min blockLen.1 msg.length := length_take
    have htransformed : transformed.1.length = blockLen.1 := by
      rw [bt.length_transform, length_append, List.length_replicate]
      omega
    rw [length_append, length_take, ih, length_drop, htransformed]
    omega

theorem transformAll_cons (st : σ) {block : List Byte} (rest : List Byte)
    (hblock : block.length = blockLen.1) :
    transformAll bt blockLen st (block ++ rest) =
      ((bt.transform st block none).1 ++
          (transformAll bt blockLen (bt.transform st block none).2 rest).1,
        (transformAll bt blockLen (bt.transform st block none).2 rest).2) := by
  have hne : block ++ rest ≠ [] := by
    rw [← List.length_pos_iff, length_append]
    omega
  rw [transformAll, dif_neg hne]
  dsimp only
  rw [List.take_left' hblock, List.drop_left' hblock, hblock, Nat.sub_self, List.replicate_zero,
    List.append_nil, List.take_of_length_le (by rw [bt.length_transform]; omega)]

theorem transformAll_partial (st : σ) {block : List Byte} (hne : block ≠ [])
    (hblock : block.length ≤ blockLen.1) :
    transformAll bt blockLen st block =
      ((bt.transform st (block ++ replicate (blockLen.1 - block.length) 0) none).1.take
          block.length,
        (bt.transform st (block ++ replicate (blockLen.1 - block.length) 0) none).2) := by
  rw [transformAll, dif_neg hne]
  dsimp only
  rw [List.take_of_length_le hblock, List.drop_of_length_le hblock, transformAll_nil,
    List.append_nil]

theorem transformAll_append (st : σ) {xs : List Byte} (ys : List Byte)
    (h : blockLen.1 ∣ xs.length) :
    transformAll bt blockLen st (xs ++ ys) =
      ((transformAll bt blockLen st xs).1 ++
          (transformAll bt blockLen (transformAll bt blockLen st xs).2 ys).1,
        (transformAll bt blockLen (transformAll bt blockLen st xs).2 ys).2) := by
  obtain ⟨n, hn⟩ := h
  induction n generalizing xs st with
  | zero =>
    rw [List.eq_nil_of_length_eq_zero hn, transformAll_nil]
    rfl
  | succ n ih =>
    rw [Nat.mul_succ] at hn
    have hblock : (xs.take blockLen.1).length = blockLen.1 := by
      rw [length_take]
      omega
    have hrest : (xs.drop blockLen.1).length = blockLen.1 * n := by
      rw [length_drop]
      omega
    rw [← List.take_append_drop blockLen.1 xs, List.append_assoc,
      transformAll_cons bt blockLen st _ hblock, ih _ hrest, transformAll_cons bt blockLen st _ hblock,
      List.append_assoc]

theorem transformBatch_eq (st : σ) {dst : List Byte} {src : Option (List Byte)}
    (hlen : (src.getD dst).length = dst.length) (h : blockLen.1 ∣ dst.length) :
    transformBatch bt blockLen dst src st = transformAll bt blockLen st (src.getD dst) := by
  obtain ⟨n, hn⟩ := h
  induction n generalizing dst src st with
  | zero =>
    rw [List.eq_nil_of_length_eq_zero hn] at hlen ⊢
    rw [List.eq_nil_of_length_eq_zero hlen, transformBatch, dif_pos rfl, transformAll_nil]
  | succ n ih =>
    rw [Nat.mul_succ] at hn
    have hne : dst ≠ [] := by
      rw [← List.length_pos_iff]
      omega
    have hblock : ((src.getD dst).take blockLen.1).length = blockLen.1 := by
      rw [length_take]
      omega
    have hdrop : (src.map (·.drop blockLen.1)).getD (dst.drop blockLen.1) =
        (src.getD dst).drop blockLen.1 := by
      cases src <;> rfl
    have htransform : bt.transform st (dst.take blockLen.1) (src.map (·.take blockLen.1)) =
        bt.transform st ((src.getD dst).take blockLen.1) none := by
      cases src with
      | none => rfl
      | some src =>
        refine bt.transform_some _ _ _ (Eq.trans ?_ hblock.symm)
        rw [length_take]
        omega
    rw [transformBatch, dif_neg hne]
    dsimp only
    rw [ih _ (by rw [hdrop, length_drop, length_drop, hlen])
      (by rw [length_drop]; omega), htransform, hdrop]
    conv_rhs => rw [← List.take_append_drop blockLen.1 (src.getD dst)]
    rw [transformAll_cons bt blockLen st _ hblock]

end CocoonFs.BlockTransforms
