import CocoonFs.BitmapFile
import CocoonFs.DataMapping
import CocoonFs.TreeConfig
import CocoonFs.UpdateStatesIndex

namespace CocoonFs.AuthTreeUpdates

open BitmapFile Checked DataBlocksMap DataMapping DfsIndex Extents Layout TreeConfig List Nat
open Nat (div_le_div_right le_of_not_lt lt_of_not_le two_pow_pos)
open UpdateStatesIndex (alignDown alignDown_eq)
open AuthTreeConfig (new)
open AllocBitmapFile (fileOk_of_new new)

def translatePhysicalToDataBlockIndex (pr : Profile) (cfg : AuthTreeConfig)
    (physicalAllocationBlockIndex : Nat) : Comp Nat := do
  let a := cfg.geometry.dataBlockAllocationBlocksLog2
  let b := alignDown physicalAllocationBlockIndex a
  let count ← shlU64 pr 1 a
  let e ← checkedAdd b count
  let dataRange ← cfg.authTreeDataAllocationBlocksMap.mapPhysicalToDataAllocationBlocks pr ⟨b, e⟩
  shrU64 pr dataRange.b a

def translateDataBlockRangeToPhysical (pr : Profile) (cfg : AuthTreeConfig)
    (dataRange : BlockRange) : Comp (List (BlockRange × Nat)) := do
  let a := cfg.geometry.dataBlockAllocationBlocksLog2
  let b ← shlU64 pr dataRange.b a
  let e ← shlU64 pr dataRange.e a
  let dataAllocationBlocksRange ← BlockRange.new pr b e
  cfg.authTreeDataAllocationBlocksMap.dataRangePieces pr dataAllocationBlocksRange

def coveringLeafNodeId (cfg : AuthTreeConfig) (dataBlockIndex : Nat) : AuthTreeNodeId :=
  AuthTreeNodeId.new dataBlockIndex 0 cfg.geometry.nodeDigestsPerNodeLog2
    cfg.geometry.dataDigestsPerNodeLog2

def firstCoveredDataBlock (x : AuthTreeNodeId) : Nat := x.coveredDataBlocksBegin

/-- The index of the last block, or the largest one if that is not representable. -/
def lastCoveredDataBlock (pr : Profile) (x : AuthTreeNodeId) : Comp Nat :=
  let bits := levelCoveredDataBlockIndexBits x.level x.nodeDigestsPerNodeLog2
    x.dataDigestsPerNodeLog2
  if bits < 64 then do
    let mask := 2 ^ bits - 1
    debugAssert pr (x.coveredDataBlocksBegin &&& mask = 0)
    pure (x.coveredDataBlocksBegin ||| mask)
  else .ok (2 ^ 64 - 1)

variable (pr : Profile) (f : AllocBitmapFile)

/-- The end of the Allocation Blocks collected so far, and the file blocks. -/
structure Collected where
  coveredPhysicalAllocationBlocksEnd : Nat
  allocBitmapFileBlockIndices : List Nat
  deriving DecidableEq, Repr

def collectNext (st : Collected) : Comp Collected := do
  let i ← f.bitmapWordIndexToFileBlockIndex
    (st.coveredPhysicalAllocationBlocksEnd / 2 ^ bitmapWordBitsLog2)
  debugAssert pr (∀ l ∈ st.allocBitmapFileBlockIndices.getLast?, l < i)
  let next ← addU64 pr i 1
  let size ← shlU64 pr f.bitmapWordsPerFileBlock bitmapWordBitsLog2
  pure ⟨min (next * size) (2 ^ 64 - 1), st.allocBitmapFileBlockIndices ++ [i]⟩

/-- All the file blocks up to the end of a physical range. There are never more
of them than blocks in the range. -/
def collectUpTo (rangeEnd : Nat) : Nat → Collected → Comp Collected
  | 0, st => .ok st
  | fuel + 1, st =>
    if st.coveredPhysicalAllocationBlocksEnd < rangeEnd then do
      let st ← collectNext pr f st
      collectUpTo rangeEnd fuel st
    else .ok st

def collectSegment (st : Collected) (segment : BlockRange × Nat) : Comp Collected := do
  let count ← segment.1.blockCount
  let segmentEnd ← checkedAdd segment.2 count
  if segmentEnd ≤ st.coveredPhysicalAllocationBlocksEnd then pure st
  else
    let covered := max st.coveredPhysicalAllocationBlocksEnd segment.2
    collectUpTo pr f segmentEnd (segmentEnd - covered)
      ⟨covered, st.allocBitmapFileBlockIndices⟩

/-- The Data Blocks covered by the leaf nodes of an updated range. -/
def neededDataBlocks (cfg : AuthTreeConfig) (dataBlockLog2 : Nat) (updated : BlockRange) :
    Comp BlockRange := do
  let first ← translatePhysicalToDataBlockIndex pr cfg updated.b
  let lastBlock ← subU64 pr updated.e 1
  let last ← translatePhysicalToDataBlockIndex pr cfg (alignDown lastBlock dataBlockLog2)
  let lastNeeded ← lastCoveredDataBlock pr (coveringLeafNodeId cfg last)
  let e ← checkedAdd lastNeeded 1
  BlockRange.new pr (firstCoveredDataBlock (coveringLeafNodeId cfg first)) e

/-- One region of the script. It is skipped if what comes before has brought the
covered end past its own end. -/
def collectRegion (cfg : AuthTreeConfig) (dataBlockLog2 : Nat) (st : Collected)
    (region : BlockRange) : Comp Collected :=
  if region.e ≤ st.coveredPhysicalAllocationBlocksEnd then .ok st
  else if alignDown region.b dataBlockLog2 ≠ region.b ∨
      alignDown region.e dataBlockLog2 ≠ region.e then err .internal
  else do
    let updated ← BlockRange.new pr
      (alignDown (max region.b st.coveredPhysicalAllocationBlocksEnd) dataBlockLog2) region.e
    let needed ← neededDataBlocks pr cfg dataBlockLog2 updated
    let segments ← translateDataBlockRangeToPhysical pr cfg needed
    segments.foldlM (collectSegment pr f) st

def collectAllocBitmapBlocksForAuthTreeReconstruction (cfg : AuthTreeConfig) (dataBlockLog2 : Nat)
    (regions : List BlockRange) : Comp (List Nat) := do
  let st ← regions.foldlM (collectRegion pr f cfg dataBlockLog2) ⟨0, []⟩
  pure st.allocBitmapFileBlockIndices

def fileBlockOf (p : Nat) : Nat := p / (f.bitmapWordsPerFileBlock * 2 ^ 6)

/-- Any block not covered yet has a file block behind those collected. -/
structure Ascends (st : Collected) : Prop where
  ascending : st.allocBitmapFileBlockIndices.Pairwise (· < ·)
  beyond : ∀ l ∈ st.allocBitmapFileBlockIndices, ∀ q < 2 ^ 58,
    st.coveredPhysicalAllocationBlocksEnd ≤ q → l < fileBlockOf f q

/-- The covered end is the end of the file block tracking some block. -/
structure Covers (st : Collected) (y : Nat) : Prop extends Ascends f st where
  lt : y < st.coveredPhysicalAllocationBlocksEnd
  mem : y < 2 ^ 57 → fileBlockOf f y ∈ st.allocBitmapFileBlockIndices
  lt_iff : y < 2 ^ 57 → ∀ q < 2 ^ 57,
    q < st.coveredPhysicalAllocationBlocksEnd ↔ fileBlockOf f q ≤ fileBlockOf f y

variable {f}

theorem fileBlockOf_eq (p : Nat) :
    fileBlockOf f p = p / 2 ^ bitmapWordBitsLog2 / f.bitmapWordsPerFileBlock := by
  rw [fileBlockOf, Nat.div_div_eq_div_mul, mul_comm]
  rfl

variable {p q y imageSize : Nat} {r s : BlockRange} {l : ImageLayout}

theorem fileBlockOf_mono (h : p ≤ q) : fileBlockOf f p ≤ fileBlockOf f q :=
  div_le_div_right h

theorem fileBlockEnd_spec (hf : FileOk f) {i c : Nat}
    (hc : c = min ((i + 1) * (f.bitmapWordsPerFileBlock * 2 ^ 6 % 2 ^ 64)) (2 ^ 64 - 1)) :
    (∀ q < 2 ^ 57, q < c ↔ fileBlockOf f q ≤ i) ∧
      ∀ q < 2 ^ 58, c ≤ q → i < fileBlockOf f q := by
  have hpos : 0 < f.bitmapWordsPerFileBlock * 2 ^ 6 := by
    have := (computeBitmapWordsPerFileBlockInv_ok hf.inv).1
    omega
  have hsize := hf.size
  simp only [fileBlockOf]
  generalize f.bitmapWordsPerFileBlock * 2 ^ 6 = n at hc hsize hpos ⊢
  rcases hsize with hsmall | hlarge
  · rw [mod_eq_of_lt hsmall] at hc
    refine ⟨fun q hq => ?_, fun q hq hcq => ?_⟩
    · rw [← Nat.lt_succ_iff, Nat.div_lt_iff_lt_mul hpos, succ_eq_add_one]
      omega
    · rw [← succ_le_iff, Nat.le_div_iff_mul_le hpos, succ_eq_add_one]
      omega
  · have hge : 2 ^ 58 ≤ c := by
      have := Nat.le_mul_of_pos_left (n % 2 ^ 64) (show 0 < i + 1 by omega)
      omega
    refine ⟨fun q hq => ?_, fun q hq hcq => by omega⟩
    rw [div_eq_of_lt (by omega)]
    exact iff_of_true (by omega) (zero_le i)

variable {st : Collected}

/-- The next file block is the one tracking the position the range has been
covered up to. -/
theorem collectNext_spec (hf : FileOk f) (h : Ascends f st)
    (hlt : st.coveredPhysicalAllocationBlocksEnd < 2 ^ 58) :
    ∃ st', collectNext pr f st = .ok st' ∧ Covers f st' st.coveredPhysicalAllocationBlocksEnd ∧
      st.allocBitmapFileBlockIndices ⊆ st'.allocBitmapFileBlockIndices := by
  obtain ⟨x, out⟩ := st
  have hasc := h.ascending
  have hall (l : Nat) (hl : l ∈ out) : l < fileBlockOf f x := h.beyond l hl x hlt (le_refl x)
  dsimp only at hlt hasc
  have hdiv : x / 2 ^ bitmapWordBitsLog2 < 2 ^ 52 := by
    rw [bitmapWordBitsLog2]
    omega
  obtain ⟨i, hi, hge, hle, heq⟩ := bitmapWordIndexToFileBlockIndexBy_ok hf.inv hdiv
  have hi' : f.bitmapWordIndexToFileBlockIndex (x / 2 ^ bitmapWordBitsLog2) = .ok i := hi
  rw [← fileBlockOf_eq] at hge heq
  have hassert : ∀ l ∈ out.getLast?, l < i := fun l hl =>
    (hall l (mem_of_getLast? hl)).trans_le hge
  have hlog : bitmapWordBitsLog2 = 6 := rfl
  have hnext : collectNext pr f ⟨x, out⟩ =
      .ok ⟨min ((i + 1) * (f.bitmapWordsPerFileBlock * 2 ^ 6 % 2 ^ 64)) (2 ^ 64 - 1),
        out ++ [i]⟩ := by
    rw [collectNext, hi', ok_bind, debugAssert_ok pr hassert, ok_bind, addU64_ok pr (by omega),
      ok_bind, shlU64, if_pos (by decide), ok_bind, hlog]
    rfl
  have hasc' : (out ++ [i]).Pairwise (· < ·) := by
    rw [pairwise_append]
    refine ⟨hasc, pairwise_singleton _ _, fun l hl j hj => ?_⟩
    rw [mem_singleton.mp hj]
    exact (hall l hl).trans_le hge
  have hexact (hx : x < 2 ^ 57) : i = fileBlockOf f x := by
    refine heq ?_
    rw [hlog]
    omega
  obtain ⟨hltIff, hbeyond⟩ := fileBlockEnd_spec hf (i := i) rfl
  refine ⟨_, hnext, ⟨⟨hasc', fun l hl q hq hcq => ?_⟩, ?_, fun hx => ?_, fun hx q hq => ?_⟩,
    subset_append_left _ _⟩
  · have hi := hbeyond q hq hcq
    rcases mem_append.mp hl with hl | hl
    · exact ((hall l hl).trans_le hge).trans hi
    · rw [mem_singleton.mp hl]
      exact hi
  · by_contra hcx
    have := hbeyond x hlt (le_of_not_lt hcx)
    omega
  · rw [← hexact hx]
    simp
  · rw [← hexact hx]
    exact hltIff q hq

theorem Covers.mem_of_between (h : Covers f st y) (hyq : y ≤ q)
    (hlt : q < st.coveredPhysicalAllocationBlocksEnd) (hq : q < 2 ^ 57) :
    fileBlockOf f q ∈ st.allocBitmapFileBlockIndices := by
  have hy : y < 2 ^ 57 := by omega
  have heq : fileBlockOf f q = fileBlockOf f y :=
    le_antisymm ((h.lt_iff hy q hq).mp hlt) (fileBlockOf_mono hyq)
  rw [heq]
  exact h.mem hy

/-- Blocks behind the one the end has been reached for, up to the end, have the
same file block. -/
theorem Covers.of_between {x : Nat} (h : Covers f st y) (hyx : y ≤ x)
    (hlt : x < st.coveredPhysicalAllocationBlocksEnd) : Covers f st x where
  toAscends := h.toAscends
  lt := hlt
  mem hx := h.mem_of_between hyx hlt hx
  lt_iff hx q hq := by
    have hy : y < 2 ^ 57 := by omega
    have heq : fileBlockOf f x = fileBlockOf f y :=
      le_antisymm ((h.lt_iff hy x hx).mp hlt) (fileBlockOf_mono hyx)
    rw [heq]
    exact h.lt_iff hy q hq

theorem Ascends.mono (h : Ascends f st) {c : Nat} (hc : st.coveredPhysicalAllocationBlocksEnd ≤ c) :
    Ascends f ⟨c, st.allocBitmapFileBlockIndices⟩ :=
  ⟨h.ascending, fun l hl q hq hcq => h.beyond l hl q hq (hc.trans hcq)⟩

theorem collectUpTo_spec (hf : FileOk f) {rangeEnd : Nat} (hend : rangeEnd ≤ 2 ^ 58) (fuel : Nat)
    (h : Ascends f st) (hlt : st.coveredPhysicalAllocationBlocksEnd < rangeEnd)
    (hfuel : rangeEnd - st.coveredPhysicalAllocationBlocksEnd ≤ fuel) :
    ∃ st', collectUpTo pr f rangeEnd fuel st = .ok st' ∧ Covers f st' (rangeEnd - 1) ∧
      st.allocBitmapFileBlockIndices ⊆ st'.allocBitmapFileBlockIndices ∧
      ∀ q, st.coveredPhysicalAllocationBlocksEnd ≤ q → q < rangeEnd → q < 2 ^ 57 →
        fileBlockOf f q ∈ st'.allocBitmapFileBlockIndices := by
  induction fuel generalizing st with
  | zero => omega
  | succ fuel ih =>
    obtain ⟨st₁, hnext, hcovers, hsub⟩ := collectNext_spec pr hf h (by omega)
    have hstep := hcovers.lt
    rw [collectUpTo, if_pos hlt, hnext, ok_bind]
    by_cases hmore : st₁.coveredPhysicalAllocationBlocksEnd < rangeEnd
    · obtain ⟨st', hrest, hcovers', hsub', hmem⟩ := ih hcovers.toAscends hmore (by omega)
      refine ⟨st', hrest, hcovers', List.Subset.trans hsub hsub', fun q hq hqe hq57 => ?_⟩
      by_cases hq₁ : q < st₁.coveredPhysicalAllocationBlocksEnd
      · exact hsub' (hcovers.mem_of_between hq hq₁ hq57)
      · exact hmem q (by omega) hqe hq57
    · have hdone : collectUpTo pr f rangeEnd fuel st₁ = .ok st₁ := by
        cases fuel with
        | zero => rfl
        | succ fuel => rw [collectUpTo, if_neg hmore]
      refine ⟨st₁, hdone, hcovers.of_between (by omega) (by omega), hsub, fun q hq hqe hq57 => ?_⟩
      exact hcovers.mem_of_between hq (by omega) hq57

theorem collectSegment_spec (hf : FileOk f) (h : Ascends f st)
    {piece : BlockRange × Nat} (hend : (segmentOf piece).e ≤ 2 ^ 58)
    (hne : (segmentOf piece).b < (segmentOf piece).e) :
    ∃ st', collectSegment pr f st piece = .ok st' ∧
      ((segmentOf piece).e ≤ st.coveredPhysicalAllocationBlocksEnd ∧ st' = st ∨
        st.coveredPhysicalAllocationBlocksEnd < (segmentOf piece).e ∧
          Covers f st' ((segmentOf piece).e - 1)) ∧
      st.allocBitmapFileBlockIndices ⊆ st'.allocBitmapFileBlockIndices ∧
      ∀ q, (segmentOf piece).b ≤ q → q < (segmentOf piece).e →
        st.coveredPhysicalAllocationBlocksEnd ≤ q → q < 2 ^ 57 →
        fileBlockOf f q ∈ st'.allocBitmapFileBlockIndices := by
  obtain ⟨r, p⟩ := piece
  simp only [segmentOf] at hend hne ⊢
  rw [collectSegment, BlockRange.blockCount, checkedSub_ok (by dsimp only; omega), ok_bind,
    checkedAdd_ok (by dsimp only; omega), ok_bind]
  dsimp only
  split
  next hskip => exact ⟨st, rfl, .inl ⟨hskip, rfl⟩, List.Subset.refl _, fun q _ _ _ _ => by omega⟩
  next hcov =>
    obtain ⟨st', hok, hcovers, hsub, hmem⟩ := collectUpTo_spec pr hf hend
      (p + (r.e - r.b) - max st.coveredPhysicalAllocationBlocksEnd p)
      (h.mono (le_max_left _ p)) (by dsimp only; omega) (le_refl _)
    refine ⟨st', hok, .inr ⟨by omega, hcovers⟩, hsub, fun q hq hqe hcq hq57 => ?_⟩
    exact hmem q (by dsimp only; omega) hqe hq57

/-- Segments behind each other, up to some last Allocation Block. -/
structure SegmentsTo (pieces : List (BlockRange × Nat)) (x : Nat) : Prop where
  nonempty : ∀ s ∈ segments pieces, s.b < s.e
  ascending : (segments pieces).Pairwise (fun s t => s.e ≤ t.b)
  end_le : ∀ s ∈ segments pieces, s.e ≤ x + 1
  lt : x < 2 ^ 58

theorem SegmentsTo.tail {piece : BlockRange × Nat} {pieces : List (BlockRange × Nat)} {x : Nat}
    (h : SegmentsTo (piece :: pieces) x)
    (hx : ∃ s ∈ segments (piece :: pieces), x + 1 = s.e) :
    SegmentsTo pieces x ∧ (∀ s ∈ segments pieces, (segmentOf piece).e ≤ s.b) ∧
      (x = (segmentOf piece).e - 1 ∨ ∃ s ∈ segments pieces, x + 1 = s.e) := by
  obtain ⟨hasc₁, hasc⟩ := pairwise_cons.mp h.ascending
  refine ⟨⟨fun s hs => h.nonempty s (mem_cons_of_mem _ hs), hasc,
    fun s hs => h.end_le s (mem_cons_of_mem _ hs), h.lt⟩, hasc₁, ?_⟩
  obtain ⟨s, hs, hxs⟩ := hx
  rcases mem_cons.mp hs with rfl | hs
  · left
    have : (segmentOf piece).e = x + 1 := hxs.symm
    omega
  · exact .inr ⟨s, hs, hxs⟩

/-- The remaining segments, once the end is behind one of their predecessors. -/
theorem foldlM_covers (hf : FileOk f) (pieces : List (BlockRange × Nat)) {x : Nat}
    (h : Covers f st y) (hs : SegmentsTo pieces x) (hy : ∀ s ∈ segments pieces, y < s.b)
    (hx : x = y ∨ ∃ s ∈ segments pieces, x + 1 = s.e) :
    ∃ st', pieces.foldlM (collectSegment pr f) st = .ok st' ∧ Covers f st' x ∧
      st.allocBitmapFileBlockIndices ⊆ st'.allocBitmapFileBlockIndices ∧
      ∀ s ∈ segments pieces, ∀ q, s.b ≤ q → q < s.e → q < 2 ^ 57 →
        fileBlockOf f q ∈ st'.allocBitmapFileBlockIndices := by
  induction pieces generalizing st y with
  | nil =>
    obtain rfl : x = y := by simpa using hx
    exact ⟨st, rfl, h, List.Subset.refl _, by simp⟩
  | cons piece pieces ih =>
    have hyb := hy (segmentOf piece) (by simp)
    have hlt := hs.nonempty (segmentOf piece) (by simp)
    have hle := hs.end_le (segmentOf piece) (by simp)
    have hx58 := hs.lt
    obtain ⟨hs', hbehind, hx'⟩ := hs.tail (hx.resolve_left (by omega))
    obtain ⟨st₁, hok, hcases, hsub, hmem⟩ := collectSegment_spec pr hf h.toAscends (by omega) hlt
    have hcov : Covers f st₁ ((segmentOf piece).e - 1) := by
      rcases hcases with ⟨hskip, rfl⟩ | ⟨-, hcov⟩
      · exact h.of_between (by omega) (by omega)
      · exact hcov
    obtain ⟨st', hrest, hcov', hsub', hmem'⟩ := ih hcov hs' (fun t ht => by
      have := hbehind t ht
      omega) hx'
    refine ⟨st', by rw [foldlM_cons, hok, ok_bind, hrest], hcov',
      List.Subset.trans hsub hsub', fun s hs q hb he hq => ?_⟩
    rcases mem_cons.mp hs with rfl | hs
    · apply hsub'
      by_cases hcq : st.coveredPhysicalAllocationBlocksEnd ≤ q
      · exact hmem q hb he hcq hq
      · refine hsub (h.mem_of_between ?_ (by omega) hq)
        have : (segmentOf piece).b ≤ q := hb
        omega
    · exact hmem' s hs q hb he hq

theorem foldlM_segments (hf : FileOk f) (pieces : List (BlockRange × Nat)) {x : Nat}
    (h : Ascends f st) (hs : SegmentsTo pieces x) (hx : ∃ s ∈ segments pieces, x + 1 = s.e)
    (hcx : st.coveredPhysicalAllocationBlocksEnd ≤ x) :
    ∃ st', pieces.foldlM (collectSegment pr f) st = .ok st' ∧ Covers f st' x ∧
      st.allocBitmapFileBlockIndices ⊆ st'.allocBitmapFileBlockIndices ∧
      ∀ s ∈ segments pieces, ∀ q, s.b ≤ q → q < s.e →
        st.coveredPhysicalAllocationBlocksEnd ≤ q → q < 2 ^ 57 →
        fileBlockOf f q ∈ st'.allocBitmapFileBlockIndices := by
  induction pieces generalizing st with
  | nil => simp at hx
  | cons piece pieces ih =>
    have hlt := hs.nonempty (segmentOf piece) (by simp)
    have hle := hs.end_le (segmentOf piece) (by simp)
    have hx58 := hs.lt
    obtain ⟨hs', hbehind, hx'⟩ := hs.tail hx
    obtain ⟨st₁, hok, hcases, hsub, hmem⟩ := collectSegment_spec pr hf h (by omega) hlt
    rw [foldlM_cons, hok, ok_bind]
    rcases hcases with ⟨hskip, rfl⟩ | ⟨-, hcov⟩
    · obtain ⟨st', hrest, hcov', hsub', hmem'⟩ := ih h hs' (hx'.resolve_left (by omega)) hcx
      refine ⟨st', hrest, hcov', hsub', fun s hs q hb he hcq hq => ?_⟩
      rcases mem_cons.mp hs with rfl | hs
      · have : q < (segmentOf piece).e := he
        omega
      · exact hmem' s hs q hb he hcq hq
    · obtain ⟨st', hrest, hcov', hsub', hmem'⟩ := foldlM_covers pr hf pieces hcov hs'
        (fun t ht => by
          have := hbehind t ht
          omega) hx'
      refine ⟨st', hrest, hcov', List.Subset.trans hsub hsub', fun s hs q hb he hcq hq => ?_⟩
      rcases mem_cons.mp hs with rfl | hs
      · exact hsub' (hmem q hb he hcq hq)
      · exact hmem' s hs q hb he hq

/-- The physical blocks in the data range covered by the leaf node that
authenticates a block. A leaf covers a power of two of data blocks. -/
structure InLeafRange (ranges : List BlockRange) (leafLog2 p q : Nat) : Prop where
  free : Free ranges q
  eq : dataIndex ranges q / 2 ^ leafLog2 = dataIndex ranges p / 2 ^ leafLog2

def leafLog2 (cfg : AuthTreeConfig) : Nat :=
  cfg.geometry.dataBlockAllocationBlocksLog2 + cfg.geometry.dataDigestsPerNodeLog2

structure Maps (ranges : List BlockRange) (cfg : AuthTreeConfig) : Prop where
  describes : Describes ranges cfg.authTreeDataAllocationBlocksMap
  aligned : ∀ r ∈ ranges, 2 ^ cfg.geometry.dataBlockAllocationBlocksLog2 ∣ r.b ∧
    2 ^ cfg.geometry.dataBlockAllocationBlocksLog2 ∣ r.e
  data_le : cfg.geometry.dataBlockAllocationBlocksLog2 ≤ 6
  digests_le : cfg.geometry.dataDigestsPerNodeLog2 ≤ 58
  tree_lt : treeBlocks ranges < 2 ^ 57

variable {cfg : AuthTreeConfig} {ranges : List BlockRange}

section

variable (h : Maps ranges cfg)
include h

theorem translatePhysicalToDataBlockIndex_ok
    (hp : 2 ^ cfg.geometry.dataBlockAllocationBlocksLog2 ∣ p) (hfree : Free ranges p)
    (hlt : p < 2 ^ 58) :
    translatePhysicalToDataBlockIndex pr cfg p =
      .ok (dataIndex ranges p / 2 ^ cfg.geometry.dataBlockAllocationBlocksLog2) := by
  have ha := h.data_le
  have hpow : 2 ^ cfg.geometry.dataBlockAllocationBlocksLog2 ≤ 2 ^ 6 :=
    Nat.pow_le_pow_right (by decide) ha
  have hpos := two_pow_pos cfg.geometry.dataBlockAllocationBlocksLog2
  have hblock (q : Nat) (hpq : p ≤ q)
      (hq : q < p + 2 ^ cfg.geometry.dataBlockAllocationBlocksLog2) : Free ranges q := by
    refine (free_congr hpos h.aligned ?_).mpr hfree
    obtain ⟨j, rfl⟩ := hp
    rw [Nat.mul_div_cancel_left _ hpos]
    exact Nat.div_eq_of_lt_le (by rw [mul_comm]; exact hpq)
      (by rw [succ_mul, mul_comm]; exact hq)
  rw [translatePhysicalToDataBlockIndex]
  simp only [alignDown_eq, Nat.div_mul_cancel hp]
  rw [shlU64_ok pr (by omega) (by omega), ok_bind, one_mul, checkedAdd_ok (by omega), ok_bind,
    h.describes.mapPhysical pr hblock hpos (by omega), ok_bind, shrU64_ok pr (by omega)]

theorem firstCoveredDataBlock_eq (i : Nat) :
    firstCoveredDataBlock (coveringLeafNodeId cfg i) =
      i / 2 ^ cfg.geometry.dataDigestsPerNodeLog2 * 2 ^ cfg.geometry.dataDigestsPerNodeLog2 := by
  have hk := h.digests_le
  simp only [firstCoveredDataBlock, coveringLeafNodeId, AuthTreeNodeId.new,
    levelCoveredDataBlockIndexBits, zero_mul, zero_add]
  rw [if_pos (by omega)]
  have := div_add_mod' i (2 ^ cfg.geometry.dataDigestsPerNodeLog2)
  omega

theorem lastCoveredDataBlock_eq (i : Nat) :
    lastCoveredDataBlock pr (coveringLeafNodeId cfg i) =
      .ok (i / 2 ^ cfg.geometry.dataDigestsPerNodeLog2 * 2 ^ cfg.geometry.dataDigestsPerNodeLog2 +
        (2 ^ cfg.geometry.dataDigestsPerNodeLog2 - 1)) := by
  have hk := h.digests_le
  have hfirst := firstCoveredDataBlock_eq h i
  have hpos := two_pow_pos cfg.geometry.dataDigestsPerNodeLog2
  rw [firstCoveredDataBlock] at hfirst
  have hbits : levelCoveredDataBlockIndexBits (coveringLeafNodeId cfg i).level
      (coveringLeafNodeId cfg i).nodeDigestsPerNodeLog2
      (coveringLeafNodeId cfg i).dataDigestsPerNodeLog2 = cfg.geometry.dataDigestsPerNodeLog2 := by
    simp only [coveringLeafNodeId, AuthTreeNodeId.new, levelCoveredDataBlockIndexBits,
      zero_mul, zero_add]
  have hassert : i / 2 ^ cfg.geometry.dataDigestsPerNodeLog2 *
      2 ^ cfg.geometry.dataDigestsPerNodeLog2 &&&
        2 ^ cfg.geometry.dataDigestsPerNodeLog2 - 1 = 0 := by
    rw [and_two_pow_sub_one_eq_mod, mul_mod_left]
  rw [lastCoveredDataBlock, hbits, if_pos (by omega), hfirst]
  dsimp only
  rw [debugAssert_ok pr hassert, ok_bind, pure_eq_ok, mul_comm,
    ← two_pow_add_eq_or_of_lt (by omega)]

theorem neededDataBlocks_ok {b e : Nat} (hbe : b < e) (he : e ≤ 2 ^ 57)
    (hb : 2 ^ cfg.geometry.dataBlockAllocationBlocksLog2 ∣ b)
    (hde : 2 ^ cfg.geometry.dataBlockAllocationBlocksLog2 ∣ e)
    (hfree : ∀ p, b ≤ p → p < e → Free ranges p) :
    neededDataBlocks pr cfg cfg.geometry.dataBlockAllocationBlocksLog2 ⟨b, e⟩ =
      .ok ⟨dataIndex ranges b / 2 ^ leafLog2 cfg * 2 ^ cfg.geometry.dataDigestsPerNodeLog2,
        (dataIndex ranges (e - 1) / 2 ^ leafLog2 cfg + 1) *
          2 ^ cfg.geometry.dataDigestsPerNodeLog2⟩ := by
  have hpos := two_pow_pos cfg.geometry.dataBlockAllocationBlocksLog2
  have hsub : b + 2 ^ cfg.geometry.dataBlockAllocationBlocksLog2 ≤ e :=
    BlockRuns.add_le_of_lt_of_dvd hb hde hbe
  -- The last Data Block of the region.
  obtain ⟨p, hp, rfl⟩ : ∃ p, 2 ^ cfg.geometry.dataBlockAllocationBlocksLog2 ∣ p ∧
      p + 2 ^ cfg.geometry.dataBlockAllocationBlocksLog2 = e :=
    ⟨_, Nat.dvd_sub hde (dvd_refl _), by omega⟩
  have halign : alignDown (p + 2 ^ cfg.geometry.dataBlockAllocationBlocksLog2 - 1)
      cfg.geometry.dataBlockAllocationBlocksLog2 = p := by
    obtain ⟨j, rfl⟩ := hp
    rw [alignDown_eq, Nat.add_sub_assoc hpos, mul_add_div hpos,
      div_eq_of_lt (by omega), add_zero, mul_comm]
  have hlast : dataIndex ranges (p + 2 ^ cfg.geometry.dataBlockAllocationBlocksLog2 - 1) =
      dataIndex ranges p + (2 ^ cfg.geometry.dataBlockAllocationBlocksLog2 - 1) := by
    rw [Nat.add_sub_assoc hpos]
    exact dataIndex_add fun i hi => hfree _ (by omega) (by omega)
  have hdiv : dataIndex ranges p / 2 ^ cfg.geometry.dataBlockAllocationBlocksLog2 =
      dataIndex ranges (p + 2 ^ cfg.geometry.dataBlockAllocationBlocksLog2 - 1) /
        2 ^ cfg.geometry.dataBlockAllocationBlocksLog2 := by
    obtain ⟨j, hj⟩ := dvd_dataIndex hpos h.aligned hp
    rw [hlast, hj, Nat.mul_div_cancel_left _ hpos, mul_add_div hpos,
      div_eq_of_lt (sub_lt hpos one_pos), add_zero]
  have hk : 2 ^ cfg.geometry.dataDigestsPerNodeLog2 ≤ 2 ^ 58 :=
    Nat.pow_le_pow_right (by decide) h.digests_le
  have hkpos := two_pow_pos cfg.geometry.dataDigestsPerNodeLog2
  have hle : dataIndex ranges (p + 2 ^ cfg.geometry.dataBlockAllocationBlocksLog2 - 1) /
      2 ^ leafLog2 cfg * 2 ^ cfg.geometry.dataDigestsPerNodeLog2 < 2 ^ 57 := by
    have hpow : 2 ^ cfg.geometry.dataDigestsPerNodeLog2 ≤ 2 ^ leafLog2 cfg :=
      Nat.pow_le_pow_right (by decide) (Nat.le_add_left _ _)
    have hindex := dataIndex_le ranges
      (p + 2 ^ cfg.geometry.dataBlockAllocationBlocksLog2 - 1)
    have hleaf := (Nat.mul_le_mul_left _ hpow).trans (div_mul_le_self
      (dataIndex ranges (p + 2 ^ cfg.geometry.dataBlockAllocationBlocksLog2 - 1))
      (2 ^ leafLog2 cfg))
    omega
  have hmono : dataIndex ranges b / 2 ^ leafLog2 cfg ≤
      dataIndex ranges (p + 2 ^ cfg.geometry.dataBlockAllocationBlocksLog2 - 1) /
        2 ^ leafLog2 cfg := div_le_div_right (dataIndex_mono (by omega))
  have hlt : dataIndex ranges b / 2 ^ leafLog2 cfg * 2 ^ cfg.geometry.dataDigestsPerNodeLog2 <
      dataIndex ranges (p + 2 ^ cfg.geometry.dataBlockAllocationBlocksLog2 - 1) /
          2 ^ leafLog2 cfg * 2 ^ cfg.geometry.dataDigestsPerNodeLog2 +
        (2 ^ cfg.geometry.dataDigestsPerNodeLog2 - 1) + 1 := by
    have := Nat.mul_le_mul_right (2 ^ cfg.geometry.dataDigestsPerNodeLog2) hmono
    omega
  have hword : dataIndex ranges (p + 2 ^ cfg.geometry.dataBlockAllocationBlocksLog2 - 1) /
        2 ^ leafLog2 cfg * 2 ^ cfg.geometry.dataDigestsPerNodeLog2 +
      (2 ^ cfg.geometry.dataDigestsPerNodeLog2 - 1) + 1 < 2 ^ 64 := by omega
  rw [neededDataBlocks, translatePhysicalToDataBlockIndex_ok pr h hb (hfree b (le_refl b) hbe)
    (by omega), ok_bind,
    subU64_ok pr (show 1 ≤ p + 2 ^ cfg.geometry.dataBlockAllocationBlocksLog2 by omega), ok_bind,
    halign,
    translatePhysicalToDataBlockIndex_ok pr h hp (hfree p (by omega) (by omega)) (by omega),
    ok_bind, lastCoveredDataBlock_eq pr h, ok_bind, hdiv, firstCoveredDataBlock_eq h,
    Nat.div_div_eq_div_mul, Nat.div_div_eq_div_mul, ← pow_add, ← leafLog2,
    checkedAdd_ok hword, ok_bind, BlockRange.new, debugAssert_ok pr hlt, ok_bind,
    pure_eq_ok, add_mul, one_mul, add_assoc, Nat.sub_add_cancel hkpos]

theorem translateDataBlockRangeToPhysical_ok {i j : Nat} (hij : i < j)
    (hj : j * 2 ^ leafLog2 cfg ≤ 2 ^ 58) :
    ∃ pieces, translateDataBlockRangeToPhysical pr cfg
        ⟨i * 2 ^ cfg.geometry.dataDigestsPerNodeLog2,
          j * 2 ^ cfg.geometry.dataDigestsPerNodeLog2⟩ = .ok pieces ∧
      Segments 0 cfg.authTreeDataAllocationBlocksMap.authTreeStoragePhysicalExtents
        (i * 2 ^ leafLog2 cfg) (j * 2 ^ leafLog2 cfg) (segments pieces) := by
  have hpow (n : Nat) : n * 2 ^ cfg.geometry.dataDigestsPerNodeLog2 *
      2 ^ cfg.geometry.dataBlockAllocationBlocksLog2 = n * 2 ^ leafLog2 cfg := by
    rw [mul_assoc, ← pow_add, add_comm, ← leafLog2]
  have hlt : i * 2 ^ leafLog2 cfg < j * 2 ^ leafLog2 cfg :=
    Nat.mul_lt_mul_of_pos_right hij (two_pow_pos _)
  have ha := h.data_le
  have htree := h.tree_lt
  obtain ⟨pieces, hpieces, hsegments⟩ := h.describes.dataRangePieces pr hlt.le (by omega)
  refine ⟨pieces, ?_, hsegments⟩
  rw [translateDataBlockRangeToPhysical]
  rw [shlU64_ok pr (by omega) (by rw [hpow]; omega), ok_bind,
    shlU64_ok pr (by omega) (by rw [hpow]; omega), ok_bind, hpow, hpow, BlockRange.new,
    debugAssert_ok pr hlt, ok_bind, pure_eq_ok, ok_bind, hpieces]

end

def leafEnd (cfg : AuthTreeConfig) (ranges : List BlockRange) (p : Nat) : Nat :=
  physicalAt cfg.authTreeDataAllocationBlocksMap.authTreeStoragePhysicalExtents
    ((dataIndex ranges p / 2 ^ leafLog2 cfg + 1) * 2 ^ leafLog2 cfg - 1)

theorem Maps.leafEnd_inLeafRange (h : Maps ranges cfg) (p : Nat) :
    InLeafRange ranges (leafLog2 cfg) p (leafEnd cfg ranges p) where
  free := h.describes.free_physicalAt _
  eq := by
    have hpos := two_pow_pos (leafLog2 cfg)
    rw [leafEnd, h.describes.dataIndex_physicalAt]
    exact Nat.div_eq_of_lt_le (by rw [add_mul]; omega) (by rw [add_mul]; omega)

theorem lt_of_leaf_lt {n : Nat} (hlt : dataIndex ranges p / n < dataIndex ranges q / n) :
    p < q := by
  by_contra hge
  exact absurd (div_le_div_right (dataIndex_mono (le_of_not_lt hge))) (not_le.mpr hlt)

theorem Maps.le_leafEnd (h : Maps ranges cfg) (hq : Free ranges q)
    (hle : dataIndex ranges q / 2 ^ leafLog2 cfg ≤ dataIndex ranges p / 2 ^ leafLog2 cfg) :
    q ≤ leafEnd cfg ranges p := by
  have hpos := two_pow_pos (leafLog2 cfg)
  rw [leafEnd, ← h.describes.physicalAt_dataIndex hq]
  refine (physicalAt_strictMono h.describes.entries).monotone (le_sub_one_of_lt ?_)
  rw [← Nat.div_lt_iff_lt_mul hpos]
  omega

/-- A region of Data Blocks within the image and outside of the tree. -/
structure UpdatedRegion (cfg : AuthTreeConfig) (ranges : List BlockRange) (r : BlockRange) :
    Prop where
  nonempty : r.b < r.e
  begin_aligned : 2 ^ cfg.geometry.dataBlockAllocationBlocksLog2 ∣ r.b
  end_aligned : 2 ^ cfg.geometry.dataBlockAllocationBlocksLog2 ∣ r.e
  free : ∀ p, r.b ≤ p → p < r.e → Free ranges p
  le : r.e ≤ 2 ^ 57

def LeafTracked (cfg : AuthTreeConfig) (ranges : List BlockRange) (r : BlockRange) : Prop :=
  ∀ q, InLeafRange ranges (leafLog2 cfg) (r.e - 1) q → q < 2 ^ 58

theorem collectRegion_spec (hf : FileOk f) (h : Maps ranges cfg)
    (hr : UpdatedRegion cfg ranges r) (htracked : LeafTracked cfg ranges r)
    (hst : Ascends f st) (hlt : st.coveredPhysicalAllocationBlocksEnd < r.e) :
    ∃ st', collectRegion pr f cfg cfg.geometry.dataBlockAllocationBlocksLog2 st r = .ok st' ∧
      Covers f st' (leafEnd cfg ranges (r.e - 1)) ∧
      st.allocBitmapFileBlockIndices ⊆ st'.allocBitmapFileBlockIndices ∧
      ∀ q, Free ranges q →
        dataIndex ranges (alignDown (max r.b st.coveredPhysicalAllocationBlocksEnd)
          cfg.geometry.dataBlockAllocationBlocksLog2) / 2 ^ leafLog2 cfg ≤
            dataIndex ranges q / 2 ^ leafLog2 cfg →
        dataIndex ranges q / 2 ^ leafLog2 cfg ≤ dataIndex ranges (r.e - 1) / 2 ^ leafLog2 cfg →
        st.coveredPhysicalAllocationBlocksEnd ≤ q → q < 2 ^ 57 →
        fileBlockOf f q ∈ st'.allocBitmapFileBlockIndices := by
  have hbe := hr.nonempty
  have hle := hr.le
  have hkpos := two_pow_pos (leafLog2 cfg)
  set c := st.coveredPhysicalAllocationBlocksEnd with hc
  set b := alignDown (max r.b c) cfg.geometry.dataBlockAllocationBlocksLog2 with hb
  rw [alignDown_eq] at hb
  have hbdvd : 2 ^ cfg.geometry.dataBlockAllocationBlocksLog2 ∣ b := by
    rw [hb]
    exact dvd_mul_left _ _
  have hbmax : b ≤ max r.b c := by
    rw [hb]
    exact div_mul_le_self _ _
  have hrb : r.b ≤ b := by
    rw [hb]
    calc r.b = r.b / 2 ^ cfg.geometry.dataBlockAllocationBlocksLog2 *
          2 ^ cfg.geometry.dataBlockAllocationBlocksLog2 :=
        (Nat.div_mul_cancel hr.begin_aligned).symm
      _ ≤ _ := Nat.mul_le_mul_right _ (div_le_div_right (le_max_left _ _))
  have hb_lt : b < r.e := by omega
  have hneeded := neededDataBlocks_ok pr h hb_lt hle hbdvd hr.end_aligned
    fun p hbp hpe => hr.free p (hrb.trans hbp) hpe
  have hmono : dataIndex ranges b / 2 ^ leafLog2 cfg ≤
      dataIndex ranges (r.e - 1) / 2 ^ leafLog2 cfg :=
    div_le_div_right (dataIndex_mono (by omega))
  have hx58 : leafEnd cfg ranges (r.e - 1) < 2 ^ 58 := htracked _ (h.leafEnd_inLeafRange _)
  have hD : (dataIndex ranges (r.e - 1) / 2 ^ leafLog2 cfg + 1) * 2 ^ leafLog2 cfg ≤ 2 ^ 58 := by
    have : (dataIndex ranges (r.e - 1) / 2 ^ leafLog2 cfg + 1) * 2 ^ leafLog2 cfg - 1 ≤
        leafEnd cfg ranges (r.e - 1) := Nat.le_add_right _ _
    omega
  obtain ⟨pieces, hpieces, hss⟩ := translateDataBlockRangeToPhysical_ok pr h
    (lt_add_one_of_le hmono) hD
  have hin (q : Nat) : (∃ s ∈ segments pieces, s.b ≤ q ∧ q < s.e) ↔ Free ranges q ∧
      dataIndex ranges b / 2 ^ leafLog2 cfg ≤ dataIndex ranges q / 2 ^ leafLog2 cfg ∧
      dataIndex ranges q / 2 ^ leafLog2 cfg ≤ dataIndex ranges (r.e - 1) / 2 ^ leafLog2 cfg := by
    rw [hss.mem_iff q, h.describes.free_iff]
    constructor
    · rintro ⟨d, hbd, hde, rfl⟩
      refine ⟨⟨d, rfl⟩, ?_⟩
      rw [← physicalAt, h.describes.dataIndex_physicalAt]
      exact ⟨(Nat.le_div_iff_mul_le hkpos).mpr hbd,
        Nat.lt_succ_iff.mp ((Nat.div_lt_iff_lt_mul hkpos).mpr hde)⟩
    · rintro ⟨⟨d, rfl⟩, hbd, hde⟩
      rw [h.describes.dataIndex_physicalAt] at hbd hde
      exact ⟨d, (Nat.le_div_iff_mul_le hkpos).mp hbd,
        (Nat.div_lt_iff_lt_mul hkpos).mp (Nat.lt_succ_iff.mpr hde), rfl⟩
  have hend (s : BlockRange) (hs : s ∈ segments pieces) :
      s.e ≤ leafEnd cfg ranges (r.e - 1) + 1 := by
    have hlt := hss.nonempty s hs
    obtain ⟨hfree, -, hleaf⟩ := (hin (s.e - 1)).mp ⟨s, hs, by omega, by omega⟩
    have := h.le_leafEnd hfree hleaf
    omega
  have hlast : ∃ s ∈ segments pieces, leafEnd cfg ranges (r.e - 1) + 1 = s.e := by
    obtain ⟨hfree, heq⟩ := h.leafEnd_inLeafRange (r.e - 1)
    obtain ⟨s, hs, -, hxe⟩ := (hin _).mpr ⟨hfree, by rw [heq]; exact hmono, heq.le⟩
    exact ⟨s, hs, le_antisymm hxe (hend s hs)⟩
  have hcx : c ≤ leafEnd cfg ranges (r.e - 1) := by
    have := h.le_leafEnd (p := r.e - 1) (hr.free (r.e - 1) (by omega) (by omega)) (le_refl _)
    omega
  obtain ⟨st', hok, hcov, hsub, hmem⟩ := foldlM_segments pr hf pieces hst
    ⟨hss.nonempty, hss.ascending, hend, hx58⟩ hlast hcx
  refine ⟨st', ?_, hcov, hsub, fun q hfree hbq hqe hcq hq => ?_⟩
  · have haligned : ¬ (alignDown r.b cfg.geometry.dataBlockAllocationBlocksLog2 ≠ r.b ∨
        alignDown r.e cfg.geometry.dataBlockAllocationBlocksLog2 ≠ r.e) := by
      rw [alignDown_eq, alignDown_eq, Nat.div_mul_cancel hr.begin_aligned,
        Nat.div_mul_cancel hr.end_aligned]
      simp
    have hnew : BlockRange.new pr (alignDown (max r.b st.coveredPhysicalAllocationBlocksEnd)
        cfg.geometry.dataBlockAllocationBlocksLog2) r.e = .ok ⟨b, r.e⟩ := by
      rw [BlockRange.new, debugAssert_ok pr hb_lt]
      rfl
    rw [collectRegion, if_neg (by omega), if_neg haligned, hnew, ok_bind, hneeded, ok_bind, hpieces,
      ok_bind, hok]
  · obtain ⟨s, hs, hbs, hse⟩ := (hin q).mpr ⟨hfree, hbq, hqe⟩
    exact hmem s hs q hbs hse hcq hq

/-- Where an updated region lies within the file block that tracks the end of
the leaf range of an earlier one, its own leaf range does so, too. Otherwise it
gets skipped, with that leaf range not yet collected. The limit is the maximum
size of an image. -/
def Follows (f : AllocBitmapFile) (cfg : AuthTreeConfig) (ranges : List BlockRange) (limit : Nat)
    (r s : BlockRange) : Prop :=
  (∃ x, InLeafRange ranges (leafLog2 cfg) (r.e - 1) x ∧
    fileBlockOf f (s.e - 1) ≤ fileBlockOf f x) →
  ∀ q, InLeafRange ranges (leafLog2 cfg) (s.e - 1) q → q < limit →
    ∃ x, InLeafRange ranges (leafLog2 cfg) (r.e - 1) x ∧ fileBlockOf f q ≤ fileBlockOf f x

/-- The state after some of the regions: their leaf ranges are all collected. The
covered end comes from a region which had not been below the one at that time. -/
structure CollectedUpTo (f : AllocBitmapFile) (cfg : AuthTreeConfig) (ranges : List BlockRange)
    (limit : Nat) (regions : List BlockRange) (st : Collected) : Prop where
  ascends : Ascends f st
  reached : st.coveredPhysicalAllocationBlocksEnd = 0 ∨
    ∃ r ∈ regions, Covers f st (leafEnd cfg ranges (r.e - 1)) ∧
      ∀ s ∈ regions, s.e ≤ r.b → leafEnd cfg ranges (s.e - 1) < limit →
        fileBlockOf f (leafEnd cfg ranges (s.e - 1)) < fileBlockOf f (r.e - 1)
  mem : ∀ r ∈ regions, ∀ p, r.b ≤ p → p < r.e → ∀ q, InLeafRange ranges (leafLog2 cfg) p q →
    q < limit → fileBlockOf f q ∈ st.allocBitmapFileBlockIndices

variable {limit : Nat} {regions : List BlockRange} {st : Collected}

/-- A block below the covered end, of the leaf range of a block behind all the
regions, has been collected. -/
theorem CollectedUpTo.mem_of_lt (h : CollectedUpTo f cfg ranges limit regions st)
    (hmaps : Maps ranges cfg) (hregions : ∀ r ∈ regions, UpdatedRegion cfg ranges r)
    (hlimit : limit ≤ 2 ^ 57) (hp : ∀ r ∈ regions, r.e ≤ p)
    (hq : InLeafRange ranges (leafLog2 cfg) p q) (hqlimit : q < limit)
    (hlt : q < st.coveredPhysicalAllocationBlocksEnd) :
    fileBlockOf f q ∈ st.allocBitmapFileBlockIndices := by
  rcases h.reached with hzero | ⟨r, hr, hcov, -⟩
  · omega
  · have hne := (hregions r hr).nonempty
    have hle : dataIndex ranges (r.e - 1) / 2 ^ leafLog2 cfg ≤
        dataIndex ranges q / 2 ^ leafLog2 cfg := by
      rw [hq.eq]
      exact div_le_div_right (dataIndex_mono (by have := hp r hr; omega))
    rcases hle.eq_or_lt with heq | hleaf
    · exact h.mem r hr (r.e - 1) (by omega) (by omega) q ⟨hq.free, heq.symm⟩ hqlimit
    · rw [← (hmaps.leafEnd_inLeafRange (r.e - 1)).eq] at hleaf
      exact hcov.mem_of_between (lt_of_leaf_lt hleaf).le hlt (by omega)

theorem CollectedUpTo.skip (h : CollectedUpTo f cfg ranges limit regions st)
    (hmaps : Maps ranges cfg) (hregions : ∀ r ∈ regions, UpdatedRegion cfg ranges r)
    (hlimit : limit ≤ 2 ^ 57) (hs : UpdatedRegion cfg ranges s)
    (hp : ∀ r ∈ regions, r.e ≤ s.b) (hfollows : ∀ r ∈ regions, Follows f cfg ranges limit r s)
    (hskip : s.e ≤ st.coveredPhysicalAllocationBlocksEnd) :
    CollectedUpTo f cfg ranges limit (regions ++ [s]) st := by
  have hse := hs.nonempty
  obtain ⟨r, hr, hcov, hbefore⟩ := h.reached.resolve_left (by omega)
  set y := leafEnd cfg ranges (r.e - 1) with hy
  have hyr : InLeafRange ranges (leafLog2 cfg) (r.e - 1) y := hmaps.leafEnd_inLeafRange _
  -- Whatever is below the covered end has a file block no greater than the one
  -- of the last block of the leaf range before.
  have hfile (q : Nat) (hq : q < 2 ^ 57) (hlt : q < st.coveredPhysicalAllocationBlocksEnd) :
      fileBlockOf f q ≤ fileBlockOf f y := by
    by_cases hy57 : y < 2 ^ 57
    · exact (hcov.lt_iff hy57 q hq).mp hlt
    · exact fileBlockOf_mono (by omega)
  refine ⟨h.ascends, .inr ⟨r, by simp [hr], hcov, fun t ht htr htl => ?_⟩,
    fun t ht p hbp hpe q hq hqlimit => ?_⟩
  · rcases mem_append.mp ht with ht | ht
    · exact hbefore t ht htr htl
    · obtain rfl := mem_singleton.mp ht
      have := hp r hr
      have := (hregions r hr).nonempty
      omega
  rcases mem_append.mp ht with ht | ht
  · exact h.mem t ht p hbp hpe q hq hqlimit
  obtain rfl := mem_singleton.mp ht
  by_cases hlt : q < st.coveredPhysicalAllocationBlocksEnd
  · exact h.mem_of_lt hmaps hregions hlimit (fun r hr => (hp r hr).trans hbp) hq hqlimit hlt
  -- Only the leaf of the region's last block reaches beyond the region.
  have hleaf : dataIndex ranges p / 2 ^ leafLog2 cfg =
      dataIndex ranges (t.e - 1) / 2 ^ leafLog2 cfg := by
    refine le_antisymm (div_le_div_right (dataIndex_mono (by omega))) ?_
    by_contra hne
    rw [← hq.eq] at hne
    have := lt_of_leaf_lt (lt_of_not_le hne)
    omega
  obtain ⟨x, hx, hqx⟩ := hfollows r hr ⟨y, hyr, hfile (t.e - 1) (by omega) (by omega)⟩ q
    ⟨hq.free, hq.eq.trans hleaf⟩ hqlimit
  have hxy : x ≤ y := hmaps.le_leafEnd hx.free hx.eq.le
  have hqy : fileBlockOf f q ≤ fileBlockOf f y := hqx.trans (fileBlockOf_mono hxy)
  have hyq : y < q := by
    have := hcov.lt
    omega
  rw [le_antisymm hqy (fileBlockOf_mono hyq.le)]
  exact hcov.mem (by omega)

theorem CollectedUpTo.next (h : CollectedUpTo f cfg ranges limit regions st)
    (hf : FileOk f) (hmaps : Maps ranges cfg) (hregions : ∀ r ∈ regions, UpdatedRegion cfg ranges r)
    (hlimit : limit ≤ 2 ^ 57) (hs : UpdatedRegion cfg ranges s)
    (htracked : LeafTracked cfg ranges s) (hp : ∀ r ∈ regions, r.e ≤ s.b)
    (hfollows : ∀ r ∈ regions, Follows f cfg ranges limit r s) :
    ∃ st', collectRegion pr f cfg cfg.geometry.dataBlockAllocationBlocksLog2 st s = .ok st' ∧
      CollectedUpTo f cfg ranges limit (regions ++ [s]) st' := by
  by_cases hskip : s.e ≤ st.coveredPhysicalAllocationBlocksEnd
  · refine ⟨st, ?_, h.skip hmaps hregions hlimit hs hp hfollows hskip⟩
    rw [collectRegion, if_pos hskip]
  · obtain ⟨st', hok, hcov, hsub, hmem⟩ := collectRegion_spec pr hf hmaps hs htracked h.ascends
      (lt_of_not_le hskip)
    refine ⟨st', hok, hcov.toAscends, .inr ⟨s, by simp, hcov, fun t ht hts htl => ?_⟩,
      fun t ht p hbp hpe q hq hqlimit => ?_⟩
    · have hne := hs.nonempty
      have hle := hs.le
      rcases mem_append.mp ht with ht | ht
      · have htne := (hregions t ht).nonempty
        have hmem := h.mem t ht (t.e - 1) (by omega) (by omega) _ (hmaps.leafEnd_inLeafRange _) htl
        exact h.ascends.beyond _ hmem (s.e - 1) (by omega) (by omega)
      · rw [mem_singleton.mp ht] at hts
        omega
    rcases mem_append.mp ht with ht | ht
    · exact hsub (h.mem t ht p hbp hpe q hq hqlimit)
    obtain rfl := mem_singleton.mp ht
    by_cases hlt : q < st.coveredPhysicalAllocationBlocksEnd
    · exact hsub (h.mem_of_lt hmaps hregions hlimit (fun r hr => (hp r hr).trans hbp) hq hqlimit hlt)
    refine hmem q hq.free ?_ ?_ (le_of_not_lt hlt) (by omega)
    · -- A leaf before the one the update begins with would lie below the covered end.
      by_contra hbefore
      have hqb := lt_of_leaf_lt (lt_of_not_le hbefore)
      rw [hq.eq] at hbefore
      have hpb := lt_of_leaf_lt (lt_of_not_le hbefore)
      have hle := div_mul_le_self (max t.b st.coveredPhysicalAllocationBlocksEnd)
        (2 ^ cfg.geometry.dataBlockAllocationBlocksLog2)
      rw [← alignDown_eq] at hle
      omega
    · rw [hq.eq]
      exact div_le_div_right (dataIndex_mono (by omega))

/-- A region that does not follow the others is skipped and takes a file block
with it. -/
theorem CollectedUpTo.skipped (h : CollectedUpTo f cfg ranges limit regions st)
    (hmaps : Maps ranges cfg) (hregions : ∀ r ∈ regions, UpdatedRegion cfg ranges r)
    (hasc : regions.Pairwise (fun r s => r.e ≤ s.b)) (hlimit : limit ≤ 2 ^ 57)
    (hs : UpdatedRegion cfg ranges s) (hp : ∀ r ∈ regions, r.e ≤ s.b)
    (hr : r ∈ regions) (hnot : ¬ Follows f cfg ranges limit r s) :
    collectRegion pr f cfg cfg.geometry.dataBlockAllocationBlocksLog2 st s = .ok st ∧
      ∃ q, InLeafRange ranges (leafLog2 cfg) (s.e - 1) q ∧ q < limit ∧
        fileBlockOf f q ∉ st.allocBitmapFileBlockIndices := by
  have hse := hs.nonempty
  have hle := hs.le
  have hre := (hregions r hr).nonempty
  set y := leafEnd cfg ranges (r.e - 1) with hy
  have hyr : InLeafRange ranges (leafLog2 cfg) (r.e - 1) y := hmaps.leafEnd_inLeafRange _
  rw [Follows] at hnot
  push Not at hnot
  obtain ⟨⟨x, hx, hsx⟩, q, hq, hqlimit, hnone⟩ := hnot
  have hsy : fileBlockOf f (s.e - 1) ≤ fileBlockOf f y :=
    hsx.trans (fileBlockOf_mono (hmaps.le_leafEnd hx.free hx.eq.le))
  have hyq : fileBlockOf f y < fileBlockOf f q := hnone y hyr
  have hylt : y < q := by
    by_contra hge
    exact absurd (fileBlockOf_mono (le_of_not_lt hge)) (not_le.mpr hyq)
  have hymem := h.mem r hr (r.e - 1) (by omega) (by omega) y hyr (by omega)
  have hyc : y < st.coveredPhysicalAllocationBlocksEnd := by
    by_contra hge
    exact lt_irrefl _ (h.ascends.beyond _ hymem y (by omega) (le_of_not_lt hge))
  obtain ⟨r₀, hr₀, hcov, hbefore⟩ := h.reached.resolve_left (by omega)
  have hr₀s := hp r₀ hr₀
  -- The region the covered end comes from is no later than the one that is not
  -- followed, as otherwise it would have been skipped itself.
  have hle₀ : leafEnd cfg ranges (r₀.e - 1) ≤ y := by
    refine hmaps.le_leafEnd (hmaps.leafEnd_inLeafRange _).free ?_
    rw [(hmaps.leafEnd_inLeafRange _).eq]
    refine div_le_div_right (dataIndex_mono ?_)
    have hpair : regions.Pairwise BlockRange.Disjoint := hasc.imp fun h => Or.inl h
    have : Std.Symm BlockRange.Disjoint := ⟨fun _ _ h => Or.symm h⟩
    by_cases heq : r₀ = r
    · rw [heq]
    · rcases hpair.forall hr₀ hr heq with hlt | hlt
      · omega
      · have hlater : fileBlockOf f y < fileBlockOf f (r₀.e - 1) := hbefore r hr hlt (by omega)
        have hmono : fileBlockOf f (r₀.e - 1) ≤ fileBlockOf f (s.e - 1) :=
          fileBlockOf_mono (by omega)
        omega
  have hltIff := hcov.lt_iff (by omega)
  have hmono := fileBlockOf_mono (f := f) hle₀
  have hskip : s.e - 1 < st.coveredPhysicalAllocationBlocksEnd :=
    (hltIff (s.e - 1) (by omega)).mpr (hsy.trans ((hltIff y (by omega)).mp hyc))
  refine ⟨by rw [collectRegion, if_pos (by omega)], q, hq, hqlimit, fun hmem => ?_⟩
  have hqc : ¬ q < st.coveredPhysicalAllocationBlocksEnd := fun hlt =>
    absurd ((hltIff q (by omega)).mp hlt) (by omega)
  exact lt_irrefl _ (h.ascends.beyond _ hmem q (by omega) (le_of_not_lt hqc))

theorem collectedUpTo_nil : CollectedUpTo f cfg ranges limit [] ⟨0, []⟩ :=
  ⟨⟨List.Pairwise.nil, by simp⟩, .inl rfl, by simp⟩

theorem CollectedUpTo.all (hf : FileOk f) (hmaps : Maps ranges cfg) (hlimit : limit ≤ 2 ^ 57)
    (rest : List BlockRange) (h : CollectedUpTo f cfg ranges limit regions st)
    (hregions : ∀ r ∈ regions ++ rest, UpdatedRegion cfg ranges r)
    (htracked : ∀ r ∈ rest, LeafTracked cfg ranges r)
    (hasc : (regions ++ rest).Pairwise (fun r s => r.e ≤ s.b))
    (hfollows : (regions ++ rest).Pairwise (Follows f cfg ranges limit)) :
    ∃ st', rest.foldlM (collectRegion pr f cfg cfg.geometry.dataBlockAllocationBlocksLog2) st =
        .ok st' ∧ CollectedUpTo f cfg ranges limit (regions ++ rest) st' := by
  induction rest generalizing regions st with
  | nil => exact ⟨st, rfl, by rwa [List.append_nil]⟩
  | cons s rest ih =>
    rw [append_cons] at hregions hasc hfollows ⊢
    have hasc' := (pairwise_append.mp (pairwise_append.mp hasc).1).2.2
    have hfollows' := (pairwise_append.mp (pairwise_append.mp hfollows).1).2.2
    obtain ⟨st₁, hok, h₁⟩ := h.next pr hf hmaps (fun r hr => hregions r (by simp [hr]))
      hlimit (hregions s (by simp)) (htracked s (by simp)) (fun r hr => hasc' r hr s (by simp))
      (fun r hr => hfollows' r hr s (by simp))
    obtain ⟨st', hrest, h'⟩ := ih h₁ hregions (fun r hr => htracked r (by simp [hr])) hasc hfollows
    exact ⟨st', by rw [foldlM_cons, hok, ok_bind, hrest], h'⟩

def maxImageAllocationBlocks (l : ImageLayout) : Nat :=
  (2 ^ 64 - 1) / 2 ^ (l.allocationBlockSize128bLog2.toNat + 7)

/-- Regions made up of Data Blocks of an image, the last one of which may be partial. -/
structure UpdatedRegions (l : ImageLayout) (imageSize : Nat) (ranges regions : List BlockRange) :
    Prop where
  nonempty : ∀ r ∈ regions, r.b < r.e
  begin_aligned : ∀ r ∈ regions, 2 ^ l.authTreeDataBlockAllocationBlocksLog2.toNat ∣ r.b
  end_aligned : ∀ r ∈ regions, 2 ^ l.authTreeDataBlockAllocationBlocksLog2.toNat ∣ r.e
  in_image : ∀ r ∈ regions, r.e < imageSize + 2 ^ l.authTreeDataBlockAllocationBlocksLog2.toNat
  free : ∀ r ∈ regions, ∀ p, r.b ≤ p → p < r.e → Free ranges p
  ascending : regions.Pairwise (fun r s => r.e ≤ s.b)

/-- The list returned is in order and has got all the file blocks that track any
block of the leaf range of an updated block. -/
def CollectsAll (pr : Profile) (l : ImageLayout) (f : AllocBitmapFile) (cfg : AuthTreeConfig)
    (ranges regions : List BlockRange) : Prop :=
  ∃ indices, collectAllocBitmapBlocksForAuthTreeReconstruction pr f cfg
      l.authTreeDataBlockAllocationBlocksLog2.toNat regions = .ok indices ∧
    indices.Pairwise (· < ·) ∧
    ∀ r ∈ regions, ∀ p, r.b ≤ p → p < r.e → ∀ q, InLeafRange ranges (leafLog2 cfg) p q →
      q < maxImageAllocationBlocks l → fileBlockOf f q ∈ indices

theorem maxImageAllocationBlocks_lt (l : ImageLayout) : maxImageAllocationBlocks l < 2 ^ 57 := by
  have hle : 2 ^ 7 ≤ 2 ^ (l.allocationBlockSize128bLog2.toNat + 7) :=
    Nat.pow_le_pow_right (by decide) (by omega)
  have := div_le_div_left (a := 2 ^ 64 - 1) hle (by decide)
  rw [maxImageAllocationBlocks]
  omega

theorem dvd_of_or_mod_eq_zero {x n m : Nat} (hmn : m ≤ n) (h : (x ||| y) % 2 ^ n = 0) :
    2 ^ m ∣ x ∧ 2 ^ m ∣ y := by
  rw [or_mod_two_pow, or_eq_zero_iff] at h
  have hdvd := pow_dvd_pow 2 hmn
  exact ⟨hdvd.trans (dvd_of_mod_eq_zero h.1), hdvd.trans (dvd_of_mod_eq_zero h.2)⟩

variable {cfg : AuthTreeConfig} {x : LogicalExtents} {pr : Profile}

theorem map_of_new (h : new pr l imageSize x = .ok cfg) :
    AuthTreeDataAllocationBlocksMap.new pr x = .ok cfg.authTreeDataAllocationBlocksMap := by
  obtain ⟨g, -, h⟩ := bind_eq_ok h
  obtain ⟨ranges, -, h⟩ := bind_eq_ok h
  obtain ⟨-, h⟩ := of_ite_err h
  obtain ⟨-, h⟩ := of_ite_err h
  obtain ⟨-, h⟩ := of_ite_err h
  obtain ⟨map, hmap, h⟩ := bind_eq_ok h
  obtain ⟨levels, -, h⟩ := bind_eq_ok h
  obtain ⟨inv, -, h⟩ := bind_eq_ok h
  obtain ⟨covered, -, h⟩ := bind_eq_ok h
  obtain ⟨-, h⟩ := of_ite_err h
  cases h
  exact hmap

theorem dataBlockAllocationBlocksLog2_eq {g : NodeGeometry} (h : nodeGeometry l = .ok g) :
    g.dataBlockAllocationBlocksLog2 = l.authTreeDataBlockAllocationBlocksLog2.toNat := by
  obtain ⟨-, h⟩ := of_ite_err h
  obtain ⟨-, h⟩ := of_ite_err h
  obtain ⟨-, h⟩ := of_ite_err h
  obtain ⟨-, h⟩ := of_ite_err h
  cases h
  rfl

theorem maps_of_new (himage : ImageSizeOk l imageSize)
    (hdisjoint : x.ranges.Pairwise BlockRange.Disjoint)
    (h : new pr l imageSize x = .ok cfg) :
    Maps x.ranges cfg ∧
      cfg.geometry.dataBlockAllocationBlocksLog2 = l.authTreeDataBlockAllocationBlocksLog2.toNat := by
  have hacc := AuthTreeConfig.accepted_of_new h
  obtain ⟨ranges, hranges, haligned⟩ := hacc.ranges
  have hlt := x.lt_of_physicalRanges pr hranges
  rw [x.physicalRanges_ok pr hlt] at hranges
  cases hranges
  obtain ⟨m, hm, hdescribes⟩ := describes_of_new pr x
    ⟨rangesFrom_nonempty x.extents 0 x.ascending, hlt, hdisjoint⟩
  cases hm.symm.trans (map_of_new h)
  have hgeometry := nodeGeometry_ok hacc.geometry
  have hlog := dataBlockAllocationBlocksLog2_eq hacc.geometry
  refine ⟨⟨hdescribes, fun r hr => ?_, hgeometry.a_le, ?_, ?_⟩, hlog⟩
  · have := haligned r hr
    rw [extentAligned, decide_eq_true_eq] at this
    rw [hlog]
    exact dvd_of_or_mod_eq_zero (le_max_right _ _) this.1
  · have hd := hgeometry.d_eq
    have hsize := hgeometry.size_lt
    omega
  · rw [treeBlocks_eq]
    exact (hacc.size_le.trans himage).trans_lt (maxImageAllocationBlocks_lt l)

theorem updatedRegion_of_regions {ranges regions : List BlockRange}
    (himage : ImageSizeOk l imageSize) (h : UpdatedRegions l imageSize ranges regions)
    (hlog : cfg.geometry.dataBlockAllocationBlocksLog2 =
      l.authTreeDataBlockAllocationBlocksLog2.toNat)
    (hle : cfg.geometry.dataBlockAllocationBlocksLog2 ≤ 6) (r : BlockRange) (hr : r ∈ regions) :
    UpdatedRegion cfg ranges r := by
  refine ⟨h.nonempty r hr, by rw [hlog]; exact h.begin_aligned r hr,
    by rw [hlog]; exact h.end_aligned r hr, h.free r hr, ?_⟩
  -- The last Data Block may reach beyond the image, up to the next aligned block.
  have hin := h.in_image r hr
  have hsize := himage.trans_lt (maxImageAllocationBlocks_lt l)
  by_contra hgt
  have hdvd : 2 ^ l.authTreeDataBlockAllocationBlocksLog2.toNat ∣ 2 ^ 57 :=
    pow_dvd_pow 2 (by omega)
  have := BlockRuns.add_le_of_lt_of_dvd hdvd (h.end_aligned r hr) (lt_of_not_le hgt)
  omega

theorem UpdatedRegions.of_prefix
    {ranges pre regions : List BlockRange} (h : UpdatedRegions l imageSize ranges regions)
    (hpre : pre <+: regions) : UpdatedRegions l imageSize ranges pre := by
  have hsub := hpre.subset
  exact ⟨fun r hr => h.nonempty r (hsub hr), fun r hr => h.begin_aligned r (hsub hr),
    fun r hr => h.end_aligned r (hsub hr), fun r hr => h.in_image r (hsub hr),
    fun r hr => h.free r (hsub hr), h.ascending.sublist hpre.sublist⟩

/-- Skipping the regions below the covered end is all right as long as they
follow the others. The first one that does not costs a file block, unless a
later region happens to bring it back. -/
theorem collectsAll_iff (pr : Profile) (l : ImageLayout) (imageSize : Nat)
    (himage : ImageSizeOk l imageSize) (x : LogicalExtents)
    (hdisjoint : x.ranges.Pairwise BlockRange.Disjoint) (cfg : AuthTreeConfig)
    (hcfg : new pr l imageSize x = .ok cfg) (extents : PhysicalExtents)
    (f : AllocBitmapFile) (hf : new pr l extents = .ok f)
    (regions : List BlockRange) (hregions : UpdatedRegions l imageSize x.ranges regions)
    (htracked : ∀ r ∈ regions, LeafTracked cfg x.ranges r) :
    (∀ pre, pre <+: regions → CollectsAll pr l f cfg x.ranges pre) ↔
      regions.Pairwise (Follows f cfg x.ranges (maxImageAllocationBlocks l)) := by
  obtain ⟨hmaps, hlog⟩ := maps_of_new himage hdisjoint hcfg
  have hfile := fileOk_of_new hf
  have hlimit := (maxImageAllocationBlocks_lt l).le
  -- The state after regions that all follow each other.
  have hrun (pre : List BlockRange) (hpre : pre <+: regions)
      (hfollows : pre.Pairwise (Follows f cfg x.ranges (maxImageAllocationBlocks l))) :
      ∃ st, pre.foldlM (collectRegion pr f cfg l.authTreeDataBlockAllocationBlocksLog2.toNat)
          ⟨0, []⟩ = .ok st ∧
        CollectedUpTo f cfg x.ranges (maxImageAllocationBlocks l) pre st := by
    have hp := hregions.of_prefix hpre
    rw [← hlog]
    exact CollectedUpTo.all pr hfile hmaps hlimit pre collectedUpTo_nil
      (updatedRegion_of_regions himage hp hlog hmaps.data_le)
      (fun r hr => htracked r (hpre.subset hr)) hp.ascending hfollows
  constructor
  · intro hall
    induction regions using List.reverseRecOn with
    | nil => exact List.Pairwise.nil
    | append_singleton init s ih =>
      have hinit : init <+: init ++ [s] := prefix_append _ _
      have hfollows := ih (hregions.of_prefix hinit) (fun r hr => htracked r (hinit.subset hr))
        (fun pre hpre => hrun pre (hpre.trans hinit))
        (fun pre hpre => hall pre (hpre.trans hinit))
      refine pairwise_append.mpr ⟨hfollows, pairwise_singleton _ _, fun r hr t ht => ?_⟩
      obtain rfl := mem_singleton.mp ht
      by_contra hnot
      obtain ⟨st, hst, hcollected⟩ := hrun init hinit hfollows
      have hregion := updatedRegion_of_regions himage hregions hlog hmaps.data_le
      have hasc := pairwise_append.mp hregions.ascending
      obtain ⟨hskip, q, hq, hqlimit, hmissing⟩ := hcollected.skipped pr hmaps
        (fun r hr => hregion r (hinit.subset hr)) hasc.1 hlimit (hregion t (by simp))
        (fun r hr => hasc.2.2 r hr t (by simp)) hr hnot
      rw [hlog] at hskip
      obtain ⟨indices, hok, -, hmem⟩ := hall _ (prefix_refl _)
      rw [collectAllocBitmapBlocksForAuthTreeReconstruction, foldlM_append, hst, ok_bind,
        foldlM_cons, hskip, ok_bind, foldlM_nil, pure_eq_ok, ok_bind] at hok
      cases hok
      have hne := hregions.nonempty t (by simp)
      exact hmissing (hmem t (by simp) (t.e - 1) (by omega) (by omega) q hq hqlimit)
  · intro hfollows pre hpre
    obtain ⟨st, hst, hcollected⟩ := hrun pre hpre (hfollows.sublist hpre.sublist)
    refine ⟨st.allocBitmapFileBlockIndices, ?_, hcollected.ascends.ascending, hcollected.mem⟩
    rw [collectAllocBitmapBlocksForAuthTreeReconstruction, hst, ok_bind]
    rfl

theorem Maps.leafTracked (h : Maps ranges cfg) (hr : r.b < r.e)
    (hle : r.e + 2 ^ leafLog2 cfg + treeBlocks ranges ≤ 2 ^ 58) : LeafTracked cfg ranges r := by
  intro q hq
  have hq_le := h.describes.le_dataIndex_add hq.free
  have hindex := dataIndex_le ranges (r.e - 1)
  have hlt := lt_div_mul_add (a := dataIndex ranges q) (two_pow_pos (leafLog2 cfg))
  have hdiv := div_mul_le_self (dataIndex ranges (r.e - 1)) (2 ^ leafLog2 cfg)
  rw [hq.eq] at hlt
  omega

/-- Nodes of eight blocks, leaves for 32 of them and a tree of 26 nodes. The leaf
ranges behind the tree begin at 16 modulo 32 and a file block is for 896 blocks. -/
def spanLayout : ImageLayout :=
  ⟨0, 0, 3, 0, 0, 2, 2, .sha256, .sha256, .sha256, .sha256, .sha256, .aes128⟩

def spanExtents : LogicalExtents := ⟨[(8, 208)], by decide, by decide⟩

def spanFileExtents : PhysicalExtents := ⟨[(216, 2)], by decide⟩

theorem spanConfig_isOk : (new .debug spanLayout 1000 spanExtents).isOk = true := by
  decide +kernel

theorem spanFile_eq : new .debug spanLayout spanFileExtents =
    .ok ⟨14, 1317624576693539402, 64, 2⟩ := by
  decide +kernel

/-- The leaf range of block 880 goes up to block 911, but block 896 is tracked by
the second file block. -/
theorem span_not_collectsAll : ∃ cfg f,
    new .debug spanLayout 1000 spanExtents = .ok cfg ∧
    new .debug spanLayout spanFileExtents = .ok f ∧
    UpdatedRegions spanLayout 1000 spanExtents.ranges [⟨0, 1⟩, ⟨880, 881⟩] ∧
    ¬ CollectsAll .debug spanLayout f cfg spanExtents.ranges [⟨0, 1⟩, ⟨880, 881⟩] := by
  obtain ⟨cfg, hcfg⟩ := exists_ok_of_isOk spanConfig_isOk
  have hlog : (do
      let cfg ← new .debug spanLayout 1000 spanExtents
      pure (leafLog2 cfg) : Comp Nat) = .ok 5 := by decide +kernel
  have hrun : (do
      let cfg ← new .debug spanLayout 1000 spanExtents
      collectAllocBitmapBlocksForAuthTreeReconstruction .debug ⟨14, 1317624576693539402, 64, 2⟩ cfg
        0 [⟨0, 1⟩, ⟨880, 881⟩] : Comp (List Nat)) = .ok [0] := by decide +kernel
  rw [hcfg, ok_bind] at hlog hrun
  refine ⟨cfg, _, hcfg, spanFile_eq, ?_, ?_⟩
  · refine ⟨by decide, by decide, by decide, by decide, fun r hr p hb he => ?_, by decide⟩
    simp only [mem_cons, not_mem_nil, or_false] at hr
    rcases hr with rfl | rfl
    · obtain rfl : p = 0 := by dsimp only at he; omega
      decide
    · obtain rfl : p = 880 := by dsimp only at hb he; omega
      decide
  · rintro ⟨indices, hok, -, hmem⟩
    obtain rfl : [0] = indices := Except.ok.inj (hrun.symm.trans hok)
    have hleaf : InLeafRange spanExtents.ranges (leafLog2 cfg) 880 896 := by
      rw [Except.ok.inj hlog]
      exact ⟨by decide, by decide +kernel⟩
    have := hmem ⟨880, 881⟩ (by simp) 880 (by decide) (by decide) 896 hleaf (by decide)
    revert this
    decide

theorem collectsAll_iff_span : ∃ cfg f,
    new .debug spanLayout 1000 spanExtents = .ok cfg ∧
    new .debug spanLayout spanFileExtents = .ok f ∧
    ((∀ pre, pre <+: [⟨0, 1⟩, ⟨300, 301⟩] →
        CollectsAll .debug spanLayout f cfg spanExtents.ranges pre) ↔
      [⟨0, 1⟩, ⟨300, 301⟩].Pairwise (Follows f cfg spanExtents.ranges
        (maxImageAllocationBlocks spanLayout))) := by
  obtain ⟨cfg, hcfg⟩ := exists_ok_of_isOk spanConfig_isOk
  have hlog : (do
      let cfg ← new .debug spanLayout 1000 spanExtents
      pure (leafLog2 cfg) : Comp Nat) = .ok 5 := by decide +kernel
  rw [hcfg, ok_bind] at hlog
  have himage : ImageSizeOk spanLayout 1000 := by
    rw [ImageSizeOk]
    decide
  obtain ⟨hmaps, -⟩ := maps_of_new himage (by decide) hcfg
  have hregions : UpdatedRegions spanLayout 1000 spanExtents.ranges [⟨0, 1⟩, ⟨300, 301⟩] := by
    refine ⟨by decide, by decide, by decide, by decide, fun r hr p hb he => ?_, by decide⟩
    simp only [mem_cons, not_mem_nil, or_false] at hr
    rcases hr with rfl | rfl
    · obtain rfl : p = 0 := by dsimp only at he; omega
      decide
    · obtain rfl : p = 300 := by dsimp only at hb he; omega
      decide
  have htracked : ∀ r ∈ [⟨0, 1⟩, ⟨300, 301⟩], LeafTracked cfg spanExtents.ranges r := by
    intro r hr
    refine hmaps.leafTracked (hregions.nonempty r hr) ?_
    rw [Except.ok.inj hlog]
    have hin := hregions.in_image r hr
    have htree : treeBlocks spanExtents.ranges = 208 := by decide
    have hdataLog : spanLayout.authTreeDataBlockAllocationBlocksLog2.toNat = 0 := rfl
    rw [hdataLog] at hin
    omega
  exact ⟨cfg, _, hcfg, spanFile_eq, collectsAll_iff .debug spanLayout 1000 himage spanExtents
    (by decide) cfg hcfg spanFileExtents _ spanFile_eq _ hregions htracked⟩

end CocoonFs.AuthTreeUpdates
