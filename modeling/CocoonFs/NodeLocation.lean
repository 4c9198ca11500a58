import CocoonFs.ExtentsLookup
import CocoonFs.TreeConfig

namespace CocoonFs.NodeLocation

open Checked CompleteTree DfsIndex Extents ExtentsLookup Layout SubtreeCount TreeConfig TreeShape List Nat
open LogicalExtentsRangeIterator (new)
open LogicalExtentsRange (item logicalEnd)

/-- The logical range of the node at some position in the preorder. -/
def nodeLogicalRange (pr : Profile) (b dfsPreNodeIndex : Nat) : Comp BlockRange := do
  let logicalBegin ← shlU64 pr dfsPreNodeIndex b
  let nodeBlocks ← shlU64 pr 1 b
  let logicalEnd ← checkedAdd logicalBegin nodeBlocks
  BlockRange.new pr logicalBegin logicalEnd

def contiguousRange (pr : Profile) (x : LogicalExtents) (logicalRange : BlockRange) :
    Comp BlockRange := do
  match ← x.iterRange pr logicalRange with
  | none => err .internal
  | some it =>
    match ← it.next pr with
    | (none, _) => err .internal
    | (some extent, it) =>
      match ← it.next pr with
      | (some _, _) => err .internal
      | (none, _) => extent.physicalRange pr

def AuthTreeConfig.nodePhysicalLocation (pr : Profile) (cfg : AuthTreeConfig) (x : AuthTreeNodeId) :
    Comp BlockRange := do
  debugAssert pr (x.level < cfg.authTreeLevels)
  if cfg.maxCoveredDataBlockCount ≤ x.coveredDataBlocksBegin then formatErr .blockOutOfRange
  else do
    let (dfsPreNodeIndex, _) ← cfg.dfsPreIndex pr x
    let logicalRange ← nodeLogicalRange pr cfg.geometry.nodeAllocationBlocksLog2 dfsPreNodeIndex
    contiguousRange pr cfg.authTreeExtents logicalRange

section FirstExtent

variable {pr : Profile} {x : LogicalExtents} {p e : Nat} {rest : List (Nat × Nat)}
  {query : BlockRange}

theorem entryLogicalRange_zero (hx : x.extents = (p, e) :: rest) :
    x.entryLogicalRange pr 0 = .ok ⟨0, e⟩ := by
  have hget : x.extents[0]? = some (p, e) := by rw [hx, getElem?_cons_zero]
  exact x.entryLogicalRange_ok pr hget

theorem contiguousRange_first (hx : x.extents = (p, e) :: rest) (hb : query.b < query.e)
    (he : query.e ≤ e) (hlt : p + e < 2 ^ 64) :
    contiguousRange pr x query = .ok ⟨p + query.b, p + query.e⟩ := by
  have hget : x.extents[0]? = some (p, e) := by rw [hx, getElem?_cons_zero]
  have hin : InExtent x query.b 0 (p, e) := ⟨hget, zero_le _, lt_of_lt_of_le hb he⟩
  have hitem := item_of_in pr hin hb he (by dsimp only; omega)
  have hphys : physicalBegin x query.b = p + query.b := by
    rw [hin.physicalBegin_eq]
    rfl
  have hsum : p + query.b + (query.e - query.b) = p + query.e := by omega
  rw [hphys] at hitem
  rw [contiguousRange, LogicalExtents.iterRange, lookupRange_ok pr hin
    (hin.mono (by omega) (by dsimp only; omega)) hb, ok_bind]
  dsimp only
  rw [pure_eq_ok, ok_bind]
  dsimp only
  rw [new, LogicalExtentsRangeIterator.next]
  dsimp only
  rw [if_neg (by decide), hitem, ok_bind, pure_eq_ok, ok_bind]
  dsimp only
  rw [LogicalExtentsRangeIterator.next]
  dsimp only
  rw [if_pos rfl, ok_bind]
  rw [LogicalExtent.physicalRange]
  dsimp only
  rw [checkedAdd_ok (by omega), hsum, ok_bind, BlockRange.new, debugAssert_ok pr (by omega)]
  rfl

/-- The iteration always starts at the first extent, so a range within another
one yields more than one item. -/
theorem contiguousRange_of_in (pr : Profile) {k : Nat} {entry : Nat × Nat}
    (h : InExtent x query.b (k + 1) entry) (hb : query.b < query.e) (he : query.e ≤ entry.2)
    (hword : ∀ i entry, x.extents[i]? = some entry → entry.1 + (entry.2 - x.beginAt i) < 2 ^ 64) :
    contiguousRange pr x query = err .internal := by
  have hk := (List.getElem?_eq_some_iff.mp h.entry_eq).1
  have hfull (i : Nat) (hi : i < k + 1) : ∃ extent, item pr x
      ⟨k + 1, k + 1, query.b - x.beginAt (k + 1), query.e - x.beginAt (k + 1)⟩ i = .ok extent := by
    obtain ⟨first, hfirst⟩ : ∃ first, x.extents[i]? = some first :=
      ⟨_, getElem?_eq_getElem (by omega)⟩
    have hlt := x.beginAt_lt hfirst
    have hu := x.u64 first (mem_of_getElem? hfirst)
    rw [item, x.entryLogicalRange_ok pr hfirst, ok_bind, index_ok hfirst,
      ok_bind]
    dsimp only
    rw [if_neg hi.ne, checkedAdd_ok (by omega), ok_bind, checkedAdd_ok (by omega), ok_bind,
      logicalEnd, if_pos hi.ne, ok_bind, checkedSub_ok (by dsimp only; omega)]
    exact ⟨_, rfl⟩
  obtain ⟨first, hfirst⟩ := hfull 0 (succ_pos k)
  obtain ⟨second, hsecond⟩ : ∃ extent, item pr x
      ⟨k + 1, k + 1, query.b - x.beginAt (k + 1), query.e - x.beginAt (k + 1)⟩ 1 = .ok extent := by
    cases k with
    | zero => exact ⟨_, item_of_in pr h hb he (hword 1 entry h.entry_eq)⟩
    | succ k => exact hfull 1 (by omega)
  rw [contiguousRange, LogicalExtents.iterRange, lookupRange_ok pr h
    (h.mono (by omega) (by omega)) hb, ok_bind]
  dsimp only
  rw [pure_eq_ok, ok_bind]
  dsimp only
  rw [new, LogicalExtentsRangeIterator.next]
  dsimp only
  rw [if_neg (by omega), hfirst, ok_bind, pure_eq_ok, ok_bind]
  dsimp only
  rw [LogicalExtentsRangeIterator.next]
  dsimp only
  rw [if_neg (by omega), hsecond, ok_bind]
  rfl

theorem findLast_ge (hx : x.extents = (p, e) :: rest) (he : e < query.e) (fuel l u i : Nat)
    (h : x.findLast pr query fuel l u = .ok (some i)) : 0 < i := by
  induction fuel generalizing l u with
  | zero => cases h
  | succ fuel ih =>
    obtain ⟨r, hr, htail⟩ := bind_eq_ok h
    split at htail
    · split at htail
      · cases htail
      · exact ih _ _ htail
    · split at htail
      · split at htail
        · cases htail
        · exact ih _ _ htail
      · rename_i hle
        cases Except.ok.inj htail
        by_contra hzero
        rw [Nat.eq_zero_of_not_pos hzero, entryLogicalRange_zero hx] at hr
        cases hr
        exact hle he

/-- The iteration always starts at the first extent, so a range that is not
within it yields more than one item. -/
theorem contiguousRange_not_first (hx : x.extents = (p, e) :: rest) (he : e < query.e)
    (r : BlockRange) : contiguousRange pr x query ≠ .ok r := by
  intro h
  obtain ⟨it?, hiter, h₁⟩ := bind_eq_ok h
  obtain ⟨range?, hlookup, h₂⟩ := bind_eq_ok hiter
  cases range? with
  | none =>
    cases h₂
    cases h₁
  | some range =>
    cases h₂
    have hlast : 0 < range.indexLast := by
      obtain ⟨_, _, h₃⟩ := bind_eq_ok hlookup
      obtain ⟨_, _, h₄⟩ := bind_eq_ok h₃
      obtain ⟨_, _, h₅⟩ := bind_eq_ok h₄
      obtain ⟨first?, hfirst, h₆⟩ := bind_eq_ok h₅
      cases first? with
      | none => cases h₆
      | some first =>
        obtain ⟨last?, hlast, h₇⟩ := bind_eq_ok h₆
        cases last? with
        | none => cases h₇
        | some last =>
          obtain ⟨_, _, h₈⟩ := bind_eq_ok h₇
          obtain ⟨_, _, h₉⟩ := bind_eq_ok h₈
          obtain ⟨_, _, h₁₀⟩ := bind_eq_ok h₉
          obtain ⟨_, _, h₁₁⟩ := bind_eq_ok h₁₀
          cases Except.ok.inj h₁₁
          exact findLast_ge hx he _ _ _ _ hlast
    obtain ⟨⟨item?, it⟩, hnext, h₂⟩ := bind_eq_ok h₁
    rw [new, LogicalExtentsRangeIterator.next] at hnext
    obtain ⟨item, -, hitem⟩ := bind_eq_ok hnext
    cases Except.ok.inj hitem
    obtain ⟨⟨item?, it⟩, hnext', h₃⟩ := bind_eq_ok h₂
    rw [LogicalExtentsRangeIterator.next] at hnext'
    dsimp only at hnext'
    rw [if_neg (by omega)] at hnext'
    obtain ⟨item', -, hitem'⟩ := bind_eq_ok hnext'
    cases Except.ok.inj hitem'
    cases h₃

end FirstExtent

/-- Every node has a contiguous location of its own within the tree's extents. -/
structure NodeLocationsCorrect (pr : Profile) (cfg : AuthTreeConfig) : Prop where
  located : ∀ y, cfg.IsNode y → ∃ r, AuthTreeConfig.nodePhysicalLocation pr cfg y = .ok r ∧
    r.e = r.b + 2 ^ cfg.geometry.nodeAllocationBlocksLog2 ∧
    ∀ p, r.b ≤ p → p < r.e → ∃ e ∈ cfg.authTreeExtents.ranges, e.b ≤ p ∧ p < e.e
  disjoint : ∀ y z r s, cfg.IsNode y → cfg.IsNode z → y ≠ z →
    AuthTreeConfig.nodePhysicalLocation pr cfg y = .ok r →
    AuthTreeConfig.nodePhysicalLocation pr cfg z = .ok s → r.Disjoint s

def firstExtentBlockCount (x : LogicalExtents) : Nat :=
  match x.extents with
  | [] => 0
  | (_, e) :: _ => e

def lastLeaf (cfg : AuthTreeConfig) : AuthTreeNodeId :=
  AuthTreeNodeId.new (cfg.maxCoveredDataBlockCount - 1) 0 cfg.geometry.nodeDigestsPerNodeLog2
    cfg.geometry.dataDigestsPerNodeLog2

def lastNodePosition (cfg : AuthTreeConfig) : Nat :=
  nodePosition cfg.geometry.nodeDigestsPerNodeLog2 cfg.geometry.dataDigestsPerNodeLog2
    cfg.authTreeLevels (lastLeaf cfg)

variable {pr : Profile} {l : ImageLayout} {imageSize : Nat} {x : LogicalExtents}
  {cfg : AuthTreeConfig}

section

variable
  (hshape : Shape cfg.geometry.nodeDigestsPerNodeLog2 cfg.geometry.dataDigestsPerNodeLog2 cfg.authTreeLevels)
include hshape

theorem lastLeaf_isNode (hne : cfg.maxCoveredDataBlockCount ≠ 0) :
    cfg.IsNode (lastLeaf cfg) := by
  refine ⟨rfl, rfl, hshape.levels_pos, AuthTreeNodeId.new_aligned _ 0 _ _, ?_⟩
  have hbits : levelCoveredDataBlockIndexBits 0 cfg.geometry.nodeDigestsPerNodeLog2
      cfg.geometry.dataDigestsPerNodeLog2 < 64 := by
    rw [levelCoveredDataBlockIndexBits, zero_mul, zero_add]
    exact hshape.d_lt
  rw [lastLeaf, AuthTreeNodeId.new]
  dsimp only
  rw [if_pos hbits]
  omega

theorem nodeNumber_lastLeaf :
    nodeNumber cfg.geometry.nodeDigestsPerNodeLog2 cfg.geometry.dataDigestsPerNodeLog2 (lastLeaf cfg) =
      (cfg.maxCoveredDataBlockCount - 1) / 2 ^ cfg.geometry.dataDigestsPerNodeLog2 := by
  have hbits := hshape.d_lt
  rw [nodeNumber, lastLeaf, AuthTreeNodeId.new, levelCoveredDataBlockIndexBits]
  rw [zero_mul, zero_add, if_pos hbits, ← div_mul_self_eq_mod_sub_self,
    Nat.mul_div_cancel _ (Nat.pow_pos (by decide))]

end

variable {y : AuthTreeNodeId}

theorem nodePosition_le_last (h : Accepted pr l imageSize x cfg) (himage : ImageSizeOk l imageSize)
    (hy : cfg.IsNode y) :
    nodePosition cfg.geometry.nodeDigestsPerNodeLog2 cfg.geometry.dataDigestsPerNodeLog2
      cfg.authTreeLevels y ≤ lastNodePosition cfg := by
  have hshape := (h.shape himage).1
  have hlevel := hy.level_lt
  have hcovered := hy.covered
  have hlast := (h.inTree himage (lastLeaf_isNode hshape (by omega))).nodeNumber_lt
  have hnumber := nodeNumber_lastLeaf hshape
  rw [lastNodePosition, nodePosition, nodePosition, nodeNumber, hnumber]
  rw [hnumber] at hlast
  change _ ≤ position _ 0 (cfg.authTreeLevels - 1 - 0) _
  change _ < _ ^ (cfg.authTreeLevels - 1 - 0) at hlast
  rw [Nat.sub_zero] at hlast ⊢
  generalize cfg.geometry.nodeDigestsPerNodeLog2 = c at *
  generalize cfg.geometry.dataDigestsPerNodeLog2 = d at *
  have hanc := (position_ancestor (2 ^ c) 0 (cfg.authTreeLevels - 1 - y.level) y.level
    (y.coveredDataBlocksBegin / 2 ^ d) (Nat.pow_pos (by decide))).1
  rw [zero_add, show cfg.authTreeLevels - 1 - y.level + y.level = cfg.authTreeLevels - 1 by omega,
    Nat.div_div_eq_div_mul, ← pow_mul, ← pow_add, add_comm d, mul_comm c] at hanc
  have hle : y.coveredDataBlocksBegin / 2 ^ d ≤ (cfg.maxCoveredDataBlockCount - 1) / 2 ^ d :=
    Nat.div_le_div_right (by omega)
  rcases lt_or_eq_of_le hle with hlt | heq
  · have := position_add_le_of_lt (2 ^ c) 0 (cfg.authTreeLevels - 1) (Nat.pow_pos (by decide)) hlt hlast
    omega
  · rw [← heq]
    omega

theorem nodeLogicalRange_ok (b i : Nat) (hb : b < 64) (hlt : (i + 1) * 2 ^ b < 2 ^ 64) :
    nodeLogicalRange pr b i = .ok ⟨i * 2 ^ b, (i + 1) * 2 ^ b⟩ := by
  have hpos := Nat.pow_pos (n := b) (show 0 < 2 by decide)
  rw [succ_mul] at hlt ⊢
  rw [nodeLogicalRange, shlU64_ok pr hb (by omega), ok_bind, shl_one pr hb, ok_bind,
    checkedAdd_ok hlt, ok_bind, BlockRange.new, debugAssert_ok pr (by omega)]
  rfl

section

variable (h : Accepted pr l imageSize x cfg) (himage : ImageSizeOk l imageSize)
include h himage

theorem nodePhysicalLocation_eq (hy : cfg.IsNode y) :
    AuthTreeConfig.nodePhysicalLocation pr cfg y = contiguousRange pr x
      ⟨nodePosition cfg.geometry.nodeDigestsPerNodeLog2 cfg.geometry.dataDigestsPerNodeLog2
          cfg.authTreeLevels y * 2 ^ cfg.geometry.nodeAllocationBlocksLog2,
        (nodePosition cfg.geometry.nodeDigestsPerNodeLog2 cfg.geometry.dataDigestsPerNodeLog2
          cfg.authTreeLevels y + 1) * 2 ^ cfg.geometry.nodeAllocationBlocksLog2⟩ := by
  obtain ⟨entry, hindex⟩ := h.dfsPreIndex_ok himage pr hy
  have hg := h.geometryOk
  have hsize := hg.size_eq
  have hlt := hg.size_lt
  have hcovered := hy.covered
  have hposition := h.nodePosition_lt himage hy
  have hword := allocationBlockCount_lt cfg.authTreeExtents
  have hblocks : (nodePosition cfg.geometry.nodeDigestsPerNodeLog2
      cfg.geometry.dataDigestsPerNodeLog2 cfg.authTreeLevels y + 1) *
        2 ^ cfg.geometry.nodeAllocationBlocksLog2 < 2 ^ 64 := by
    refine lt_of_le_of_lt (Nat.mul_le_mul_right _ (succ_le_of_lt hposition)) ?_
    exact lt_of_le_of_lt (div_mul_le_self _ _) hword
  rw [AuthTreeConfig.nodePhysicalLocation, debugAssert_ok pr hy.level_lt, ok_bind,
    if_neg (by omega), hindex, ok_bind]
  dsimp only
  rw [nodeLogicalRange_ok _ _ (by omega) hblocks, ok_bind, h.extents]

theorem nodePhysicalLocation_first {p e : Nat} {rest : List (Nat × Nat)}
    (hx : x.extents = (p, e) :: rest) (hy : cfg.IsNode y)
    (hle : (nodePosition cfg.geometry.nodeDigestsPerNodeLog2 cfg.geometry.dataDigestsPerNodeLog2
      cfg.authTreeLevels y + 1) * 2 ^ cfg.geometry.nodeAllocationBlocksLog2 ≤ e) :
    AuthTreeConfig.nodePhysicalLocation pr cfg y = .ok
      ⟨p + nodePosition cfg.geometry.nodeDigestsPerNodeLog2 cfg.geometry.dataDigestsPerNodeLog2
          cfg.authTreeLevels y * 2 ^ cfg.geometry.nodeAllocationBlocksLog2,
        p + (nodePosition cfg.geometry.nodeDigestsPerNodeLog2 cfg.geometry.dataDigestsPerNodeLog2
          cfg.authTreeLevels y + 1) * 2 ^ cfg.geometry.nodeAllocationBlocksLog2⟩ := by
  obtain ⟨ranges, hranges, -⟩ := h.ranges
  have hend : p + e < 2 ^ 64 := by
    refine x.lt_of_physicalRanges pr hranges ⟨p, p + e⟩ ?_
    rw [LogicalExtents.ranges, hx, rangesFrom]
    exact mem_cons_self
  rw [nodePhysicalLocation_eq h himage hy]
  refine contiguousRange_first hx ?_ hle hend
  exact Nat.mul_lt_mul_of_pos_right (lt_succ_self _) (Nat.pow_pos (by decide))

end

/-- The nodes can be located exactly if the first extent holds all of them. -/
theorem nodeLocationsCorrect_iff (pr : Profile) (l : ImageLayout) (imageSize : Nat)
    (himage : imageSize ≤ (2 ^ 64 - 1) / 2 ^ (l.allocationBlockSize128bLog2.toNat + 7))
    (x : LogicalExtents) (cfg : AuthTreeConfig)
    (hnew : AuthTreeConfig.new pr l imageSize x = .ok cfg) :
    NodeLocationsCorrect pr cfg ↔ (cfg.maxCoveredDataBlockCount ≠ 0 →
      (lastNodePosition cfg + 1) * 2 ^ cfg.geometry.nodeAllocationBlocksLog2 ≤
        firstExtentBlockCount x) := by
  have h := AuthTreeConfig.accepted_of_new hnew
  have hshape := (h.shape himage).1
  have hcount := AuthTreeConfig.nodeCount_pos h
  obtain ⟨⟨p, e⟩, rest, hx⟩ : ∃ entry rest, x.extents = entry :: rest := by
    cases hx : x.extents with
    | nil =>
      have hzero : cfg.nodeCount = 0 := by
        rw [AuthTreeConfig.nodeCount, h.extents, LogicalExtents.allocationBlockCount, hx]
        exact Nat.zero_div _
      omega
    | cons entry rest => exact ⟨entry, rest, rfl⟩
  have hfirst : firstExtentBlockCount x = e := by rw [firstExtentBlockCount, hx]
  rw [hfirst]
  constructor
  · intro hcorrect hne
    have hleaf := lastLeaf_isNode hshape hne
    obtain ⟨r, hr, -⟩ := hcorrect.located _ hleaf
    by_contra hlt
    rw [nodePhysicalLocation_eq h himage hleaf] at hr
    exact contiguousRange_not_first hx (Nat.lt_of_not_le hlt) r hr
  · intro hcond
    have hle {y : AuthTreeNodeId} (hy : cfg.IsNode y) :
        (nodePosition cfg.geometry.nodeDigestsPerNodeLog2 cfg.geometry.dataDigestsPerNodeLog2
          cfg.authTreeLevels y + 1) * 2 ^ cfg.geometry.nodeAllocationBlocksLog2 ≤ e := by
      have hcovered := hy.covered
      exact le_trans (Nat.mul_le_mul_right _ (succ_le_succ (nodePosition_le_last h himage hy)))
        (hcond (by omega))
    constructor
    · intro y hy
      refine ⟨_, nodePhysicalLocation_first h himage hx hy (hle hy), ?_, ?_⟩
      · rw [succ_mul, add_assoc]
      · intro q hqb hqe
        have hley := hle hy
        refine ⟨⟨p, p + e⟩, ?_, ?_, ?_⟩
        · rw [h.extents, LogicalExtents.ranges, hx, rangesFrom]
          exact mem_cons_self
        · exact le_trans (Nat.le_add_right _ _) hqb
        · exact lt_of_lt_of_le hqe (Nat.add_le_add_left hley p)
    · intro y z r s hy hz hyz hr hs
      rw [nodePhysicalLocation_first h himage hx hy (hle hy)] at hr
      rw [nodePhysicalLocation_first h himage hx hz (hle hz)] at hs
      cases hr
      cases hs
      have hne : nodePosition cfg.geometry.nodeDigestsPerNodeLog2
          cfg.geometry.dataDigestsPerNodeLog2 cfg.authTreeLevels y ≠
          nodePosition cfg.geometry.nodeDigestsPerNodeLog2 cfg.geometry.dataDigestsPerNodeLog2
            cfg.authTreeLevels z := by
        intro heq
        have hyget := (h.inTree himage hy).listing_getElem?
        rw [heq, (h.inTree himage hz).listing_getElem?] at hyget
        exact hyz (Option.some.inj hyget).symm
      rcases Nat.lt_or_gt_of_ne hne with hlt | hlt
      · exact Or.inl (Nat.add_le_add_left (Nat.mul_le_mul_right _ (succ_le_of_lt hlt)) p)
      · exact Or.inr (Nat.add_le_add_left (Nat.mul_le_mul_right _ (succ_le_of_lt hlt)) p)

def splitExtents : LogicalExtents := ⟨[(2, 1), (6, 3)], by decide, by decide⟩

theorem splitConfig_leaf_location :
    (do
      let cfg ← AuthTreeConfig.new .debug sampleLayout 11 splitExtents
      AuthTreeConfig.nodePhysicalLocation .debug cfg ⟨0, 0, 2, 2⟩) = .error (.err .internal) := by
  decide +kernel

theorem splitConfig_isOk :
    (do
      let cfg ← AuthTreeConfig.new .debug sampleLayout 11 splitExtents
      if cfg.geometry = NodeGeometry.mk 0 0 2 2 ∧ 0 < cfg.authTreeLevels ∧
          0 < cfg.maxCoveredDataBlockCount then
        pure ()
      else err .internal).isOk = true := by
  decide +kernel

theorem splitConfig_not_nodeLocationsCorrect : ∃ cfg,
    AuthTreeConfig.new .debug sampleLayout 11 splitExtents = .ok cfg ∧
      ¬ NodeLocationsCorrect .debug cfg := by
  obtain ⟨_, hok⟩ := exists_ok_of_isOk splitConfig_isOk
  obtain ⟨cfg, hcfg, hif⟩ := bind_eq_ok hok
  refine ⟨cfg, hcfg, fun hcorrect => ?_⟩
  split at hif
  · rename_i hcond
    obtain ⟨hg, hlevels, hcovered⟩ := hcond
    have hnode : cfg.IsNode ⟨0, 0, 2, 2⟩ := by
      refine ⟨?_, ?_, hlevels, dvd_zero _, hcovered⟩ <;> rw [hg]
    obtain ⟨r, hr, -⟩ := hcorrect.located _ hnode
    have hloc := splitConfig_leaf_location
    rw [hcfg, ok_bind, hr] at hloc
    cases hloc
  · cases hif

theorem nodeLocationsCorrect_iff_sample : ∃ cfg,
    AuthTreeConfig.new .debug sampleLayout 11 sampleExtents = .ok cfg ∧
      (NodeLocationsCorrect .debug cfg ↔ (cfg.maxCoveredDataBlockCount ≠ 0 →
        (lastNodePosition cfg + 1) * 2 ^ cfg.geometry.nodeAllocationBlocksLog2 ≤
          firstExtentBlockCount sampleExtents)) := by
  obtain ⟨cfg, hcfg⟩ := exists_ok_of_isOk sampleConfig_isOk
  exact ⟨cfg, hcfg,
    nodeLocationsCorrect_iff .debug sampleLayout 11 (by decide) sampleExtents cfg hcfg⟩

end CocoonFs.NodeLocation
