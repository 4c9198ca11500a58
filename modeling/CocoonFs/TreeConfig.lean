import CocoonFs.DataBlocksMap
import CocoonFs.Layout
import CocoonFs.TreeShape

namespace CocoonFs.TreeConfig

open Checked CompleteTree DataBlocksMap DfsIndex Extents Layout SubtreeCount TreeShape

/-- The sizes derived from the image layout, as base-2 logarithms. -/
structure NodeGeometry where
  nodeAllocationBlocksLog2 : Nat
  dataBlockAllocationBlocksLog2 : Nat
  nodeDigestsPerNodeLog2 : Nat
  dataDigestsPerNodeLog2 : Nat
  deriving DecidableEq, Repr

def digestLenLog2 (alg : TpmiAlgHash) : Nat :=
  match roundUpNextPow2 (hashAlgDigestLen alg) with
  | some len => len.log2
  | none => 0

def nodeSizeLog2 (l : ImageLayout) : Nat :=
  l.authTreeNodeIoBlocksLog2.toNat + l.ioBlockAllocationBlocksLog2.toNat +
    l.allocationBlockSize128bLog2.toNat + 7

/-- The checks on the layout, the same at the creation and at the opening of an
image. A size is no larger than what fits into a word. -/
def nodeGeometry (l : ImageLayout) : Comp NodeGeometry :=
  if 64 ≤ nodeSizeLog2 l then formatErr .invalidAuthTreeConfig
  else
    let a := l.authTreeDataBlockAllocationBlocksLog2.toNat
    if 32 ≤ a ∨ 64 < 2 ^ a then formatErr .invalidAuthTreeConfig
    else if nodeSizeLog2 l ≤ digestLenLog2 l.authTreeNodeHashAlg then
      formatErr .invalidAuthTreeConfig
    else if nodeSizeLog2 l ≤ digestLenLog2 l.authTreeDataHmacHashAlg then
      formatErr .invalidAuthTreeConfig
    else .ok {
      nodeAllocationBlocksLog2 :=
        l.authTreeNodeIoBlocksLog2.toNat + l.ioBlockAllocationBlocksLog2.toNat
      dataBlockAllocationBlocksLog2 := a
      nodeDigestsPerNodeLog2 := nodeSizeLog2 l - digestLenLog2 l.authTreeNodeHashAlg
      dataDigestsPerNodeLog2 := nodeSizeLog2 l - digestLenLog2 l.authTreeDataHmacHashAlg }

structure AuthTreeConfig where
  geometry : NodeGeometry
  authTreeExtents : LogicalExtents
  authTreeDataAllocationBlocksMap : AuthTreeDataAllocationBlocksMap
  nodeDigestsPerNodeMinusOneInvModU64 : Nat
  authTreeLevels : Nat
  maxCoveredDataBlockCount : Nat

/-- An extent is aligned to the larger of the IO Block and the Data Block size,
and its length to the IO Block size. -/
def extentAligned (l : ImageLayout) (r : BlockRange) : Bool :=
  (r.b ||| r.e) % 2 ^ max l.ioBlockAllocationBlocksLog2.toNat
      l.authTreeDataBlockAllocationBlocksLog2.toNat = 0 ∧
    (r.e - r.b) % 2 ^ l.ioBlockAllocationBlocksLog2.toNat = 0

/-- The Data Blocks needed for some number of blocks, the last one partial. -/
def dataBlocksFor (a blocks : Nat) : Nat :=
  if blocks / 2 ^ a * 2 ^ a ≠ blocks then blocks / 2 ^ a + 1 else blocks / 2 ^ a

/-- The geometry as found when opening an image. The derivation of keys and the
image context digest that the code computes along with it are left out. -/
def AuthTreeConfig.new (pr : Profile) (l : ImageLayout) (imageSize : Nat)
    (authTreeExtents : LogicalExtents) : Comp AuthTreeConfig := do
  let g ← nodeGeometry l
  let ranges ← authTreeExtents.physicalRanges pr
  if ¬ ranges.all (extentAligned l) then formatErr .unalignedAuthTreeExtents
  else if authTreeExtents.allocationBlockCount = 0 then formatErr .invalidAuthTreeDimensions
  else if imageSize < authTreeExtents.allocationBlockCount then formatErr .invalidAuthTreeDimensions
  else do
    let map ← AuthTreeDataAllocationBlocksMap.new pr authTreeExtents
    let nodeCount := authTreeExtents.allocationBlockCount / 2 ^ g.nodeAllocationBlocksLog2
    let levels ← authTreeNodeCountToAuthTreeLevels pr nodeCount g.nodeDigestsPerNodeLog2
      g.dataDigestsPerNodeLog2 g.dataBlockAllocationBlocksLog2
    let inv ← digestsPerNodeMinusOneInvModU64 pr g.nodeDigestsPerNodeLog2
    let covered ← authTreeNodeCountToMaxCoveredDataBlockCount pr nodeCount levels
      g.nodeDigestsPerNodeLog2 inv g.dataDigestsPerNodeLog2 g.dataBlockAllocationBlocksLog2
    let maxCovered := min covered ((2 ^ 64 - 1) / 2 ^ g.dataBlockAllocationBlocksLog2)
    if maxCovered < dataBlocksFor g.dataBlockAllocationBlocksLog2
        (imageSize - authTreeExtents.allocationBlockCount) then
      formatErr .invalidAuthTreeDimensions
    else pure {
      geometry := g
      authTreeExtents := authTreeExtents
      authTreeDataAllocationBlocksMap := map
      nodeDigestsPerNodeMinusOneInvModU64 := inv
      authTreeLevels := levels
      maxCoveredDataBlockCount := maxCovered }

theorem digestLenLog2_bounds (alg : TpmiAlgHash) : digestLenLog2 alg = 5 ∨ digestLenLog2 alg = 6 := by
  cases alg <;> decide

structure GeometryOk (l : ImageLayout) (g : NodeGeometry) : Prop where
  c_pos : 0 < g.nodeDigestsPerNodeLog2
  d_pos : 0 < g.dataDigestsPerNodeLog2
  size_lt : nodeSizeLog2 l < 64
  size_eq : nodeSizeLog2 l = g.nodeAllocationBlocksLog2 + l.allocationBlockSize128bLog2.toNat + 7
  c_eq : g.nodeDigestsPerNodeLog2 + 5 = nodeSizeLog2 l ∨ g.nodeDigestsPerNodeLog2 + 6 = nodeSizeLog2 l
  d_eq : g.dataDigestsPerNodeLog2 + 5 = nodeSizeLog2 l ∨ g.dataDigestsPerNodeLog2 + 6 = nodeSizeLog2 l
  a_le : g.dataBlockAllocationBlocksLog2 ≤ 6

theorem le_six_of_pow_le {a : Nat} (h : 2 ^ a ≤ 64) : a ≤ 6 := by
  by_contra hlt
  have : 2 ^ 7 ≤ 2 ^ a := Nat.pow_le_pow_right (by decide) (by omega)
  omega

theorem nodeGeometry_ok {l : ImageLayout} {g : NodeGeometry} (h : nodeGeometry l = .ok g) :
    GeometryOk l g := by
  rw [nodeGeometry] at h
  split at h
  · cases h
  · rename_i hsize
    dsimp only at h
    split at h
    · cases h
    · rename_i ha
      split at h
      · cases h
      · rename_i hnode
        split at h
        · cases h
        · rename_i hdata
          cases h
          have hn := digestLenLog2_bounds l.authTreeNodeHashAlg
          have hd := digestLenLog2_bounds l.authTreeDataHmacHashAlg
          refine ⟨?_, ?_, by omega, rfl, ?_, ?_, ?_⟩ <;> dsimp only
          · omega
          · omega
          · omega
          · omega
          · exact le_six_of_pow_le (by omega)

def AuthTreeConfig.nodeCount (cfg : AuthTreeConfig) : Nat :=
  cfg.authTreeExtents.allocationBlockCount / 2 ^ cfg.geometry.nodeAllocationBlocksLog2

structure Accepted (pr : Profile) (l : ImageLayout) (imageSize : Nat) (x : LogicalExtents)
    (cfg : AuthTreeConfig) : Prop where
  geometry : nodeGeometry l = .ok cfg.geometry
  extents : cfg.authTreeExtents = x
  ranges : ∃ ranges, x.physicalRanges pr = .ok ranges ∧ ∀ r ∈ ranges, extentAligned l r = true
  size_le : x.allocationBlockCount ≤ imageSize
  levels : authTreeNodeCountToAuthTreeLevels pr cfg.nodeCount cfg.geometry.nodeDigestsPerNodeLog2
    cfg.geometry.dataDigestsPerNodeLog2 cfg.geometry.dataBlockAllocationBlocksLog2 =
      .ok cfg.authTreeLevels
  inv : digestsPerNodeMinusOneInvModU64 pr cfg.geometry.nodeDigestsPerNodeLog2 =
    .ok cfg.nodeDigestsPerNodeMinusOneInvModU64
  covered : ∃ covered, authTreeNodeCountToMaxCoveredDataBlockCount pr cfg.nodeCount
    cfg.authTreeLevels cfg.geometry.nodeDigestsPerNodeLog2 cfg.nodeDigestsPerNodeMinusOneInvModU64
    cfg.geometry.dataDigestsPerNodeLog2 cfg.geometry.dataBlockAllocationBlocksLog2 = .ok covered ∧
      cfg.maxCoveredDataBlockCount =
        min covered ((2 ^ 64 - 1) / 2 ^ cfg.geometry.dataBlockAllocationBlocksLog2)
  data_le : dataBlocksFor cfg.geometry.dataBlockAllocationBlocksLog2
    (imageSize - x.allocationBlockCount) ≤ cfg.maxCoveredDataBlockCount

theorem AuthTreeConfig.accepted_of_new {pr : Profile} {l : ImageLayout} {imageSize : Nat}
    {x : LogicalExtents} {cfg : AuthTreeConfig} (h : AuthTreeConfig.new pr l imageSize x = .ok cfg) :
    Accepted pr l imageSize x cfg := by
  obtain ⟨g, hg, h₁⟩ := bind_eq_ok h
  obtain ⟨ranges, hranges, h₂⟩ := bind_eq_ok h₁
  split at h₂
  · cases h₂
  · rename_i haligned
    split at h₂
    · cases h₂
    · split at h₂
      · cases h₂
      · rename_i hsize
        obtain ⟨map, hmap, h₃⟩ := bind_eq_ok h₂
        obtain ⟨levels, hlevels, h₄⟩ := bind_eq_ok h₃
        obtain ⟨inv, hinv, h₅⟩ := bind_eq_ok h₄
        obtain ⟨covered, hcovered, h₆⟩ := bind_eq_ok h₅
        dsimp only at h₆
        split at h₆
        · cases h₆
        · rename_i hdata
          cases h₆
          rw [not_not, List.all_eq_true] at haligned
          exact ⟨hg, rfl, ⟨ranges, hranges, haligned⟩, Nat.le_of_not_lt hsize, hlevels, hinv,
            ⟨covered, hcovered, rfl⟩, Nat.le_of_not_lt hdata⟩

structure AuthTreeConfig.IsNode (cfg : AuthTreeConfig) (x : AuthTreeNodeId) : Prop where
  c_eq : x.nodeDigestsPerNodeLog2 = cfg.geometry.nodeDigestsPerNodeLog2
  d_eq : x.dataDigestsPerNodeLog2 = cfg.geometry.dataDigestsPerNodeLog2
  level_lt : x.level < cfg.authTreeLevels
  aligned : 2 ^ (x.level * cfg.geometry.nodeDigestsPerNodeLog2 +
    cfg.geometry.dataDigestsPerNodeLog2) ∣ x.coveredDataBlocksBegin
  covered : x.coveredDataBlocksBegin < cfg.maxCoveredDataBlockCount

def AuthTreeConfig.dfsPreIndex (pr : Profile) (cfg : AuthTreeConfig) (x : AuthTreeNodeId) :
    Comp (Nat × Nat) :=
  authTreeNodeDfsPreIndex pr x.coveredDataBlocksBegin x.level cfg.authTreeLevels
    cfg.geometry.nodeDigestsPerNodeLog2 cfg.nodeDigestsPerNodeMinusOneInvModU64
    cfg.geometry.dataDigestsPerNodeLog2

variable {pr : Profile} {l : ImageLayout} {imageSize : Nat} {x : LogicalExtents}
  {cfg : AuthTreeConfig}

theorem Accepted.geometryOk (h : Accepted pr l imageSize x cfg) : GeometryOk l cfg.geometry :=
  nodeGeometry_ok h.geometry

theorem AuthTreeConfig.nodeCount_pos (h : Accepted pr l imageSize x cfg) : 0 < cfg.nodeCount := by
  by_contra hzero
  have hlevels := h.levels
  rw [Nat.eq_zero_of_not_pos hzero] at hlevels
  cases hlevels

def ImageSizeOk (l : ImageLayout) (imageSize : Nat) : Prop :=
  imageSize ≤ (2 ^ 64 - 1) / 2 ^ (l.allocationBlockSize128bLog2.toNat + 7)

theorem nodeCount_mul_lt (h : Accepted pr l imageSize x cfg) (himage : ImageSizeOk l imageSize) :
    cfg.nodeCount * 2 ^ nodeSizeLog2 l < 2 ^ 64 := by
  have hblocks : cfg.nodeCount * 2 ^ cfg.geometry.nodeAllocationBlocksLog2 ≤ imageSize := by
    refine le_trans (Nat.div_mul_le_self _ _) ?_
    rw [h.extents]
    exact h.size_le
  have hbytes : imageSize * 2 ^ (l.allocationBlockSize128bLog2.toNat + 7) ≤ 2 ^ 64 - 1 :=
    (Nat.le_div_iff_mul_le (Nat.pow_pos (by decide))).mp himage
  have hmul := Nat.mul_le_mul_right (2 ^ (l.allocationBlockSize128bLog2.toNat + 7)) hblocks
  rw [mul_assoc, ← pow_add, ← add_assoc, ← h.geometryOk.size_eq] at hmul
  omega

/-- The limit on the number of nodes is out of reach for an image whose size in
bytes fits into a word, so only the one on the covered range may apply. -/
theorem shape_of_nodeCount {c d a s n levels : Nat} (hc : 0 < c) (hc64 : c < 64) (hd64 : d < 64)
    (hcs : c < s) (hn : 0 < n) (hmul : n * 2 ^ s < 2 ^ 64)
    (hlevels : authTreeNodeCountToAuthTreeLevels pr n c d a = .ok levels) :
    Shape c d levels ∧ (n ≤ nodes (2 ^ c) levels ∨
      nodes (2 ^ c) levels < n ∧ 64 ≤ (levels - 1) * c + d + a) := by
  have hlt : n < 2 ^ 64 := lt_of_le_of_lt (Nat.le_mul_of_pos_right n (Nat.pow_pos (by decide))) hmul
  obtain ⟨levels', hlevels', hpos, hle, -, hcase⟩ :=
    authTreeNodeCountToAuthTreeLevels_ok (d := d) (a := a) pr hc hc64 hn hlt
  obtain rfl := Except.ok.inj (hlevels'.symm.trans hlevels)
  refine ⟨shape_of_le_max hc hc64 hd64 hpos hle, ?_⟩
  by_cases hn' : n ≤ nodes (2 ^ c) levels'
  · exact Or.inl hn'
  · right
    refine ⟨Nat.lt_of_not_le hn', ?_⟩
    obtain ⟨-, -, hmax⟩ := maxAuthTreeLevels_spec (d := d) (a := a) hc
    obtain ⟨k, rfl⟩ : ∃ k, levels' = k + 1 := ⟨levels' - 1, by omega⟩
    rw [← hcase.resolve_left hn', Nat.mul_succ, mul_comm] at hmax
    rw [Nat.add_sub_cancel]
    by_cases hdac : d + a < c
    · exfalso
      have hnodes : 2 ^ (c * k) ≤ nodes (2 ^ c) (k + 1) := by
        rw [pow_mul]
        exact pow_le_nodes _ _
      have hbits : 64 ≤ c * k + s := by
        rw [mul_comm]
        omega
      have hword : 2 ^ 64 ≤ 2 ^ (c * k) * 2 ^ s := by
        rw [← pow_add]
        exact Nat.pow_le_pow_right (by decide) hbits
      have := Nat.mul_le_mul_right (2 ^ s) (le_trans hnodes (Nat.le_of_not_le hn'))
      omega
    · omega

/-- The shape of an accepted tree. Either all nodes belong to the complete tree
or the covered range is limited by the word size. -/
theorem Accepted.shape (h : Accepted pr l imageSize x cfg) (himage : ImageSizeOk l imageSize) :
    Shape cfg.geometry.nodeDigestsPerNodeLog2 cfg.geometry.dataDigestsPerNodeLog2
      cfg.authTreeLevels ∧
    (cfg.nodeCount ≤ nodes (2 ^ cfg.geometry.nodeDigestsPerNodeLog2) cfg.authTreeLevels ∨
      nodes (2 ^ cfg.geometry.nodeDigestsPerNodeLog2) cfg.authTreeLevels < cfg.nodeCount ∧
      64 ≤ (cfg.authTreeLevels - 1) * cfg.geometry.nodeDigestsPerNodeLog2 +
        cfg.geometry.dataDigestsPerNodeLog2 + cfg.geometry.dataBlockAllocationBlocksLog2) := by
  obtain ⟨hcpos, hdpos, hslt, -, hceq, hdeq, -⟩ := h.geometryOk
  exact shape_of_nodeCount hcpos (by omega) (by omega) (by omega) (AuthTreeConfig.nodeCount_pos h)
    (nodeCount_mul_lt h himage) h.levels

theorem Accepted.isInverse (h : Accepted pr l imageSize x cfg) :
    IsInverse cfg.geometry.nodeDigestsPerNodeLog2 cfg.nodeDigestsPerNodeMinusOneInvModU64 := by
  obtain ⟨hcpos, -, hslt, -, hceq, -, -⟩ := h.geometryOk
  obtain ⟨inv, hinv, hlt, hmul⟩ := digestsPerNodeMinusOneInvModU64_ok pr hcpos (by omega)
  cases hinv.symm.trans h.inv
  exact ⟨hlt, hmul⟩

theorem Accepted.maxCovered_le_word (h : Accepted pr l imageSize x cfg) :
    cfg.maxCoveredDataBlockCount * 2 ^ cfg.geometry.dataBlockAllocationBlocksLog2 < 2 ^ 64 := by
  obtain ⟨covered, -, hmax⟩ := h.covered
  have hle : cfg.maxCoveredDataBlockCount ≤
      (2 ^ 64 - 1) / 2 ^ cfg.geometry.dataBlockAllocationBlocksLog2 := by
    rw [hmax]
    exact min_le_right _ _
  have := (Nat.le_div_iff_mul_le (Nat.pow_pos (by decide))).mp hle
  omega

theorem Accepted.maxCovered_le (h : Accepted pr l imageSize x cfg) (himage : ImageSizeOk l imageSize)
    (hn : cfg.nodeCount ≤ nodes (2 ^ cfg.geometry.nodeDigestsPerNodeLog2) cfg.authTreeLevels) :
    cfg.maxCoveredDataBlockCount ≤ 2 ^ cfg.geometry.dataDigestsPerNodeLog2 *
      leaves (2 ^ cfg.geometry.nodeDigestsPerNodeLog2) (cfg.authTreeLevels - 1) cfg.nodeCount := by
  obtain ⟨covered, hcovered, hmax⟩ := h.covered
  rw [authTreeNodeCountToMaxCoveredDataBlockCount_ok pr (h.shape himage).1 h.geometryOk.d_pos
    h.isInverse (AuthTreeConfig.nodeCount_pos h) hn h.levels] at hcovered
  cases hcovered
  rw [hmax]
  exact le_trans (min_le_left _ _) (min_le_right _ _)

variable {y : AuthTreeNodeId}

theorem Accepted.inTree (h : Accepted pr l imageSize x cfg) (himage : ImageSizeOk l imageSize)
    (hy : cfg.IsNode y) :
    InTree cfg.geometry.nodeDigestsPerNodeLog2 cfg.geometry.dataDigestsPerNodeLog2
      cfg.authTreeLevels y := by
  have hcovered := hy.covered
  have hword := h.maxCovered_le_word
  have hpow := Nat.le_mul_of_pos_right cfg.maxCoveredDataBlockCount
    (Nat.pow_pos (n := cfg.geometry.dataBlockAllocationBlocksLog2) (show 0 < 2 by decide))
  refine ⟨hy.c_eq, hy.d_eq, hy.level_lt, hy.aligned, ?_, by omega⟩
  rcases (h.shape himage).2 with hn | ⟨-, hbits⟩
  · have hle := h.maxCovered_le himage hn
    have hleaves := leaves_le (2 ^ cfg.geometry.nodeDigestsPerNodeLog2) (cfg.authTreeLevels - 1)
      cfg.nodeCount (by rwa [Nat.sub_add_cancel (h.shape himage).1.levels_pos])
    have hmul := Nat.mul_le_mul_left (2 ^ cfg.geometry.dataDigestsPerNodeLog2) hleaves
    rw [← pow_mul, ← pow_add, add_comm, mul_comm cfg.geometry.nodeDigestsPerNodeLog2] at hmul
    omega
  · refine lt_of_lt_of_le hcovered ?_
    refine Nat.le_of_mul_le_mul_right (le_trans hword.le ?_)
      (Nat.pow_pos (n := cfg.geometry.dataBlockAllocationBlocksLog2) (show 0 < 2 by decide))
    rw [← pow_add]
    exact Nat.pow_le_pow_right (by decide) hbits

/-- A node comes before the leaf that covers the node's first data block, and
that leaf exists. -/
theorem Accepted.nodePosition_lt (h : Accepted pr l imageSize x cfg)
    (himage : ImageSizeOk l imageSize) (hy : cfg.IsNode y) :
    nodePosition cfg.geometry.nodeDigestsPerNodeLog2 cfg.geometry.dataDigestsPerNodeLog2
      cfg.authTreeLevels y < cfg.nodeCount := by
  have htree := h.inTree himage hy
  obtain ⟨hshape, hcase⟩ := h.shape himage
  rcases hcase with hn | ⟨hn, -⟩
  · have hpos := hshape.levels_pos
    have hlevel := hy.level_lt
    have hle := h.maxCovered_le himage hn
    have hcovered := hy.covered
    have hbegin := htree.covered
    generalize cfg.geometry.nodeDigestsPerNodeLog2 = c at *
    generalize cfg.geometry.dataDigestsPerNodeLog2 = d at *
    have hleaf : y.coveredDataBlocksBegin / 2 ^ d < leaves (2 ^ c) (cfg.authTreeLevels - 1)
        cfg.nodeCount := Nat.div_lt_of_lt_mul (by omega)
    have hleaf' : y.coveredDataBlocksBegin / 2 ^ d < (2 ^ c) ^ (cfg.authTreeLevels - 1) := by
      refine Nat.div_lt_of_lt_mul ?_
      rwa [← pow_mul, ← pow_add, add_comm, mul_comm c]
    have hlt := (position_lt_iff (2 ^ c) _ _ _ (by rwa [Nat.sub_add_cancel hpos]) hleaf').mpr hleaf
    have hanc := (position_ancestor (2 ^ c) 0 (cfg.authTreeLevels - 1 - y.level) y.level
      (y.coveredDataBlocksBegin / 2 ^ d) (Nat.pow_pos (by decide))).1
    rw [zero_add, show cfg.authTreeLevels - 1 - y.level + y.level = cfg.authTreeLevels - 1 by omega,
      Nat.div_div_eq_div_mul, ← pow_mul, ← pow_add, add_comm d, mul_comm c] at hanc
    rw [nodePosition, nodeNumber]
    omega
  · exact lt_trans htree.nodePosition_lt hn

/-- The preorder index of a configuration's nodes, without any overflow on the
way. -/
structure DfsPreIndexCorrect (cfg : AuthTreeConfig) : Prop where
  subtreeNodeCount : ∀ pr level, level < cfg.authTreeLevels → ∃ n,
    authSubtreeNodeCount pr level cfg.authTreeLevels cfg.geometry.nodeDigestsPerNodeLog2
      cfg.nodeDigestsPerNodeMinusOneInvModU64 = .ok n
  listing_nodup : (dfsPreListing cfg.geometry.nodeDigestsPerNodeLog2
    cfg.geometry.dataDigestsPerNodeLog2 cfg.authTreeLevels).Nodup
  position : ∀ pr y, cfg.IsNode y → ∃ i entry, cfg.dfsPreIndex pr y = .ok (i, entry) ∧
    i < cfg.nodeCount ∧ (dfsPreListing cfg.geometry.nodeDigestsPerNodeLog2
      cfg.geometry.dataDigestsPerNodeLog2 cfg.authTreeLevels)[i]? = some y
  injective : ∀ pr y z i entry entry', cfg.IsNode y → cfg.IsNode z →
    cfg.dfsPreIndex pr y = .ok (i, entry) → cfg.dfsPreIndex pr z = .ok (i, entry') → y = z
  strictMono : ∀ pr y z i j entry entry', cfg.IsNode y → cfg.IsNode z →
    cfg.dfsPreIndex pr y = .ok (i, entry) → cfg.dfsPreIndex pr z = .ok (j, entry') →
    y.cmp .release z = .ok (compare i j) ∧ ∀ o, y.cmp .debug z = .ok o → o = compare i j

theorem dfsPreListing_nodup (c d levels : Nat) : (dfsPreListing c d levels).Nodup := by
  refine (listing_nodup (2 ^ c) (levels - 1) 0).map ?_
  rintro ⟨q, m⟩ ⟨q', m'⟩ heq
  simp only [AuthTreeNodeId.mk.injEq, and_true] at heq
  obtain ⟨hmul, rfl⟩ := heq
  rw [Nat.eq_of_mul_eq_mul_right (Nat.pow_pos (by decide)) hmul]

theorem Accepted.dfsPreIndex_ok (h : Accepted pr l imageSize x cfg)
    (himage : ImageSizeOk l imageSize) (pr' : Profile) (hy : cfg.IsNode y) :
    ∃ entry, cfg.dfsPreIndex pr' y = .ok (nodePosition cfg.geometry.nodeDigestsPerNodeLog2
      cfg.geometry.dataDigestsPerNodeLog2 cfg.authTreeLevels y, entry) :=
  authTreeNodeDfsPreIndex_ok pr' (h.shape himage).1 h.isInverse (h.inTree himage hy)

/-- The index is the position in the preorder for every tree the code accepts. -/
theorem dfsPreIndexCorrect_of_new (pr : Profile) (l : ImageLayout) (imageSize : Nat)
    (himage : imageSize ≤ (2 ^ 64 - 1) / 2 ^ (l.allocationBlockSize128bLog2.toNat + 7))
    (x : LogicalExtents) (cfg : AuthTreeConfig)
    (hnew : AuthTreeConfig.new pr l imageSize x = .ok cfg) : DfsPreIndexCorrect cfg := by
  have h := AuthTreeConfig.accepted_of_new hnew
  have hshape := (h.shape himage).1
  have hpos {pr' y i entry} (hy : cfg.IsNode y) (hi : cfg.dfsPreIndex pr' y = .ok (i, entry)) :
      i = nodePosition cfg.geometry.nodeDigestsPerNodeLog2 cfg.geometry.dataDigestsPerNodeLog2
        cfg.authTreeLevels y := by
    obtain ⟨entry', hok⟩ := h.dfsPreIndex_ok himage pr' hy
    exact congrArg Prod.fst (Except.ok.inj (hi.symm.trans hok))
  refine ⟨?_, dfsPreListing_nodup _ _ _, ?_, ?_, ?_⟩
  · intro pr' level hlevel
    exact ⟨_, authSubtreeNodeCount_ok pr' hshape.c_pos hshape.c_lt h.isInverse hlevel hshape.nodes_cap⟩
  · intro pr' y hy
    obtain ⟨entry, hok⟩ := h.dfsPreIndex_ok himage pr' hy
    exact ⟨_, entry, hok, h.nodePosition_lt himage hy, (h.inTree himage hy).listing_getElem?⟩
  · intro pr' y z i entry entry' hy hz hi hj
    have hyget := (h.inTree himage hy).listing_getElem?
    have hzget := (h.inTree himage hz).listing_getElem?
    rw [← hpos hy hi] at hyget
    rw [← hpos hz hj, hyget] at hzget
    exact Option.some.inj hzget
  · intro pr' y z i j entry entry' hy hz hi hj
    rw [hpos hy hi, hpos hz hj]
    exact cmp_eq_compare hshape (h.inTree himage hy) (h.inTree himage hz)

/-- Nodes of four digests each, and Data Blocks of a single block. -/
def sampleLayout : ImageLayout :=
  ⟨0, 0, 0, 0, 0, 2, 2, .sha256, .sha256, .sha256, .sha256, .sha256, .aes128⟩

def sampleExtents : LogicalExtents := ⟨[(2, 3)], by decide, by decide⟩

theorem sampleConfig_isOk : (AuthTreeConfig.new .debug sampleLayout 11 sampleExtents).isOk = true := by
  decide +kernel

theorem dfsPreIndexCorrect_of_new_sample : ∃ cfg,
    AuthTreeConfig.new .debug sampleLayout 11 sampleExtents = .ok cfg ∧ DfsPreIndexCorrect cfg := by
  obtain ⟨cfg, hcfg⟩ := exists_ok_of_isOk sampleConfig_isOk
  exact ⟨cfg, hcfg,
    dfsPreIndexCorrect_of_new .debug sampleLayout 11 (by decide) sampleExtents cfg hcfg⟩

end CocoonFs.TreeConfig
