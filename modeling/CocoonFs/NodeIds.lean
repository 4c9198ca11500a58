import CocoonFs.TreeConfig

namespace CocoonFs.NodeIds

open Checked CompleteTree DfsIndex Extents Layout SubtreeCount TreeConfig TreeShape Nat
open AuthTreeConfig (accepted_of_new new nodeCount_pos)

/-- The first data block covered by a node's last possible child, or by its last
entry. The value identifies the node in authentication contexts. -/
def lastEntryCoveredDataBlocksBegin (pr : Profile) (x : AuthTreeNodeId) : Comp Nat :=
  if x.level ≠ 0 then do
    let bits := levelCoveredDataBlockIndexBits x.level x.nodeDigestsPerNodeLog2
      x.dataDigestsPerNodeLog2
    debugAssert pr (bits - x.nodeDigestsPerNodeLog2 < 64)
    let mask ← trailingBitsMask pr x.nodeDigestsPerNodeLog2
    let lastEntry ← shlU64 pr mask (bits - x.nodeDigestsPerNodeLog2)
    pure (x.coveredDataBlocksBegin ||| lastEntry)
  else do
    let mask ← trailingBitsMask pr x.dataDigestsPerNodeLog2
    debugAssert pr (x.coveredDataBlocksBegin &&& mask = 0)
    pure (x.coveredDataBlocksBegin ||| mask)

def Covers (x : AuthTreeNodeId) (i : Nat) : Prop :=
  x.coveredDataBlocksBegin ≤ i ∧ i < x.coveredDataBlocksBegin +
    2 ^ levelCoveredDataBlockIndexBits x.level x.nodeDigestsPerNodeLog2 x.dataDigestsPerNodeLog2

structure IsDescendant (y x : AuthTreeNodeId) : Prop where
  level_lt : y.level < x.level
  covers : Covers x y.coveredDataBlocksBegin

structure CmpCorrect (cfg : AuthTreeConfig) : Prop where
  u8 : ∀ y z, cfg.IsNode y → cfg.IsNode z →
    max y.level z.level * y.nodeDigestsPerNodeLog2 + y.dataDigestsPerNodeLog2 < 2 ^ 8
  returns : ∀ pr y z, cfg.IsNode y → cfg.IsNode z → ∃ o, y.cmp pr z = .ok o
  eq_iff : ∀ pr y z, cfg.IsNode y → cfg.IsNode z → (y.cmp pr z = .ok .eq ↔ y = z)
  swap : ∀ pr y z o, cfg.IsNode y → cfg.IsNode z → y.cmp pr z = .ok o → z.cmp pr y = .ok o.swap
  trans : ∀ pr y z w, cfg.IsNode y → cfg.IsNode z → cfg.IsNode w →
    y.cmp pr z = .ok .lt → z.cmp pr w = .ok .lt → y.cmp pr w = .ok .lt
  descendant : ∀ pr y z, cfg.IsNode y → cfg.IsNode z → IsDescendant z y → y.cmp pr z = .ok .lt
  siblings : ∀ pr y y' z z', cfg.IsNode y → cfg.IsNode y' → cfg.IsNode z → cfg.IsNode z' →
    y.level = y'.level → y.coveredDataBlocksBegin < y'.coveredDataBlocksBegin →
    (z = y ∨ IsDescendant z y) → (z' = y' ∨ IsDescendant z' y') → z.cmp pr z' = .ok .lt

variable {c d levels : Nat}

theorem InTree.div_eq {x y : AuthTreeNodeId} (hx : InTree c d levels x)
    (h : y = x ∨ IsDescendant y x) :
    y.level ≤ x.level ∧ y.coveredDataBlocksBegin / 2 ^ (x.level * c + d) =
      x.coveredDataBlocksBegin / 2 ^ (x.level * c + d) := by
  rcases h with rfl | ⟨hlevel, hlow, hhigh⟩
  · exact ⟨le_refl _, rfl⟩
  · refine ⟨hlevel.le, ?_⟩
    rw [levelCoveredDataBlockIndexBits, hx.c_eq, hx.d_eq] at hhigh
    obtain ⟨q, hq⟩ := hx.aligned
    have hpow : 0 < 2 ^ (x.level * c + d) := Nat.pow_pos (by decide)
    rw [hq] at hlow hhigh ⊢
    rw [Nat.mul_div_cancel_left _ hpow]
    exact Nat.div_eq_of_lt_le (by rwa [mul_comm] at hlow)
      (by rwa [succ_mul, mul_comm q])

theorem InTree.eq_of_nodePosition {x y : AuthTreeNodeId} (hx : InTree c d levels x)
    (hy : InTree c d levels y) (h : nodePosition c d levels x = nodePosition c d levels y) :
    x = y := by
  have hget := hx.listing_getElem?
  rw [h, hy.listing_getElem?] at hget
  exact (Option.some.inj hget).symm

theorem InTree.nodePosition_lt_of_descendant {x y : AuthTreeNodeId} (hx : InTree c d levels x)
    (h : IsDescendant y x) : nodePosition c d levels x < nodePosition c d levels y :=
  nodePosition_lt_of_ancestor hx h.level_lt (InTree.div_eq hx (Or.inr h)).2.symm

/-- Whatever is below a node comes before whatever is below a later node of the
same level. -/
theorem InTree.nodePosition_lt_of_siblings {x x' y y' : AuthTreeNodeId} (hx : InTree c d levels x)
    (hx' : InTree c d levels x') (hy' : InTree c d levels y') (hlevel : x.level = x'.level)
    (hlt : x.coveredDataBlocksBegin < x'.coveredDataBlocksBegin) (h : y = x ∨ IsDescendant y x)
    (h' : y' = x' ∨ IsDescendant y' x') :
    nodePosition c d levels y < nodePosition c d levels y' := by
  obtain ⟨hyl, hdiv⟩ := InTree.div_eq hx h
  obtain ⟨hyl', hdiv'⟩ := InTree.div_eq hx' h'
  rw [← hlevel] at hyl' hdiv'
  refine nodePosition_lt_of_div_lt hy' x.level hyl hyl' hx.level_lt ?_
  rw [hdiv, hdiv']
  have haligned := hx'.aligned
  rw [← hlevel] at haligned
  exact div_lt_div_of_lt_of_dvd haligned hlt

theorem le_of_coveredWalk {pr : Profile} (l n e : Nat) {covered v : Nat} (hlt : covered < 2 ^ 64)
    (h : coveredWalk pr levels c d l n e covered = .ok v) : covered ≤ v := by
  induction l using Nat.strongRecOn generalizing n e covered with
  | ind l ih =>
    match l, ih with
    | 0, _ =>
      obtain ⟨-, -, hv⟩ := bind_eq_ok h
      exact (Except.ok.inj hv).le
    | 1, _ =>
      obtain ⟨-, -, hv⟩ := bind_eq_ok h
      exact (Except.ok.inj hv).le
    | l + 2, ih =>
      rw [coveredWalk] at h
      split at h
      · exact (Except.ok.inj h).le
      · split at h
        · exact (Except.ok.inj h).le
        · obtain ⟨difference, -, h⟩ := bind_eq_ok h
          obtain ⟨e', -, h⟩ := bind_eq_ok h
          obtain ⟨full, -, h⟩ := bind_eq_ok h
          obtain ⟨digests, -, h⟩ := bind_eq_ok h
          obtain ⟨-, -, h⟩ := bind_eq_ok h
          obtain ⟨fullNodes, -, h⟩ := bind_eq_ok h
          obtain ⟨rest, -, h⟩ := bind_eq_ok h
          obtain ⟨blocks, -, h⟩ := bind_eq_ok h
          cases blocks with
          | none =>
            have hv : 2 ^ 64 - 1 = v := Except.ok.inj h
            omega
          | some blocks =>
            dsimp only at h
            split at h
            · rename_i hsum
              exact le_trans (Nat.le_add_right _ _) (ih (l + 1) (by omega) _ _ hsum h)
            · cases h

variable {pr : Profile} {l : ImageLayout} {imageSize : Nat} {x : LogicalExtents}
  {cfg : AuthTreeConfig}

theorem coveredWalk_pos {pr : Profile} (h : Shape c d levels) (hd : 0 < d) (l : Nat) {n v : Nat}
    (hlevels : levels = l + 2) (hn : nodes (2 ^ c) (l + 1) < n)
    (hv : coveredWalk pr levels c d levels n (nodes (2 ^ c) levels) 0 = .ok v) : 0 < v := by
  have hf : 0 < 2 ^ c := Nat.pow_pos (by decide)
  have hbits : l * c + d < 64 := h.cover_cap l (by omega)
  have hpath := lt_nodes (2 ^ c) hf l
  have hpos := nodes_pos (2 ^ c) l
  have hfull : 0 < (n - 1) / nodes (2 ^ c) (l + 1) := Nat.div_pos (by omega) hpos
  rw [hlevels, coveredWalk, if_neg (by omega), if_neg (by omega), subU64_ok pr (nodes_pos _ _),
    ok_bind, shrU64_ok pr h.c_lt, ok_bind, sub_one_div_nodes _ _ hf, divU64_ok hpos.ne', ok_bind,
    shl_one pr h.c_lt, ok_bind] at hv
  obtain ⟨-, -, hv⟩ := bind_eq_ok hv
  obtain ⟨fullNodes, -, hv⟩ := bind_eq_ok hv
  obtain ⟨rest, -, hv⟩ := bind_eq_ok hv
  rw [coveredByEntries_root pr l _ rfl hd hbits, ok_bind] at hv
  by_cases hlt : (n - 1) / nodes (2 ^ c) (l + 1) * 2 ^ (l * c + d) < 2 ^ 64
  · rw [if_pos hlt] at hv
    dsimp only at hv
    rw [if_pos (by omega), zero_add] at hv
    exact lt_of_lt_of_le (mul_pos hfull (Nat.pow_pos (by decide))) (le_of_coveredWalk _ _ _ hlt hv)
  · rw [if_neg hlt] at hv
    obtain rfl : 2 ^ 64 - 1 = v := Except.ok.inj hv
    decide

theorem Accepted.maxCovered_pos (h : Accepted pr l imageSize x cfg)
    (himage : ImageSizeOk l imageSize) : 0 < cfg.maxCoveredDataBlockCount := by
  obtain ⟨hshape, -⟩ := h.shape himage
  have hn := nodeCount_pos h
  have hgeometry := h.geometryOk
  obtain ⟨levels, hlevels, hpos, -, hleast, -⟩ := authTreeNodeCountToAuthTreeLevels_ok
    (d := cfg.geometry.dataDigestsPerNodeLog2) (a := cfg.geometry.dataBlockAllocationBlocksLog2) pr
    hshape.c_pos hshape.c_lt hn (lt_of_le_of_lt (Nat.le_mul_of_pos_right _ (Nat.pow_pos (by decide)))
      (nodeCount_mul_lt h himage))
  cases hlevels.symm.trans h.levels
  obtain ⟨covered, hcovered, hmax⟩ := h.covered
  have hword : 0 < (2 ^ 64 - 1) / 2 ^ cfg.geometry.dataBlockAllocationBlocksLog2 := by
    refine Nat.div_pos ?_ (Nat.pow_pos (by decide))
    exact le_trans (Nat.pow_le_pow_right (by decide) hgeometry.a_le) (by decide)
  rw [hmax, Nat.lt_min]
  refine ⟨?_, hword⟩
  rw [authTreeNodeCountToMaxCoveredDataBlockCount, if_neg hn.ne'] at hcovered
  obtain ⟨-, -, hcovered⟩ := bind_eq_ok hcovered
  obtain ⟨-, -, hcovered⟩ := bind_eq_ok hcovered
  obtain ⟨-, -, hcovered⟩ := bind_eq_ok hcovered
  split at hcovered
  · obtain ⟨-, -, hcovered⟩ := bind_eq_ok hcovered
    rw [shl_one pr hshape.d_lt] at hcovered
    rw [← Except.ok.inj hcovered]
    exact Nat.pow_pos (by decide)
  · rename_i hone
    obtain ⟨k, hk⟩ : ∃ k, cfg.authTreeLevels = k + 2 := ⟨cfg.authTreeLevels - 2, by omega⟩
    rw [authSubtreeNodeCount_ok pr hshape.c_pos hshape.c_lt h.isInverse (by omega) hshape.nodes_cap,
      ok_bind, Nat.sub_add_cancel hpos] at hcovered
    exact coveredWalk_pos hshape hgeometry.d_pos k hk (hleast (k + 1) (by omega)) hcovered

def AuthTreeConfig.root (cfg : AuthTreeConfig) : AuthTreeNodeId :=
  .new 0 (cfg.authTreeLevels - 1) cfg.geometry.nodeDigestsPerNodeLog2
    cfg.geometry.dataDigestsPerNodeLog2

section

variable (h : Accepted pr l imageSize x cfg) (himage : ImageSizeOk l imageSize)
include h himage

theorem Accepted.isNode_root :
    cfg.IsNode (AuthTreeConfig.root cfg) := by
  have hpos := (h.shape himage).1.levels_pos
  have hbegin : (AuthTreeConfig.root cfg).coveredDataBlocksBegin = 0 := by
    rw [AuthTreeConfig.root, AuthTreeNodeId.new]
    rw [Nat.zero_sub, ite_self]
  refine ⟨rfl, rfl, sub_lt hpos (by decide), ?_, ?_⟩
  · rw [hbegin]
    exact dvd_zero _
  · rw [hbegin]
    exact Accepted.maxCovered_pos h himage

theorem Accepted.cmp_eq (hbits : (cfg.authTreeLevels - 1) * cfg.geometry.nodeDigestsPerNodeLog2 +
      cfg.geometry.dataDigestsPerNodeLog2 < 64) (pr' : Profile) {y z : AuthTreeNodeId}
    (hy : cfg.IsNode y) (hz : cfg.IsNode z) :
    y.cmp pr' z = .ok (compare
      (nodePosition cfg.geometry.nodeDigestsPerNodeLog2 cfg.geometry.dataDigestsPerNodeLog2
        cfg.authTreeLevels y)
      (nodePosition cfg.geometry.nodeDigestsPerNodeLog2 cfg.geometry.dataDigestsPerNodeLog2
        cfg.authTreeLevels z)) := by
  refine cmp_of_lt pr' (h.inTree himage hy) (h.inTree himage hz) (lt_of_le_of_lt ?_ hbits)
  have hyl := hy.level_lt
  have hzl := hz.level_lt
  exact Nat.add_le_add_right (Nat.mul_le_mul_right _ (by omega)) _

theorem Accepted.cmpCorrect
    (hbits : (cfg.authTreeLevels - 1) * cfg.geometry.nodeDigestsPerNodeLog2 +
      cfg.geometry.dataDigestsPerNodeLog2 < 64) : CmpCorrect cfg := by
  have hcmp {pr' y z} (hy : cfg.IsNode y) (hz : cfg.IsNode z) :=
    Accepted.cmp_eq h himage hbits pr' hy hz
  have htree {y} (hy : cfg.IsNode y) := h.inTree himage hy
  refine ⟨?_, ?_, ?_, ?_, ?_, ?_, ?_⟩
  · intro y z hy hz
    have hyl := hy.level_lt
    have hzl := hz.level_lt
    rw [hy.c_eq, hy.d_eq]
    exact lt_trans (lt_of_le_of_lt (Nat.add_le_add_right (Nat.mul_le_mul_right _
      (show max y.level z.level ≤ cfg.authTreeLevels - 1 by omega)) _) hbits) (by decide)
  · intro pr' y z hy hz
    exact ⟨_, hcmp hy hz⟩
  · intro pr' y z hy hz
    rw [hcmp hy hz, Except.ok.injEq, compare_eq_iff_eq]
    exact ⟨InTree.eq_of_nodePosition (htree hy) (htree hz), fun hyz => by rw [hyz]⟩
  · intro pr' y z o hy hz ho
    rw [hcmp hy hz] at ho
    rw [hcmp hz hy, ← Except.ok.inj ho, Nat.compare_swap]
  · intro pr' y z w hy hz hw hyz hzw
    rw [hcmp hy hz, Except.ok.injEq, compare_lt_iff_lt] at hyz
    rw [hcmp hz hw, Except.ok.injEq, compare_lt_iff_lt] at hzw
    rw [hcmp hy hw, compare_lt_iff_lt.mpr (lt_trans hyz hzw)]
  · intro pr' y z hy hz hdesc
    rw [hcmp hy hz, compare_lt_iff_lt.mpr (InTree.nodePosition_lt_of_descendant (htree hy) hdesc)]
  · intro pr' y y' z z' hy hy' hz hz' hlevel hlt hzy hzy'
    rw [hcmp hz hz', compare_lt_iff_lt.mpr (InTree.nodePosition_lt_of_siblings (htree hy)
      (htree hy') (htree hz') hlevel hlt hzy hzy')]

theorem Accepted.not_cmpCorrect
    (hbits : 64 ≤ (cfg.authTreeLevels - 1) * cfg.geometry.nodeDigestsPerNodeLog2 +
      cfg.geometry.dataDigestsPerNodeLog2) : ¬ CmpCorrect cfg := by
  intro hcmp
  have hroot := Accepted.isNode_root h himage
  have htree := h.inTree himage hroot
  obtain ⟨o, ho⟩ := hcmp.returns .debug _ _ hroot hroot
  have hge : 64 ≤ max (AuthTreeConfig.root cfg).level (AuthTreeConfig.root cfg).level *
      cfg.geometry.nodeDigestsPerNodeLog2 + cfg.geometry.dataDigestsPerNodeLog2 := by
    rwa [Nat.max_self]
  rw [(cmp_of_ge (h.shape himage).1 htree htree hge).1] at ho
  cases ho

end

theorem cmpCorrect_iff (pr : Profile) (l : ImageLayout) (imageSize : Nat)
    (himage : imageSize ≤ (2 ^ 64 - 1) / 2 ^ (l.allocationBlockSize128bLog2.toNat + 7))
    (x : LogicalExtents) (cfg : AuthTreeConfig)
    (hnew : new pr l imageSize x = .ok cfg) :
    CmpCorrect cfg ↔ (cfg.authTreeLevels - 1) * cfg.geometry.nodeDigestsPerNodeLog2 +
      cfg.geometry.dataDigestsPerNodeLog2 < 64 := by
  have h := accepted_of_new hnew
  constructor
  · intro hcmp
    by_contra hbits
    exact Accepted.not_cmpCorrect h himage (Nat.le_of_not_lt hbits) hcmp
  · exact Accepted.cmpCorrect h himage

theorem cmpCorrect_iff_sample : ∃ cfg,
    new .debug sampleLayout 11 sampleExtents = .ok cfg ∧ (CmpCorrect cfg ↔
      (cfg.authTreeLevels - 1) * cfg.geometry.nodeDigestsPerNodeLog2 +
        cfg.geometry.dataDigestsPerNodeLog2 < 64) := by
  obtain ⟨cfg, hcfg⟩ := exists_ok_of_isOk sampleConfig_isOk
  exact ⟨cfg, hcfg, cmpCorrect_iff .debug sampleLayout 11 (by decide) sampleExtents cfg hcfg⟩

def tallLayout : ImageLayout :=
  ⟨0, 0, 6, 0, 0, 2, 2, .sha256, .sha256, .sha256, .sha256, .sha256, .aes128⟩

def tallExtents : LogicalExtents := ⟨[(0, 282578800148738 * 64)], by decide, by decide⟩

/-- The extent takes up two exbibytes, and all that is left of the image are two
Data Blocks. -/
theorem tallConfig_dimensions :
    ((new .debug tallLayout (282578800148738 * 64 + 2) tallExtents).map fun cfg =>
      (cfg.authTreeLevels, cfg.geometry.nodeDigestsPerNodeLog2,
        cfg.geometry.dataDigestsPerNodeLog2)) = .ok (8, 8, 8) := by
  decide +kernel

/-- The root of a tree that covers as many data blocks as there are words cannot
be compared, not even with itself. -/
theorem cmp_overflows : ¬ ∀ pr l imageSize,
    imageSize ≤ (2 ^ 64 - 1) / 2 ^ (l.allocationBlockSize128bLog2.toNat + 7) →
      ∀ x cfg, new pr l imageSize x = .ok cfg → CmpCorrect cfg := by
  intro hall
  have hspec := tallConfig_dimensions
  cases hcfg : new .debug tallLayout (282578800148738 * 64 + 2) tallExtents with
  | error e =>
    rw [hcfg] at hspec
    cases hspec
  | ok cfg =>
    rw [hcfg] at hspec
    have hdimensions := Except.ok.inj hspec
    rw [Prod.mk.injEq, Prod.mk.injEq] at hdimensions
    obtain ⟨hlevels, hc, hd⟩ := hdimensions
    have himage : ImageSizeOk tallLayout (282578800148738 * 64 + 2) := by
      rw [ImageSizeOk]
      decide
    refine Accepted.not_cmpCorrect (accepted_of_new hcfg) himage ?_
      (hall _ _ _ himage _ _ hcfg)
    rw [hlevels, hc, hd]

/-- The position of the lowest bit set in a node's identifying value. -/
def lowestBit (c d level : Nat) : Nat :=
  match level with
  | 0 => 0
  | level + 1 => level * c + d

theorem lowestBit_strictMono (hc : 0 < c) (hd : 0 < d) : StrictMono (lowestBit c d) := by
  apply strictMono_nat_of_lt_succ
  intro level
  cases level with
  | zero => exact lt_of_lt_of_le hd (Nat.le_add_left _ _)
  | succ level =>
    rw [lowestBit, lowestBit, succ_mul]
    omega

/-- The entry's bits set in the value are those above the lowest one, up to the
ones that select the node. -/
theorem lastEntry_testBit {b e v : Nat} (hc : 0 < c) (he : e < 64) (hv : 2 ^ (e + c) ∣ v)
    (hb : b < e ∨ b = e) :
    (v ||| (2 ^ c - 1) * 2 ^ e % 2 ^ 64).testBit b = decide (b = e) := by
  obtain ⟨q, rfl⟩ := hv
  have hlow : (2 ^ (e + c) * q).testBit b = false := by
    rw [testBit_two_pow_mul, decide_eq_false (by omega), Bool.false_and]
  rw [testBit_or, hlow, Bool.false_or, testBit_mod_two_pow, testBit_mul_two_pow,
    testBit_two_pow_sub_one]
  rcases hb with hlt | rfl
  · simp [hlt.ne, Nat.not_le_of_lt hlt]
  · simp [he, hc]

theorem lastEntry_div (b m e n : Nat) (hm : m * 2 ^ e < 2 ^ n) :
    (b ||| m * 2 ^ e % 2 ^ 64) / 2 ^ n = b / 2 ^ n := by
  rw [← shiftRight_eq_div_pow, shiftRight_or_distrib, shiftRight_eq_div_pow (_ % _),
    div_eq_of_lt (lt_of_le_of_lt (mod_le _ _) hm), or_zero, shiftRight_eq_div_pow]

structure Identifies (c d : Nat) (x : AuthTreeNodeId) (v : Nat) : Prop where
  lowest : v.testBit (lowestBit c d x.level) = true
  below : ∀ b < lowestBit c d x.level, v.testBit b = false
  node : v / 2 ^ (x.level * c + d) = x.coveredDataBlocksBegin / 2 ^ (x.level * c + d)

theorem InTree.lastEntryCoveredDataBlocksBegin_ok (pr : Profile) (h : Shape c d levels) (hd : 0 < d)
    {x : AuthTreeNodeId} (hx : InTree c d levels x) :
    ∃ v, lastEntryCoveredDataBlocksBegin pr x = .ok v ∧ Identifies c d x v := by
  have hceq := hx.c_eq
  have hdeq := hx.d_eq
  have haligned := hx.aligned
  have hlt := hx.level_lt
  cases hlevel : x.level with
  | zero =>
    have hmask : x.coveredDataBlocksBegin &&& (2 ^ d - 1) = 0 := by
      rw [hlevel, zero_mul, zero_add] at haligned
      rw [and_two_pow_sub_one_eq_mod, mod_eq_zero_of_dvd haligned]
    refine ⟨x.coveredDataBlocksBegin ||| (2 ^ d - 1), ?_, ?_⟩
    · rw [lastEntryCoveredDataBlocksBegin, if_neg (not_not_intro hlevel), hdeq,
        trailingBitsMask_ok pr h.d_lt.le, ok_bind, debugAssert_ok pr hmask]
      rfl
    · have hdiv := lastEntry_div x.coveredDataBlocksBegin (2 ^ d - 1) 0 d (by
        rw [pow_zero, mul_one]
        exact sub_lt (Nat.pow_pos (by decide)) (by decide))
      have hword : 2 ^ d < 2 ^ 64 := Nat.pow_lt_pow_right (by decide) h.d_lt
      rw [pow_zero, mul_one, mod_eq_of_lt (by omega)] at hdiv
      refine ⟨?_, ?_, ?_⟩
      · rw [hlevel, lowestBit, testBit_or, testBit_two_pow_sub_one, decide_eq_true hd,
          Bool.or_true]
      · intro b hb
        rw [hlevel] at hb
        exact absurd hb (Nat.not_lt_zero b)
      · rwa [hlevel, zero_mul, zero_add]
  | succ level =>
    have hbits : level * c + d < 64 := h.cover_cap level (by omega)
    have hsucc : (level + 1) * c + d = level * c + d + c := by ring
    have hsub : levelCoveredDataBlockIndexBits x.level x.nodeDigestsPerNodeLog2
        x.dataDigestsPerNodeLog2 - x.nodeDigestsPerNodeLog2 = level * c + d := by
      rw [levelCoveredDataBlockIndexBits, hlevel, hceq, hdeq, hsucc, Nat.add_sub_cancel]
    rw [hlevel, hsucc] at haligned
    refine ⟨x.coveredDataBlocksBegin ||| (2 ^ c - 1) * 2 ^ (level * c + d) % 2 ^ 64, ?_, ?_, ?_, ?_⟩
    · rw [lastEntryCoveredDataBlocksBegin, if_pos (by omega)]
      dsimp only
      rw [hsub, debugAssert_ok pr hbits, ok_bind, hceq, trailingBitsMask_ok pr h.c_lt.le, ok_bind,
        shlU64, if_pos hbits]
      rfl
    · rw [hlevel, lowestBit, lastEntry_testBit h.c_pos hbits haligned (Or.inr rfl), decide_eq_true rfl]
    · intro b hb
      rw [hlevel, lowestBit] at hb
      rw [lastEntry_testBit h.c_pos hbits haligned (Or.inl hb), decide_eq_false hb.ne]
    · rw [hlevel, hsucc]
      apply lastEntry_div
      have hpow : 0 < 2 ^ (level * c + d) := Nat.pow_pos (by decide)
      have hmask : 2 ^ c - 1 < 2 ^ c := sub_lt (Nat.pow_pos (by decide)) (by decide)
      rw [pow_add 2 (level * c + d), mul_comm _ (2 ^ c)]
      exact Nat.mul_lt_mul_of_pos_right hmask hpow

/-- The lowest bit set tells the level, and the bits above the level's ones tell
the node. -/
theorem Identifies.eq {x y : AuthTreeNodeId} {v : Nat} (hc : 0 < c) (hd : 0 < d)
    (hx : InTree c d levels x) (hy : InTree c d levels y) (hvx : Identifies c d x v)
    (hvy : Identifies c d y v) : x = y := by
  have hlevel : x.level = y.level := by
    rcases lt_trichotomy x.level y.level with hlt | heq | hlt
    · have hbit := hvy.below _ (lowestBit_strictMono hc hd hlt)
      rw [hvx.lowest] at hbit
      cases hbit
    · exact heq
    · have hbit := hvx.below _ (lowestBit_strictMono hc hd hlt)
      rw [hvy.lowest] at hbit
      cases hbit
  have hnode := hvx.node
  have hnode' := hvy.node
  rw [← hlevel, hnode] at hnode'
  have hbegin := hx.begin_eq hy hlevel hnode'
  have hceq := hx.c_eq.trans hy.c_eq.symm
  have hdeq := hx.d_eq.trans hy.d_eq.symm
  cases x
  cases y
  simp_all

/-- No two nodes of a tree share their authentication contexts. -/
theorem lastEntryCoveredDataBlocksBegin_injective (pr : Profile) (l : ImageLayout) (imageSize : Nat)
    (himage : imageSize ≤ (2 ^ 64 - 1) / 2 ^ (l.allocationBlockSize128bLog2.toNat + 7))
    (x : LogicalExtents) (cfg : AuthTreeConfig)
    (hnew : new pr l imageSize x = .ok cfg) (pr' : Profile) :
    (∀ y, cfg.IsNode y → ∃ v, lastEntryCoveredDataBlocksBegin pr' y = .ok v) ∧
    ∀ y z, cfg.IsNode y → cfg.IsNode z →
      lastEntryCoveredDataBlocksBegin pr' y = lastEntryCoveredDataBlocksBegin pr' z → y = z := by
  have h := accepted_of_new hnew
  have hshape := (h.shape himage).1
  have hd := h.geometryOk.d_pos
  constructor
  · intro y hy
    obtain ⟨v, hv, -⟩ := InTree.lastEntryCoveredDataBlocksBegin_ok pr' hshape hd (h.inTree himage hy)
    exact ⟨v, hv⟩
  · intro y z hy hz heq
    have hytree := h.inTree himage hy
    have hztree := h.inTree himage hz
    obtain ⟨v, hv, hidy⟩ := InTree.lastEntryCoveredDataBlocksBegin_ok pr' hshape hd hytree
    obtain ⟨w, hw, hidz⟩ := InTree.lastEntryCoveredDataBlocksBegin_ok pr' hshape hd hztree
    rw [hv, hw] at heq
    rw [← Except.ok.inj heq] at hidz
    exact Identifies.eq hshape.c_pos hd hytree hztree hidy hidz

theorem lastEntryCoveredDataBlocksBegin_injective_sample : ∃ cfg,
    new .debug sampleLayout 11 sampleExtents = .ok cfg ∧
      (∀ y, cfg.IsNode y → ∃ v, lastEntryCoveredDataBlocksBegin .debug y = .ok v) ∧
      ∀ y z, cfg.IsNode y → cfg.IsNode z →
        lastEntryCoveredDataBlocksBegin .debug y = lastEntryCoveredDataBlocksBegin .debug z → y = z := by
  obtain ⟨cfg, hcfg⟩ := exists_ok_of_isOk sampleConfig_isOk
  exact ⟨cfg, hcfg, lastEntryCoveredDataBlocksBegin_injective .debug sampleLayout 11 (by decide)
    sampleExtents cfg hcfg .debug⟩

end CocoonFs.NodeIds
