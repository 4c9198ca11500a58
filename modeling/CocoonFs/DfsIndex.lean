import CocoonFs.SubtreeCount
import Mathlib.Data.Nat.Bitwise

namespace CocoonFs.DfsIndex

open Checked CompleteTree SubtreeCount Nat

/-- A node is identified by its level and the first data block it covers. -/
structure AuthTreeNodeId where
  coveredDataBlocksBegin : Nat
  level : Nat
  nodeDigestsPerNodeLog2 : Nat
  dataDigestsPerNodeLog2 : Nat
  deriving DecidableEq, Repr

def levelCoveredDataBlockIndexBits (level c d : Nat) : Nat := level * c + d

def AuthTreeNodeId.new (coveredDataBlockIndex level c d : Nat) : AuthTreeNodeId :=
  let bits := levelCoveredDataBlockIndexBits level c d
  let begin :=
    if bits < 64 then coveredDataBlockIndex - coveredDataBlockIndex % 2 ^ bits else 0
  ⟨begin, level, c, d⟩

def cmpLevels (pr : Profile) (x y : AuthTreeNodeId) : Comp Ordering :=
  match compare x.level y.level with
  | .lt => .ok .gt
  | .eq => do
    debugAssert pr (x.coveredDataBlocksBegin = y.coveredDataBlocksBegin)
    pure .eq
  | .gt => .ok .lt

/-- The preorder. One node is an ancestor of the other if the two do not differ
in the index bits above the higher level. -/
def AuthTreeNodeId.cmp (pr : Profile) (x y : AuthTreeNodeId) : Comp Ordering := do
  let maxLevel := max x.level y.level
  let high ← shrU64 pr (x.coveredDataBlocksBegin ^^^ y.coveredDataBlocksBegin)
    (maxLevel * x.nodeDigestsPerNodeLog2 + x.dataDigestsPerNodeLog2)
  if high = 0 then cmpLevels pr x y
  else do
    debugAssert pr (x.coveredDataBlocksBegin ≠ y.coveredDataBlocksBegin)
    pure (compare x.coveredDataBlocksBegin y.coveredDataBlocksBegin)

/-- The loop over the parent levels. -/
def dfsPreIndexLoop (pr : Profile) (c : Nat) : Nat → Nat → Nat → Nat → Comp Nat
  | 0, _, _, nodeDfsPreIndex => .ok nodeDfsPreIndex
  | k + 1, index, entrySubtreeNodeCount, nodeDfsPreIndex => do
    let mask ← trailingBitsMask pr c
    let skipped ← mulU64 pr entrySubtreeNodeCount (index &&& mask)
    let afterSiblings ← addU64 pr nodeDfsPreIndex skipped
    let afterParent ← addU64 pr afterSiblings 1
    let index ← shrU64 pr index c
    let shifted ← shlU64 pr entrySubtreeNodeCount c
    dfsPreIndexLoop pr c k index ((shifted + 1) % 2 ^ 64) afterParent

/-- The number of the node on its level and the index of the entry in the node. -/
def splitIndex (pr : Profile) (coveredDataBlockIndex level c d : Nat) : Comp (Nat × Nat) :=
  if level ≠ 0 then do
    let index ← shrU64 pr coveredDataBlockIndex ((level - 1) * c + d)
    let mask ← trailingBitsMask pr c
    let nodeIndex ← shrU64 pr index c
    pure (nodeIndex, index &&& mask)
  else do
    let nodeIndex ← shrU64 pr coveredDataBlockIndex d
    let mask ← trailingBitsMask pr d
    pure (nodeIndex, coveredDataBlockIndex &&& mask)

def authTreeNodeDfsPreIndex (pr : Profile)
    (coveredDataBlockIndex level authTreeLevels c inv d : Nat) : Comp (Nat × Nat) := do
  debugAssert pr (0 < authTreeLevels)
  debugAssert pr (level < authTreeLevels)
  let (index, entryInNodeIndex) ← splitIndex pr coveredDataBlockIndex level c d
  if level + 1 = authTreeLevels then pure (0, entryInNodeIndex)
  else do
    let entrySubtreeNodeCount ← authSubtreeNodeCount pr level authTreeLevels c inv
    let nodeDfsPreIndex ← dfsPreIndexLoop pr c (authTreeLevels - (level + 1)) index
      entrySubtreeNodeCount 0
    pure (nodeDfsPreIndex, entryInNodeIndex)

/-- The shapes of trees whose heights have been limited as to not overflow. -/
structure Shape (c d levels : Nat) : Prop where
  c_pos : 0 < c
  c_lt : c < 64
  d_lt : d < 64
  levels_pos : 0 < levels
  nodes_cap : c * (levels - 1) < 64
  cover_cap : ∀ level, level + 1 < levels → level * c + d < 64

structure InTree (c d levels : Nat) (x : AuthTreeNodeId) : Prop where
  c_eq : x.nodeDigestsPerNodeLog2 = c
  d_eq : x.dataDigestsPerNodeLog2 = d
  level_lt : x.level < levels
  aligned : 2 ^ (x.level * c + d) ∣ x.coveredDataBlocksBegin
  covered : x.coveredDataBlocksBegin < 2 ^ ((levels - 1) * c + d)
  u64 : x.coveredDataBlocksBegin < 2 ^ 64

variable {c d levels : Nat}

def nodeNumber (c d : Nat) (x : AuthTreeNodeId) : Nat :=
  x.coveredDataBlocksBegin / 2 ^ (x.level * c + d)

def nodePosition (c d levels : Nat) (x : AuthTreeNodeId) : Nat :=
  position (2 ^ c) x.level (levels - 1 - x.level) (nodeNumber c d x)

theorem dfsPreIndexLoop_ok (pr : Profile) (hc64 : c < 64) (k l q acc : Nat)
    (hnodes : nodes (2 ^ c) (l + k + 1) < 2 ^ 64) (hacc : acc + position (2 ^ c) l k q < 2 ^ 64) :
    dfsPreIndexLoop pr c k q (nodes (2 ^ c) (l + 1)) acc =
      .ok (acc + position (2 ^ c) l k q) := by
  induction k generalizing l q acc with
  | zero => rfl
  | succ k ih =>
    rw [position] at hacc ⊢
    have hnext : nodes (2 ^ c) (l + 1) * 2 ^ c % 2 ^ 64 + 1 < 2 ^ 64 ∧
        nodes (2 ^ c) (l + 1) * 2 ^ c % 2 ^ 64 + 1 = nodes (2 ^ c) (l + 1 + 1) := by
      have hle : nodes (2 ^ c) (l + 1 + 1) ≤ nodes (2 ^ c) (l + (k + 1) + 1) :=
        nodes_mono _ (Nat.pow_pos (by decide)) (by omega)
      have hsucc : nodes (2 ^ c) (l + 1 + 1) = nodes (2 ^ c) (l + 1) * 2 ^ c + 1 := by
        rw [mul_comm]
        rfl
      rw [mod_eq_of_lt (by omega)]
      omega
    have hrec := ih (l + 1) (q / 2 ^ c) (acc + nodes (2 ^ c) (l + 1) * (q % 2 ^ c) + 1)
      (by rwa [show l + 1 + k + 1 = l + (k + 1) + 1 by omega]) (by omega)
    rw [dfsPreIndexLoop, trailingBitsMask_ok pr hc64.le, ok_bind, and_two_pow_sub_one_eq_mod,
      mulU64_ok pr (by omega), ok_bind, addU64_ok pr (by omega), ok_bind,
      addU64_ok pr (by omega), ok_bind, shrU64_ok pr hc64, ok_bind, shlU64, if_pos hc64, ok_bind,
      mod_eq_of_lt hnext.1, hnext.2, hrec]
    congr 1
    omega

theorem splitIndex_ok (pr : Profile) (h : Shape c d levels) (index level : Nat)
    (hlevel : level < levels) :
    ∃ entry, splitIndex pr index level c d = .ok (index / 2 ^ (level * c + d), entry) := by
  have hc := h.c_lt
  have hd := h.d_lt
  cases level with
  | zero =>
    refine ⟨index &&& (2 ^ d - 1), ?_⟩
    rw [splitIndex, if_neg (by simp), shrU64_ok pr hd, ok_bind, trailingBitsMask_ok pr hd.le,
      ok_bind, zero_mul, zero_add]
    rfl
  | succ level =>
    have hbits := h.cover_cap level (by omega)
    have hpow : 2 ^ (level * c + d) * 2 ^ c = 2 ^ ((level + 1) * c + d) := by
      rw [← pow_add]
      congr 1
      ring
    refine ⟨index / 2 ^ (level * c + d) &&& (2 ^ c - 1), ?_⟩
    rw [splitIndex, if_pos (by simp), Nat.add_sub_cancel, shrU64_ok pr hbits, ok_bind,
      trailingBitsMask_ok pr hc.le, ok_bind, shrU64_ok pr hc, ok_bind, Nat.div_div_eq_div_mul, hpow]
    rfl

variable {x y : AuthTreeNodeId}

theorem InTree.nodeNumber_lt (hx : InTree c d levels x) :
    nodeNumber c d x < (2 ^ c) ^ (levels - 1 - x.level) := by
  have hlevel := hx.level_lt
  refine Nat.div_lt_of_lt_mul ?_
  rw [← pow_mul, ← pow_add]
  refine lt_of_lt_of_eq hx.covered (congrArg (2 ^ ·) ?_)
  obtain ⟨k, hk⟩ : ∃ k, levels - 1 = x.level + k := ⟨levels - 1 - x.level, by omega⟩
  rw [hk, Nat.add_sub_cancel_left]
  ring

theorem InTree.nodePosition_lt (hx : InTree c d levels x) :
    nodePosition c d levels x < nodes (2 ^ c) levels := by
  have hlevel := hx.level_lt
  have hlt := position_lt (2 ^ c) x.level (levels - 1 - x.level) (nodeNumber c d x)
    (Nat.pow_pos (by decide)) hx.nodeNumber_lt
  rwa [show x.level + (levels - 1 - x.level) + 1 = levels by omega] at hlt

theorem authTreeNodeDfsPreIndex_ok (pr : Profile) (h : Shape c d levels) {inv : Nat}
    (hinv : IsInverse c inv) (hx : InTree c d levels x) :
    ∃ entry, authTreeNodeDfsPreIndex pr x.coveredDataBlocksBegin x.level levels c inv d =
      .ok (nodePosition c d levels x, entry) := by
  have hlevel := hx.level_lt
  obtain ⟨entry, hsplit⟩ := splitIndex_ok pr h x.coveredDataBlocksBegin x.level hlevel
  have hnodes := nodes_lt_of_cap h.c_pos h.nodes_cap
  refine ⟨entry, ?_⟩
  rw [authTreeNodeDfsPreIndex, debugAssert_ok pr h.levels_pos, ok_bind, debugAssert_ok pr hlevel,
    ok_bind, hsplit, ok_bind]
  dsimp only
  split
  · rename_i hroot
    rw [nodePosition, show levels - 1 - x.level = 0 by omega]
    rfl
  · have hlt := hx.nodePosition_lt
    have hloop := dfsPreIndexLoop_ok pr h.c_lt (levels - 1 - x.level) x.level (nodeNumber c d x) 0
      (by rwa [show x.level + (levels - 1 - x.level) + 1 = levels by omega])
      (by rw [zero_add]; exact lt_trans hlt hnodes)
    rw [zero_add, nodeNumber, show levels - 1 - x.level = levels - (x.level + 1) by omega] at hloop
    rw [authSubtreeNodeCount_ok pr h.c_pos h.c_lt hinv hlevel h.nodes_cap, ok_bind, hloop, ok_bind,
      nodePosition, nodeNumber, show levels - 1 - x.level = levels - (x.level + 1) by omega]
    rfl

def dfsPreListing (c d levels : Nat) : List AuthTreeNodeId :=
  (listing (2 ^ c) (levels - 1) 0).map (fun x => ⟨x.1 * 2 ^ (x.2 * c + d), x.2, c, d⟩)

theorem InTree.listing_getElem? (hx : InTree c d levels x) :
    (dfsPreListing c d levels)[nodePosition c d levels x]? = some x := by
  have hlevel := hx.level_lt
  have hget := CompleteTree.listing_getElem? (2 ^ c) x.level (levels - 1 - x.level) 0
    (nodeNumber c d x) (Nat.pow_pos (by decide)) hx.nodeNumber_lt
  rw [show x.level + (levels - 1 - x.level) = levels - 1 by omega, zero_mul, zero_add] at hget
  rw [dfsPreListing, List.getElem?_map, nodePosition, hget, Option.map_some, Option.some.injEq]
  obtain ⟨hceq, hdeq⟩ := hx.c_eq, hx.d_eq
  cases x
  subst hceq hdeq
  rw [AuthTreeNodeId.mk.injEq]
  exact ⟨Nat.div_mul_cancel hx.aligned, rfl, rfl, rfl⟩

theorem div_ancestor (x : AuthTreeNodeId) (level : Nat) (hle : x.level ≤ level) :
    x.coveredDataBlocksBegin / 2 ^ (level * c + d) =
      nodeNumber c d x / (2 ^ c) ^ (level - x.level) := by
  rw [nodeNumber, Nat.div_div_eq_div_mul, ← pow_mul, ← pow_add]
  congr 2
  obtain ⟨k, rfl⟩ : ∃ k, level = x.level + k := ⟨level - x.level, by omega⟩
  rw [Nat.add_sub_cancel_left]
  ring

theorem nodePosition_lt_of_div_lt (hy : InTree c d levels y) (level : Nat) (hxl : x.level ≤ level) (hyl : y.level ≤ level)
    (hlevel : level < levels)
    (hlt : x.coveredDataBlocksBegin / 2 ^ (level * c + d) <
      y.coveredDataBlocksBegin / 2 ^ (level * c + d)) :
    nodePosition c d levels x < nodePosition c d levels y := by
  have hf : 0 < 2 ^ c := Nat.pow_pos (by decide)
  rw [div_ancestor x level hxl, div_ancestor y level hyl] at hlt
  have hyq : nodeNumber c d y / (2 ^ c) ^ (level - y.level) < (2 ^ c) ^ (levels - 1 - level) := by
    refine Nat.div_lt_of_lt_mul ?_
    rw [← pow_add]
    exact lt_of_lt_of_eq hy.nodeNumber_lt (congrArg _ (by omega))
  have hsep := position_add_le_of_lt (2 ^ c) level (levels - 1 - level) hf hlt hyq
  have hxa := (position_ancestor (2 ^ c) x.level (levels - 1 - level) (level - x.level)
    (nodeNumber c d x) hf).2
  have hya := (position_ancestor (2 ^ c) y.level (levels - 1 - level) (level - y.level)
    (nodeNumber c d y) hf).1
  rw [show x.level + (level - x.level) = level by omega,
    show levels - 1 - level + (level - x.level) = levels - 1 - x.level by omega] at hxa
  rw [show y.level + (level - y.level) = level by omega,
    show levels - 1 - level + (level - y.level) = levels - 1 - y.level by omega] at hya
  have hpos := nodes_pos (2 ^ c) x.level
  rw [nodePosition, nodePosition]
  omega

theorem nodePosition_lt_of_ancestor (hx : InTree c d levels x) (hlevel : y.level < x.level)
    (heq : x.coveredDataBlocksBegin / 2 ^ (x.level * c + d) =
      y.coveredDataBlocksBegin / 2 ^ (x.level * c + d)) :
    nodePosition c d levels x < nodePosition c d levels y := by
  have hxl := hx.level_lt
  rw [div_ancestor x x.level (le_refl _), div_ancestor y x.level hlevel.le, Nat.sub_self, pow_zero,
    Nat.div_one] at heq
  have hanc := (position_ancestor (2 ^ c) y.level (levels - 1 - x.level) (x.level - y.level)
    (nodeNumber c d y) (Nat.pow_pos (by decide))).1
  rw [← heq, show y.level + (x.level - y.level) = x.level by omega,
    show levels - 1 - x.level + (x.level - y.level) = levels - 1 - y.level by omega] at hanc
  rw [nodePosition, nodePosition]
  omega

theorem InTree.begin_eq (hx : InTree c d levels x) (hy : InTree c d levels y)
    (hlevel : x.level = y.level)
    (heq : x.coveredDataBlocksBegin / 2 ^ (x.level * c + d) =
      y.coveredDataBlocksBegin / 2 ^ (x.level * c + d)) :
    x.coveredDataBlocksBegin = y.coveredDataBlocksBegin := by
  have hya := hy.aligned
  rw [← hlevel] at hya
  rw [← Nat.div_mul_cancel hx.aligned, heq, Nat.div_mul_cancel hya]

/-- The comparison of levels is the right one if one node is an ancestor of the
other. -/
theorem cmpLevels_ok (pr : Profile) (hx : InTree c d levels x) (hy : InTree c d levels y)
    (heq : x.coveredDataBlocksBegin / 2 ^ (max x.level y.level * c + d) =
      y.coveredDataBlocksBegin / 2 ^ (max x.level y.level * c + d)) :
    cmpLevels pr x y = .ok (compare (nodePosition c d levels x) (nodePosition c d levels y)) := by
  rw [cmpLevels]
  rcases lt_trichotomy x.level y.level with h | h | h
  · rw [max_eq_right h.le] at heq
    rw [compare_lt_iff_lt.mpr h, compare_gt_iff_gt.mpr (nodePosition_lt_of_ancestor hy h heq.symm)]
  · rw [h, Nat.max_self] at heq
    have hbegin := hx.begin_eq hy h (by rwa [h])
    rw [compare_eq_iff_eq.mpr h, nodePosition, nodePosition, nodeNumber, nodeNumber, h, hbegin,
      compare_eq_iff_eq.mpr rfl]
    rw [debugAssert_ok pr rfl]
    rfl
  · rw [max_eq_left h.le] at heq
    rw [compare_gt_iff_gt.mpr h, compare_lt_iff_lt.mpr (nodePosition_lt_of_ancestor hx h heq)]

theorem compare_begin (hx : InTree c d levels x) (hy : InTree c d levels y)
    (hne : x.coveredDataBlocksBegin / 2 ^ (max x.level y.level * c + d) ≠
      y.coveredDataBlocksBegin / 2 ^ (max x.level y.level * c + d)) :
    compare x.coveredDataBlocksBegin y.coveredDataBlocksBegin =
      compare (nodePosition c d levels x) (nodePosition c d levels y) := by
  have hlevel : max x.level y.level < levels := Nat.max_lt.mpr ⟨hx.level_lt, hy.level_lt⟩
  have hbegin {a b : Nat} (h : a / 2 ^ (max x.level y.level * c + d) <
      b / 2 ^ (max x.level y.level * c + d)) : a < b := by
    by_contra hle
    exact absurd (Nat.div_le_div_right (Nat.le_of_not_lt hle)) (Nat.not_le_of_lt h)
  rcases Nat.lt_or_gt_of_ne hne with h | h
  · rw [compare_lt_iff_lt.mpr (hbegin h), compare_lt_iff_lt.mpr (nodePosition_lt_of_div_lt hy _
      (le_max_left _ _) (le_max_right _ _) hlevel h)]
  · rw [compare_gt_iff_gt.mpr (hbegin h), compare_gt_iff_gt.mpr (nodePosition_lt_of_div_lt hx _
      (le_max_right _ _) (le_max_left _ _) hlevel h)]

theorem xor_div_eq_zero_iff (a b n : Nat) : (a ^^^ b) / 2 ^ n = 0 ↔ a / 2 ^ n = b / 2 ^ n := by
  rw [← shiftRight_eq_div_pow, ← shiftRight_eq_div_pow, ← shiftRight_eq_div_pow,
    shiftRight_xor_distrib, Nat.xor_eq_zero_iff]

theorem InTree.begin_eq_zero (h : Shape c d levels) (hx : InTree c d levels x)
    (hbits : 64 ≤ x.level * c + d) : x.coveredDataBlocksBegin = 0 ∧ x.level = levels - 1 := by
  have hlevel := hx.level_lt
  have hroot : x.level = levels - 1 := by
    by_contra hne
    exact absurd (h.cover_cap x.level (by omega)) (by omega)
  refine ⟨?_, hroot⟩
  have hcovered := hx.covered
  rw [← hroot] at hcovered
  exact eq_zero_of_dvd_of_lt hx.aligned hcovered

theorem cmp_of_lt (pr : Profile) (hx : InTree c d levels x)
    (hy : InTree c d levels y) (hbits : max x.level y.level * c + d < 64) :
    x.cmp pr y = .ok (compare (nodePosition c d levels x) (nodePosition c d levels y)) := by
  rw [AuthTreeNodeId.cmp, hx.c_eq, hx.d_eq]
  rw [shrU64_ok pr hbits, ok_bind]
  split
  · rename_i heq
    exact cmpLevels_ok pr hx hy ((xor_div_eq_zero_iff _ _ _).mp heq)
  · rename_i hne
    rw [xor_div_eq_zero_iff] at hne
    have hbegin : x.coveredDataBlocksBegin ≠ y.coveredDataBlocksBegin :=
      fun h => hne (by rw [h])
    rw [debugAssert_ok pr hbegin, ok_bind, compare_begin hx hy hne]
    rfl

/-- A shift by too many bits compares the root with another node and panics or
else uses the amount's lower bits, which does not change the outcome. -/
theorem cmp_of_ge (h : Shape c d levels) (hx : InTree c d levels x)
    (hy : InTree c d levels y) (hbits : 64 ≤ max x.level y.level * c + d) :
    x.cmp .debug y = .error (.panic .overflow) ∧
      x.cmp .release y = .ok (compare (nodePosition c d levels x) (nodePosition c d levels y)) := by
  have hnlt : ¬ max x.level y.level * c + d < 64 := by omega
  have hpow : 2 ^ 64 ≤ 2 ^ (max x.level y.level * c + d) := Nat.pow_le_pow_right (by decide) hbits
  have heq : x.coveredDataBlocksBegin / 2 ^ (max x.level y.level * c + d) =
      y.coveredDataBlocksBegin / 2 ^ (max x.level y.level * c + d) := by
    rw [div_eq_of_lt (lt_of_lt_of_le hx.u64 hpow), div_eq_of_lt (lt_of_lt_of_le hy.u64 hpow)]
  constructor
  · rw [AuthTreeNodeId.cmp, hx.c_eq, hx.d_eq]
    rw [shrU64, if_neg hnlt]
    rfl
  · rw [AuthTreeNodeId.cmp, hx.c_eq, hx.d_eq]
    rw [shrU64, if_neg hnlt, wrapping, ok_bind]
    split
    · exact cmpLevels_ok _ hx hy heq
    · rename_i hne
      have hbegin : x.coveredDataBlocksBegin ≠ y.coveredDataBlocksBegin := by
        intro hxy
        rw [hxy, Nat.xor_self, Nat.zero_div] at hne
        exact hne rfl
      rw [debugAssert_ok _ hbegin, ok_bind]
      refine congrArg Except.ok ?_
      rcases le_total x.level y.level with hle | hle
      · rw [max_eq_right hle] at hbits heq
        obtain ⟨hyb, hyl⟩ := hy.begin_eq_zero h hbits
        have hlt : x.level < y.level := by
          refine lt_of_le_of_ne hle fun hxy => hbegin ?_
          rw [(hx.begin_eq_zero h (by rwa [hxy])).1, hyb]
        rw [compare_gt_iff_gt.mpr (nodePosition_lt_of_ancestor hy hlt heq.symm), hyb,
          compare_gt_iff_gt.mpr (by omega)]
      · rw [max_eq_left hle] at hbits heq
        obtain ⟨hxb, hxl⟩ := hx.begin_eq_zero h hbits
        have hlt : y.level < x.level := by
          refine lt_of_le_of_ne hle fun hxy => hbegin ?_
          rw [(hy.begin_eq_zero h (by rwa [hxy])).1, hxb]
        rw [compare_lt_iff_lt.mpr (nodePosition_lt_of_ancestor hx hlt heq), hxb,
          compare_lt_iff_lt.mpr (by omega)]

theorem cmp_eq_compare (h : Shape c d levels) (hx : InTree c d levels x)
    (hy : InTree c d levels y) :
    x.cmp .release y = .ok (compare (nodePosition c d levels x) (nodePosition c d levels y)) ∧
      ∀ o, x.cmp .debug y = .ok o →
        o = compare (nodePosition c d levels x) (nodePosition c d levels y) := by
  by_cases hbits : max x.level y.level * c + d < 64
  · refine ⟨cmp_of_lt .release hx hy hbits, fun o ho => ?_⟩
    rw [cmp_of_lt .debug hx hy hbits] at ho
    exact (Except.ok.inj ho).symm
  · obtain ⟨hdebug, hrelease⟩ := cmp_of_ge h hx hy (by omega)
    refine ⟨hrelease, fun o ho => ?_⟩
    rw [hdebug] at ho
    cases ho

theorem AuthTreeNodeId.new_aligned (index level c d : Nat) :
    2 ^ (level * c + d) ∣ (AuthTreeNodeId.new index level c d).coveredDataBlocksBegin := by
  rw [AuthTreeNodeId.new, levelCoveredDataBlockIndexBits]
  split
  · exact dvd_sub_mod index
  · exact dvd_zero _

end CocoonFs.DfsIndex
