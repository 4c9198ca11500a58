import CocoonFs.DfsIndex

namespace CocoonFs.TreeShape

open Checked CompleteTree DfsIndex SubtreeCount Nat

def significantBits (x : Nat) : Nat := if x = 0 then 0 else x.log2 + 1

def roundUpNextPow2 (x : Nat) : Option Nat :=
  let t := wrappingSub x 1
  if t < 2 ^ 63 then some (2 ^ significantBits t)
  else if x &&& t = 0 then some t else none

/-- The limits on the height: the number of nodes fits into a word, and so does
the number of blocks covered by a proper subtree. -/
def maxAuthTreeLevels (c d a : Nat) : Nat := divCeil (min 64 (64 - d - a + c)) c

def authTreeNodeCountToAuthTreeLevels (pr : Profile) (authTreeNodeCount c d a : Nat) : Comp Nat :=
  if authTreeNodeCount = 0 then formatErr .invalidAuthTreeDimensions
  else do
    debugAssert pr (0 < c ∧ c ≤ 64)
    let t := if c ≠ 64 then authTreeNodeCount - (authTreeNodeCount - 1) / 2 ^ c
      else authTreeNodeCount
    debugAssert pr (t ≠ 0)
    match roundUpNextPow2 t with
    | none => pure (maxAuthTreeLevels c d a)
    | some t => pure (min (divCeil t.log2 c + 1) (maxAuthTreeLevels c d a))

/-- The blocks covered by the complete subtrees at the current node's entries,
or nothing if their number does not fit into a word. -/
def coveredByEntries (pr : Profile) (authTreeLevels c d level fullEntriesInNode : Nat) :
    Comp (Option Nat) := do
  let bits := (level - 1) * c + d
  debugAssert pr (bits < 64)
  if level = authTreeLevels - 1 then do
    let limit ← shlU64 pr 1 (64 - bits)
    if limit ≤ fullEntriesInNode then pure none
    else do
      let covered ← shlU64 pr fullEntriesInNode bits
      pure (some covered)
  else do
    let limit ← shlU64 pr 1 c
    debugAssert pr (fullEntriesInNode < limit)
    let covered ← shlU64 pr fullEntriesInNode bits
    pure (some covered)

def coveredWalk (pr : Profile) (authTreeLevels c d : Nat) : Nat → Nat → Nat → Nat → Comp Nat
  | level + 2, authTreeNodeCount, entrySubtreeNodeCount, covered =>
    if authTreeNodeCount = 0 then .ok covered
    -- No complete path down to a leaf, the current node is padding.
    else if authTreeNodeCount < level + 2 then .ok covered
    else do
      let remaining := authTreeNodeCount - 1
      let difference ← subU64 pr entrySubtreeNodeCount 1
      let entrySubtreeNodeCount ← shrU64 pr difference c
      let fullEntriesInNode ← divU64 remaining entrySubtreeNodeCount
      let digests ← shlU64 pr 1 c
      debugAssert pr (fullEntriesInNode ≤ digests)
      let fullNodes ← mulU64 pr fullEntriesInNode entrySubtreeNodeCount
      let remaining ← subU64 pr remaining fullNodes
      match ← coveredByEntries pr authTreeLevels c d (level + 1) fullEntriesInNode with
      | none => pure (2 ^ 64 - 1)
      | some blocks =>
        if covered + blocks < 2 ^ 64 then
          coveredWalk pr authTreeLevels c d (level + 1) remaining entrySubtreeNodeCount
            (covered + blocks)
        else err .internal
  | 1, authTreeNodeCount, _, covered | 0, authTreeNodeCount, _, covered => do
    debugAssert pr (authTreeNodeCount = 0)
    pure covered

def authTreeNodeCountToMaxCoveredDataBlockCount (pr : Profile)
    (authTreeNodeCount authTreeLevels c inv d a : Nat) : Comp Nat :=
  if authTreeNodeCount = 0 then formatErr .invalidAuthTreeDimensions
  else do
    debugAssert pr (0 < c ∧ c < 64)
    debugAssert pr (0 < d ∧ d < 64)
    debugAssert pr (authTreeNodeCountToAuthTreeLevels pr authTreeNodeCount c d a = .ok authTreeLevels)
    if authTreeLevels = 1 then do
      debugAssert pr (authTreeNodeCount = 1)
      shlU64 pr 1 d
    else do
      let count ← authSubtreeNodeCount pr (authTreeLevels - 1) authTreeLevels c inv
      coveredWalk pr authTreeLevels c d authTreeLevels authTreeNodeCount count 0

theorem significantBits_le_iff (x n : Nat) : significantBits x ≤ n ↔ x < 2 ^ n := by
  rw [significantBits]
  split
  · rename_i h
    simp [h]
  · rename_i h
    rw [succ_le_iff, Nat.log2_lt h]

theorem roundUpNextPow2_eq {x : Nat} (hx : 0 < x) (hlt : x < 2 ^ 64) :
    roundUpNextPow2 x = if x ≤ 2 ^ 63 then some (2 ^ significantBits (x - 1)) else none := by
  have ht : wrappingSub x 1 = x - 1 := by
    rw [wrappingSub, show x + (2 ^ 64 - 1) = x - 1 + 2 ^ 64 by omega, add_mod_right,
      mod_eq_of_lt (by omega)]
  rw [roundUpNextPow2, ht]
  by_cases h : x ≤ 2 ^ 63
  · rw [if_pos (by omega), if_pos h]
  · rw [if_neg (by omega), if_neg h, if_neg]
    -- Both numbers have the topmost bit set.
    intro hand
    have hbit (y : Nat) (hy : 2 ^ 63 ≤ y) (hy' : y < 2 ^ 64) : y.testBit 63 = true := by
      rw [testBit_eq_decide_div_mod_eq]
      simp only [decide_eq_true_eq]
      omega
    have := congrArg (fun y => y.testBit 63) hand
    simp only [testBit_and, hbit x (by omega) hlt, hbit (x - 1) (by omega) (by omega),
      zero_testBit] at this
    exact absurd this (by decide)

theorem sub_div_le_pow_iff {f : Nat} (hf : 2 ≤ f) (n l : Nat) (hn : 0 < n) :
    n - (n - 1) / f ≤ f ^ l ↔ n ≤ nodes f (l + 1) := by
  have hsum := pred_mul_nodes f (by omega) l
  obtain ⟨m, rfl⟩ : ∃ m, n = m + 1 := ⟨n - 1, by omega⟩
  obtain ⟨g, rfl⟩ : ∃ g, f = g + 2 := ⟨f - 2, by omega⟩
  have hdiv := div_add_mod m (g + 2)
  have hmod := mod_lt m (show 0 < g + 2 by omega)
  rw [Nat.add_sub_cancel, nodes, ← hsum]
  generalize nodes (g + 2) l = k
  generalize hq : m / (g + 2) = q at hdiv
  generalize m % (g + 2) = r at hdiv hmod
  have hsplit (j : Nat) : (g + 2) * j = (g + 2 - 1) * j + j := by
    rw [show g + 2 = g + 1 + 1 from rfl, Nat.add_sub_cancel]
    ring
  rw [hsplit q] at hdiv
  rw [hsplit k]
  constructor
  · intro h
    rcases lt_or_ge k q with hlt | hge
    · have := Nat.mul_le_mul_left (g + 2 - 1) (succ_le_of_lt hlt)
      rw [mul_succ] at this
      omega
    · have := Nat.mul_le_mul_left (g + 2 - 1) hge
      omega
  · intro h
    rcases lt_or_ge q k with hlt | hge
    · have := Nat.mul_le_mul_left (g + 2 - 1) (succ_le_of_lt hlt)
      rw [mul_succ] at this
      omega
    · omega

variable {c d a : Nat}

theorem maxAuthTreeLevels_spec (hc : 0 < c) :
    0 < maxAuthTreeLevels c d a ∧ c * (maxAuthTreeLevels c d a - 1) < min 64 (64 - d - a + c) ∧
      min 64 (64 - d - a + c) ≤ c * maxAuthTreeLevels c d a := by
  have hle : min 64 (64 - d - a + c) ≤ c * maxAuthTreeLevels c d a :=
    (divCeil_le_iff hc).mp (le_refl _)
  have hpos : 0 < maxAuthTreeLevels c d a := by
    by_contra h
    rw [Nat.eq_zero_of_not_pos h, mul_zero] at hle
    omega
  refine ⟨hpos, ?_, hle⟩
  by_contra h
  have hlt : maxAuthTreeLevels c d a ≤ maxAuthTreeLevels c d a - 1 :=
    (divCeil_le_iff hc).mpr (Nat.le_of_not_lt h)
  omega

variable {levels n : Nat}

theorem shape_of_le_max (hc : 0 < c) (hc64 : c < 64) (hd : d < 64)
    (hpos : 0 < levels) (hle : levels ≤ maxAuthTreeLevels c d a) : Shape c d levels := by
  obtain ⟨-, hlt, -⟩ := maxAuthTreeLevels_spec (d := d) (a := a) hc
  have hmono : c * (levels - 1) ≤ c * (maxAuthTreeLevels c d a - 1) :=
    Nat.mul_le_mul_left c (by omega)
  refine ⟨hc, hc64, hd, hpos, by omega, ?_⟩
  intro level hlevel
  have hstep : c * (level + 1) ≤ c * (levels - 1) := Nat.mul_le_mul_left c (by omega)
  rw [mul_succ, mul_comm] at hstep
  omega

theorem authTreeNodeCountToAuthTreeLevels_ok (pr : Profile) (hc : 0 < c) (hc64 : c < 64)
    (hn : 0 < n) (hlt : n < 2 ^ 64) :
    ∃ levels, authTreeNodeCountToAuthTreeLevels pr n c d a = .ok levels ∧ 0 < levels ∧
      levels ≤ maxAuthTreeLevels c d a ∧ (∀ l < levels, nodes (2 ^ c) l < n) ∧
      (n ≤ nodes (2 ^ c) levels ∨ levels = maxAuthTreeLevels c d a) := by
  have hf : 2 ≤ 2 ^ c := Nat.pow_le_pow_right (n := 2) (by decide) hc
  obtain ⟨hmaxpos, hmaxlt, -⟩ := maxAuthTreeLevels_spec (d := d) (a := a) hc
  have hpos : 0 < n - (n - 1) / 2 ^ c :=
    Nat.sub_pos_of_lt (lt_of_le_of_lt (Nat.div_le_self _ _) (by omega))
  have hword : n - (n - 1) / 2 ^ c < 2 ^ 64 := lt_of_le_of_lt (sub_le _ _) hlt
  have hiff (l : Nat) := sub_div_le_pow_iff hf n l hn
  generalize ht : n - (n - 1) / 2 ^ c = t at hpos hword hiff
  have hfn : authTreeNodeCountToAuthTreeLevels pr n c d a = match roundUpNextPow2 t with
      | none => .ok (maxAuthTreeLevels c d a)
      | some t => .ok (min (divCeil t.log2 c + 1) (maxAuthTreeLevels c d a)) := by
    rw [authTreeNodeCountToAuthTreeLevels, if_neg hn.ne', debugAssert_ok pr ⟨hc, hc64.le⟩, ok_bind,
      if_pos hc64.ne, ht]
    dsimp only
    rw [debugAssert_ok pr hpos.ne', ok_bind]
    cases roundUpNextPow2 t <;> rfl
  have hbelow (m : Nat) (hm : ∀ l, l + 1 < m → ¬ t ≤ (2 ^ c) ^ l) (l : Nat) (hl : l < m) :
      nodes (2 ^ c) l < n := by
    cases l with
    | zero => exact hn
    | succ l => exact Nat.lt_of_not_le fun h => hm l hl ((hiff l).mpr h)
  rw [hfn, roundUpNextPow2_eq hpos hword]
  by_cases htop : t ≤ 2 ^ 63
  · rw [if_pos htop]
    dsimp only
    rw [log2_two_pow]
    have hlevel (l : Nat) : divCeil (significantBits (t - 1)) c ≤ l ↔ t ≤ (2 ^ c) ^ l := by
      rw [divCeil_le_iff hc, significantBits_le_iff, ← pow_mul]
      omega
    refine ⟨_, rfl, by omega, min_le_right _ _, hbelow _ ?_, ?_⟩
    · intro l hl
      rw [← hlevel]
      omega
    · rcases le_total (divCeil (significantBits (t - 1)) c + 1) (maxAuthTreeLevels c d a) with h | h
      · left
        rw [min_eq_left h, ← hiff, ← hlevel]
      · right
        exact min_eq_right h
  · rw [if_neg htop]
    refine ⟨_, rfl, hmaxpos, le_refl _, hbelow _ ?_, Or.inr rfl⟩
    intro l hl hle
    have hmono : c * l ≤ c * (maxAuthTreeLevels c d a - 1) := Nat.mul_le_mul_left c (by omega)
    have hpow : 2 ^ (c * l) ≤ 2 ^ 63 := Nat.pow_le_pow_right (by decide) (by omega)
    rw [← pow_mul] at hle
    omega

theorem sub_one_div_nodes (f l : Nat) (hf : 0 < f) : (nodes f (l + 1) - 1) / f = nodes f l := by
  rw [nodes, Nat.add_sub_cancel, Nat.mul_div_cancel_left _ hf]

section

variable (pr : Profile)
include pr

theorem shl_one (hn : n < 64) : shlU64 pr 1 n = .ok (2 ^ n) := by
  rw [shlU64_ok pr hn (by rw [one_mul]; exact Nat.pow_lt_pow_right (by decide) hn), one_mul]

/-- The walk, once the node's own entries have been counted. -/
def coveredBehind (pr : Profile) (levels c d l m covered : Nat) : Comp Nat := do
  match ← coveredByEntries pr levels c d (l + 1) (m / nodes (2 ^ c) (l + 1)) with
  | none => pure (2 ^ 64 - 1)
  | some blocks =>
    if covered + blocks < 2 ^ 64 then
      coveredWalk pr levels c d (l + 1) (m % nodes (2 ^ c) (l + 1)) (nodes (2 ^ c) (l + 1))
        (covered + blocks)
    else err .internal

theorem coveredWalk_step_of_full (levels : Nat) (hc64 : c < 64) (l m covered : Nat)
    (hm : m < 2 ^ 64) (hfull : m / nodes (2 ^ c) (l + 1) ≤ 2 ^ c) (hpath : l + 1 ≤ m) :
    coveredWalk pr levels c d (l + 2) (m + 1) (nodes (2 ^ c) (l + 1 + 1)) covered =
      coveredBehind pr levels c d l m covered := by
  have hf : 0 < 2 ^ c := Nat.pow_pos (by decide)
  have hpos := nodes_pos (2 ^ c) l
  have hmul : m / nodes (2 ^ c) (l + 1) * nodes (2 ^ c) (l + 1) ≤ m := div_mul_le_self _ _
  have hrest : m - m / nodes (2 ^ c) (l + 1) * nodes (2 ^ c) (l + 1) = m % nodes (2 ^ c) (l + 1) := by
    rw [mul_comm, mod_eq_sub_mul_div]
  rw [coveredBehind, coveredWalk, if_neg (by omega), if_neg (by omega), Nat.add_sub_cancel,
    subU64_ok pr (nodes_pos _ _), ok_bind, shrU64_ok pr hc64, ok_bind, sub_one_div_nodes _ _ hf,
    divU64_ok hpos.ne', ok_bind, shl_one pr hc64, ok_bind, debugAssert_ok pr hfull, ok_bind,
    mulU64_ok pr (by omega), ok_bind, subU64_ok pr hmul, ok_bind, hrest]

theorem coveredWalk_step (levels : Nat) (hc64 : c < 64) (l m covered : Nat)
    (hword : nodes (2 ^ c) (l + 1 + 1) < 2 ^ 64) (hm : m < nodes (2 ^ c) (l + 1 + 1)) (hpath : l + 1 ≤ m) :
    coveredWalk pr levels c d (l + 2) (m + 1) (nodes (2 ^ c) (l + 1 + 1)) covered =
      coveredBehind pr levels c d l m covered := by
  have hsucc : nodes (2 ^ c) (l + 1 + 1) = 2 ^ c * nodes (2 ^ c) (l + 1) + 1 := rfl
  exact coveredWalk_step_of_full pr levels hc64 l m covered (lt_trans hm hword)
    (Nat.div_le_of_le_mul (by rw [mul_comm]; omega)) hpath

theorem coveredByEntries_inner (hc64 : c < 64) (level full : Nat)
    (hbits : level * c + d < 64) (hlevel : level + 1 ≠ levels - 1) (hfull : full < 2 ^ c)
    (hlt : full * 2 ^ (level * c + d) < 2 ^ 64) :
    coveredByEntries pr levels c d (level + 1) full = .ok (some (full * 2 ^ (level * c + d))) := by
  rw [coveredByEntries, Nat.add_sub_cancel, debugAssert_ok pr hbits, ok_bind, if_neg hlevel, shl_one pr hc64, ok_bind,
    debugAssert_ok pr hfull, ok_bind, shlU64_ok pr hbits hlt]
  rfl

theorem coveredWalk_inner (h : Shape c d levels) (l n covered : Nat)
    (hl : l + 1 < levels) (hn : n < nodes (2 ^ c) (l + 1))
    (hcovered : covered + 2 ^ (l * c + d) ≤ 2 ^ 64) :
    coveredWalk pr levels c d (l + 1) n (nodes (2 ^ c) (l + 1)) covered =
      .ok (covered + 2 ^ d * leaves (2 ^ c) l n) := by
  have hf : 0 < 2 ^ c := Nat.pow_pos (by decide)
  induction l generalizing n covered with
  | zero =>
    obtain rfl : n = 0 := by
      rw [nodes, nodes] at hn
      omega
    rw [coveredWalk, debugAssert_ok pr rfl]
    rfl
  | succ l ih =>
    by_cases hpath : n < l + 2
    · have hzero : leaves (2 ^ c) (l + 1) n = 0 := leaves_eq_zero _ hf _ _ (by omega)
      rw [hzero, coveredWalk, if_pos hpath, ite_self]
      rfl
    · obtain ⟨m, rfl⟩ : ∃ m, n = m + 1 := ⟨n - 1, by omega⟩
      have hbits : l * c + d < 64 := h.cover_cap l (by omega)
      have hword : nodes (2 ^ c) (l + 1 + 1) < 2 ^ 64 :=
        lt_of_le_of_lt (nodes_mono _ hf hl.le) (nodes_lt_of_cap h.c_pos h.nodes_cap)
      have hfull : m / nodes (2 ^ c) (l + 1) < 2 ^ c := by
        refine Nat.div_lt_of_lt_mul ?_
        rw [nodes] at hn
        rw [mul_comm]
        omega
      have hstep : (m / nodes (2 ^ c) (l + 1) + 1) * 2 ^ (l * c + d) ≤ 2 ^ ((l + 1) * c + d) := by
        have hpow : 2 ^ ((l + 1) * c + d) = 2 ^ c * 2 ^ (l * c + d) := by
          rw [← pow_add]
          congr 1
          ring
        rw [hpow]
        exact Nat.mul_le_mul_right _ hfull
      rw [succ_mul] at hstep
      have hpow := Nat.pow_pos (n := l * c + d) (show 0 < 2 by decide)
      rw [coveredWalk_step pr levels h.c_lt l m covered hword (by omega) (by omega),
        coveredBehind, coveredByEntries_inner pr h.c_lt l _ hbits (by omega) hfull (by omega), ok_bind]
      dsimp only
      rw [if_pos (by omega), ih _ _ (by omega) (mod_lt m (nodes_pos _ _)) (by omega), leaves,
        mul_add, show 2 ^ d * (m / nodes (2 ^ c) (l + 1) * (2 ^ c) ^ l) =
          m / nodes (2 ^ c) (l + 1) * 2 ^ (l * c + d) by
            rw [← pow_mul, mul_comm l c, pow_add]; ring, add_assoc]

theorem coveredByEntries_root (l full : Nat)
    (hlevels : levels = l + 2) (hd : 0 < d) (hbits : l * c + d < 64) :
    coveredByEntries pr levels c d (l + 1) full =
      .ok (if full * 2 ^ (l * c + d) < 2 ^ 64 then some (full * 2 ^ (l * c + d)) else none) := by
  have hpow : 2 ^ (64 - (l * c + d)) * 2 ^ (l * c + d) = 2 ^ 64 := by
    rw [← pow_add]
    congr 1
    omega
  have hiff : full * 2 ^ (l * c + d) < 2 ^ 64 ↔ ¬ 2 ^ (64 - (l * c + d)) ≤ full := by
    rw [← hpow, Nat.mul_lt_mul_right (Nat.pow_pos (by decide)), not_le]
  rw [coveredByEntries, Nat.add_sub_cancel, debugAssert_ok pr hbits, ok_bind, if_pos (by omega),
    shl_one pr (by omega), ok_bind]
  by_cases hlt : full * 2 ^ (l * c + d) < 2 ^ 64
  · rw [if_neg (hiff.mp hlt), if_pos hlt, shlU64_ok pr hbits hlt]
    rfl
  · rw [if_neg hlt, if_pos (by rwa [hiff, not_not] at hlt)]
    rfl

end

/-- The walk counts the leaves among the nodes of a partial tree, up to what
fits into a word. -/
theorem coveredWalk_root (pr : Profile) (h : Shape c d levels) (hd : 0 < d)
    (hlevels : 2 ≤ levels) (hn : n ≤ nodes (2 ^ c) levels) :
    coveredWalk pr levels c d levels n (nodes (2 ^ c) levels) 0 =
      .ok (min (2 ^ 64 - 1) (2 ^ d * leaves (2 ^ c) (levels - 1) n)) := by
  have hf : 0 < 2 ^ c := Nat.pow_pos (by decide)
  obtain ⟨l, rfl⟩ : ∃ l, levels = l + 1 + 1 := ⟨levels - 2, by omega⟩
  rw [Nat.add_sub_cancel]
  by_cases hpath : n < l + 2
  · rw [leaves_eq_zero _ hf _ _ (by omega), coveredWalk, if_pos hpath, ite_self, mul_zero,
      Nat.min_zero]
  · obtain ⟨m, rfl⟩ : ∃ m, n = m + 1 := ⟨n - 1, by omega⟩
    have hbits : l * c + d < 64 := h.cover_cap l (by omega)
    have hmod := mod_lt m (nodes_pos (2 ^ c) l)
    have hleaves : 2 ^ d * leaves (2 ^ c) (l + 1) (m + 1) =
        m / nodes (2 ^ c) (l + 1) * 2 ^ (l * c + d) +
          2 ^ d * leaves (2 ^ c) l (m % nodes (2 ^ c) (l + 1)) := by
      rw [leaves, mul_add, ← pow_mul, mul_comm c l, pow_add]
      ring
    rw [coveredWalk_step pr _ h.c_lt l m 0 (nodes_lt_of_cap h.c_pos h.nodes_cap) (by omega)
      (by omega), coveredBehind, coveredByEntries_root pr l _ rfl hd hbits, ok_bind, hleaves]
    by_cases hlt : m / nodes (2 ^ c) (l + 1) * 2 ^ (l * c + d) < 2 ^ 64
    · have hnext : (m / nodes (2 ^ c) (l + 1) + 1) * 2 ^ (l * c + d) ≤ 2 ^ 64 := by
        have hsplit : 2 ^ 64 = 2 ^ (64 - (l * c + d)) * 2 ^ (l * c + d) := by
          rw [← pow_add]
          congr 1
          omega
        rw [hsplit] at hlt ⊢
        exact Nat.mul_le_mul_right _ (Nat.lt_of_mul_lt_mul_right hlt)
      rw [succ_mul] at hnext
      have hrest : 2 ^ d * leaves (2 ^ c) l (m % nodes (2 ^ c) (l + 1)) < 2 ^ (l * c + d) := by
        rw [pow_add, mul_comm, mul_comm l c, pow_mul]
        exact Nat.mul_lt_mul_of_pos_right (leaves_lt _ hf _ _ hmod) (Nat.pow_pos (by decide))
      rw [if_pos hlt]
      dsimp only
      rw [if_pos (by omega), coveredWalk_inner pr h l _ _ (by omega) hmod (by omega),
        min_eq_right (by omega), zero_add]
    · rw [if_neg hlt, min_eq_left (by omega)]
      rfl

theorem authTreeNodeCountToMaxCoveredDataBlockCount_ok (pr : Profile) {inv : Nat}
    (h : Shape c d levels) (hd : 0 < d) (hinv : IsInverse c inv) (hn : 0 < n)
    (hle : n ≤ nodes (2 ^ c) levels)
    (hlevels : authTreeNodeCountToAuthTreeLevels pr n c d a = .ok levels) :
    authTreeNodeCountToMaxCoveredDataBlockCount pr n levels c inv d a =
      .ok (min (2 ^ 64 - 1) (2 ^ d * leaves (2 ^ c) (levels - 1) n)) := by
  have hpos := h.levels_pos
  rw [authTreeNodeCountToMaxCoveredDataBlockCount, if_neg hn.ne', debugAssert_ok pr ⟨h.c_pos, h.c_lt⟩,
    ok_bind, debugAssert_ok pr ⟨hd, h.d_lt⟩, ok_bind, debugAssert_ok pr hlevels, ok_bind]
  split
  · rename_i hone
    subst hone
    obtain rfl : n = 1 := by
      rw [nodes, nodes] at hle
      omega
    have hlt : 2 ^ d < 2 ^ 64 := Nat.pow_lt_pow_right (by decide) h.d_lt
    rw [debugAssert_ok pr rfl, ok_bind, shl_one pr h.d_lt, leaves, Nat.min_self, mul_one,
      min_eq_right (by omega)]
  · rw [authSubtreeNodeCount_ok pr h.c_pos h.c_lt hinv (by omega) h.nodes_cap, ok_bind,
      Nat.sub_add_cancel hpos, coveredWalk_root pr h hd (by omega) hle]

end CocoonFs.TreeShape
