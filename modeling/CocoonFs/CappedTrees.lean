import CocoonFs.TreeConfig

namespace CocoonFs.CappedTrees

open Checked CompleteTree DfsIndex Layout SubtreeCount TreeConfig TreeShape List Nat

/-- The leaf entries in the depth-first truncation of a complete tree to some
number of nodes. -/
def truncatedLeafEntries (c d levels n : Nat) : Nat :=
  2 ^ d * ((listing (2 ^ c) (levels - 1) 0).take n).countP (fun x => x.2 = 0)

/-- The tree's dimensions, as inferred from the number of its nodes. -/
structure DimensionsCorrect (n c inv d a levels : Nat) : Prop where
  height : ∀ pr, authTreeNodeCountToAuthTreeLevels pr n c d a = .ok levels
  least : ∀ l < levels, nodes (2 ^ c) l < n
  enough : n ≤ nodes (2 ^ c) levels ∨ levels = maxAuthTreeLevels c d a
  covered : ∀ pr, authTreeNodeCountToMaxCoveredDataBlockCount pr n levels c inv d a =
    .ok (min (2 ^ 64 - 1) (truncatedLeafEntries c d levels n))

/-- The excess nodes do not make up for another subtree below the root, nor, if
the range covered fits into a word, for a path down to another leaf. -/
def ExcessIsPadding (c d levels n : Nat) : Prop :=
  n ≤ nodes (2 ^ c) levels ∨ 2 ≤ levels ∧
    if 64 ≤ (levels - 1) * c + d then n ≤ (2 ^ c + 1) * nodes (2 ^ c) (levels - 1)
    else n ≤ nodes (2 ^ c) levels + (levels - 2)

theorem countP_take_flatMap {α : Type} (p : α → Bool) (g : Nat → List α) (m : Nat) (v : Nat → Nat)
    (hm : 0 < m) (hlen : ∀ i, (g i).length = m)
    (hv : ∀ i n, n ≤ m → ((g i).take n).countP p = v n) (s t n : Nat) (hn : n ≤ t * m) :
    (((List.range' s t).flatMap g).take n).countP p = n / m * v m + v (n % m) := by
  induction t generalizing s n with
  | zero =>
    obtain rfl : n = 0 := by omega
    rw [Nat.zero_div, zero_mul, zero_mod, ← hv 0 0 (zero_le _)]
    simp
  | succ t ih =>
    rw [range'_succ, flatMap_cons, List.take_append, countP_append, hlen]
    rcases lt_or_ge n m with hlt | hge
    · rw [Nat.sub_eq_zero_of_le hlt.le, take_zero, countP_nil, hv s n hlt.le,
        div_eq_of_lt hlt, mod_eq_of_lt hlt]
      omega
    · obtain ⟨r, rfl⟩ : ∃ r, n = r + m := ⟨n - m, by omega⟩
      rw [succ_mul] at hn
      have hfull : (g s).take (r + m) = (g s).take m := by
        rw [← hlen s, take_length, take_of_length_le (by omega)]
      rw [hfull, hv s m (le_refl _), Nat.add_sub_cancel, ih (s + 1) r (by omega),
        add_div_right r hm, add_mod_right, succ_mul]
      omega

theorem countP_take_listing (f l q n : Nat) (hn : n ≤ nodes f (l + 1)) :
    ((listing f l q).take n).countP (fun x => x.2 = 0) = leaves f l n := by
  induction l generalizing q n with
  | zero =>
    rw [nodes, nodes, mul_zero] at hn
    rw [listing, leaves, min_eq_left hn]
    rcases le_one_iff_eq_zero_or_eq_one.mp hn with rfl | rfl <;> rfl
  | succ l ih =>
    cases n with
    | zero => rfl
    | succ n =>
      rw [nodes, Nat.add_le_add_iff_right] at hn
      have hcount := countP_take_flatMap (fun x : Nat × Nat => decide (x.2 = 0))
        (fun i => listing f l (q * f + i)) (nodes f (l + 1)) (leaves f l) (nodes_pos f l)
        (fun i => length_listing f l _) (fun i n hn => ih _ n hn) 0 f n hn
      rw [leaves_nodes, ← range_eq_range'] at hcount
      rw [listing, take_succ_cons, countP_cons_of_neg (by simp), hcount, leaves]

theorem truncatedLeafEntries_of_le {c d levels n : Nat} (hpos : 0 < levels)
    (hn : n ≤ nodes (2 ^ c) levels) :
    truncatedLeafEntries c d levels n = 2 ^ d * leaves (2 ^ c) (levels - 1) n := by
  rw [truncatedLeafEntries, countP_take_listing _ _ _ _ (by rwa [Nat.sub_add_cancel hpos])]

theorem truncatedLeafEntries_of_ge {c d levels n : Nat} (hpos : 0 < levels)
    (hn : nodes (2 ^ c) levels ≤ n) :
    truncatedLeafEntries c d levels n = 2 ^ ((levels - 1) * c + d) := by
  have hlen : (listing (2 ^ c) (levels - 1) 0).length = nodes (2 ^ c) levels := by
    rw [length_listing, Nat.sub_add_cancel hpos]
  have hall := truncatedLeafEntries_of_le (d := d) hpos (le_refl (nodes (2 ^ c) levels))
  have hleaves := leaves_nodes (2 ^ c) (levels - 1)
  rw [Nat.sub_add_cancel hpos] at hleaves
  rw [truncatedLeafEntries, take_of_length_le (le_of_eq hlen), hleaves, ← pow_mul, ← pow_add,
    mul_comm c, add_comm d] at hall
  rw [truncatedLeafEntries, take_of_length_le (by omega), hall]

theorem leaves_pos_iff (f l n : Nat) (hf : 0 < f) (hn : n ≤ nodes f (l + 1)) :
    0 < leaves f l n ↔ l < n := by
  have hpos (l' : Nat) : position f l' l 0 = l := by
    clear hn
    induction l generalizing l' with
    | zero => rfl
    | succ l ih => rw [position, Nat.zero_div, ih, zero_mod, mul_zero, add_zero]
  rw [← position_lt_iff f l n 0 hn (Nat.pow_pos hf), hpos]

variable {c d a n levels inv : Nat}

theorem coveredCount_of_excess (pr : Profile) (h : Shape c d levels) (hd : 0 < d)
    (hinv : IsInverse c inv) (hn : 0 < n)
    (hlevels : authTreeNodeCountToAuthTreeLevels pr n c d a = .ok levels) (htwo : 2 ≤ levels) :
    authTreeNodeCountToMaxCoveredDataBlockCount pr n levels c inv d a =
      coveredWalk pr levels c d levels n (nodes (2 ^ c) levels) 0 := by
  rw [authTreeNodeCountToMaxCoveredDataBlockCount, if_neg hn.ne', debugAssert_ok pr ⟨h.c_pos, h.c_lt⟩,
    ok_bind, debugAssert_ok pr ⟨hd, h.d_lt⟩, ok_bind, debugAssert_ok pr hlevels, ok_bind,
    if_neg (by omega), authSubtreeNodeCount_ok pr h.c_pos h.c_lt hinv (by omega) h.nodes_cap, ok_bind,
    Nat.sub_add_cancel h.levels_pos]

theorem coveredWalk_of_too_many (h : Shape c d levels) (l m : Nat) (hlevels : levels = l + 2)
    (hfull : 2 ^ c < m / nodes (2 ^ c) (l + 1)) :
    coveredWalk .debug levels c d levels (m + 1) (nodes (2 ^ c) levels) 0 = panic .debugAssert := by
  have hf : 0 < 2 ^ c := Nat.pow_pos (by decide)
  have hpath := lt_nodes (2 ^ c) hf l
  have hm : nodes (2 ^ c) (l + 1) ≤ m := by
    by_contra hlt
    rw [div_eq_of_lt (Nat.lt_of_not_le hlt)] at hfull
    exact absurd hfull (Nat.not_lt_zero _)
  rw [hlevels, coveredWalk, if_neg (by omega), if_neg (by omega), Nat.add_sub_cancel,
    subU64_ok _ (nodes_pos _ _), ok_bind, shrU64_ok _ h.c_lt, ok_bind, sub_one_div_nodes _ _ hf,
    divU64_ok (nodes_pos _ _).ne', ok_bind, shl_one _ h.c_lt, ok_bind, debugAssert,
    if_neg (Nat.not_le_of_lt hfull)]
  rfl

/-- With all the root's entries complete, what is left is counted as if it were
below another entry. -/
theorem coveredWalk_of_excess (pr : Profile) (h : Shape c d levels) (hd : 0 < d) (l m : Nat)
    (hlevels : levels = l + 2) (hm : m < 2 ^ 64) (hfull : m / nodes (2 ^ c) (l + 1) = 2 ^ c) :
    coveredWalk pr levels c d levels (m + 1) (nodes (2 ^ c) levels) 0 =
      .ok (if 64 ≤ (l + 1) * c + d then 2 ^ 64 - 1
        else 2 ^ ((l + 1) * c + d) + 2 ^ d * leaves (2 ^ c) l (m % nodes (2 ^ c) (l + 1))) := by
  have hf : 0 < 2 ^ c := Nat.pow_pos (by decide)
  have hpath := lt_nodes (2 ^ c) hf l
  have hbits : l * c + d < 64 := h.cover_cap l (by omega)
  have hge : nodes (2 ^ c) (l + 1) ≤ m := by
    by_contra hlt
    rw [div_eq_of_lt (Nat.lt_of_not_le hlt)] at hfull
    exact absurd hfull hf.ne
  have hpow : 2 ^ c * 2 ^ (l * c + d) = 2 ^ ((l + 1) * c + d) := by
    rw [← pow_add]
    congr 1
    ring
  subst hlevels
  rw [coveredWalk_step_of_full pr _ h.c_lt l m 0 hm hfull.le (by omega),
    coveredBehind, coveredByEntries_root pr l _ rfl hd hbits, hfull, hpow, ok_bind]
  by_cases hword : 64 ≤ (l + 1) * c + d
  · have hle : 2 ^ 64 ≤ 2 ^ ((l + 1) * c + d) := Nat.pow_le_pow_right (by decide) hword
    rw [if_neg (Nat.not_lt_of_le hle), if_pos hword]
    rfl
  · have hlt : 2 ^ ((l + 1) * c + d) ≤ 2 ^ 63 := Nat.pow_le_pow_right (by decide) (by omega)
    have hbelow : 2 ^ (l * c + d) ≤ 2 ^ 63 := Nat.pow_le_pow_right (by decide) (by omega)
    rw [if_pos (by omega), if_neg hword]
    dsimp only
    rw [if_pos (by omega), coveredWalk_inner pr h l _ _ (by omega) (mod_lt _ (nodes_pos _ _))
      (by omega), zero_add]

/-- All the entries at the root being complete, the number of blocks covered is
right if nothing more is counted. -/
theorem coveredWalk_of_excess_eq_iff (pr : Profile) (h : Shape c d levels) (hd : 0 < d) (l m : Nat)
    (hlevels : levels = l + 2) (hm : m < 2 ^ 64) (hn : nodes (2 ^ c) levels ≤ m)
    (hfull : m / nodes (2 ^ c) (l + 1) = 2 ^ c) :
    coveredWalk pr levels c d levels (m + 1) (nodes (2 ^ c) levels) 0 =
      .ok (min (2 ^ 64 - 1) (truncatedLeafEntries c d levels (m + 1))) ↔
    (64 ≤ (l + 1) * c + d ∨ m % nodes (2 ^ c) (l + 1) ≤ l) := by
  have hf : 0 < 2 ^ c := Nat.pow_pos (by decide)
  have hd' : 0 < 2 ^ d := Nat.pow_pos (by decide)
  have hleaves := leaves_pos_iff (2 ^ c) l (m % nodes (2 ^ c) (l + 1)) hf
    (mod_lt _ (nodes_pos _ _)).le
  rw [coveredWalk_of_excess pr h hd l m hlevels hm hfull, Except.ok.injEq,
    truncatedLeafEntries_of_ge h.levels_pos (by omega), hlevels, show l + 2 - 1 = l + 1 from rfl]
  by_cases hword : 64 ≤ (l + 1) * c + d
  · have hle : 2 ^ 64 ≤ 2 ^ ((l + 1) * c + d) := Nat.pow_le_pow_right (by decide) hword
    rw [if_pos hword, min_eq_left (by omega)]
    exact iff_of_true rfl (Or.inl hword)
  · have hlt : 2 ^ ((l + 1) * c + d) ≤ 2 ^ 63 := Nat.pow_le_pow_right (by decide) (by omega)
    rw [if_neg hword, min_eq_right (by omega), Nat.add_eq_left, mul_eq_zero,
      or_iff_right hd'.ne', or_iff_right hword, ← not_lt, ← hleaves, Nat.pos_iff_ne_zero, not_not]

theorem excessIsPadding_iff (l m : Nat) (hlevels : levels = l + 2) (hn : nodes (2 ^ c) levels ≤ m) :
    ExcessIsPadding c d levels (m + 1) ↔ m / nodes (2 ^ c) (l + 1) = 2 ^ c ∧
      (64 ≤ (l + 1) * c + d ∨ m % nodes (2 ^ c) (l + 1) ≤ l) := by
  have hsucc : nodes (2 ^ c) (l + 2) = 2 ^ c * nodes (2 ^ c) (l + 1) + 1 := rfl
  have hpath := lt_nodes (2 ^ c) (Nat.pow_pos (by decide)) l
  have hsplit := div_add_mod m (nodes (2 ^ c) (l + 1))
  subst hlevels
  rw [ExcessIsPadding, or_iff_right (by omega), and_iff_right (by omega),
    show l + 2 - 1 = l + 1 from rfl, show l + 2 - 2 = l from rfl]
  have hge : 2 ^ c ≤ m / nodes (2 ^ c) (l + 1) := by
    rw [Nat.le_div_iff_mul_le (nodes_pos _ _)]
    omega
  have hfull : m / nodes (2 ^ c) (l + 1) = 2 ^ c ↔ m < (2 ^ c + 1) * nodes (2 ^ c) (l + 1) := by
    rw [← Nat.div_lt_iff_lt_mul (nodes_pos _ _)]
    omega
  rw [hfull]
  by_cases hword : 64 ≤ (l + 1) * c + d
  · rw [if_pos hword, and_iff_left (Or.inl hword)]
    exact Iff.rfl
  · rw [if_neg hword, or_iff_right hword, ← hfull]
    constructor
    · intro hle
      have hfull : m / nodes (2 ^ c) (l + 1) = 2 ^ c := by
        refine hfull.mpr ?_
        rw [succ_mul]
        omega
      rw [hfull, mul_comm] at hsplit
      exact ⟨hfull, by omega⟩
    · rintro ⟨hfull, hle⟩
      rw [hfull, mul_comm] at hsplit
      omega

theorem height_unique {n levels levels' limit : Nat} {f : Nat} (hle : levels ≤ limit) (hle' : levels' ≤ limit)
    (hleast : ∀ l < levels, nodes f l < n) (hleast' : ∀ l < levels', nodes f l < n)
    (henough : n ≤ nodes f levels ∨ levels = limit) (henough' : n ≤ nodes f levels' ∨ levels' = limit) :
    levels = levels' := by
  rcases lt_trichotomy levels levels' with hlt | heq | hlt
  · have := hleast' levels hlt
    omega
  · exact heq
  · have := hleast levels' hlt
    omega

theorem height_ok (hc : 0 < c) (hc64 : c < 64) (hn : 0 < n) (hlt : n < 2 ^ 64) :
    ∃ levels, (∀ pr, authTreeNodeCountToAuthTreeLevels pr n c d a = .ok levels) ∧ 0 < levels ∧
      levels ≤ maxAuthTreeLevels c d a ∧ (∀ l < levels, nodes (2 ^ c) l < n) ∧
      (n ≤ nodes (2 ^ c) levels ∨ levels = maxAuthTreeLevels c d a) := by
  obtain ⟨levels, hlevels, hpos, hle, hleast, henough⟩ :=
    authTreeNodeCountToAuthTreeLevels_ok (d := d) (a := a) .debug hc hc64 hn hlt
  refine ⟨levels, fun pr => ?_, hpos, hle, hleast, henough⟩
  obtain ⟨levels', hlevels', -, hle', hleast', henough'⟩ :=
    authTreeNodeCountToAuthTreeLevels_ok (d := d) (a := a) pr hc hc64 hn hlt
  rw [hlevels', height_unique hle hle' hleast hleast' henough henough']

theorem covered_of_excess_iff (h : Shape c d levels) (hd : 0 < d) (hinv : IsInverse c inv)
    (hlt : n < 2 ^ 64) (hn : nodes (2 ^ c) levels < n)
    (hlevels : ∀ pr, authTreeNodeCountToAuthTreeLevels pr n c d a = .ok levels) :
    (∀ pr, authTreeNodeCountToMaxCoveredDataBlockCount pr n levels c inv d a =
      .ok (min (2 ^ 64 - 1) (truncatedLeafEntries c d levels n))) ↔ ExcessIsPadding c d levels n := by
  have hpos := h.levels_pos
  by_cases hone : levels = 1
  · subst hone
    rw [nodes, nodes] at hn
    constructor
    · intro hall
      have hdebug := hall .debug
      rw [authTreeNodeCountToMaxCoveredDataBlockCount, if_neg (by omega),
        debugAssert_ok _ ⟨h.c_pos, h.c_lt⟩, ok_bind, debugAssert_ok _ ⟨hd, h.d_lt⟩, ok_bind,
        debugAssert_ok _ (hlevels _), ok_bind, if_pos rfl, debugAssert, if_neg (by omega)] at hdebug
      cases hdebug
    · rintro (hle | ⟨htwo, -⟩)
      · rw [nodes, nodes] at hle
        omega
      · omega
  · obtain ⟨l, hl⟩ : ∃ l, levels = l + 2 := ⟨levels - 2, by omega⟩
    obtain ⟨m, rfl⟩ : ∃ m, n = m + 1 := ⟨n - 1, by omega⟩
    have hm : nodes (2 ^ c) levels ≤ m := by omega
    have hge : 2 ^ c ≤ m / nodes (2 ^ c) (l + 1) := by
      rw [Nat.le_div_iff_mul_le (nodes_pos _ _)]
      rw [hl, nodes] at hm
      omega
    rw [excessIsPadding_iff l m hl hm]
    have hwalk (pr : Profile) := coveredCount_of_excess pr h hd hinv (succ_pos m) (hlevels pr)
      (by omega)
    constructor
    · intro hall
      have hfull : m / nodes (2 ^ c) (l + 1) = 2 ^ c := by
        refine le_antisymm (Nat.le_of_not_lt fun hlt' => ?_) hge
        have hdebug := hall .debug
        rw [hwalk, coveredWalk_of_too_many h l m hl hlt'] at hdebug
        cases hdebug
      have hdebug := hall .debug
      rw [hwalk, coveredWalk_of_excess_eq_iff .debug h hd l m hl (by omega) hm hfull] at hdebug
      exact ⟨hfull, hdebug⟩
    · rintro ⟨hfull, hpadding⟩ pr
      rw [hwalk, coveredWalk_of_excess_eq_iff pr h hd l m hl (by omega) hm hfull]
      exact hpadding

/-- Nodes in excess of the complete tree of the limited height are fine as long
as all of them are padding. -/
theorem dimensionsCorrect_iff (l : ImageLayout) (g : NodeGeometry) (hg : nodeGeometry l = .ok g)
    (n inv : Nat) (hn : 0 < n) (hlt : n < 2 ^ 64)
    (hinv : digestsPerNodeMinusOneInvModU64 .debug g.nodeDigestsPerNodeLog2 = .ok inv) :
    (∃ levels, DimensionsCorrect n g.nodeDigestsPerNodeLog2 inv g.dataDigestsPerNodeLog2
      g.dataBlockAllocationBlocksLog2 levels) ↔
    ExcessIsPadding g.nodeDigestsPerNodeLog2 g.dataDigestsPerNodeLog2
      (maxAuthTreeLevels g.nodeDigestsPerNodeLog2 g.dataDigestsPerNodeLog2
        g.dataBlockAllocationBlocksLog2) n := by
  obtain ⟨hc, hd, hsize, -, hceq, hdeq, -⟩ := nodeGeometry_ok hg
  have hc64 : g.nodeDigestsPerNodeLog2 < 64 := by omega
  have hd64 : g.dataDigestsPerNodeLog2 < 64 := by omega
  have hinverse : IsInverse g.nodeDigestsPerNodeLog2 inv := by
    obtain ⟨inv', hinv', hlt', hmul⟩ := digestsPerNodeMinusOneInvModU64_ok .debug hc hc64
    cases hinv'.symm.trans hinv
    exact ⟨hlt', hmul⟩
  generalize g.nodeDigestsPerNodeLog2 = c at *
  generalize g.dataDigestsPerNodeLog2 = d at *
  generalize g.dataBlockAllocationBlocksLog2 = a at *
  have hf : 0 < 2 ^ c := Nat.pow_pos (by decide)
  obtain ⟨levels, hlevels, hpos, hle, hleast, henough⟩ := height_ok (d := d) (a := a) hc hc64 hn hlt
  have hshape := shape_of_le_max hc hc64 hd64 hpos hle
  have hexists : (∃ levels, DimensionsCorrect n c inv d a levels) ↔
      ∀ pr, authTreeNodeCountToMaxCoveredDataBlockCount pr n levels c inv d a =
        .ok (min (2 ^ 64 - 1) (truncatedLeafEntries c d levels n)) := by
    constructor
    · rintro ⟨levels', hcorrect⟩
      obtain rfl : levels = levels' := Except.ok.inj ((hlevels .debug).symm.trans (hcorrect.height _))
      exact hcorrect.covered
    · intro hcovered
      exact ⟨levels, hlevels, hleast, henough, hcovered⟩
  rw [hexists]
  by_cases hfits : n ≤ nodes (2 ^ c) levels
  · refine iff_of_true (fun pr => ?_) (Or.inl (le_trans hfits (nodes_mono _ hf hle)))
    rw [authTreeNodeCountToMaxCoveredDataBlockCount_ok pr hshape hd hinverse hn hfits (hlevels pr),
      truncatedLeafEntries_of_le hpos hfits]
  · have hmax := henough.resolve_left hfits
    rw [covered_of_excess_iff hshape hd hinverse hlt (Nat.lt_of_not_le hfits) hlevels, hmax]

theorem inverse_of_three :
    digestsPerNodeMinusOneInvModU64 .debug 2 = .ok 12297829382473034411 := by
  decide +kernel

theorem dimensionsCorrect_iff_sample :
    (∃ levels, DimensionsCorrect 21 2 12297829382473034411 2 0 levels) ↔
      ExcessIsPadding 2 2 (maxAuthTreeLevels 2 2 0) 21 :=
  dimensionsCorrect_iff sampleLayout ⟨0, 0, 2, 2⟩ (by decide) 21 12297829382473034411
    (by decide) (by decide) inverse_of_three

def largeDataBlocksLayout : ImageLayout :=
  { sampleLayout with authTreeDataBlockAllocationBlocksLog2 := 6 }

/-- One node more than for five complete subtrees below a root with four
entries. -/
theorem dimensions_assertion_fails : ¬ ∀ l g, nodeGeometry l = .ok g → ∀ n inv, 0 < n → n < 2 ^ 64 →
    digestsPerNodeMinusOneInvModU64 .debug g.nodeDigestsPerNodeLog2 = .ok inv →
      ∃ levels, DimensionsCorrect n g.nodeDigestsPerNodeLog2 inv g.dataDigestsPerNodeLog2
        g.dataBlockAllocationBlocksLog2 levels := by
  intro hall
  obtain ⟨levels, hcorrect⟩ := hall largeDataBlocksLayout ⟨0, 6, 2, 2⟩ (by decide)
    120095990063213226 12297829382473034411 (by decide) (by decide) inverse_of_three
  have hlevels : authTreeNodeCountToAuthTreeLevels .debug 120095990063213226 2 2 6 = .ok 29 := by
    decide +kernel
  obtain rfl : levels = 29 := Except.ok.inj ((hcorrect.height .debug).symm.trans hlevels)
  have hok := hcorrect.covered .debug
  cases hok

end CocoonFs.CappedTrees
