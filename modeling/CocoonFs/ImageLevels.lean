import CocoonFs.TreeCut
import CocoonFs.TreeShape

namespace CocoonFs.ImageLevels

open Checked CompleteTree SubtreeCount TreeCut TreeShape

/-- Adds r to the remainder, which is less than v, and counts it if that exceeds
v. -/
def addReduced (pr : Profile) (v r q rest : Nat) : Comp (Nat × Nat) := do
  let gap ← subU64 pr v rest
  if gap ≤ r then do
    let q ← addU64 pr q 1
    let rest ← subU64 pr r gap
    pure (q, rest)
  else do
    let rest ← addU64 pr rest r
    pure (q, rest)

/-- Doubles the remainder. The code subtracts from the same variable here. -/
def doubleReduced (pr : Profile) (v q rest : Nat) : Comp (Nat × Nat) := do
  let gap ← subU64 pr v rest
  if gap ≤ rest then do
    let q ← addU64 pr q 1
    let rest ← subU64 pr rest gap
    pure (q, rest)
  else do
    let rest ← shlU64 pr rest 1
    pure (q, rest)

/-- The loop that multiplies r by 2 ^ (n + 1) - 1, divided by v on the way. -/
def mulReduced (pr : Profile) (v r : Nat) : Nat → Nat → Nat → Comp (Nat × Nat)
  | 0, q, rest => .ok (q, rest)
  | n + 1, q, rest => do
    let q ← shlU64 pr q 1
    let (q, rest) ← doubleReduced pr v q rest
    let (q, rest) ← addReduced pr v r q rest
    mulReduced pr v r n q rest

/-- The quotient of u * image + b by v, rounded up, for u = 2 ^ c - 1. -/
def levelsQuotient (pr : Profile) (image c nodeAllocationBlocks u v : Nat) : Comp Nat := do
  debugAssert pr (u < v)
  let q ← divU64 image v
  debugAssert pr (q ≠ 0)
  let product ← mulU64 pr v q
  let r ← subU64 pr image product
  let q ← mulU64 pr q u
  debugAssert pr (r ≤ (2 ^ 64 - 1) / 2)
  let (qUr, rUr) ← mulReduced pr v r (c - 1) 0 r
  let q ← addU64 pr q qUr
  let (q, r) ← addReduced pr v nodeAllocationBlocks q rUr
  if r ≠ 0 then addU64 pr q 1 else pure q

def ceilLog2 (pr : Profile) (q : Nat) : Comp Nat :=
  if q ≠ 1 then do
    let m ← subU64 pr q 1
    pure (m.log2 + 1)
  else pure 0

/-- The size of a complete tree of the given height, with the data it covers. -/
def completeTreeTotal (pr : Profile) (levels c inv d b a : Nat) : Comp Nat := do
  let count ← authSubtreeNodeCount pr (levels - 1) levels c inv
  let data ← shlU64 pr 1 ((levels - 1) * c + d + a)
  let blocks ← shlU64 pr count b
  addU64 pr blocks data

def imageAllocationBlocksToAuthTreeLevels (pr : Profile) (image c inv d b a : Nat) : Comp Nat := do
  let nodeDigestsPerNode ← shlU64 pr 1 c
  let nodeAllocationBlocks ← shlU64 pr 1 b
  if image < nodeAllocationBlocks then formatErr .invalidAuthTreeDimensions
  else if image / 2 < nodeAllocationBlocks then pure 1
  else if 64 ≤ d + a then pure 1
  else do
    let leafData ← shlU64 pr 1 (d + a)
    let remaining ← subU64 pr image nodeAllocationBlocks
    if remaining ≤ leafData then pure 1
    else do
      let nodesInImage ← shrU64 pr image b
      if nodesInImage ≤ nodeDigestsPerNode then pure 2
      else if 64 ≤ c + d + a then pure 2
      else do
        let leafNodes ← shlU64 pr 1 (c + b)
        let remaining ← subU64 pr image leafNodes
        let leavesData ← shlU64 pr 1 (c + d + a)
        if remaining ≤ leavesData then pure 2
        else do
          let u ← subU64 pr nodeDigestsPerNode 1
          let data ← shlU64 pr u (d + a)
          let v ← addU64 pr leafNodes data
          let q ← levelsQuotient pr image c nodeAllocationBlocks u v
          let qLog2 ← ceilLog2 pr q
          let levels := divCeil qLog2 c + 1
          if 1 < levels then do
            let total ← completeTreeTotal pr (levels - 1) c inv d b a
            debugAssert pr (total < image)
            let remaining ← subU64 pr image total
            let path ← shlU64 pr levels b
            if remaining < path then pure (levels - 1) else pure levels
          else pure levels

variable {q r rest v B l : Nat}

theorem addReduced_ok (pr : Profile) (hv : v < 2 ^ 64) (hr : r < v)
    (hrest : rest < v) (hq : q + 1 < 2 ^ 64) :
    ∃ q' rest', addReduced pr v r q rest = .ok (q', rest') ∧
      q' * v + rest' = q * v + rest + r ∧ rest' < v := by
  rw [addReduced, subU64_ok pr hrest.le, ok_bind]
  split
  · rename_i hle
    rw [addU64_ok pr hq, ok_bind, subU64_ok pr hle, ok_bind]
    refine ⟨q + 1, r - (v - rest), rfl, ?_, by omega⟩
    rw [Nat.succ_mul]
    omega
  · rename_i hgt
    rw [addU64_ok pr (by omega), ok_bind]
    exact ⟨q, rest + r, rfl, by omega, by omega⟩

theorem doubleReduced_ok (pr : Profile) (hv : v < 2 ^ 64) (hrest : rest < v) (hq : q + 1 < 2 ^ 64) :
    ∃ q' rest', doubleReduced pr v q rest = .ok (q', rest') ∧
      q' * v + rest' = q * v + rest + rest ∧ rest' < v := by
  rw [doubleReduced, subU64_ok pr hrest.le, ok_bind]
  split
  · rename_i hle
    rw [addU64_ok pr hq, ok_bind, subU64_ok pr hle, ok_bind]
    refine ⟨q + 1, rest - (v - rest), rfl, ?_, by omega⟩
    rw [Nat.succ_mul]
    omega
  · rename_i hgt
    rw [shlU64_ok pr (by decide) (by omega), ok_bind]
    exact ⟨q, rest * 2 ^ 1, rfl, by omega, by omega⟩

theorem lt_of_reduced {m : Nat} (hr : r < v) (hm : 0 < m)
    (h : q * v + rest + r = m * r) : q < m := by
  by_contra hle
  have hmul := Nat.mul_le_mul_right v (Nat.le_of_not_lt hle)
  rcases Nat.eq_zero_or_pos r with rfl | hpos
  · have := mul_pos hm hr
    omega
  · have := Nat.mul_le_mul_left m hr.le
    omega

theorem mulReduced_ok (pr : Profile) (hv : v < 2 ^ 64) (hr : r < v) (n q rest m : Nat)
    (hm : 0 < m) (hbound : m * 2 ^ n ≤ 2 ^ 63) (hrest : rest < v) (h : q * v + rest + r = m * r) :
    ∃ q' rest', mulReduced pr v r n q rest = .ok (q', rest') ∧
      q' * v + rest' + r = m * 2 ^ n * r ∧ rest' < v := by
  induction n generalizing q rest m with
  | zero => exact ⟨q, rest, rfl, by rw [h, pow_zero, mul_one], hrest⟩
  | succ n ih =>
    have hq := lt_of_reduced hr hm h
    have hm63 : m * 2 ≤ 2 ^ 63 := by
      have := Nat.mul_le_mul_left m (Nat.pow_le_pow_right (n := 2) (by decide) (Nat.succ_le_succ (Nat.zero_le n)))
      exact le_trans this hbound
    obtain ⟨q₁, rest₁, hdouble, hsum₁, hrest₁⟩ :=
      doubleReduced_ok pr (q := q * 2 ^ 1) hv hrest (by omega)
    have hsum : q₁ * v + rest₁ + r + r = m * 2 * r := by
      have h₁ : q * 2 ^ 1 * v = 2 * (q * v) := by ring
      have h₂ : m * 2 * r = 2 * (m * r) := by ring
      rw [hsum₁, h₁, h₂, ← h]
      ring
    have hq₁ : q₁ < m * 2 := by
      refine lt_of_reduced hr (by omega) (?_ : q₁ * v + (rest₁ + r) + r = m * 2 * r)
      omega
    obtain ⟨q₂, rest₂, hadd, hsum₂, hrest₂⟩ :=
      addReduced_ok pr (q := q₁) hv hr hrest₁ (by omega)
    have hpow : m * 2 * 2 ^ n = m * 2 ^ (n + 1) := by
      rw [pow_succ]
      ring
    obtain ⟨q₃, rest₃, hloop, hsum₃, hrest₃⟩ :=
      ih q₂ rest₂ (m * 2) (by omega) (by rw [hpow]; exact hbound) hrest₂ (by omega)
    refine ⟨q₃, rest₃, ?_, by rw [hsum₃, hpow], hrest₃⟩
    rw [mulReduced, shlU64_ok pr (by decide) (by omega), ok_bind, hdouble, ok_bind]
    dsimp only
    rw [hadd, ok_bind]
    exact hloop

theorem levelsQuotient_ok (pr : Profile) {image c : Nat} (hc : 0 < c) (hc63 : c ≤ 63)
    (himage : image < 2 ^ 64) (hv : v ≤ image) (hB : B < v) (hu : 2 * (2 ^ c - 1) ≤ v) :
    levelsQuotient pr image c B (2 ^ c - 1) v = .ok (divCeil ((2 ^ c - 1) * image + B) v) := by
  have hpow : 2 ≤ 2 ^ c := Nat.pow_le_pow_right (n := 2) (by decide) hc
  have hvpos : 0 < v := by omega
  have hquot : 0 < image / v := Nat.div_pos hv hvpos
  have hmod := Nat.mod_lt image hvpos
  have hsplit := Nat.div_add_mod image v
  generalize hQ : image / v = Q at hquot hsplit
  generalize image % v = r at hmod hsplit
  have hvQ : v ≤ v * Q := Nat.le_mul_of_pos_right v hquot
  have hr : image - v * Q = r := by omega
  obtain ⟨qUr, rUr, hloop, hsum, hrUr⟩ := mulReduced_ok pr (r := r) (by omega) hmod (c - 1) 0 r 2
    (by decide) (by rw [← pow_succ', Nat.sub_add_cancel hc]; exact Nat.pow_le_pow_right (by decide) hc63)
    hmod (by omega)
  rw [← pow_succ', Nat.sub_add_cancel hc] at hsum
  obtain ⟨u, hu'⟩ : ∃ u, 2 ^ c = u + 1 := ⟨2 ^ c - 1, by omega⟩
  rw [hu', Nat.add_sub_cancel] at hu ⊢
  rw [hu', Nat.succ_mul] at hsum
  -- The partial results are bounded by the quotient, which is at most half the image.
  have hbound (X : Nat) (hX : X * v ≤ u * image + B) : X + 1 < 2 ^ 64 := by
    have h₁ : 2 * u * image ≤ v * image := Nat.mul_le_mul_right image hu
    have h₂ : v * (2 * X) ≤ v * (image + 2) := by
      calc v * (2 * X) = 2 * (X * v) := by ring
        _ ≤ 2 * (u * image + B) := Nat.mul_le_mul_left 2 hX
        _ = 2 * u * image + 2 * B := by ring
        _ ≤ v * image + 2 * v := by omega
        _ = v * (image + 2) := by ring
    have := Nat.le_of_mul_le_mul_left h₂ hvpos
    omega
  have himageu : u * image = Q * u * v + u * r := by
    rw [← hsplit]
    ring
  have hX : (Q * u + qUr) * v + rUr = u * image := by
    rw [himageu, add_mul]
    omega
  have hX1 := hbound (Q * u + qUr) (by omega)
  obtain ⟨q, rest, hadd, htotal, hrest⟩ := addReduced_ok pr (q := Q * u + qUr) (by omega) hB hrUr hX1
  have hq := hbound q (by omega)
  have hfinal := eq_divCeil (q := q) (x := u * image + B) hrest (by omega)
  rw [levelsQuotient, debugAssert_ok pr (by omega), ok_bind, divU64_ok (by omega), ok_bind, hQ,
    debugAssert_ok pr (by omega), ok_bind, mulU64_ok pr (by omega), ok_bind, subU64_ok pr (by omega),
    ok_bind, mulU64_ok pr (by omega), ok_bind, hr, debugAssert_ok pr (by omega), ok_bind, hloop,
    ok_bind]
  dsimp only
  rw [addU64_ok pr (by omega), ok_bind, hadd, ok_bind, ← hfinal]
  split
  · exact addU64_ok pr hq
  · rfl

theorem ceilLog2_ok (pr : Profile) (hq : 0 < q) :
    ceilLog2 pr q = .ok (significantBits (q - 1)) := by
  rw [ceilLog2, significantBits]
  split
  · rw [subU64_ok pr hq, ok_bind, if_neg (by omega)]
    rfl
  · rw [if_pos (by omega)]
    rfl

/-- The sizes for which the code's formulas are meant: nodes are smaller than the
number of their children and than what a leaf covers. -/
structure Sizes (c d b a : Nat) : Prop where
  c_pos : 0 < c
  c_lt : c < 64
  b_lt_c : b < c
  b_lt_d : b < d

variable {c d b a inv image : Nat}

theorem Sizes.data_ge (h : Sizes c d b a) : 2 * 2 ^ b ≤ 2 ^ (d + a) := by
  have hd := h.b_lt_d
  rw [← pow_succ']
  exact Nat.pow_le_pow_right (by decide) (by omega)

theorem Sizes.two_le (h : Sizes c d b a) : 2 ≤ 2 ^ c :=
  Nat.pow_le_pow_right (n := 2) (by decide) h.c_pos

theorem quotient_le_iff (h : Sizes c d b a) (l : Nat) :
    (2 ^ c - 1) * image + 2 ^ b ≤ (2 ^ (c + b) + (2 ^ c - 1) * 2 ^ (d + a)) * (2 ^ c) ^ l ↔
      image ≤ size (2 ^ c) (2 ^ b) (2 ^ (d + a)) l := by
  have hf := h.two_le
  have hsum := pred_mul_nodes (2 ^ c) (by omega) (l + 1)
  have htotal : (2 ^ (c + b) + (2 ^ c - 1) * 2 ^ (d + a)) * (2 ^ c) ^ l =
      (2 ^ c - 1) * size (2 ^ c) (2 ^ b) (2 ^ (d + a)) l + 2 ^ b := by
    rw [size_eq, pow_add]
    calc (2 ^ c * 2 ^ b + (2 ^ c - 1) * 2 ^ (d + a)) * (2 ^ c) ^ l
        = (2 ^ c) ^ (l + 1) * 2 ^ b + (2 ^ c - 1) * ((2 ^ c) ^ l * 2 ^ (d + a)) := by
          rw [pow_succ]
          ring
      _ = ((2 ^ c - 1) * nodes (2 ^ c) (l + 1) + 1) * 2 ^ b +
            (2 ^ c - 1) * ((2 ^ c) ^ l * 2 ^ (d + a)) := by rw [hsum]
      _ = (2 ^ c - 1) * (nodes (2 ^ c) (l + 1) * 2 ^ b + (2 ^ c) ^ l * 2 ^ (d + a)) + 2 ^ b := by
          ring
  rw [htotal]
  constructor
  · intro hle
    exact Nat.le_of_mul_le_mul_left (Nat.le_of_add_le_add_right hle) (by omega)
  · intro hle
    exact Nat.add_le_add_right (Nat.mul_le_mul_left _ hle) _

theorem completeTreeTotal_ok (pr : Profile) (h : Sizes c d b a) (hinv : IsInverse c inv) (l : Nat)
    (hlt : size (2 ^ c) (2 ^ b) (2 ^ (d + a)) l < 2 ^ 64) :
    completeTreeTotal pr (l + 1) c inv d b a = .ok (size (2 ^ c) (2 ^ b) (2 ^ (d + a)) l) ∧
      l * c + d + a < 64 := by
  have hdata : (2 ^ c) ^ l * 2 ^ (d + a) = 2 ^ (l * c + d + a) := by
    rw [← pow_mul, ← pow_add, mul_comm c l, add_assoc]
  have hbits : l * c + d + a < 64 := by
    rw [← Nat.pow_lt_pow_iff_right (a := 2) (by decide), ← hdata]
    rw [size_eq] at hlt
    omega
  have hd := h.b_lt_d
  rw [size_eq, hdata] at hlt
  refine ⟨?_, hbits⟩
  rw [completeTreeTotal, Nat.add_sub_cancel,
    authSubtreeNodeCount_ok pr h.c_pos h.c_lt hinv (show l < l + 1 by omega)
      (by rw [Nat.add_sub_cancel, mul_comm]; omega), ok_bind, shl_one pr hbits, ok_bind,
    shlU64_ok pr (by omega) (by omega), ok_bind, addU64_ok pr hlt, size_eq, hdata]

/-- The height of the tree for an image that a single node does not suffice for:
the root is at level l + 1. -/
structure IsRootLevel (f B D image l : Nat) : Prop where
  above : size f B D 0 < image
  below : image < size f B D (l + 1) + (l + 3) * B
  least : l ≠ 0 → size f B D l + (l + 2) * B ≤ image

theorem IsRootLevel.unique {f D l' : Nat} (hf : 0 < f) (hB : 0 < B)
    (h : IsRootLevel f B D image l) (h' : IsRootLevel f B D image l') : l = l' := by
  have hle (i j : Nat) (hi : IsRootLevel f B D image i) (hj : IsRootLevel f B D image j) : ¬ i < j := by
    intro hlt
    have hleast := hj.least (by omega)
    have hbelow := hi.below
    have hsize := size_mono f B D hf hB (Nat.succ_le_of_lt hlt)
    have hmul := Nat.mul_le_mul_right B (show i + 3 ≤ j + 2 by omega)
    rw [Nat.succ_eq_add_one] at hsize
    omega
  have h₁ := hle l l' h h'
  have h₂ := hle l' l h' h
  omega

theorem IsRootLevel.path_le (hl : IsRootLevel (2 ^ c) (2 ^ b) (2 ^ (d + a)) image l)
    (h : Sizes c d b a) : (l + 2) * 2 ^ b ≤ image := by
  have habove := hl.above
  have hdata := h.data_ge
  rcases Nat.eq_zero_or_pos l with rfl | hpos
  · rw [size] at habove
    omega
  · have := hl.least (by omega)
    omega

theorem IsRootLevel.size_le {f D : Nat} (hl : IsRootLevel f B D image l) :
    size f B D l ≤ image := by
  rcases Nat.eq_zero_or_pos l with rfl | hpos
  · exact hl.above.le
  · exact le_trans (Nat.le_add_right _ _) (hl.least (by omega))

/-- The height found by the division, before a root with a single child is
removed. -/
theorem levels_le_iff (h : Sizes c d b a) (image l : Nat) :
    divCeil (significantBits (divCeil ((2 ^ c - 1) * image + 2 ^ b)
        (2 ^ (c + b) + (2 ^ c - 1) * 2 ^ (d + a)) - 1)) c ≤ l ↔
      image ≤ size (2 ^ c) (2 ^ b) (2 ^ (d + a)) l := by
  have hv : 0 < 2 ^ (c + b) + (2 ^ c - 1) * 2 ^ (d + a) :=
    Nat.add_pos_left (Nat.pow_pos (by decide)) _
  have hpow : 0 < 2 ^ (c * l) := Nat.pow_pos (by decide)
  rw [divCeil_le_iff h.c_pos, significantBits_le_iff, ← quotient_le_iff h, ← divCeil_le_iff hv,
    ← pow_mul]
  omega

theorem imageAllocationBlocksToAuthTreeLevels_one (pr : Profile) (h : Sizes c d b a)
    (hb : 2 ^ b ≤ image) (hle : image ≤ size (2 ^ c) (2 ^ b) (2 ^ (d + a)) 0) :
    imageAllocationBlocksToAuthTreeLevels pr image c inv d b a = .ok 1 := by
  have hbc := h.b_lt_c
  have hc := h.c_lt
  rw [size] at hle
  rw [imageAllocationBlocksToAuthTreeLevels, shl_one pr hc, ok_bind, shl_one pr (by omega), ok_bind,
    if_neg (by omega)]
  split
  · rfl
  · split
    · rfl
    · rename_i hbits
      rw [shl_one pr (by omega), ok_bind, subU64_ok pr hb, ok_bind, if_pos (by omega)]
      rfl

/-- The height from the division and its correction in case of a root with a
single child. -/
theorem reducedLevels_ok (pr : Profile) (h : Sizes c d b a) (hinv : IsInverse c inv)
    (himage : image < 2 ^ 64)
    (hlarge : size (2 ^ c) (2 ^ b) (2 ^ (d + a)) 1 < image + 2 ^ b) {k : Nat}
    (hk : ∀ l, k ≤ l ↔ image ≤ size (2 ^ c) (2 ^ b) (2 ^ (d + a)) l) :
    ∃ l, (do
        let total ← completeTreeTotal pr (k + 1 - 1) c inv d b a
        debugAssert pr (total < image)
        let remaining ← subU64 pr image total
        let path ← shlU64 pr (k + 1) b
        if remaining < path then pure (k + 1 - 1) else pure (k + 1)) = .ok (l + 2) ∧
      IsRootLevel (2 ^ c) (2 ^ b) (2 ^ (d + a)) image l := by
  have hf := h.two_le
  have hD := h.data_ge
  have hc := h.c_lt
  have hbc := h.b_lt_c
  have hsucc (l : Nat) : 2 * size (2 ^ c) (2 ^ b) (2 ^ (d + a)) l + 2 ^ b ≤
      size (2 ^ c) (2 ^ b) (2 ^ (d + a)) (l + 1) := by
    have := Nat.mul_le_mul_right (size (2 ^ c) (2 ^ b) (2 ^ (d + a)) l) hf
    rw [size]
    omega
  have hpath (l : Nat) := path_le_size (2 ^ c) (2 ^ b) (2 ^ (d + a)) (by omega) hD l
  have hsize₀ := hsucc 0
  rw [zero_add] at hsize₀
  have habove : size (2 ^ c) (2 ^ b) (2 ^ (d + a)) 0 < image := by omega
  obtain ⟨j, rfl⟩ : ∃ j, k = j + 1 := by
    refine ⟨k - 1, ?_⟩
    have := (hk 0).not.mpr (Nat.not_le_of_lt habove)
    omega
  have hj : size (2 ^ c) (2 ^ b) (2 ^ (d + a)) j < image := by
    have := (hk j).not.mp (by omega)
    omega
  have hj' : image ≤ size (2 ^ c) (2 ^ b) (2 ^ (d + a)) (j + 1) := (hk (j + 1)).mp (le_refl _)
  have hpathj := hpath j
  have hmul : (j + 3) * 2 ^ b = (j + 2) * 2 ^ b + 2 ^ b := by ring
  have hpos : 0 < 2 ^ b := Nat.pow_pos (by decide)
  rw [Nat.add_sub_cancel, (completeTreeTotal_ok pr h hinv j (by omega)).1, ok_bind,
    debugAssert_ok pr hj, ok_bind, subU64_ok pr hj.le, ok_bind, show j + 1 + 1 = j + 2 by omega,
    shlU64_ok pr (by omega) (by omega), ok_bind]
  split
  · rename_i hsingle
    obtain ⟨l, rfl⟩ : ∃ l, j = l + 1 := by
      refine ⟨j - 1, ?_⟩
      rcases Nat.eq_zero_or_pos j with rfl | hpos
      · omega
      · omega
    have hsize := hsucc l
    have hpathl := hpath l
    have hmull : (l + 3) * 2 ^ b = (l + 2) * 2 ^ b + 2 ^ b := by ring
    rw [show l + 1 + 2 = l + 3 by omega] at hsingle
    exact ⟨l, rfl, habove, by omega, fun _ => by omega⟩
  · rename_i hseveral
    exact ⟨j, rfl, habove, by omega, fun _ => by omega⟩

/-- For larger images the height is what the sizes of the complete trees ask
for. -/
theorem imageAllocationBlocksToAuthTreeLevels_ok (pr : Profile) (h : Sizes c d b a)
    (hinv : IsInverse c inv) (himage : image < 2 ^ 64)
    (hlt : size (2 ^ c) (2 ^ b) (2 ^ (d + a)) 0 < image) :
    ∃ l, imageAllocationBlocksToAuthTreeLevels pr image c inv d b a = .ok (l + 2) ∧
      IsRootLevel (2 ^ c) (2 ^ b) (2 ^ (d + a)) image l := by
  have hbc := h.b_lt_c
  have hc := h.c_lt
  have hf := h.two_le
  have hD := h.data_ge
  have hB : 0 < 2 ^ b := Nat.pow_pos (by decide)
  have hcb : 2 ^ (c + b) = 2 ^ c * 2 ^ b := pow_add 2 c b
  have hcda : 2 ^ (c + d + a) = 2 ^ c * 2 ^ (d + a) := by rw [add_assoc, pow_add]
  have hsize₀ : size (2 ^ c) (2 ^ b) (2 ^ (d + a)) 0 = 2 ^ b + 2 ^ (d + a) := rfl
  have hsize₁ : size (2 ^ c) (2 ^ b) (2 ^ (d + a)) 1 = 2 ^ b + 2 ^ (c + b) + 2 ^ (c + d + a) := by
    rw [size, hsize₀, hcb, hcda]
    ring
  have hroot₀ (hle : image < size (2 ^ c) (2 ^ b) (2 ^ (d + a)) 1 + 3 * 2 ^ b) :
      IsRootLevel (2 ^ c) (2 ^ b) (2 ^ (d + a)) image 0 := ⟨hlt, hle, fun hne => absurd rfl hne⟩
  have hda : d + a < 64 := by
    rw [← Nat.pow_lt_pow_iff_right (a := 2) (by decide)]
    omega
  rw [imageAllocationBlocksToAuthTreeLevels, shl_one pr hc, ok_bind, shl_one pr (by omega), ok_bind,
    if_neg (by omega), if_neg (by omega), if_neg (by omega), shl_one pr hda, ok_bind,
    subU64_ok pr (by omega), ok_bind, if_neg (by omega), shrU64_ok pr (by omega), ok_bind]
  split
  · rename_i hfew
    refine ⟨0, rfl, hroot₀ ?_⟩
    rw [Nat.div_le_iff_le_mul_add_pred hB, mul_comm] at hfew
    omega
  · rename_i hmany
    have hmany' : 2 ^ (c + b) ≤ image := by
      rw [hcb]
      exact (Nat.le_div_iff_mul_le hB).mp (Nat.le_of_not_le hmany)
    split
    · rename_i hbits
      refine ⟨0, rfl, hroot₀ ?_⟩
      have : 2 ^ 64 ≤ 2 ^ (c + d + a) := Nat.pow_le_pow_right (by decide) hbits
      omega
    · rename_i hbits
      have hcb64 : c + b < 64 := by
        rw [← Nat.pow_lt_pow_iff_right (a := 2) (by decide)]
        omega
      rw [shl_one pr hcb64, ok_bind, subU64_ok pr hmany', ok_bind, shl_one pr (by omega), ok_bind]
      split
      · refine ⟨0, rfl, hroot₀ ?_⟩
        omega
      · rename_i hlarge
        have hfD : 2 ^ c * 2 ^ (d + a) = (2 ^ c - 1) * 2 ^ (d + a) + 2 ^ (d + a) := by
          rw [← Nat.succ_mul, Nat.succ_eq_add_one, Nat.sub_add_cancel (by omega)]
        have hu : (2 ^ c - 1) * 2 ≤ (2 ^ c - 1) * 2 ^ (d + a) := Nat.mul_le_mul_left _ (by omega)
        have hv : 2 ^ (c + b) + (2 ^ c - 1) * 2 ^ (d + a) ≤ image := by omega
        have hBv : 2 ^ b < 2 ^ (c + b) := Nat.pow_lt_pow_right (by decide) (by omega)
        rw [subU64_ok pr (by omega), ok_bind, shlU64_ok pr hda (by omega), ok_bind,
          addU64_ok pr (by omega), ok_bind,
          levelsQuotient_ok pr h.c_pos (by omega) himage hv (by omega) (by omega), ok_bind]
        have hk := levels_le_iff h image
        have hpos : 0 < divCeil ((2 ^ c - 1) * image + 2 ^ b)
            (2 ^ (c + b) + (2 ^ c - 1) * 2 ^ (d + a)) := by
          by_contra hzero
          have := (divCeil_le_iff (n := 0) (by omega)).mp (Nat.le_of_not_lt hzero)
          omega
        rw [ceilLog2_ok pr hpos, ok_bind]
        have hone : 0 < divCeil (significantBits (divCeil ((2 ^ c - 1) * image + 2 ^ b)
            (2 ^ (c + b) + (2 ^ c - 1) * 2 ^ (d + a)) - 1)) c := by
          by_contra hzero
          have := (hk 0).mp (Nat.le_of_not_lt hzero)
          omega
        rw [if_pos (by omega)]
        exact reducedLevels_ok pr h hinv himage (by omega) hk

end CocoonFs.ImageLevels
