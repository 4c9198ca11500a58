import CocoonFs.ImageLevels
import CocoonFs.TreeConfig

namespace CocoonFs.ImageNodeCount

open Checked CompleteTree ImageLevels Layout SubtreeCount TreeConfig TreeCut TreeShape
open Nat (mod_le pow_pos succ_pos)

/-- The loop over the levels. Its results are the level it has stopped at, the
nodes and the remaining blocks. -/
def nodeCountWalk (pr : Profile) (c b : Nat) :
    Nat → Nat → Nat → Nat → Nat → Comp (Nat × Nat × Nat)
  | 0, image, _, _, n => .ok (0, n, image)
  | level + 1, image, entrySubtreeNodeCount, entrySubtreeData, n => do
    let subtreeBlocks ← shlU64 pr entrySubtreeNodeCount b
    let total ← addU64 pr subtreeBlocks entrySubtreeData
    let nodeBlocks ← shlU64 pr 1 b
    let image ← subU64 pr image nodeBlocks
    let n ← addU64 pr n 1
    let fullSubtreeCount ← divU64 image total
    let fullBlocks ← mulU64 pr fullSubtreeCount total
    let image ← subU64 pr image fullBlocks
    let fullNodes ← mulU64 pr fullSubtreeCount entrySubtreeNodeCount
    let n ← addU64 pr n fullNodes
    let path ← shlU64 pr level b
    -- Not even a single path down to the bottom fits.
    if image < path then .ok (level, n, image)
    else if level ≠ 0 then do
      let difference ← subU64 pr entrySubtreeNodeCount 1
      let entrySubtreeNodeCount ← shrU64 pr difference c
      let entrySubtreeData ← shrU64 pr entrySubtreeData c
      nodeCountWalk pr c b level image entrySubtreeNodeCount entrySubtreeData n
    else nodeCountWalk pr c b level image entrySubtreeNodeCount entrySubtreeData n

/-- The number of nodes in and the data covered by a subtree at an entry of the
root. -/
def rootEntrySubtree (pr : Profile) (authTreeLevels c inv d a : Nat) : Comp (Nat × Nat) :=
  if 2 ≤ authTreeLevels then do
    let count ← authSubtreeNodeCount pr (authTreeLevels - 2) (authTreeLevels - 1) c inv
    let data ← shlU64 pr 1 ((authTreeLevels - 2) * c + d + a)
    pure (count, data)
  else do
    let data ← shlU64 pr 1 (d + a)
    pure (0, data)

def imageAllocationBlocksToAuthTreeNodeCount (pr : Profile) (image authTreeLevels c inv d b a : Nat) :
    Comp (Nat × Nat) := do
  let nodeBlocks ← shlU64 pr 1 b
  if image < nodeBlocks then pure (0, image)
  else do
    let (count, data) ← rootEntrySubtree pr authTreeLevels c inv d a
    let (level, n, remaining) ← nodeCountWalk pr c b authTreeLevels image count data 0
    debugAssert pr (level ≠ 0 ∨ remaining < 2 ^ a)
    pure (n, remaining)

def AuthTreeConfig.imageAllocationBlocksToAuthTreeNodeCount (pr : Profile) (l : ImageLayout)
    (image : Nat) : Comp (Nat × Nat) := do
  let g ← nodeGeometry l
  let inv ← digestsPerNodeMinusOneInvModU64 pr g.nodeDigestsPerNodeLog2
  let levels ← imageAllocationBlocksToAuthTreeLevels pr image g.nodeDigestsPerNodeLog2 inv
    g.dataDigestsPerNodeLog2 g.nodeAllocationBlocksLog2 g.dataBlockAllocationBlocksLog2
  ImageNodeCount.imageAllocationBlocksToAuthTreeNodeCount pr image levels g.nodeDigestsPerNodeLog2
    inv g.dataDigestsPerNodeLog2 g.nodeAllocationBlocksLog2 g.dataBlockAllocationBlocksLog2

variable {c d b a image : Nat}

/-- The data at each entry of a node on the walk. At a leaf these are not the
Data Blocks, but a leaf's share in what its parent would have at each entry. -/
def entryData (f D : Nat) : Nat → Nat
  | 0 => D / f
  | l + 1 => f ^ l * D

theorem entryData_div (f D l : Nat) (hf : 0 < f) : entryData f D (l + 1) / f = entryData f D l := by
  cases l with
  | zero => rw [entryData, entryData, pow_zero, one_mul]
  | succ l => rw [entryData, entryData, pow_succ, mul_right_comm, Nat.mul_div_cancel _ hf]

theorem nodeCountWalk_succ (pr : Profile) (h : Sizes c d b a) (l x n : Nat)
    (hsize : size (2 ^ c) (2 ^ b) (2 ^ (d + a)) l < 2 ^ 64) (hB : 2 ^ b ≤ x) (hn : n + x < 2 ^ 64) :
    nodeCountWalk pr c b (l + 1 + 1) x (nodes (2 ^ c) (l + 1)) (entryData (2 ^ c) (2 ^ (d + a)) (l + 1)) n =
      if (x - 2 ^ b) % size (2 ^ c) (2 ^ b) (2 ^ (d + a)) l < (l + 1) * 2 ^ b then
        .ok (l + 1, n + (1 + (x - 2 ^ b) / size (2 ^ c) (2 ^ b) (2 ^ (d + a)) l * nodes (2 ^ c) (l + 1)),
          (x - 2 ^ b) % size (2 ^ c) (2 ^ b) (2 ^ (d + a)) l)
      else nodeCountWalk pr c b (l + 1) ((x - 2 ^ b) % size (2 ^ c) (2 ^ b) (2 ^ (d + a)) l)
        (nodes (2 ^ c) l) (entryData (2 ^ c) (2 ^ (d + a)) l)
        (n + (1 + (x - 2 ^ b) / size (2 ^ c) (2 ^ b) (2 ^ (d + a)) l * nodes (2 ^ c) (l + 1))) := by
  have hc := h.c_lt
  have hbc := h.b_lt_c
  have hf := h.two_le
  have hBpos : 0 < 2 ^ b := pow_pos (by decide)
  have hpath := path_le_size (2 ^ c) (2 ^ b) (2 ^ (d + a)) (by omega) h.data_ge l
  have hmulpath : (l + 3) * 2 ^ b = (l + 1) * 2 ^ b + 2 * 2 ^ b := by ring
  have hsizeeq := size_eq (2 ^ c) (2 ^ b) (2 ^ (d + a)) l
  have hnodespos := nodes_pos (2 ^ c) l
  have hdiff := sub_one_div_nodes (2 ^ c) l (by omega)
  have hdata := entryData_div (2 ^ c) (2 ^ (d + a)) l (by omega)
  have hentry : entryData (2 ^ c) (2 ^ (d + a)) (l + 1) = (2 ^ c) ^ l * 2 ^ (d + a) := rfl
  rw [hentry] at hdata ⊢
  have hsplit := Nat.div_add_mod' (x - 2 ^ b) (size (2 ^ c) (2 ^ b) (2 ^ (d + a)) l)
  have hnodes : nodes (2 ^ c) (l + 1) ≤ size (2 ^ c) (2 ^ b) (2 ^ (d + a)) l := by
    rw [hsizeeq]
    exact le_trans (Nat.le_mul_of_pos_right _ hBpos) (Nat.le_add_right _ _)
  rw [nodeCountWalk, shlU64_ok pr (by omega) (by omega), ok_bind, addU64_ok pr (by omega), ok_bind,
    ← hsizeeq, shl_one pr (by omega), ok_bind, subU64_ok pr hB, ok_bind, addU64_ok pr (by omega), ok_bind,
    divU64_ok (by omega), ok_bind]
  generalize hfull : (x - 2 ^ b) / size (2 ^ c) (2 ^ b) (2 ^ (d + a)) l = full at hsplit
  generalize hr : (x - 2 ^ b) % size (2 ^ c) (2 ^ b) (2 ^ (d + a)) l = r at hsplit
  have hfullnodes := Nat.mul_le_mul_left full hnodes
  have hrest : x - 2 ^ b - full * size (2 ^ c) (2 ^ b) (2 ^ (d + a)) l = r := by omega
  rw [mulU64_ok pr (by omega), ok_bind, subU64_ok pr (by omega), ok_bind, mulU64_ok pr (by omega),
    ok_bind, addU64_ok pr (by omega), ok_bind, hrest, shlU64_ok pr (by omega) (by omega), ok_bind,
    add_assoc n 1]
  split
  · rfl
  · rw [if_pos (Nat.succ_ne_zero l), subU64_ok pr (by omega), ok_bind, shrU64_ok pr hc, ok_bind,
      shrU64_ok pr hc, ok_bind, hdiff, hdata]

theorem nodeCountWalk_one (pr : Profile) (hb : b < 64) (x e n : Nat) (he : e < 2 ^ 64)
    (hB : 2 ^ b ≤ x) (hn : n + x < 2 ^ 64) :
    nodeCountWalk pr c b 1 x 0 e n =
      if e = 0 then panic .divByZero else .ok (0, n + 1, (x - 2 ^ b) % e) := by
  have hBpos : 0 < 2 ^ b := pow_pos (by decide)
  rw [nodeCountWalk, shlU64_ok pr hb (by omega), ok_bind, addU64_ok pr (by omega), ok_bind,
    zero_mul, zero_add, shl_one pr hb, ok_bind, subU64_ok pr hB, ok_bind,
    addU64_ok pr (by omega), ok_bind, divU64]
  split
  · rfl
  · have hle := Nat.div_mul_le_self (x - 2 ^ b) e
    have hmod : x - 2 ^ b - (x - 2 ^ b) / e * e = (x - 2 ^ b) % e := by
      rw [mul_comm, Nat.mod_eq_sub_mul_div]
    rw [ok_bind, mulU64_ok pr (by omega), ok_bind, subU64_ok pr hle, ok_bind,
      mulU64_ok pr (by omega), ok_bind, addU64_ok pr (by omega), ok_bind, ok_bind,
      if_neg (by omega), if_neg (by omega), hmod]
    rfl

theorem nodeCountWalk_cut (pr : Profile) (h : Sizes c d b a) (l x n : Nat)
    (hdata : 2 ^ (d + a) < 2 ^ 64)
    (hsize : ∀ l' < l, size (2 ^ c) (2 ^ b) (2 ^ (d + a)) l' < 2 ^ 64) (hpath : (l + 1) * 2 ^ b ≤ x)
    (hn : n + x < 2 ^ 64) :
    ∃ j, 0 < j ∧ nodeCountWalk pr c b (l + 1) x (nodes (2 ^ c) l) (entryData (2 ^ c) (2 ^ (d + a)) l) n =
      if (cut (2 ^ c) (2 ^ b) (2 ^ (d + a)) l x).inLeaf then
        if 2 ^ (d + a) / 2 ^ c = 0 then panic .divByZero
        else .ok (0, n + (cut (2 ^ c) (2 ^ b) (2 ^ (d + a)) l x).nodeCount,
          (cut (2 ^ c) (2 ^ b) (2 ^ (d + a)) l x).rest % (2 ^ (d + a) / 2 ^ c))
      else .ok (j, n + (cut (2 ^ c) (2 ^ b) (2 ^ (d + a)) l x).nodeCount,
        (cut (2 ^ c) (2 ^ b) (2 ^ (d + a)) l x).rest) := by
  have hbc := h.b_lt_c
  have hc := h.c_lt
  have hBpos : 0 < 2 ^ b := pow_pos (by decide)
  induction l generalizing x n with
  | zero =>
    have hle := Nat.div_le_self (2 ^ (d + a)) (2 ^ c)
    refine ⟨1, Nat.zero_lt_one, ?_⟩
    exact nodeCountWalk_one pr (by omega) x (2 ^ (d + a) / 2 ^ c) n (by omega) (by omega) hn
  | succ l ih =>
    have hB : 2 ^ b ≤ x := le_trans (Nat.le_mul_of_pos_left _ (succ_pos _)) hpath
    have hl := hsize l (Nat.lt_succ_self l)
    have hsizeeq := size_eq (2 ^ c) (2 ^ b) (2 ^ (d + a)) l
    have hsplit := Nat.div_add_mod' (x - 2 ^ b) (size (2 ^ c) (2 ^ b) (2 ^ (d + a)) l)
    have hnodes : nodes (2 ^ c) (l + 1) ≤ size (2 ^ c) (2 ^ b) (2 ^ (d + a)) l := by
      rw [hsizeeq]
      exact le_trans (Nat.le_mul_of_pos_right _ hBpos) (Nat.le_add_right _ _)
    have hfull := Nat.mul_le_mul_left ((x - 2 ^ b) / size (2 ^ c) (2 ^ b) (2 ^ (d + a)) l) hnodes
    rw [nodeCountWalk_succ pr h l x n hl hB hn, cut]
    by_cases hr : (x - 2 ^ b) % size (2 ^ c) (2 ^ b) (2 ^ (d + a)) l < (l + 1) * 2 ^ b
    · refine ⟨l + 1, succ_pos l, ?_⟩
      rw [if_pos hr, if_pos hr]
      rfl
    · obtain ⟨j, hj, hwalk⟩ := ih ((x - 2 ^ b) % size (2 ^ c) (2 ^ b) (2 ^ (d + a)) l)
        (n + (1 + (x - 2 ^ b) / size (2 ^ c) (2 ^ b) (2 ^ (d + a)) l * nodes (2 ^ c) (l + 1)))
        (fun l' hl' => hsize l' (Nat.lt_succ_of_lt hl')) (Nat.le_of_not_lt hr) (by omega)
      refine ⟨j, hj, ?_⟩
      rw [if_neg hr, hwalk, if_neg hr]
      simp only [add_assoc]

variable {l : Nat}

theorem imageAllocationBlocksToAuthTreeNodeCount_cut (pr : Profile) (h : Sizes c d b a) {inv : Nat}
    (hinv : IsInverse c inv) (himage : image < 2 ^ 64)
    (hl : IsRootLevel (2 ^ c) (2 ^ b) (2 ^ (d + a)) image l) :
    imageAllocationBlocksToAuthTreeNodeCount pr image (l + 2) c inv d b a =
      if (cut (2 ^ c) (2 ^ b) (2 ^ (d + a)) (l + 1) image).inLeaf then
        if 2 ^ (d + a) / 2 ^ c = 0 then panic .divByZero
        else do
          debugAssert pr ((cut (2 ^ c) (2 ^ b) (2 ^ (d + a)) (l + 1) image).rest %
            (2 ^ (d + a) / 2 ^ c) < 2 ^ a)
          pure ((cut (2 ^ c) (2 ^ b) (2 ^ (d + a)) (l + 1) image).nodeCount,
            (cut (2 ^ c) (2 ^ b) (2 ^ (d + a)) (l + 1) image).rest % (2 ^ (d + a) / 2 ^ c))
      else .ok ((cut (2 ^ c) (2 ^ b) (2 ^ (d + a)) (l + 1) image).nodeCount,
        (cut (2 ^ c) (2 ^ b) (2 ^ (d + a)) (l + 1) image).rest) := by
  have hc := h.c_lt
  have hbc := h.b_lt_c
  have hf := h.two_le
  have hBpos : 0 < 2 ^ b := pow_pos (by decide)
  have hpath := hl.path_le h
  have hB : 2 ^ b ≤ image := le_trans (Nat.le_mul_of_pos_left _ (succ_pos _)) hpath
  have hsize : size (2 ^ c) (2 ^ b) (2 ^ (d + a)) l < 2 ^ 64 := lt_of_le_of_lt hl.size_le himage
  have hbits := (completeTreeTotal_ok pr h hinv l hsize).2
  have hdata : 2 ^ (d + a) < 2 ^ 64 := Nat.pow_lt_pow_right (by decide) (by omega)
  have hentry : entryData (2 ^ c) (2 ^ (d + a)) (l + 1) = 2 ^ (l * c + d + a) := by
    rw [entryData, ← pow_mul, ← pow_add, mul_comm c l, add_assoc]
  obtain ⟨j, hj, hwalk⟩ := nodeCountWalk_cut pr h (l + 1) image 0 hdata
    (fun l' hl' => lt_of_le_of_lt (size_mono _ _ _ (by omega) hBpos (Nat.le_of_lt_succ hl')) hsize)
    hpath (by omega)
  rw [hentry] at hwalk
  rw [imageAllocationBlocksToAuthTreeNodeCount, shl_one pr (by omega), ok_bind, if_neg (by omega),
    rootEntrySubtree, if_pos (by omega), Nat.add_sub_cancel,
    authSubtreeNodeCount_ok pr h.c_pos hc hinv (show l < l + 2 - 1 by omega)
      (by rw [show l + 2 - 1 - 1 = l by omega, mul_comm]; omega), ok_bind, shl_one pr hbits,
    ok_bind, pure_eq_ok, ok_bind]
  dsimp only
  rw [hwalk]
  split
  · split
    · rfl
    · rw [ok_bind, zero_add]
      simp only [ne_eq, not_true_eq_false, false_or]
  · rw [ok_bind, zero_add]
    rw [debugAssert_ok pr (Or.inl (by omega)), ok_bind]
    rfl

/-- What the number of nodes and the remainder are for: everything that does not
remain is covered, and the remainder is smaller than a Data Block or too small
for the nodes of a path down to a new leaf. -/
structure NodeCountCorrect (f B D A image n rem : Nat) : Prop where
  fits : n * B + rem ≤ image
  covers : image - rem - n * B ≤ leafCount f n * D
  small : rem < A ∨ ∀ k, k * B ≤ rem → leafCount f (n + k) = leafCount f n

section correct

variable {f B D A : Nat}

theorem nodeCountCorrect_of_leaf (hf : 0 < f) {l q y rem : Nat} (hq : q < f ^ l) (hy : y < D)
    (hheight : nodes f l < position f 0 l q + 1) (hle : rem ≤ y) (hA : rem < A) :
    NodeCountCorrect f B D A (dataBegin f B D l q + y) (position f 0 l q + 1) rem := by
  have hlt := position_lt f 0 l q hf hq
  rw [zero_add] at hlt
  refine ⟨?_, ?_, Or.inl hA⟩
  · rw [dataBegin]
    omega
  · rw [leafCount_eq f hf hheight hlt, leaves_position_succ f hf l q hq, dataBegin,
      add_mul q 1 D]
    omega

theorem nodeCountCorrect_of_gap (hf : 0 < f) {c : Cut} (h : Gap f B D l image c)
    (hheight : nodes f l < c.nodeCount) : NodeCountCorrect f B D A image c.nodeCount c.rest := by
  have htotal := h.total
  have hle := h.nodes_le 0 (by omega)
  have hcount := leafCount_eq f hf hheight hle
  refine ⟨by omega, by rw [hcount]; omega, Or.inr ?_⟩
  intro k hk
  rw [hcount, leafCount_eq f hf (by omega) (h.nodes_le k hk), h.leaves_eq k hk]

theorem nodeCountCorrect_of_complete (hf : 2 ≤ f) {l m rem : Nat} (hm : m ≤ l + 1)
    (hsmall : rem < A ∨ ∀ k, k * B ≤ rem → m + k ≤ l + 1) :
    NodeCountCorrect f B D A (size f B D l + m * B + rem) (nodes f (l + 1) + m) rem := by
  have hsize := size_eq f B D l
  have hmul : (nodes f (l + 1) + m) * B = nodes f (l + 1) * B + m * B := add_mul _ _ _
  have hcount := leafCount_nodes_add f hf l m hm
  refine ⟨by omega, by rw [hcount]; omega, ?_⟩
  rcases hsmall with hA | hk
  · exact Or.inl hA
  · right
    intro k hkB
    rw [hcount, add_assoc, leafCount_nodes_add f hf l (m + k) (hk k hkB)]

/-- The tree for an image that exceeds a single node's has got more than one
child of the root or a path beside a complete one. -/
theorem nodes_lt_nodeCount (hB : 0 < B) (hpath : (l + 2) * B ≤ image)
    (hl : IsRootLevel f B D image l) : nodes f (l + 1) < (cut f B D (l + 1) image).nodeCount := by
  have hspos := size_pos f B D hB l
  have hsplit := Nat.div_add_mod' (image - B) (size f B D l)
  have hmul : (l + 2) * B = (l + 1) * B + B := Nat.succ_mul _ _
  rw [cut]
  split
  · rename_i hr
    have hfull : 1 ≤ (image - B) / size f B D l := by
      by_contra hzero
      rw [Nat.lt_one_iff.mp (Nat.lt_of_not_le hzero), zero_mul] at hsplit
      omega
    have := Nat.mul_le_mul_right (nodes f (l + 1)) hfull
    dsimp only
    omega
  · dsimp only
    rcases Nat.eq_zero_or_pos l with rfl | hpos
    · rw [cut]
      have hone : nodes f (0 + 1) = 1 := rfl
      dsimp only
      omega
    · have hleast := hl.least (by omega)
      have hfull : 1 ≤ (image - B) / size f B D l := by
        rw [Nat.le_div_iff_mul_le hspos]
        omega
      have := Nat.mul_le_mul_right (nodes f (l + 1)) hfull
      omega

end correct

/-- The function's result is correct, whether or not debug assertions are on. -/
def ReturnsCorrect (f B D A image : Nat) (run : Profile → Comp (Nat × Nat)) : Prop :=
  ∀ pr, ∃ n rem, run pr = .ok (n, rem) ∧ NodeCountCorrect f B D A image n rem

/-- The image ends between the tree's Data Blocks, as far as the code notices:
an image for a single node has no Data Blocks or the whole leaf's; otherwise,
where the image ends within the data of a leaf, the unit that the code takes for
the Data Block size must not be zero and leave a remainder below the actual
size; and a path beyond the complete tree, which the code then counts in, must
not be given data. -/
structure CutsCleanly (f B D A image : Nat) : Prop where
  single : image ≤ size f B D 0 → D < 2 ^ 64 ∧ (image - B < A ∨ image - B = D)
  leaf : ∀ l, IsRootLevel f B D image l → ∀ q y, q < f ^ (l + 1) → y < D →
    image = dataBegin f B D (l + 1) q + y → D / f ≠ 0 ∧ y % (D / f) < A
  beyond : ∀ l, IsRootLevel f B D image l → ∀ y, image = size f B D (l + 1) + (l + 1) * B + y →
    y < D / f ∧ y < A

section returns

variable {f B D A n rem : Nat} {run : Profile → Comp (Nat × Nat)}

theorem not_returnsCorrect_of_panic {p : Panic} (hrun : run .debug = panic p) :
    ¬ ReturnsCorrect f B D A image run := by
  intro h
  obtain ⟨n, rem, hok, -⟩ := h .debug
  rw [hrun] at hok
  cases hok

theorem returnsCorrect_assert_iff {P : Prop} [Decidable P]
    (hrun : ∀ pr, run pr = (do debugAssert pr P; pure (n, rem))) :
    ReturnsCorrect f B D A image run ↔ P ∧ NodeCountCorrect f B D A image n rem := by
  constructor
  · intro h
    by_cases hP : P
    · obtain ⟨n', rem', hok, hcorrect⟩ := h .debug
      rw [hrun, debugAssert_ok .debug hP] at hok
      cases hok
      exact ⟨hP, hcorrect⟩
    · have hpanic : run .debug = panic .debugAssert := by
        rw [hrun, debugAssert, if_neg hP]
        rfl
      exact absurd h (not_returnsCorrect_of_panic hpanic)
  · rintro ⟨hP, hcorrect⟩ pr
    refine ⟨n, rem, ?_, hcorrect⟩
    rw [hrun, debugAssert_ok pr hP]
    rfl

theorem returnsCorrect_of_ok (hrun : ∀ pr, run pr = .ok (n, rem))
    (h : NodeCountCorrect f B D A image n rem) : ReturnsCorrect f B D A image run :=
  fun pr => ⟨n, rem, hrun pr, h⟩

end returns

theorem leafCount_one {f : Nat} (hf : 0 < f) : leafCount f 1 = 1 :=
  leafCount_nodes f hf 0

variable {inv : Profile → Nat}

theorem returnsCorrect_one_iff (h : Sizes c d b a) (himage : image < 2 ^ 64) (hB : 2 ^ b ≤ image)
    (hle : image ≤ size (2 ^ c) (2 ^ b) (2 ^ (d + a)) 0) :
    ReturnsCorrect (2 ^ c) (2 ^ b) (2 ^ (d + a)) (2 ^ a) image
        (fun pr => imageAllocationBlocksToAuthTreeNodeCount pr image 1 c (inv pr) d b a) ↔
      2 ^ (d + a) < 2 ^ 64 ∧ (image - 2 ^ b < 2 ^ a ∨ image - 2 ^ b = 2 ^ (d + a)) := by
  have hbc := h.b_lt_c
  have hc := h.c_lt
  have hD : 0 < 2 ^ (d + a) := pow_pos (by decide)
  rw [size] at hle
  have hrun (pr : Profile) : imageAllocationBlocksToAuthTreeNodeCount pr image 1 c (inv pr) d b a = (do
      let data ← shlU64 pr 1 (d + a)
      let (level, n, remaining) ← nodeCountWalk pr c b 1 image 0 data 0
      debugAssert pr (level ≠ 0 ∨ remaining < 2 ^ a)
      pure (n, remaining)) := by
    rw [imageAllocationBlocksToAuthTreeNodeCount, shl_one pr (by omega), ok_bind,
      if_neg (by omega), rootEntrySubtree, if_neg (by decide)]
    cases shlU64 pr 1 (d + a) <;> rfl
  by_cases hbits : d + a < 64
  · have hlt : 2 ^ (d + a) < 2 ^ 64 := Nat.pow_lt_pow_right (by decide) hbits
    have hassert (pr : Profile) :
        imageAllocationBlocksToAuthTreeNodeCount pr image 1 c (inv pr) d b a = (do
          debugAssert pr ((image - 2 ^ b) % 2 ^ (d + a) < 2 ^ a)
          pure (1, (image - 2 ^ b) % 2 ^ (d + a))) := by
      rw [hrun, shl_one pr hbits, ok_bind, nodeCountWalk_one pr (by omega) image _ 0 hlt hB (by omega),
        if_neg (by omega), ok_bind]
      simp only [ne_eq, not_true_eq_false, false_or, zero_add]
    have hmod : (image - 2 ^ b) % 2 ^ (d + a) < 2 ^ a ↔
        image - 2 ^ b < 2 ^ a ∨ image - 2 ^ b = 2 ^ (d + a) := by
      rcases lt_or_eq_of_le (show image - 2 ^ b ≤ 2 ^ (d + a) by omega) with hless | heq
      · rw [Nat.mod_eq_of_lt hless]
        omega
      · have : 0 < 2 ^ a := pow_pos (by decide)
        rw [heq, Nat.mod_self]
        omega
    rw [returnsCorrect_assert_iff hassert, hmod]
    constructor
    · rintro ⟨hsmall, -⟩
      exact ⟨hlt, hsmall⟩
    · rintro ⟨-, hsmall⟩
      have hrest := mod_le (image - 2 ^ b) (2 ^ (d + a))
      refine ⟨hsmall, by omega, ?_, Or.inl (hmod.mpr hsmall)⟩
      rw [leafCount_one (pow_pos (by decide))]
      omega
  · have hge : 2 ^ 64 ≤ 2 ^ (d + a) := Nat.pow_le_pow_right (by decide) (Nat.le_of_not_lt hbits)
    have hpanic : imageAllocationBlocksToAuthTreeNodeCount .debug image 1 c (inv .debug) d b a =
        panic .overflow := by
      rw [hrun, shlU64, if_neg hbits]
      rfl
    constructor
    · intro hok
      exact absurd hok (not_returnsCorrect_of_panic hpanic)
    · rintro ⟨hlt, -⟩
      omega

theorem returnsCorrect_of_gap (h : Sizes c d b a) (hinv : ∀ pr, IsInverse c (inv pr)) (himage : image < 2 ^ 64)
    (hl : IsRootLevel (2 ^ c) (2 ^ b) (2 ^ (d + a)) image l) {x : Cut}
    (hcut : cut (2 ^ c) (2 ^ b) (2 ^ (d + a)) (l + 1) image = x) (hleaf : x.inLeaf = false)
    (hcorrect : NodeCountCorrect (2 ^ c) (2 ^ b) (2 ^ (d + a)) (2 ^ a) image x.nodeCount x.rest) :
    ReturnsCorrect (2 ^ c) (2 ^ b) (2 ^ (d + a)) (2 ^ a) image
      (fun pr => imageAllocationBlocksToAuthTreeNodeCount pr image (l + 2) c (inv pr) d b a) := by
  refine returnsCorrect_of_ok (fun pr => ?_) hcorrect
  rw [imageAllocationBlocksToAuthTreeNodeCount_cut pr h (hinv pr) himage hl, hcut, hleaf]
  rfl

theorem returnsCorrect_leaf_iff (h : Sizes c d b a) (hinv : ∀ pr, IsInverse c (inv pr))
    (himage : image < 2 ^ 64) {l n y : Nat} (hl : IsRootLevel (2 ^ c) (2 ^ b) (2 ^ (d + a)) image l)
    (hcut : cut (2 ^ c) (2 ^ b) (2 ^ (d + a)) (l + 1) image = ⟨n, y, true⟩) :
    ReturnsCorrect (2 ^ c) (2 ^ b) (2 ^ (d + a)) (2 ^ a) image
        (fun pr => imageAllocationBlocksToAuthTreeNodeCount pr image (l + 2) c (inv pr) d b a) ↔
      2 ^ (d + a) / 2 ^ c ≠ 0 ∧ y % (2 ^ (d + a) / 2 ^ c) < 2 ^ a ∧
        NodeCountCorrect (2 ^ c) (2 ^ b) (2 ^ (d + a)) (2 ^ a) image n
          (y % (2 ^ (d + a) / 2 ^ c)) := by
  have hrun (pr : Profile) := imageAllocationBlocksToAuthTreeNodeCount_cut pr h (hinv pr) himage hl
  simp only [hcut, if_true] at hrun
  by_cases hunit : 2 ^ (d + a) / 2 ^ c = 0
  · simp only [hunit, if_true] at hrun
    constructor
    · intro hok
      exact absurd hok (not_returnsCorrect_of_panic (hrun .debug))
    · rintro ⟨hne, -⟩
      exact absurd hunit hne
  · simp only [hunit, if_false] at hrun
    rw [returnsCorrect_assert_iff hrun]
    exact ⟨fun hand => ⟨hunit, hand⟩, fun hand => hand.2⟩

theorem returnsCorrect_inner_iff (h : Sizes c d b a) (hinv : ∀ pr, IsInverse c (inv pr))
    (himage : image < 2 ^ 64) (hl : IsRootLevel (2 ^ c) (2 ^ b) (2 ^ (d + a)) image l) :
    ReturnsCorrect (2 ^ c) (2 ^ b) (2 ^ (d + a)) (2 ^ a) image
        (fun pr => imageAllocationBlocksToAuthTreeNodeCount pr image (l + 2) c (inv pr) d b a) ↔
      (∀ q y, q < (2 ^ c) ^ (l + 1) → y < 2 ^ (d + a) →
        image = dataBegin (2 ^ c) (2 ^ b) (2 ^ (d + a)) (l + 1) q + y →
          2 ^ (d + a) / 2 ^ c ≠ 0 ∧ y % (2 ^ (d + a) / 2 ^ c) < 2 ^ a) ∧
      (∀ y, image = size (2 ^ c) (2 ^ b) (2 ^ (d + a)) (l + 1) + (l + 1) * 2 ^ b + y →
        y < 2 ^ (d + a) / 2 ^ c ∧ y < 2 ^ a) := by
  have hf := h.two_le
  have hpos : 0 < 2 ^ c := by omega
  have hB : 0 < 2 ^ b := pow_pos (by decide)
  have hpath := hl.path_le h
  have hheight := nodes_lt_nodeCount hB hpath hl
  by_cases hsize : image < size (2 ^ c) (2 ^ b) (2 ^ (d + a)) (l + 1)
  · have hbeyond (y : Nat) :
        image ≠ size (2 ^ c) (2 ^ b) (2 ^ (d + a)) (l + 1) + (l + 1) * 2 ^ b + y := by omega
    rcases cut_cases hpos hB (l + 1) image hpath hsize with ⟨q, y, hq, hy, rfl⟩ | ⟨hleaf, hgap⟩
    · have hcut := cut_dataBegin (D := 2 ^ (d + a)) hpos hB (l + 1) q y hq hy
      rw [hcut] at hheight
      rw [returnsCorrect_leaf_iff h hinv himage hl hcut]
      constructor
      · rintro ⟨hunit, hsmall, -⟩
        refine ⟨?_, fun y' hy' => absurd hy' (hbeyond y')⟩
        intro q' y' hq' hy' heq
        have hcut' := cut_dataBegin (D := 2 ^ (d + a)) hpos hB (l + 1) q' y' hq' hy'
        rw [← heq, hcut, Cut.mk.injEq] at hcut'
        obtain ⟨-, rfl, -⟩ := hcut'
        exact ⟨hunit, hsmall⟩
      · rintro ⟨hall, -⟩
        obtain ⟨hunit, hsmall⟩ := hall q y hq hy rfl
        exact ⟨hunit, hsmall, nodeCountCorrect_of_leaf hpos hq hy hheight (mod_le _ _) hsmall⟩
    · have hok := returnsCorrect_of_gap h hinv himage hl rfl hleaf
        (nodeCountCorrect_of_gap hpos hgap hheight)
      refine ⟨fun _ => ⟨?_, fun y' hy' => absurd hy' (hbeyond y')⟩, fun _ => hok⟩
      intro q y hq hy heq
      rw [heq, cut_dataBegin hpos hB (l + 1) q y hq hy] at hleaf
      cases hleaf
  · obtain ⟨r, rfl⟩ : ∃ r, image = size (2 ^ c) (2 ^ b) (2 ^ (d + a)) (l + 1) + r :=
      ⟨image - size (2 ^ c) (2 ^ b) (2 ^ (d + a)) (l + 1), by omega⟩
    have hwithin (q y : Nat) (hq : q < (2 ^ c) ^ (l + 1)) (hy : y < 2 ^ (d + a)) :
        size (2 ^ c) (2 ^ b) (2 ^ (d + a)) (l + 1) + r ≠
          dataBegin (2 ^ c) (2 ^ b) (2 ^ (d + a)) (l + 1) q + y := by
      have := dataBegin_add_le (2 ^ c) (2 ^ b) (2 ^ (d + a)) hpos (l + 1) q hq
      omega
    have hr : r < (l + 3) * 2 ^ b := by
      have := hl.below
      omega
    have hcut := cut_of_ge hpos hB h.data_ge l r hr
    by_cases hgap : r < (l + 1) * 2 ^ b
    · rw [if_pos hgap] at hcut
      have hcorrect := nodeCountCorrect_of_complete (B := 2 ^ b) (D := 2 ^ (d + a)) (A := 2 ^ a) hf
        (l := l + 1) (m := 0) (Nat.zero_le _) (Or.inr (fun k (hk : k * 2 ^ b ≤ r) => by
          have := Nat.lt_of_mul_lt_mul_right (lt_of_le_of_lt hk hgap)
          omega))
      simp only [zero_mul, add_zero] at hcorrect
      have hok := returnsCorrect_of_gap h hinv himage hl hcut rfl hcorrect
      refine ⟨fun _ => ⟨?_, ?_⟩, fun _ => hok⟩
      · intro q y hq hy heq
        exact absurd heq (hwithin q y hq hy)
      · intro y heq
        omega
    · rw [if_neg hgap] at hcut
      obtain ⟨y, rfl⟩ : ∃ y, r = (l + 1) * 2 ^ b + y := ⟨r - (l + 1) * 2 ^ b, by omega⟩
      rw [Nat.add_sub_cancel_left] at hcut
      rw [returnsCorrect_leaf_iff h hinv himage hl hcut]
      have hcount := leafCount_nodes_add (2 ^ c) hf (l + 1) (l + 1) (by omega)
      constructor
      · rintro ⟨hunit, hsmall, hcorrect⟩
        -- What exceeds the remainder is not covered.
        have hcovers := hcorrect.covers
        have hrest := mod_le y (2 ^ (d + a) / 2 ^ c)
        have hsizeeq := size_eq (2 ^ c) (2 ^ b) (2 ^ (d + a)) (l + 1)
        rw [hcount, hsizeeq, add_mul (nodes _ _)] at hcovers
        have hmod : y % (2 ^ (d + a) / 2 ^ c) = y := by omega
        have hlt := Nat.mod_lt y (pos_of_ne_zero hunit)
        rw [hmod] at hsmall hlt
        refine ⟨?_, ?_⟩
        · intro q y' hq hy' heq
          exact absurd heq (hwithin q y' hq hy')
        · intro y' heq
          obtain rfl : y' = y := by omega
          exact ⟨hlt, hsmall⟩
      · rintro ⟨-, hall⟩
        obtain ⟨hlt, hsmall⟩ := hall y (by omega)
        rw [Nat.mod_eq_of_lt hlt, ← add_assoc]
        exact ⟨by omega, hsmall, nodeCountCorrect_of_complete hf (by omega) (Or.inl hsmall)⟩

theorem sizes_of_geometry {l : ImageLayout} {g : NodeGeometry} (h : GeometryOk l g) :
    Sizes g.nodeDigestsPerNodeLog2 g.dataDigestsPerNodeLog2 g.nodeAllocationBlocksLog2
      g.dataBlockAllocationBlocksLog2 := by
  obtain ⟨hcpos, hdpos, hslt, hseq, hceq, hdeq, -⟩ := h
  exact ⟨hcpos, by omega, by omega, by omega⟩

/-- The dimensions chosen for an image are right exactly if the image ends
cleanly. -/
theorem returnsCorrect_iff_cutsCleanly (l : ImageLayout) (g : NodeGeometry)
    (hg : nodeGeometry l = .ok g) (image : Nat) (himage : image < 2 ^ 64)
    (hnode : 2 ^ g.nodeAllocationBlocksLog2 ≤ image) :
    ReturnsCorrect (2 ^ g.nodeDigestsPerNodeLog2) (2 ^ g.nodeAllocationBlocksLog2)
        (2 ^ (g.dataDigestsPerNodeLog2 + g.dataBlockAllocationBlocksLog2))
        (2 ^ g.dataBlockAllocationBlocksLog2) image
        (fun pr => AuthTreeConfig.imageAllocationBlocksToAuthTreeNodeCount pr l image) ↔
      CutsCleanly (2 ^ g.nodeDigestsPerNodeLog2) (2 ^ g.nodeAllocationBlocksLog2)
        (2 ^ (g.dataDigestsPerNodeLog2 + g.dataBlockAllocationBlocksLog2))
        (2 ^ g.dataBlockAllocationBlocksLog2) image := by
  have hok := nodeGeometry_ok hg
  have hsizes := sizes_of_geometry hok
  choose inv hinv hlt hmul using fun pr =>
    digestsPerNodeMinusOneInvModU64_ok pr hok.c_pos hsizes.c_lt
  have hinverse (pr : Profile) : IsInverse g.nodeDigestsPerNodeLog2 (inv pr) := ⟨hlt pr, hmul pr⟩
  have hrun (levels : Nat) (pr : Profile)
      (hlevels : imageAllocationBlocksToAuthTreeLevels pr image g.nodeDigestsPerNodeLog2 (inv pr)
        g.dataDigestsPerNodeLog2 g.nodeAllocationBlocksLog2 g.dataBlockAllocationBlocksLog2 =
          .ok levels) :
      AuthTreeConfig.imageAllocationBlocksToAuthTreeNodeCount pr l image =
        imageAllocationBlocksToAuthTreeNodeCount pr image levels g.nodeDigestsPerNodeLog2 (inv pr)
          g.dataDigestsPerNodeLog2 g.nodeAllocationBlocksLog2 g.dataBlockAllocationBlocksLog2 := by
    rw [AuthTreeConfig.imageAllocationBlocksToAuthTreeNodeCount, hg, ok_bind, hinv, ok_bind, hlevels,
      ok_bind]
  rcases lt_or_ge (size (2 ^ g.nodeDigestsPerNodeLog2) (2 ^ g.nodeAllocationBlocksLog2)
    (2 ^ (g.dataDigestsPerNodeLog2 + g.dataBlockAllocationBlocksLog2)) 0) image with habove | hsingle
  · obtain ⟨j, -, hj⟩ := imageAllocationBlocksToAuthTreeLevels_ok .debug hsizes (hinverse .debug)
      himage habove
    have hfun : (fun pr => AuthTreeConfig.imageAllocationBlocksToAuthTreeNodeCount pr l image) =
        fun pr => imageAllocationBlocksToAuthTreeNodeCount pr image (j + 2) g.nodeDigestsPerNodeLog2
          (inv pr) g.dataDigestsPerNodeLog2 g.nodeAllocationBlocksLog2
          g.dataBlockAllocationBlocksLog2 := by
      funext pr
      obtain ⟨j', hlevels, hj'⟩ := imageAllocationBlocksToAuthTreeLevels_ok pr hsizes (hinverse pr)
        himage habove
      obtain rfl := hj.unique (pow_pos (by decide)) (pow_pos (by decide)) hj'
      exact hrun (j + 2) pr hlevels
    rw [hfun, returnsCorrect_inner_iff hsizes hinverse himage hj]
    constructor
    · rintro ⟨hleaf, hbeyond⟩
      refine ⟨fun hle => absurd habove (Nat.not_lt_of_le hle), ?_, ?_⟩
      · intro j' hj'
        obtain rfl := hj.unique (pow_pos (by decide)) (pow_pos (by decide)) hj'
        exact hleaf
      · intro j' hj'
        obtain rfl := hj.unique (pow_pos (by decide)) (pow_pos (by decide)) hj'
        exact hbeyond
    · intro hclean
      exact ⟨hclean.leaf j hj, hclean.beyond j hj⟩
  · have hfun : (fun pr => AuthTreeConfig.imageAllocationBlocksToAuthTreeNodeCount pr l image) =
        fun pr => imageAllocationBlocksToAuthTreeNodeCount pr image 1 g.nodeDigestsPerNodeLog2
          (inv pr) g.dataDigestsPerNodeLog2 g.nodeAllocationBlocksLog2
          g.dataBlockAllocationBlocksLog2 := by
      funext pr
      exact hrun 1 pr (imageAllocationBlocksToAuthTreeLevels_one pr hsizes hnode hsingle)
    rw [hfun, returnsCorrect_one_iff hsizes himage hnode hsingle]
    constructor
    · intro hone
      refine ⟨fun _ => hone, ?_, ?_⟩
      · intro j hj
        exact absurd hj.above (Nat.not_lt_of_le hsingle)
      · intro j hj
        exact absurd hj.above (Nat.not_lt_of_le hsingle)
    · intro hclean
      exact hclean.single hsingle

/-- Three blocks: a node and two of the blocks it could cover. -/
theorem sampleLayout_three_not_returnsCorrect : nodeGeometry sampleLayout = .ok ⟨0, 0, 2, 2⟩ ∧
    ¬ ReturnsCorrect (2 ^ 2) (2 ^ 0) (2 ^ (2 + 0)) (2 ^ 0) 3
      (fun pr => AuthTreeConfig.imageAllocationBlocksToAuthTreeNodeCount pr sampleLayout 3) := by
  refine ⟨by decide +kernel, not_returnsCorrect_of_panic (p := .debugAssert) ?_⟩
  decide +kernel

theorem returnsCorrect_iff_cutsCleanly_sample :
    ReturnsCorrect (2 ^ 2) (2 ^ 0) (2 ^ (2 + 0)) (2 ^ 0) 11
        (fun pr => AuthTreeConfig.imageAllocationBlocksToAuthTreeNodeCount pr sampleLayout 11) ↔
      CutsCleanly (2 ^ 2) (2 ^ 0) (2 ^ (2 + 0)) (2 ^ 0) 11 :=
  returnsCorrect_iff_cutsCleanly sampleLayout ⟨0, 0, 2, 2⟩ (by decide +kernel) 11 (by decide)
    (by decide)

end CocoonFs.ImageNodeCount
