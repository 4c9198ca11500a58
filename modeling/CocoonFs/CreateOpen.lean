import CocoonFs.ImageNodeCount

namespace CocoonFs.CreateOpen

open Checked CompleteTree Extents ImageLevels ImageNodeCount Layout SubtreeCount TreeConfig TreeCut
  TreeShape
open DataBlocksMap (AuthTreeDataAllocationBlocksMap TreeRanges)
open AuthTreeConfig (new)

/-- The blocks set aside for the tree at the creation of an image, in units of
the larger of the IO Block and the Data Block size. -/
def alignedAuthTreeAllocationBlocks (l : ImageLayout) (g : NodeGeometry) (n : Nat) : Nat :=
  divCeil (n * 2 ^ g.nodeAllocationBlocksLog2)
      (2 ^ max l.ioBlockAllocationBlocksLog2.toNat g.dataBlockAllocationBlocksLog2) *
    2 ^ max l.ioBlockAllocationBlocksLog2.toNat g.dataBlockAllocationBlocksLog2

/-- The number of nodes that is found in there when opening the image. -/
def paddedNodeCount (l : ImageLayout) (g : NodeGeometry) (n : Nat) : Nat :=
  alignedAuthTreeAllocationBlocks l g n / 2 ^ g.nodeAllocationBlocksLog2

/-- A path of nodes beyond a complete tree, given data by the code. -/
def Beyond (f B D image j y : Nat) : Prop :=
  IsRootLevel f B D image j ∧ image = size f B D (j + 1) + (j + 1) * B + y

def beyondNodeCount (f j : Nat) : Nat := nodes f (j + 1 + 1) + (j + 1)

structure Created (f B D image n rem : Nat) : Prop where
  pos : 0 < n
  fits : n * B + rem ≤ image
  leaves_le : leafCount f n * D ≤ image + D
  large : 1 < n → D < image
  beyond : ∀ j y, Beyond f B D image j y → n = beyondNodeCount f j ∧ rem = y % (D / f)
  covers : (∀ j y, ¬ Beyond f B D image j y) → image - rem - n * B ≤ leafCount f n * D

section created

variable {f B D image : Nat}

theorem created_single (hf : 0 < f) (hle : image ≤ size f B D 0) (hB : B ≤ image) {rem : Nat}
    (hrem : rem ≤ image - B) : Created f B D image 1 rem := by
  have hcount := leafCount_one hf
  have hsize : size f B D 0 = B + D := rfl
  refine ⟨Nat.zero_lt_one, by omega, by rw [hcount]; omega, by omega, ?_, ?_⟩
  · rintro j y ⟨hj, -⟩
    exact absurd hj.above (Nat.not_lt_of_le hle)
  · intro _
    rw [hcount]
    omega

variable {j : Nat}

theorem created_leaf (hf : 0 < f) (hB : 0 < B) {q y rem : Nat} (hj : IsRootLevel f B D image j)
    (hpath : (j + 2) * B ≤ image) (hq : q < f ^ (j + 1)) (hy : y < D)
    (himage : image = dataBegin f B D (j + 1) q + y) (hrem : rem ≤ y) :
    Created f B D image (position f 0 (j + 1) q + 1) rem := by
  have hheight := nodes_lt_nodeCount hB hpath hj
  rw [himage, cut_dataBegin hf hB (j + 1) q y hq hy] at hheight
  have hcorrect := nodeCountCorrect_of_leaf (B := B) (A := rem + 1) hf hq hy hheight hrem (by omega)
  have hlt := position_lt f 0 (j + 1) q hf hq
  rw [zero_add] at hlt
  have hcount := leafCount_eq f hf hheight hlt
  rw [leaves_position_succ f hf (j + 1) q hq] at hcount
  have hend := dataBegin_add_le f B D hf (j + 1) q hq
  rw [← himage] at hcorrect
  refine ⟨Nat.succ_pos _, hcorrect.fits, ?_, ?_, ?_, fun _ => hcorrect.covers⟩
  · rw [hcount, himage, dataBegin, add_mul q 1 D]
    omega
  · intro _
    have := hj.above
    rw [size] at this
    omega
  · rintro j' y' ⟨hj', himage'⟩
    obtain rfl := hj.unique hf hB hj'
    omega

theorem created_gap (hf : 0 < f) (hB : 0 < B) {x : Cut} (hj : IsRootLevel f B D image j)
    (hsize : image < size f B D (j + 1)) (hgap : Gap f B D (j + 1) image x)
    (hheight : nodes f (j + 1) < x.nodeCount) : Created f B D image x.nodeCount x.rest := by
  have hcorrect := nodeCountCorrect_of_gap (A := 0) hf hgap hheight
  have hcount := leafCount_eq f hf hheight (hgap.nodes_le 0 (by omega))
  have htotal := hgap.total
  refine ⟨by omega, hcorrect.fits, ?_, ?_, ?_, fun _ => hcorrect.covers⟩
  · rw [hcount]
    omega
  · intro _
    have := hj.above
    rw [size] at this
    omega
  · rintro j' y' ⟨hj', himage'⟩
    obtain rfl := hj.unique hf hB hj'
    omega

theorem created_complete (hf : 2 ≤ f) (hB : 0 < B) {m rem r : Nat}
    (hj : IsRootLevel f B D image j) (himage : image = size f B D (j + 1) + m * B + r)
    (hm : m = 0 ∧ r < (j + 1) * B ∧ rem = r ∨ m = j + 1 ∧ rem = r % (D / f)) :
    Created f B D image (nodes f (j + 1 + 1) + m) rem := by
  have hsize := size_eq f B D (j + 1)
  have hcount := leafCount_nodes_add f hf (j + 1) m (by omega)
  have hmul : (nodes f (j + 1 + 1) + m) * B = nodes f (j + 1 + 1) * B + m * B := add_mul _ _ _
  have hrem : rem ≤ r := by
    rcases hm with ⟨-, -, rfl⟩ | ⟨-, rfl⟩
    · exact le_refl _
    · exact Nat.mod_le _ _
  refine ⟨Nat.add_pos_left (nodes_pos f (j + 1)) m, by omega, by rw [hcount]; omega, ?_, ?_, ?_⟩
  · intro _
    have := hj.above
    rw [size] at this
    omega
  · rintro j' y' ⟨hj', himage'⟩
    obtain rfl := hj.unique (by omega) hB hj'
    rcases hm with ⟨rfl, hr, -⟩ | ⟨rfl, rfl⟩
    · omega
    · obtain rfl : y' = r := by omega
      exact ⟨rfl, rfl⟩
  · intro hnot
    rcases hm with ⟨rfl, -, rfl⟩ | ⟨rfl, -⟩
    · rw [hcount]
      omega
    · exact absurd ⟨hj, himage⟩ (hnot j r)

end created

variable {pr : Profile} {c d b a inv image n rem : Nat}

theorem created_of_one (h : Sizes c d b a) (himage : image < 2 ^ 64) (hB : 2 ^ b ≤ image)
    (hle : image ≤ size (2 ^ c) (2 ^ b) (2 ^ (d + a)) 0)
    (hrun : imageAllocationBlocksToAuthTreeNodeCount pr image 1 c inv d b a = .ok (n, rem)) :
    Created (2 ^ c) (2 ^ b) (2 ^ (d + a)) image n rem := by
  have hbc := h.b_lt_c
  have hc := h.c_lt
  rw [imageAllocationBlocksToAuthTreeNodeCount, shl_one pr (by omega), ok_bind, if_neg (by omega),
    rootEntrySubtree, if_neg (by decide)] at hrun
  obtain ⟨⟨count, data⟩, hentry, hrest⟩ := bind_eq_ok hrun
  obtain ⟨data', hshl, hpure⟩ := bind_eq_ok hentry
  obtain ⟨rfl, rfl⟩ := Prod.mk.inj (Except.ok.inj hpure)
  have hlt : data' < 2 ^ 64 := by
    rw [shlU64] at hshl
    split at hshl
    · obtain rfl := Except.ok.inj hshl
      exact Nat.mod_lt _ (by decide)
    · cases pr with
      | debug => cases hshl
      | release =>
        obtain rfl := Except.ok.inj hshl
        exact Nat.mod_lt _ (by decide)
  dsimp only at hrest
  rw [nodeCountWalk_one pr (by omega) image data' 0 hlt hB (by omega)] at hrest
  split at hrest
  · cases hrest
  · rw [ok_bind] at hrest
    obtain ⟨_, _, hpair⟩ := bind_eq_ok hrest
    obtain ⟨rfl, rfl⟩ := Prod.mk.inj (Except.ok.inj hpair)
    exact created_single (Nat.pow_pos (by decide)) hle hB (Nat.mod_le _ _)

theorem created_of_inner (h : Sizes c d b a) (hinv : IsInverse c inv) (himage : image < 2 ^ 64)
    {j : Nat} (hj : IsRootLevel (2 ^ c) (2 ^ b) (2 ^ (d + a)) image j)
    (hrun : imageAllocationBlocksToAuthTreeNodeCount pr image (j + 2) c inv d b a = .ok (n, rem)) :
    Created (2 ^ c) (2 ^ b) (2 ^ (d + a)) image n rem := by
  have hf := h.two_le
  have hpos : 0 < 2 ^ c := by omega
  have hB : 0 < 2 ^ b := Nat.pow_pos (by decide)
  have hpath := hj.path_le h
  have hheight := nodes_lt_nodeCount hB hpath hj
  rw [imageAllocationBlocksToAuthTreeNodeCount_cut pr h hinv himage hj] at hrun
  have hleafrun (m y : Nat) (hcut : cut (2 ^ c) (2 ^ b) (2 ^ (d + a)) (j + 1) image = ⟨m, y, true⟩) :
      n = m ∧ rem = y % (2 ^ (d + a) / 2 ^ c) := by
    rw [hcut, if_pos rfl] at hrun
    split at hrun
    · cases hrun
    · obtain ⟨_, _, hpair⟩ := bind_eq_ok hrun
      cases Except.ok.inj hpair
      exact ⟨rfl, rfl⟩
  by_cases hsize : image < size (2 ^ c) (2 ^ b) (2 ^ (d + a)) (j + 1)
  · rcases cut_cases hpos hB (j + 1) image hpath hsize with ⟨q, y, hq, hy, heq⟩ | ⟨hleaf, hgap⟩
    · have hcut := cut_dataBegin (D := 2 ^ (d + a)) hpos hB (j + 1) q y hq hy
      rw [← heq] at hcut
      obtain ⟨rfl, rfl⟩ := hleafrun _ _ hcut
      exact created_leaf hpos hB hj hpath hq hy heq (Nat.mod_le _ _)
    · rw [hleaf] at hrun
      cases Except.ok.inj hrun
      exact created_gap hpos hB hj hsize hgap hheight
  · obtain ⟨r, hr⟩ : ∃ r, image = size (2 ^ c) (2 ^ b) (2 ^ (d + a)) (j + 1) + r :=
      ⟨image - size (2 ^ c) (2 ^ b) (2 ^ (d + a)) (j + 1), by omega⟩
    have hlt : r < (j + 3) * 2 ^ b := by
      have := hj.below
      omega
    have hcut := cut_of_ge hpos hB h.data_ge j r hlt
    rw [← hr] at hcut
    by_cases hgap : r < (j + 1) * 2 ^ b
    · rw [if_pos hgap] at hcut
      rw [hcut] at hrun
      cases Except.ok.inj hrun
      exact created_complete (m := 0) (r := r) hf hB hj (by omega) (Or.inl ⟨rfl, hgap, rfl⟩)
    · rw [if_neg hgap] at hcut
      obtain ⟨rfl, rfl⟩ := hleafrun _ _ hcut
      exact created_complete (m := j + 1) (r := r - (j + 1) * 2 ^ b) hf hB hj (by omega)
        (Or.inr ⟨rfl, rfl⟩)

variable {l : ImageLayout} {g : NodeGeometry}

theorem created_of_run (hg : nodeGeometry l = .ok g) (himage : image < 2 ^ 64)
    (hrun : AuthTreeConfig.imageAllocationBlocksToAuthTreeNodeCount pr l image = .ok (n, rem)) :
    Created (2 ^ g.nodeDigestsPerNodeLog2) (2 ^ g.nodeAllocationBlocksLog2)
      (2 ^ (g.dataDigestsPerNodeLog2 + g.dataBlockAllocationBlocksLog2)) image n rem := by
  have hok := nodeGeometry_ok hg
  have hsizes := sizes_of_geometry hok
  obtain ⟨inv, hinv, hlt, hmul⟩ := digestsPerNodeMinusOneInvModU64_ok pr hok.c_pos hsizes.c_lt
  rw [AuthTreeConfig.imageAllocationBlocksToAuthTreeNodeCount, hg, ok_bind, hinv, ok_bind] at hrun
  rcases lt_or_ge (size (2 ^ g.nodeDigestsPerNodeLog2) (2 ^ g.nodeAllocationBlocksLog2)
    (2 ^ (g.dataDigestsPerNodeLog2 + g.dataBlockAllocationBlocksLog2)) 0) image with habove | hsingle
  · obtain ⟨j, hlevels, hj⟩ := imageAllocationBlocksToAuthTreeLevels_ok pr hsizes ⟨hlt, hmul⟩
      himage habove
    rw [hlevels, ok_bind] at hrun
    exact created_of_inner hsizes ⟨hlt, hmul⟩ himage hj hrun
  · have hB : 2 ^ g.nodeAllocationBlocksLog2 ≤ image := by
      by_contra hsmall
      have hc := hsizes.c_lt
      have hbc := hsizes.b_lt_c
      rw [imageAllocationBlocksToAuthTreeLevels, shl_one pr hc, ok_bind, shl_one pr (by omega),
        ok_bind, if_pos (by omega)] at hrun
      cases hrun
    rw [imageAllocationBlocksToAuthTreeLevels_one pr hsizes hB hsingle, ok_bind] at hrun
    exact created_of_one hsizes himage hB hsingle hrun

theorem lt_leafCount_nodes_add {f : Nat} (hf : 2 ≤ f) (l k : Nat) (hk : l + 2 ≤ k) :
    f ^ l < leafCount f (nodes f (l + 1) + k) := by
  have hpos : 0 < f := by omega
  have hpath := leaves_position_succ f hpos l 0 (Nat.pow_pos hpos)
  rw [position_zero] at hpath
  have hlt := lt_nodes f hpos l
  have hdouble := Nat.mul_le_mul_right (nodes f (l + 1)) hf
  have hnodes : nodes f (l + 1 + 1) = f * nodes f (l + 1) + 1 := rfl
  have h := leaves_succ_add_le f l 1 (l + 1) (by omega)
  rw [hpath, one_mul, one_mul] at h
  have hcount : leafCount f (nodes f (l + 1) + (l + 2)) = f ^ l + 1 := by
    rw [leafCount_eq f hpos (l := l + 1) (by omega) (by omega), ← h]
    rfl
  obtain ⟨i, rfl⟩ : ∃ i, k = l + 2 + i := ⟨k - (l + 2), by omega⟩
  have := (leafCount_add_bounds f hf (nodes f (l + 1) + (l + 2)) i).1
  rw [← add_assoc]
  omega

/-- What the padding amounts to: no nodes at all, or fewer than fit a Data
Block. -/
theorem alignedAuthTreeAllocationBlocks_eq
    (hio : l.ioBlockAllocationBlocksLog2.toNat ≤ g.nodeAllocationBlocksLog2) (n : Nat) :
    ∃ p, paddedNodeCount l g n = n + p ∧
      alignedAuthTreeAllocationBlocks l g n = (n + p) * 2 ^ g.nodeAllocationBlocksLog2 ∧
      (p = 0 ∨ p * 2 ^ g.nodeAllocationBlocksLog2 < 2 ^ g.dataBlockAllocationBlocksLog2) := by
  have hB : 0 < 2 ^ g.nodeAllocationBlocksLog2 := Nat.pow_pos (by decide)
  suffices h : ∃ p, alignedAuthTreeAllocationBlocks l g n =
      (n + p) * 2 ^ g.nodeAllocationBlocksLog2 ∧
      (p = 0 ∨ p * 2 ^ g.nodeAllocationBlocksLog2 < 2 ^ g.dataBlockAllocationBlocksLog2) by
    obtain ⟨p, heq, hp⟩ := h
    refine ⟨p, ?_, heq, hp⟩
    rw [paddedNodeCount, heq, Nat.mul_div_cancel _ hB]
  rw [alignedAuthTreeAllocationBlocks]
  rcases lt_or_ge g.nodeAllocationBlocksLog2 g.dataBlockAllocationBlocksLog2 with hlt | hge
  · rw [max_eq_right (by omega)]
    obtain ⟨e, he⟩ : ∃ e, g.dataBlockAllocationBlocksLog2 = e + g.nodeAllocationBlocksLog2 :=
      ⟨_, (Nat.sub_add_cancel hlt.le).symm⟩
    obtain ⟨hle, hupper⟩ := le_divCeil_mul (x := n * 2 ^ g.nodeAllocationBlocksLog2)
      (m := 2 ^ g.dataBlockAllocationBlocksLog2) (Nat.pow_pos (by decide))
    generalize divCeil _ _ = t at hle hupper
    have hmul : t * 2 ^ g.dataBlockAllocationBlocksLog2 =
        t * 2 ^ e * 2 ^ g.nodeAllocationBlocksLog2 := by
      rw [he, pow_add, mul_assoc]
    have hn : n ≤ t * 2 ^ e := Nat.le_of_mul_le_mul_right (hmul ▸ hle) hB
    refine ⟨t * 2 ^ e - n, ?_, Or.inr ?_⟩
    · rw [hmul, Nat.add_sub_cancel' hn]
    · rw [Nat.sub_mul, ← hmul]
      omega
  · -- The nodes' size is a multiple of the unit already.
    obtain ⟨e, he⟩ : ∃ e, g.nodeAllocationBlocksLog2 =
        e + max l.ioBlockAllocationBlocksLog2.toNat g.dataBlockAllocationBlocksLog2 :=
      ⟨_, (Nat.sub_add_cancel (Nat.max_le.mpr ⟨hio, hge⟩)).symm⟩
    refine ⟨0, ?_, Or.inl rfl⟩
    generalize max l.ioBlockAllocationBlocksLog2.toNat g.dataBlockAllocationBlocksLog2 = m at he
    have hm : 0 < 2 ^ m := Nat.pow_pos (by decide)
    have hmul : n * 2 ^ g.nodeAllocationBlocksLog2 = n * 2 ^ e * 2 ^ m := by
      rw [he, pow_add, mul_assoc]
    obtain ⟨hle, hupper⟩ := le_divCeil_mul (x := n * 2 ^ e * 2 ^ m) hm
    have hle' := Nat.le_of_mul_le_mul_right hle hm
    have hupper' : divCeil (n * 2 ^ e * 2 ^ m) (2 ^ m) < n * 2 ^ e + 1 := by
      refine Nat.lt_of_mul_lt_mul_right (a := 2 ^ m) ?_
      rw [add_mul, one_mul]
      exact hupper
    rw [add_zero, hmul]
    congr 1
    omega

theorem io_le_of_nodeGeometry (hg : nodeGeometry l = .ok g) :
    l.ioBlockAllocationBlocksLog2.toNat ≤ g.nodeAllocationBlocksLog2 ∧
      l.authTreeDataBlockAllocationBlocksLog2.toNat = g.dataBlockAllocationBlocksLog2 := by
  rw [nodeGeometry] at hg
  dsimp only at hg
  repeat' split at hg
  all_goals cases hg
  exact ⟨Nat.le_add_left _ _, rfl⟩

theorem dataBlocksFor_le_iff (a blocks m : Nat) : dataBlocksFor a blocks ≤ m ↔ blocks ≤ m * 2 ^ a := by
  have hpos : 0 < 2 ^ a := Nat.pow_pos (by decide)
  have hsplit := Nat.div_add_mod' blocks (2 ^ a)
  rw [dataBlocksFor]
  generalize blocks / 2 ^ a = q at hsplit
  split
  · rename_i hne
    constructor
    · intro hle
      have := Nat.mul_le_mul_right (2 ^ a) hle
      rw [Nat.succ_mul] at this
      omega
    · intro hle
      by_contra hlt
      have := Nat.mul_le_mul_right (2 ^ a) (show m ≤ q by omega)
      omega
  · rename_i heq
    rw [not_not] at heq
    rw [← heq, Nat.mul_le_mul_right_iff hpos]

theorem lt_of_imageSizeOk (h : ImageSizeOk l image) : image < 2 ^ 57 := by
  have hle : 2 ^ 7 ≤ 2 ^ (l.allocationBlockSize128bLog2.toNat + 7) :=
    Nat.pow_le_pow_right (by decide) (by omega)
  have := le_trans h (Nat.div_le_div_left hle (by decide))
  omega

/-- The tree's height is not limited by the word size, for what has been found at
creation and its padding. -/
theorem height_of_created (hg : nodeGeometry l = .ok g) (himage : ImageSizeOk l image) {p : Nat}
    (h : Created (2 ^ g.nodeDigestsPerNodeLog2) (2 ^ g.nodeAllocationBlocksLog2)
      (2 ^ (g.dataDigestsPerNodeLog2 + g.dataBlockAllocationBlocksLog2)) image n rem)
    (hp : p = 0 ∨ p * 2 ^ g.nodeAllocationBlocksLog2 < 2 ^ g.dataBlockAllocationBlocksLog2)
    (hfits : (n + p) * 2 ^ g.nodeAllocationBlocksLog2 ≤ image) (m : Nat)
    (hm : nodes (2 ^ g.nodeDigestsPerNodeLog2) (m + 1) < n + p) :
    g.nodeDigestsPerNodeLog2 * m + g.dataDigestsPerNodeLog2 + g.dataBlockAllocationBlocksLog2 < 64 ∧
      g.nodeDigestsPerNodeLog2 * (m + 1) < 64 := by
  obtain ⟨hcpos, hdpos, hslt, hseq, hceq, hdeq, ha⟩ := nodeGeometry_ok hg
  have hf : 2 ≤ 2 ^ g.nodeDigestsPerNodeLog2 := Nat.pow_le_pow_right (n := 2) (by decide) hcpos
  have ha64 : 2 ^ g.dataBlockAllocationBlocksLog2 ≤ 2 ^ 6 := Nat.pow_le_pow_right (by decide) ha
  have hp64 : p + 1 ≤ 64 := by
    rcases hp with rfl | hp
    · omega
    · have := Nat.le_mul_of_pos_right p (Nat.pow_pos (n := g.nodeAllocationBlocksLog2) (show 0 < 2 by decide))
      omega
  -- The node count in terms of bytes.
  have hbytes : (n + p) * 2 ^ nodeSizeLog2 l < 2 ^ 64 := by
    have himage' := (Nat.le_div_iff_mul_le (Nat.pow_pos (by decide))).mp himage
    have hmul := Nat.mul_le_mul_right (2 ^ (l.allocationBlockSize128bLog2.toNat + 7)) hfits
    rw [mul_assoc, ← pow_add, ← add_assoc, ← hseq] at hmul
    omega
  have hpow : 2 ^ (g.nodeDigestsPerNodeLog2 * m) ≤ nodes (2 ^ g.nodeDigestsPerNodeLog2) (m + 1) := by
    rw [pow_mul]
    exact pow_le_nodes _ _
  have hcm : g.nodeDigestsPerNodeLog2 * m + nodeSizeLog2 l < 64 := by
    rw [← Nat.pow_lt_pow_iff_right (a := 2) (by decide), pow_add]
    refine lt_of_le_of_lt (Nat.mul_le_mul_right _ (le_trans hpow hm.le)) hbytes
  have hleaves : 2 ^ (g.nodeDigestsPerNodeLog2 * m) ≤
      leafCount (2 ^ g.nodeDigestsPerNodeLog2) n + p := by
    obtain ⟨k, hk⟩ : ∃ k, n + p = nodes (2 ^ g.nodeDigestsPerNodeLog2) (m + 1) + k :=
      ⟨_, (Nat.add_sub_cancel' hm.le).symm⟩
    have hmono := (leafCount_add_bounds _ hf (nodes (2 ^ g.nodeDigestsPerNodeLog2) (m + 1)) k).1
    rw [← hk, leafCount_nodes _ (by omega), ← pow_mul] at hmono
    exact le_trans hmono (leafCount_add_bounds _ hf n p).2
  refine ⟨?_, by rw [Nat.mul_succ]; omega⟩
  rcases lt_or_ge 1 n with hn | hn
  · -- The leaves' data are within the image, but for the last leaf and the padding.
    have himage57 := lt_of_imageSizeOk himage
    have hD := h.large hn
    have hdata := Nat.mul_le_mul_right
      (2 ^ (g.dataDigestsPerNodeLog2 + g.dataBlockAllocationBlocksLog2)) hleaves
    have hcreated := h.leaves_le
    have hpD := Nat.mul_le_mul_right
      (2 ^ (g.dataDigestsPerNodeLog2 + g.dataBlockAllocationBlocksLog2)) hp64
    rw [add_mul, ← pow_add] at hdata
    rw [add_mul] at hpD
    rw [← Nat.pow_lt_pow_iff_right (a := 2) (by decide), add_assoc]
    omega
  · obtain rfl : n = 1 := by
      have := h.pos
      omega
    have hcm6 : g.nodeDigestsPerNodeLog2 * m ≤ 6 := by
      rw [← Nat.pow_le_pow_iff_right (a := 2) (by decide)]
      omega
    have hs : nodeSizeLog2 l < 63 := by
      have htwo : 2 ≤ 1 + p := by
        have := nodes_pos (2 ^ g.nodeDigestsPerNodeLog2) m
        omega
      have := lt_of_le_of_lt (Nat.mul_le_mul_right (2 ^ nodeSizeLog2 l) htwo) hbytes
      rw [← pow_succ'] at this
      have := (Nat.pow_lt_pow_iff_right (a := 2) (by decide)).mp this
      omega
    rcases Nat.eq_zero_or_pos m with rfl | hmpos
    · omega
    · have := Nat.le_mul_of_pos_right g.nodeDigestsPerNodeLog2 hmpos
      omega

/-- The tree's extents are found to cover all the other blocks of the image, so
that the image does not get rejected for its dimensions. -/
structure OpensAgain (pr : Profile) (l : ImageLayout) (g : NodeGeometry) (imageSize n : Nat) :
    Prop where
  covered : ∃ levels inv covered,
    authTreeNodeCountToAuthTreeLevels pr n g.nodeDigestsPerNodeLog2 g.dataDigestsPerNodeLog2
        g.dataBlockAllocationBlocksLog2 = .ok levels ∧
      digestsPerNodeMinusOneInvModU64 pr g.nodeDigestsPerNodeLog2 = .ok inv ∧
      authTreeNodeCountToMaxCoveredDataBlockCount pr n levels g.nodeDigestsPerNodeLog2 inv
        g.dataDigestsPerNodeLog2 g.dataBlockAllocationBlocksLog2 = .ok covered ∧
      dataBlocksFor g.dataBlockAllocationBlocksLog2
          (imageSize - n * 2 ^ g.nodeAllocationBlocksLog2) ≤
        min covered ((2 ^ 64 - 1) / 2 ^ g.dataBlockAllocationBlocksLog2)
  accepted : ∀ x : LogicalExtents, TreeRanges x.ranges →
    x.allocationBlockCount = n * 2 ^ g.nodeAllocationBlocksLog2 →
    new pr l imageSize x ≠ formatErr .invalidAuthTreeDimensions

theorem ranges_ne_nil {x : LogicalExtents} (h : x.allocationBlockCount ≠ 0) : x.ranges ≠ [] := by
  intro hnil
  have hempty : x.extents = [] := by
    cases hx : x.extents with
    | nil => rfl
    | cons entry entries =>
      rw [LogicalExtents.ranges, hx, rangesFrom] at hnil
      cases hnil
  rw [LogicalExtents.allocationBlockCount, hempty] at h
  exact h rfl

theorem opensAgain_of_covered (hg : nodeGeometry l = .ok g)
    {imageSize levels covered : Nat} (hn : 0 < n)
    (hfits : n * 2 ^ g.nodeAllocationBlocksLog2 ≤ imageSize)
    (hlevels : authTreeNodeCountToAuthTreeLevels pr n g.nodeDigestsPerNodeLog2
      g.dataDigestsPerNodeLog2 g.dataBlockAllocationBlocksLog2 = .ok levels)
    (hinv : digestsPerNodeMinusOneInvModU64 pr g.nodeDigestsPerNodeLog2 = .ok inv)
    (hcovered : authTreeNodeCountToMaxCoveredDataBlockCount pr n levels g.nodeDigestsPerNodeLog2 inv
      g.dataDigestsPerNodeLog2 g.dataBlockAllocationBlocksLog2 = .ok covered)
    (hdata : dataBlocksFor g.dataBlockAllocationBlocksLog2
      (imageSize - n * 2 ^ g.nodeAllocationBlocksLog2) ≤
        min covered ((2 ^ 64 - 1) / 2 ^ g.dataBlockAllocationBlocksLog2)) :
    OpensAgain pr l g imageSize n := by
  have hB : 0 < 2 ^ g.nodeAllocationBlocksLog2 := Nat.pow_pos (by decide)
  refine ⟨⟨levels, inv, covered, hlevels, hinv, hcovered, hdata⟩, ?_⟩
  intro x hx hcount hreject
  have hpos := mul_pos hn hB
  obtain ⟨map, first, hmap, -⟩ := AuthTreeDataAllocationBlocksMap.new_ok pr x hx
    (ranges_ne_nil (by omega))
  rw [new, hg, ok_bind, x.physicalRanges_ok pr hx.lt, ok_bind] at hreject
  split at hreject
  · cases hreject
  · rw [if_neg (by omega), if_neg (by omega), hmap, ok_bind] at hreject
    dsimp only at hreject
    rw [hcount, Nat.mul_div_cancel _ hB, hlevels, ok_bind, hinv, ok_bind, hcovered, ok_bind,
      if_neg (Nat.not_lt_of_le hdata)] at hreject
    cases hreject

theorem opensAgain_iff_le (hg : nodeGeometry l = .ok g)
    {imageSize : Nat} (hn : 0 < n) (hfits : n * 2 ^ g.nodeAllocationBlocksLog2 ≤ imageSize)
    (hsize : imageSize < 2 ^ 57)
    (hheight : ∀ m, nodes (2 ^ g.nodeDigestsPerNodeLog2) (m + 1) < n →
      g.nodeDigestsPerNodeLog2 * m + g.dataDigestsPerNodeLog2 + g.dataBlockAllocationBlocksLog2 <
        64 ∧ g.nodeDigestsPerNodeLog2 * (m + 1) < 64) :
    OpensAgain pr l g imageSize n ↔ imageSize - n * 2 ^ g.nodeAllocationBlocksLog2 ≤
      leafCount (2 ^ g.nodeDigestsPerNodeLog2) n *
        2 ^ (g.dataDigestsPerNodeLog2 + g.dataBlockAllocationBlocksLog2) := by
  have hok := nodeGeometry_ok hg
  have hsizes := sizes_of_geometry hok
  have hc64 := hsizes.c_lt
  obtain ⟨hcpos, hdpos, hslt, hseq, hceq, hdeq, ha⟩ := hok
  have hf : 0 < 2 ^ g.nodeDigestsPerNodeLog2 := Nat.pow_pos (by decide)
  have hB : 0 < 2 ^ g.nodeAllocationBlocksLog2 := Nat.pow_pos (by decide)
  have hnle := Nat.le_mul_of_pos_right n hB
  obtain ⟨inv, hinv, hlt, hmul⟩ := digestsPerNodeMinusOneInvModU64_ok pr hcpos hc64
  obtain ⟨levels, hlevels, hlpos, hlmax, hbelow, hcase⟩ := authTreeNodeCountToAuthTreeLevels_ok
    (d := g.dataDigestsPerNodeLog2) (a := g.dataBlockAllocationBlocksLog2) pr hcpos hc64 hn
      (show n < 2 ^ 64 by omega)
  obtain ⟨j, rfl⟩ : ∃ j, levels = j + 1 := ⟨levels - 1, by omega⟩
  have hle : n ≤ nodes (2 ^ g.nodeDigestsPerNodeLog2) (j + 1) := by
    rcases hcase with hle | hmax
    · exact hle
    · by_contra hgt
      obtain ⟨hbits, hnodes⟩ := hheight j (Nat.lt_of_not_le hgt)
      obtain ⟨-, -, hspec⟩ := maxAuthTreeLevels_spec (d := g.dataDigestsPerNodeLog2)
        (a := g.dataBlockAllocationBlocksLog2) hcpos
      rw [← hmax] at hspec
      rw [Nat.mul_succ] at hnodes hspec
      omega
  have hcount := leafCount_eq _ hf (hbelow j (Nat.lt_succ_self j)) hle
  have hcovered := authTreeNodeCountToMaxCoveredDataBlockCount_ok pr
    (shape_of_le_max hcpos hc64 (by omega) hlpos hlmax) hdpos ⟨hlt, hmul⟩ hn hle hlevels
  rw [Nat.add_sub_cancel, ← hcount] at hcovered
  have henough (blocks : Nat) (hblocks : blocks < 2 ^ 57) :
      dataBlocksFor g.dataBlockAllocationBlocksLog2 blocks ≤
          min (min (2 ^ 64 - 1) (2 ^ g.dataDigestsPerNodeLog2 *
            leafCount (2 ^ g.nodeDigestsPerNodeLog2) n))
            ((2 ^ 64 - 1) / 2 ^ g.dataBlockAllocationBlocksLog2) ↔
        blocks ≤ leafCount (2 ^ g.nodeDigestsPerNodeLog2) n *
          2 ^ (g.dataDigestsPerNodeLog2 + g.dataBlockAllocationBlocksLog2) := by
    have hA : 2 ^ g.dataBlockAllocationBlocksLog2 ≤ 2 ^ 6 := Nat.pow_le_pow_right (by decide) ha
    have hsplit := Nat.div_add_mod' (2 ^ 64 - 1) (2 ^ g.dataBlockAllocationBlocksLog2)
    have hdata : 2 ^ g.dataDigestsPerNodeLog2 * leafCount (2 ^ g.nodeDigestsPerNodeLog2) n *
        2 ^ g.dataBlockAllocationBlocksLog2 = leafCount (2 ^ g.nodeDigestsPerNodeLog2) n *
          2 ^ (g.dataDigestsPerNodeLog2 + g.dataBlockAllocationBlocksLog2) := by
      rw [pow_add]
      ring
    rw [le_min_iff, le_min_iff, dataBlocksFor_le_iff, dataBlocksFor_le_iff, dataBlocksFor_le_iff,
      hdata]
    omega
  constructor
  · rintro ⟨⟨levels', inv', covered, hlevels', hinv', hcovered', hdata⟩, -⟩
    cases hlevels.symm.trans hlevels'
    cases hinv.symm.trans hinv'
    cases hcovered.symm.trans hcovered'
    exact (henough _ (by omega)).mp hdata
  · intro hblocks
    exact opensAgain_of_covered hg hn hfits hlevels hinv hcovered
      ((henough _ (by omega)).mpr hblocks)

/-- Creation and opening of an image agree on the tree's dimensions, except if a
path of nodes beyond the complete tree has been given data that the padding does
not make up for. -/
theorem opensAgain_iff (pr : Profile) (l : ImageLayout) (g : NodeGeometry)
    (hg : nodeGeometry l = .ok g) (image n rem : Nat) (himage : ImageSizeOk l image)
    (hrun : AuthTreeConfig.imageAllocationBlocksToAuthTreeNodeCount pr l image = .ok (n, rem))
    (hfits : alignedAuthTreeAllocationBlocks l g n ≤ image - rem) :
    OpensAgain pr l g (image - rem) (paddedNodeCount l g n) ↔
      ∀ j y, Beyond (2 ^ g.nodeDigestsPerNodeLog2) (2 ^ g.nodeAllocationBlocksLog2)
          (2 ^ (g.dataDigestsPerNodeLog2 + g.dataBlockAllocationBlocksLog2)) image j y →
        beyondNodeCount (2 ^ g.nodeDigestsPerNodeLog2) j + 2 ≤
            paddedNodeCount l g (beyondNodeCount (2 ^ g.nodeDigestsPerNodeLog2) j) ∨
          beyondNodeCount (2 ^ g.nodeDigestsPerNodeLog2) j * 2 ^ g.nodeAllocationBlocksLog2 +
              (y - y % (2 ^ (g.dataDigestsPerNodeLog2 + g.dataBlockAllocationBlocksLog2) /
                2 ^ g.nodeDigestsPerNodeLog2)) ≤
            alignedAuthTreeAllocationBlocks l g
              (beyondNodeCount (2 ^ g.nodeDigestsPerNodeLog2) j) := by
  have hsizes := sizes_of_geometry (nodeGeometry_ok hg)
  have hlt := lt_of_imageSizeOk himage
  have hcreated := created_of_run hg (show image < 2 ^ 64 by omega) hrun
  obtain ⟨p, hpad, haligned, hp⟩ :=
    alignedAuthTreeAllocationBlocks_eq (io_le_of_nodeGeometry hg).1 n
  rw [haligned] at hfits
  have hpos := hcreated.pos
  rw [hpad, opensAgain_iff_le hg (by omega) hfits (by omega)
    (height_of_created hg himage hcreated hp (le_trans hfits (Nat.sub_le _ _)))]
  have hf := hsizes.two_le
  have hD := hsizes.data_ge
  have hsize (j : Nat) := size_eq (2 ^ g.nodeDigestsPerNodeLog2) (2 ^ g.nodeAllocationBlocksLog2)
    (2 ^ (g.dataDigestsPerNodeLog2 + g.dataBlockAllocationBlocksLog2)) (j + 1)
  have hmul (i : Nat) : (n + i) * 2 ^ g.nodeAllocationBlocksLog2 =
      n * 2 ^ g.nodeAllocationBlocksLog2 + i * 2 ^ g.nodeAllocationBlocksLog2 := add_mul _ _ _
  constructor
  · intro hle j y hbeyond
    obtain ⟨rfl, rfl⟩ := hcreated.beyond j y hbeyond
    obtain ⟨hj, himg⟩ := hbeyond
    rw [hpad, haligned]
    rcases lt_or_ge p 2 with hp2 | hp2
    · right
      have hcount := leafCount_nodes_add _ hf (j + 1) (j + 1 + p) (by omega)
      have hsizej := hsize j
      rw [hmul p, beyondNodeCount, add_assoc (nodes _ _), hcount, add_mul (nodes _ _)] at hle
      rw [hmul p, beyondNodeCount, add_mul (nodes _ _)]
      omega
    · left
      omega
  · intro hall
    have hmono := (leafCount_add_bounds _ hf n p).1
    by_cases hex : ∃ j y, Beyond (2 ^ g.nodeDigestsPerNodeLog2) (2 ^ g.nodeAllocationBlocksLog2)
      (2 ^ (g.dataDigestsPerNodeLog2 + g.dataBlockAllocationBlocksLog2)) image j y
    · obtain ⟨j, y, hbeyond⟩ := hex
      have hcase := hall j y hbeyond
      obtain ⟨rfl, rfl⟩ := hcreated.beyond j y hbeyond
      obtain ⟨hj, himg⟩ := hbeyond
      have hbelow := hj.below
      have hsizej := hsize j
      have hcount := leafCount_nodes_add _ hf (j + 1) (j + 1) (by omega)
      have hnodes : beyondNodeCount (2 ^ g.nodeDigestsPerNodeLog2) j *
          2 ^ g.nodeAllocationBlocksLog2 = nodes (2 ^ g.nodeDigestsPerNodeLog2) (j + 1 + 1) *
            2 ^ g.nodeAllocationBlocksLog2 + (j + 1) * 2 ^ g.nodeAllocationBlocksLog2 :=
        add_mul _ _ _
      rw [hpad, haligned, hmul p] at hcase
      rcases hcase with hp2 | hdata
      · -- The padding makes for another leaf.
        have hleaf := lt_leafCount_nodes_add hf (j + 1) (j + 1 + p) (by omega)
        rw [← add_assoc (nodes _ _)] at hleaf
        have hmore := Nat.mul_le_mul_right
          (2 ^ (g.dataDigestsPerNodeLog2 + g.dataBlockAllocationBlocksLog2)) hleaf
        rw [Nat.succ_mul] at hmore
        have hthree : (j + 3) * 2 ^ g.nodeAllocationBlocksLog2 =
            (j + 1) * 2 ^ g.nodeAllocationBlocksLog2 + 2 * 2 ^ g.nodeAllocationBlocksLog2 := by ring
        rw [hmul p, hnodes]
        rw [← beyondNodeCount] at hmore
        omega
      · have hmore := Nat.mul_le_mul_right
          (2 ^ (g.dataDigestsPerNodeLog2 + g.dataBlockAllocationBlocksLog2)) hmono
        rw [beyondNodeCount, hcount] at hmore
        rw [hmul p, hnodes]
        rw [← beyondNodeCount] at hmore
        omega
    · have hcovers := hcreated.covers (fun j y hbeyond => hex ⟨j, y, hbeyond⟩)
      have hmore := Nat.mul_le_mul_right
        (2 ^ (g.dataDigestsPerNodeLog2 + g.dataBlockAllocationBlocksLog2)) hmono
      rw [hmul p]
      omega

theorem opensAgain_iff_sample :
    AuthTreeConfig.imageAllocationBlocksToAuthTreeNodeCount .debug sampleLayout 11 = .ok (3, 0) ∧
      (OpensAgain .debug sampleLayout ⟨0, 0, 2, 2⟩ (11 - 0)
          (paddedNodeCount sampleLayout ⟨0, 0, 2, 2⟩ 3) ↔
        ∀ j y, Beyond (2 ^ 2) (2 ^ 0) (2 ^ (2 + 0)) 11 j y →
          beyondNodeCount (2 ^ 2) j + 2 ≤
              paddedNodeCount sampleLayout ⟨0, 0, 2, 2⟩ (beyondNodeCount (2 ^ 2) j) ∨
            beyondNodeCount (2 ^ 2) j * 2 ^ 0 + (y - y % (2 ^ (2 + 0) / 2 ^ 2)) ≤
              alignedAuthTreeAllocationBlocks sampleLayout ⟨0, 0, 2, 2⟩ (beyondNodeCount (2 ^ 2) j)) :=
  ⟨by decide +kernel, opensAgain_iff .debug sampleLayout ⟨0, 0, 2, 2⟩ (by decide +kernel) 11 3 0
    (by rw [ImageSizeOk]; decide) (by decide +kernel) (by decide +kernel)⟩

def binaryLayout : ImageLayout :=
  ⟨0, 0, 0, 0, 0, 2, 2, .sha512, .sha512, .sha512, .sha512, .sha256, .aes128⟩

def binaryExtents : LogicalExtents := ⟨[(16, 4106)], by decide, by decide⟩

/-- A complete tree of twelve levels with its data, eleven nodes and one more
block, which no leaf covers. -/
theorem binaryLayout_not_opensAgain :
    nodeGeometry binaryLayout = .ok ⟨0, 0, 1, 1⟩ ∧
      (∀ pr, AuthTreeConfig.imageAllocationBlocksToAuthTreeNodeCount pr binaryLayout 8203 =
        .ok (4106, 0)) ∧
      paddedNodeCount binaryLayout ⟨0, 0, 1, 1⟩ 4106 = 4106 ∧
      new .debug binaryLayout (8203 - 0) binaryExtents =
        formatErr .invalidAuthTreeDimensions ∧
      ¬ OpensAgain .debug binaryLayout ⟨0, 0, 1, 1⟩ (8203 - 0)
        (paddedNodeCount binaryLayout ⟨0, 0, 1, 1⟩ 4106) := by
  have hgeometry : nodeGeometry binaryLayout = .ok ⟨0, 0, 1, 1⟩ := by decide +kernel
  have hrun (pr : Profile) : AuthTreeConfig.imageAllocationBlocksToAuthTreeNodeCount pr binaryLayout 8203 =
      .ok (4106, 0) := by
    cases pr <;> decide +kernel
  have hpadded : paddedNodeCount binaryLayout ⟨0, 0, 1, 1⟩ 4106 = 4106 := by decide +kernel
  have hnew : new .debug binaryLayout (8203 - 0) binaryExtents =
      formatErr .invalidAuthTreeDimensions := by
    have hunit : (do
        let _ ← new .debug binaryLayout (8203 - 0) binaryExtents
        pure ()) = (formatErr .invalidAuthTreeDimensions : Comp Unit) := by
      decide +kernel
    cases hcfg : new .debug binaryLayout (8203 - 0) binaryExtents with
    | error e =>
      rw [hcfg] at hunit
      cases hunit
      rfl
    | ok cfg =>
      rw [hcfg] at hunit
      cases hunit
  refine ⟨hgeometry, hrun, hpadded, hnew, ?_⟩
  intro hopens
  refine hopens.accepted binaryExtents ⟨?_, ?_, ?_⟩ (by decide +kernel) hnew
  · decide
  · decide
  · exact List.pairwise_singleton _ _

end CocoonFs.CreateOpen
