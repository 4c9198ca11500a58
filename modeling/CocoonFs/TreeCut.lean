import CocoonFs.CompleteTree

namespace CocoonFs.TreeCut

open CompleteTree Nat

variable (f B D : Nat)

/-- The size of a complete tree together with the data at its leaves, for nodes
of size B and data of size D at each leaf. -/
def size : Nat → Nat
  | 0 => B + D
  | l + 1 => B + f * size l

/-- Where the data of some leaf begins if the nodes are laid out in preorder,
with the data of each leaf right after it. -/
def dataBegin (l q : Nat) : Nat := (position f 0 l q + 1) * B + q * D

/-- What remains of a tree of which only an initial part fits: its number of
nodes, the space left and whether that space is at a leaf or is too small for a
path down to one. -/
structure Cut where
  nodeCount : Nat
  rest : Nat
  inLeaf : Bool
  deriving DecidableEq, Repr

def cut : Nat → Nat → Cut
  | 0, x => ⟨1, x - B, true⟩
  | l + 1, x =>
    let full := (x - B) / size f B D l
    let r := (x - B) % size f B D l
    if r < (l + 1) * B then ⟨1 + full * nodes f (l + 1), r, false⟩
    else ⟨1 + full * nodes f (l + 1) + (cut l r).nodeCount, (cut l r).rest, (cut l r).inLeaf⟩

theorem size_eq (l : Nat) : size f B D l = nodes f (l + 1) * B + f ^ l * D := by
  induction l with
  | zero => simp [size, nodes]
  | succ l ih =>
    rw [size, ih, nodes.eq_def f (l + 1 + 1)]
    ring

theorem size_pos (hB : 0 < B) (l : Nat) : 0 < size f B D l := by
  cases l <;> rw [size] <;> omega

theorem size_lt_succ (hf : 0 < f) (hB : 0 < B) (l : Nat) : size f B D l < size f B D (l + 1) := by
  have := Nat.le_mul_of_pos_left (size f B D l) hf
  rw [size]
  omega

theorem size_mono (hf : 0 < f) (hB : 0 < B) {l l' : Nat} (h : l ≤ l') :
    size f B D l ≤ size f B D l' := by
  induction h with
  | refl => exact le_refl _
  | step _ ih => exact le_trans ih (size_lt_succ f B D hf hB _).le

theorem path_le_size (hf : 0 < f) (hD : 2 * B ≤ D) (l : Nat) : (l + 3) * B ≤ size f B D l := by
  induction l with
  | zero =>
    rw [size]
    omega
  | succ l ih =>
    have := Nat.le_mul_of_pos_left (size f B D l) hf
    rw [size, show l + 1 + 3 = l + 3 + 1 by omega, succ_mul]
    omega

theorem position_zero (l k : Nat) : position f l k 0 = k := by
  induction k generalizing l with
  | zero => rfl
  | succ k ih => simp [position, ih]

theorem dataBegin_zero : dataBegin f B D 0 0 = B := by
  simp [dataBegin, position]

theorem dataBegin_succ (l i q : Nat) (hi : i < f) (hq : q < f ^ l) :
    dataBegin f B D (l + 1) (i * f ^ l + q) = B + i * size f B D l + dataBegin f B D l q := by
  have hpow : 0 < f ^ l := by omega
  have hlt : i * f ^ l + q < f ^ (l + 1) := by
    have := Nat.mul_le_mul_right (f ^ l) (succ_le_of_lt hi)
    rw [succ_mul] at this
    rw [pow_succ, mul_comm (f ^ l) f]
    omega
  have hdiv : (i * f ^ l + q) / f ^ l = i := by
    rw [mul_comm, mul_add_div hpow, div_eq_of_lt hq, add_zero]
  have hmod : (i * f ^ l + q) % f ^ l = q := by
    rw [mul_comm, mul_add_mod, mod_eq_of_lt hq]
  rw [dataBegin, dataBegin, position_top f 0 l _ hlt, hdiv, hmod, size_eq, zero_add]
  ring

theorem succ_mul_le_dataBegin (hf : 0 < f) (l q : Nat) : (l + 1) * B ≤ dataBegin f B D l q := by
  have h := (position_ancestor f 0 0 l q hf).1
  rw [zero_add] at h
  have hle : (l + 1) * B ≤ (position f 0 l q + 1) * B := Nat.mul_le_mul_right B (by omega)
  exact le_trans hle (Nat.le_add_right _ _)

theorem dataBegin_add_le (hf : 0 < f) (l q : Nat) (hq : q < f ^ l) :
    dataBegin f B D l q + D ≤ size f B D l := by
  have hposition : position f 0 l q + 1 ≤ nodes f (l + 1) := by
    have := position_lt f 0 l q hf hq
    rw [zero_add] at this
    exact this
  have hnodes := Nat.mul_le_mul_right B hposition
  have hdata := Nat.mul_le_mul_right D (succ_le_of_lt hq)
  rw [succ_mul] at hdata
  rw [size_eq, dataBegin]
  omega

variable {f B D}

theorem div_lt_of_lt_size {l x : Nat} (hB : 0 < B) (hx : B ≤ x) (h : x < size f B D (l + 1)) :
    (x - B) / size f B D l < f := by
  rw [Nat.div_lt_iff_lt_mul (size_pos f B D hB l)]
  rw [size] at h
  omega

theorem cut_dataBegin (hf : 0 < f) (hB : 0 < B) (l q y : Nat) (hq : q < f ^ l) (hy : y < D) :
    cut f B D l (dataBegin f B D l q + y) = ⟨position f 0 l q + 1, y, true⟩ := by
  induction l generalizing q with
  | zero =>
    obtain rfl : q = 0 := by
      rw [pow_zero] at hq
      omega
    rw [dataBegin_zero, cut, Nat.add_sub_cancel_left]
    rfl
  | succ l ih =>
    have hpow : 0 < f ^ l := Nat.pow_pos hf
    have hi : q / f ^ l < f := Nat.div_lt_of_lt_mul (by rwa [pow_succ] at hq)
    have hmod : q % f ^ l < f ^ l := mod_lt q hpow
    have hposition := position_top f 0 l q hq
    have hsplit := div_add_mod' q (f ^ l)
    generalize q / f ^ l = i at hsplit hi hposition
    generalize q % f ^ l = j at hsplit hmod hposition
    have hbegin := dataBegin_succ f B D l i j hi hmod
    rw [hsplit] at hbegin
    have hend := dataBegin_add_le f B D hf l j hmod
    have hpath := succ_mul_le_dataBegin f B D hf l j
    have hlt : dataBegin f B D l j + y < size f B D l := by omega
    have hx : dataBegin f B D (l + 1) q + y - B = size f B D l * i + (dataBegin f B D l j + y) := by
      rw [hbegin, mul_comm]
      omega
    have hrest := ih j hmod
    rw [zero_add, mul_comm] at hposition
    rw [cut, hx, mul_add_div (size_pos f B D hB l), div_eq_of_lt hlt, mul_add_mod,
      mod_eq_of_lt hlt, if_neg (by omega), hrest, hposition]
    rfl

structure Gap (f B D l x : Nat) (c : Cut) : Prop where
  total : c.nodeCount * B + leaves f l c.nodeCount * D + c.rest = x
  nodes_le : ∀ k, k * B ≤ c.rest → c.nodeCount + k ≤ nodes f (l + 1)
  leaves_eq : ∀ k, k * B ≤ c.rest → leaves f l (c.nodeCount + k) = leaves f l c.nodeCount

theorem Gap.succ {l x i r : Nat} {c : Cut} (hi : i < f) (h : Gap f B D l r c)
    (hx : x = B + i * size f B D l + r) :
    Gap f B D (l + 1) x ⟨1 + i * nodes f (l + 1) + c.nodeCount, c.rest, c.inLeaf⟩ := by
  have hnodes : (i + 1) * nodes f (l + 1) ≤ f * nodes f (l + 1) := Nat.mul_le_mul_right _ hi
  rw [succ_mul] at hnodes
  have hleaves (k : Nat) (hk : k * B ≤ c.rest) :
      leaves f (l + 1) (1 + i * nodes f (l + 1) + c.nodeCount + k) =
        i * f ^ l + leaves f l c.nodeCount := by
    have := leaves_succ_add_le f l i (c.nodeCount + k) (h.nodes_le k hk)
    rw [h.leaves_eq k hk] at this
    rw [← this]
    congr 1
    omega
  refine ⟨?_, ?_, ?_⟩
  · have hzero := hleaves 0 (by omega)
    simp only [add_zero] at hzero
    have htotal := h.total
    rw [hzero, hx, ← htotal, size_eq]
    ring
  · intro k hk
    have := h.nodes_le k hk
    rw [nodes.eq_def f (l + 1 + 1)]
    dsimp only
    omega
  · intro k hk
    have hzero := hleaves 0 (by omega)
    exact (hleaves k hk).trans hzero.symm

theorem gap_of_lt (hf : 0 < f) {l x i r : Nat} (hi : i < f) (hr : r < (l + 1) * B)
    (hx : x = B + i * size f B D l + r) :
    Gap f B D (l + 1) x ⟨1 + i * nodes f (l + 1), r, false⟩ := by
  have hnodes : (i + 1) * nodes f (l + 1) ≤ f * nodes f (l + 1) := Nat.mul_le_mul_right _ hi
  rw [succ_mul] at hnodes
  have hlt := lt_nodes f hf l
  have hk (k : Nat) (h : k * B ≤ r) : k ≤ l := by
    by_contra hlk
    have := Nat.mul_le_mul_right B (succ_le_of_lt (Nat.lt_of_not_le hlk))
    rw [succ_eq_add_one] at this
    omega
  have hleaves (k : Nat) (h : k ≤ l) :
      leaves f (l + 1) (1 + i * nodes f (l + 1) + k) = i * f ^ l := by
    have := leaves_succ_add f l i k (by omega)
    simp only [leaves_eq_zero f hf l k h, add_zero] at this
    rw [← this]
    congr 1
    omega
  refine ⟨?_, ?_, ?_⟩
  · have hzero := hleaves 0 (zero_le _)
    simp only [add_zero] at hzero
    rw [hzero, hx, size_eq]
    ring
  · intro k h
    have := hk k h
    rw [nodes.eq_def f (l + 1 + 1)]
    dsimp only
    omega
  · intro k h
    have hzero := hleaves 0 (zero_le _)
    exact (hleaves k (hk k h)).trans hzero.symm

theorem cut_cases (hf : 0 < f) (hB : 0 < B) (l x : Nat) (hpath : (l + 1) * B ≤ x)
    (hx : x < size f B D l) :
    (∃ q y, q < f ^ l ∧ y < D ∧ x = dataBegin f B D l q + y) ∨
      ((cut f B D l x).inLeaf = false ∧ Gap f B D l x (cut f B D l x)) := by
  induction l generalizing x with
  | zero =>
    rw [size] at hx
    refine Or.inl ⟨0, x - B, Nat.pow_pos hf, by omega, ?_⟩
    rw [dataBegin_zero]
    omega
  | succ l ih =>
    have hBx : B ≤ x := le_trans (Nat.le_mul_of_pos_left B (by omega)) hpath
    have hi := div_lt_of_lt_size hB hBx hx
    have hmod := mod_lt (x - B) (size_pos f B D hB l)
    have hsplit := div_add_mod' (x - B) (size f B D l)
    rw [cut]
    generalize (x - B) / size f B D l = i at hi hsplit
    generalize (x - B) % size f B D l = r at hmod hsplit
    have hxr : x = B + i * size f B D l + r := by omega
    split
    · rename_i hlt
      exact Or.inr ⟨rfl, gap_of_lt hf hi hlt hxr⟩
    · rename_i hge
      rcases ih r (Nat.le_of_not_lt hge) hmod with ⟨q, y, hq, hy, hr⟩ | ⟨hleaf, hgap⟩
      · left
        refine ⟨i * f ^ l + q, y, ?_, hy, ?_⟩
        · have := Nat.mul_le_mul_right (f ^ l) (succ_le_of_lt hi)
          rw [succ_mul] at this
          rw [pow_succ, mul_comm (f ^ l) f]
          omega
        · rw [dataBegin_succ f B D l i q hi hq, hxr, hr, add_assoc _ (dataBegin f B D l q) y]
      · exact Or.inr ⟨hleaf, hgap.succ hi hxr⟩

theorem cut_path (hf : 0 < f) (hB : 0 < B) (hD : 2 * B ≤ D) (l y : Nat) (hy : y < 2 * B) :
    cut f B D l ((l + 1) * B + y) = ⟨l + 1, y, true⟩ := by
  have h := cut_dataBegin (D := D) hf hB l 0 y (Nat.pow_pos hf) (by omega)
  simp only [dataBegin, position_zero, zero_mul, add_zero] at h
  exact h

theorem cut_of_ge (hf : 0 < f) (hB : 0 < B) (hD : 2 * B ≤ D) (l r : Nat) (hr : r < (l + 3) * B) :
    cut f B D (l + 1) (size f B D (l + 1) + r) =
      if r < (l + 1) * B then ⟨nodes f (l + 1 + 1), r, false⟩
      else ⟨nodes f (l + 1 + 1) + (l + 1), r - (l + 1) * B, true⟩ := by
  have hlt : r < size f B D l := lt_of_lt_of_le hr (path_le_size f B D hf hD l)
  have hx : size f B D (l + 1) + r - B = size f B D l * f + r := by
    rw [size, mul_comm]
    omega
  rw [cut, hx, mul_add_div (size_pos f B D hB l), div_eq_of_lt hlt, mul_add_mod, mod_eq_of_lt hlt]
  simp only [add_zero]
  split
  · rw [add_comm 1]
    rfl
  · rename_i hge
    obtain ⟨y, rfl⟩ : ∃ y, r = (l + 1) * B + y := ⟨r - (l + 1) * B, by omega⟩
    have hy : y < 2 * B := by
      have : (l + 3) * B = (l + 1) * B + 2 * B := by ring
      omega
    rw [cut_path hf hB hD l y hy, nodes.eq_def f (l + 1 + 1), Nat.add_sub_cancel_left]
    rw [add_comm 1]

end CocoonFs.TreeCut
