import Mathlib.Data.List.Nodup
import Mathlib.Tactic.Ring

namespace CocoonFs.CompleteTree

open List
open Nat (div_add_mod lt_succ_self mod_lt mul_succ succ_le_of_lt)

variable (f : Nat)

/-- The number of nodes in a complete tree of the given height whose inner
nodes have a fixed number of children. -/
def nodes : Nat → Nat
  | 0 => 0
  | l + 1 => f * nodes l + 1

/-- The preorder position of a node, the number of nodes before it on its level
given, in a complete tree whose root is the given number of levels above. -/
def position : Nat → Nat → Nat → Nat
  | _, 0, _ => 0
  | l, k + 1, q => position (l + 1) k (q / f) + 1 + nodes f (l + 1) * (q % f)

/-- The nodes below some node in preorder, as pairs of number on the level and
level. -/
def listing : Nat → Nat → List (Nat × Nat)
  | 0, q => [(q, 0)]
  | l + 1, q => (q, l + 1) :: (List.range f).flatMap (fun i => listing l (q * f + i))

def leaves : Nat → Nat → Nat
  | 0, n => min n 1
  | _ + 1, 0 => 0
  | l + 1, n + 1 => n / nodes f (l + 1) * f ^ l + leaves l (n % nodes f (l + 1))

theorem nodes_pos (l : Nat) : 0 < nodes f (l + 1) := Nat.succ_pos _

theorem pred_mul_nodes (hf : 0 < f) (l : Nat) : (f - 1) * nodes f l + 1 = f ^ l := by
  obtain ⟨g, rfl⟩ : ∃ g, f = g + 1 := ⟨f - 1, by omega⟩
  induction l with
  | zero => simp [nodes]
  | succ l ih =>
    rw [Nat.add_sub_cancel] at ih ⊢
    rw [nodes, pow_succ, ← ih]
    ring

theorem pow_le_nodes (l : Nat) : f ^ l ≤ nodes f (l + 1) := by
  induction l with
  | zero => simp [nodes]
  | succ l ih =>
    rw [nodes, pow_succ, mul_comm (f ^ l) f]
    exact Nat.le_succ_of_le (Nat.mul_le_mul_left f ih)

theorem nodes_mono (hf : 0 < f) {l l' : Nat} (h : l ≤ l') : nodes f l ≤ nodes f l' := by
  induction h with
  | refl => exact le_refl _
  | step _ ih =>
    rw [nodes]
    exact le_trans ih (Nat.le_succ_of_le (Nat.le_mul_of_pos_left _ hf))

theorem nodes_lt_of_lt (hf : 0 < f) {l l' : Nat} (h : l < l') : nodes f l < nodes f l' := by
  refine lt_of_lt_of_le ?_ (nodes_mono f hf h)
  rw [nodes]
  exact Nat.lt_succ_of_le (Nat.le_mul_of_pos_left _ hf)

theorem length_listing (l q : Nat) : (listing f l q).length = nodes f (l + 1) := by
  induction l generalizing q with
  | zero => simp [listing, nodes]
  | succ l ih =>
    rw [listing, length_cons, length_flatMap]
    simp [ih, nodes]

theorem position_child_le (l k q : Nat) (hf : 0 < f) :
    position f l (k + 1) q + nodes f (l + 1) ≤
      position f (l + 1) k (q / f) + nodes f (l + 1 + 1) := by
  have hmod : q % f < f := mod_lt q hf
  have hmul : nodes f (l + 1) * (q % f) + nodes f (l + 1) ≤ f * nodes f (l + 1) := by
    rw [← mul_succ, mul_comm]
    exact Nat.mul_le_mul_right _ hmod
  rw [position, nodes.eq_def f (l + 1 + 1)]
  dsimp only
  omega

theorem position_add_le (l k q : Nat) (hf : 0 < f) (hq : q < f ^ k) :
    position f l k q + nodes f (l + 1) ≤ nodes f (l + k + 1) := by
  induction k generalizing l q with
  | zero => simp [position]
  | succ k ih =>
    have hparent := ih (l + 1) (q / f) (Nat.div_lt_of_lt_mul (by rwa [pow_succ, mul_comm] at hq))
    have hchild := position_child_le f l k q hf
    rw [show l + 1 + k + 1 = l + (k + 1) + 1 by omega] at hparent
    omega

theorem position_lt (l k q : Nat) (hf : 0 < f) (hq : q < f ^ k) :
    position f l k q < nodes f (l + k + 1) := by
  have := position_add_le f l k q hf hq
  have := nodes_pos f l
  omega

theorem position_add_le_of_lt (l k : Nat) {q q' : Nat} (hf : 0 < f) (hqq : q < q')
    (hq : q' < f ^ k) : position f l k q + nodes f (l + 1) ≤ position f l k q' := by
  induction k generalizing l q q' with
  | zero =>
    rw [pow_zero] at hq
    omega
  | succ k ih =>
    by_cases hdiv : q / f = q' / f
    · have hmod : q % f < q' % f := by
        have hq := div_add_mod q f
        have hq' := div_add_mod q' f
        rw [← hdiv] at hq'
        omega
      rw [position, position, hdiv]
      have := Nat.mul_le_mul_left (nodes f (l + 1)) (succ_le_of_lt hmod)
      rw [mul_succ] at this
      omega
    · have hlt : q / f < q' / f := lt_of_le_of_ne (Nat.div_le_div_right hqq.le) hdiv
      have hparents := ih (l + 1) hlt
        (Nat.div_lt_of_lt_mul (by rwa [pow_succ, mul_comm] at hq))
      have hchild := position_child_le f l k q hf
      rw [position.eq_def f l (k + 1) q']
      dsimp only
      omega

/-- A subtree's nodes come after an ancestor of its root and within the
ancestor's subtree. -/
theorem position_ancestor (l k j q : Nat) (hf : 0 < f) :
    position f (l + j) k (q / f ^ j) + j ≤ position f l (k + j) q ∧
      position f l (k + j) q + nodes f (l + 1) ≤
        position f (l + j) k (q / f ^ j) + nodes f (l + j + 1) := by
  induction j generalizing l q with
  | zero => simp
  | succ j ih =>
    obtain ⟨hlow, hhigh⟩ := ih (l + 1) (q / f)
    have hchild := position_child_le f l (k + j) q hf
    rw [Nat.div_div_eq_div_mul, ← pow_succ', show l + 1 + j = l + (j + 1) by omega] at hlow hhigh
    rw [show k + (j + 1) = k + j + 1 by omega]
    refine ⟨?_, by omega⟩
    rw [position]
    omega

theorem position_top (l k q : Nat) (hq : q < f ^ (k + 1)) :
    position f l (k + 1) q =
      1 + nodes f (l + k + 1) * (q / f ^ k) + position f l k (q % f ^ k) := by
  induction k generalizing l q with
  | zero =>
    rw [pow_one] at hq
    rw [position, position, position, Nat.mod_eq_of_lt hq]
    simp
  | succ k ih =>
    have hdiv : q / f < f ^ (k + 1) :=
      Nat.div_lt_of_lt_mul (by rwa [pow_succ, mul_comm] at hq)
    have hpow : f ^ (k + 1) = f * f ^ k := by rw [pow_succ, mul_comm]
    rw [position, ih (l + 1) (q / f) hdiv, position.eq_def f l (k + 1) (q % f ^ (k + 1))]
    dsimp only
    rw [Nat.div_div_eq_div_mul, hpow, Nat.mod_mul_right_div_self, Nat.mod_mul_right_mod,
      show l + 1 + k + 1 = l + (k + 1) + 1 by omega]
    ring

theorem getElem?_flatMap_range {α : Type} (g : Nat → List α) (m : Nat)
    (hlen : ∀ i, (g i).length = m) (n i j : Nat) (hi : i < n) (hj : j < m) :
    ((List.range n).flatMap g)[m * i + j]? = (g i)[j]? := by
  induction n with
  | zero => omega
  | succ n ih =>
    have hlength : ((List.range n).flatMap g).length = n * m := by
      simp [length_flatMap, hlen]
    rw [range_succ, flatMap_append, flatMap_singleton]
    by_cases hin : i < n
    · have hlt : m * i + j < n * m := by
        have := Nat.mul_le_mul_left m (succ_le_of_lt hin)
        rw [mul_succ, mul_comm m n] at this
        omega
      rw [getElem?_append_left (by rwa [hlength]), ih hin]
    · obtain rfl : i = n := by omega
      rw [getElem?_append_right (by rw [hlength, mul_comm]; omega), hlength,
        mul_comm i m, Nat.add_sub_cancel_left]

theorem listing_getElem? (l k r q : Nat) (hf : 0 < f) (hq : q < f ^ k) :
    (listing f (l + k) r)[position f l k q]? = some (r * f ^ k + q, l) := by
  induction k generalizing r q with
  | zero =>
    obtain rfl : q = 0 := by
      rw [pow_zero] at hq
      omega
    cases l <;> simp [listing, position]
  | succ k ih =>
    have hpow : 0 < f ^ k := Nat.pow_pos hf
    have htop : q / f ^ k < f := Nat.div_lt_of_lt_mul (by rwa [pow_succ] at hq)
    have hmod : q % f ^ k < f ^ k := mod_lt q hpow
    have hlt := position_lt f l k (q % f ^ k) hf hmod
    have hindex : position f l (k + 1) q =
        nodes f (l + k + 1) * (q / f ^ k) + position f l k (q % f ^ k) + 1 := by
      rw [position_top f l k q hq]
      omega
    rw [hindex, ← add_assoc l k 1, listing, getElem?_cons_succ,
      getElem?_flatMap_range _ (nodes f (l + k + 1)) (fun i => length_listing f (l + k) _) f _ _
        htop hlt, ih _ _ hmod]
    have hsplit := div_add_mod q (f ^ k)
    rw [Option.some.injEq, Prod.mk.injEq]
    refine ⟨?_, rfl⟩
    calc (r * f + q / f ^ k) * f ^ k + q % f ^ k
        = r * f ^ (k + 1) + (f ^ k * (q / f ^ k) + q % f ^ k) := by ring
      _ = r * f ^ (k + 1) + q := by rw [hsplit]

theorem mem_listing {l q : Nat} {x : Nat × Nat} (hx : x ∈ listing f l q) :
    x.2 ≤ l ∧ x.1 / f ^ (l - x.2) = q := by
  induction l generalizing q with
  | zero =>
    obtain rfl := mem_singleton.mp hx
    simp
  | succ l ih =>
    rcases mem_cons.mp hx with rfl | hx
    · simp
    · obtain ⟨i, hi, hmem⟩ := mem_flatMap.mp hx
      have hif : i < f := mem_range.mp hi
      obtain ⟨hle, hdiv⟩ := ih hmem
      refine ⟨by omega, ?_⟩
      rw [show l + 1 - x.2 = l - x.2 + 1 by omega, pow_succ, ← Nat.div_div_eq_div_mul, hdiv,
        mul_comm q f, Nat.mul_add_div (by omega), Nat.div_eq_of_lt hif, add_zero]

theorem listing_nodup (l q : Nat) : (listing f l q).Nodup := by
  induction l generalizing q with
  | zero => simp [listing]
  | succ l ih =>
    rw [listing, nodup_cons, nodup_flatMap]
    refine ⟨fun hmem => ?_, fun i _ => ih _, ?_⟩
    · obtain ⟨i, -, hi⟩ := mem_flatMap.mp hmem
      have := (mem_listing f hi).1
      omega
    · refine nodup_range.imp ?_
      intro i j hij x hxi hxj
      have hi := (mem_listing f hxi).2
      have hj := (mem_listing f hxj).2
      exact hij (by omega)

theorem leaves_le (l n : Nat) (hn : n ≤ nodes f (l + 1)) : leaves f l n ≤ f ^ l := by
  induction l generalizing n with
  | zero =>
    rw [leaves, pow_zero]
    exact min_le_right _ _
  | succ l ih =>
    cases n with
    | zero => exact Nat.zero_le _
    | succ n =>
      have hpos := nodes_pos f l
      rw [nodes] at hn
      have hdiv : n / nodes f (l + 1) ≤ f :=
        Nat.div_le_of_le_mul (by rw [mul_comm]; omega)
      have hmod := ih (n % nodes f (l + 1)) (mod_lt n hpos).le
      rw [leaves, pow_succ, mul_comm (f ^ l) f]
      rcases lt_or_eq_of_le hdiv with hlt | heq
      · have := Nat.mul_le_mul_right (f ^ l) (succ_le_of_lt hlt)
        rw [Nat.succ_mul] at this
        omega
      · -- All the children are complete, so nothing remains.
        have hzero : n % nodes f (l + 1) = 0 := by
          have := div_add_mod n (nodes f (l + 1))
          rw [heq, mul_comm] at this
          omega
        have hleaves : leaves f l 0 = 0 := by
          cases l <;> simp [leaves]
        rw [heq, hzero, hleaves]
        exact le_refl _

theorem leaves_lt (hf : 0 < f) (l n : Nat) (hn : n < nodes f (l + 1)) : leaves f l n < f ^ l := by
  induction l generalizing n with
  | zero =>
    rw [nodes, nodes, mul_zero] at hn
    rw [leaves, pow_zero]
    omega
  | succ l ih =>
    cases n with
    | zero => exact Nat.pow_pos hf
    | succ n =>
      rw [nodes] at hn
      have hdiv : n / nodes f (l + 1) < f :=
        Nat.div_lt_of_lt_mul (by rw [mul_comm]; omega)
      have hmod := ih (n % nodes f (l + 1)) (mod_lt n (nodes_pos f l))
      have hmul := Nat.mul_le_mul_right (f ^ l) (succ_le_of_lt hdiv)
      rw [Nat.succ_mul] at hmul
      rw [leaves, pow_succ, mul_comm (f ^ l) f]
      omega

theorem lt_nodes (hf : 0 < f) (l : Nat) : l < nodes f (l + 1) := by
  induction l with
  | zero => exact nodes_pos f 0
  | succ l ih => exact lt_of_le_of_lt (succ_le_of_lt ih) (nodes_lt_of_lt f hf (lt_succ_self _))

theorem leaves_eq_zero (hf : 0 < f) (l n : Nat) (hn : n ≤ l) : leaves f l n = 0 := by
  induction l generalizing n with
  | zero => simp [leaves, Nat.le_zero.mp hn]
  | succ l ih =>
    cases n with
    | zero => rfl
    | succ n =>
      have hlt : n < nodes f (l + 1) := lt_of_le_of_lt (by omega) (lt_nodes f hf l)
      rw [leaves, Nat.div_eq_of_lt hlt, Nat.mod_eq_of_lt hlt, ih n (by omega), zero_mul]

theorem mul_add_lt_iff {m i d p r : Nat} (hp : p < m) (hr : r ≤ m) :
    m * i + p < m * d + r ↔ i < d ∨ i = d ∧ p < r := by
  rcases lt_trichotomy i d with h | h | h
  · have := Nat.mul_le_mul_left m (succ_le_of_lt h)
    rw [mul_succ] at this
    omega
  · subst h
    omega
  · have := Nat.mul_le_mul_left m (succ_le_of_lt h)
    rw [mul_succ] at this
    omega

theorem position_lt_iff (l n q : Nat) (hn : n ≤ nodes f (l + 1)) (hq : q < f ^ l) :
    position f 0 l q < n ↔ q < leaves f l n := by
  induction l generalizing n q with
  | zero =>
    rw [pow_zero] at hq
    rw [position, leaves]
    omega
  | succ l ih =>
    have hf : 0 < f := by
      rcases Nat.eq_zero_or_pos f with rfl | hf
      · simp at hq
      · exact hf
    cases n with
    | zero => simp [leaves]
    | succ n =>
      have hqmod := mod_lt q (Nat.pow_pos (n := l) hf)
      have hmod := mod_lt n (nodes_pos f l)
      have hrec := ih (n % nodes f (l + 1)) (q % f ^ l) hmod.le hqmod
      have hle := leaves_le f l (n % nodes f (l + 1)) hmod.le
      have hlt := position_lt f 0 l (q % f ^ l) hf hqmod
      rw [zero_add] at hlt
      calc position f 0 (l + 1) q < n + 1
          ↔ nodes f (l + 1) * (q / f ^ l) + position f 0 l (q % f ^ l) <
              nodes f (l + 1) * (n / nodes f (l + 1)) + n % nodes f (l + 1) := by
            rw [position_top f 0 l q hq, zero_add, div_add_mod]
            omega
        _ ↔ q / f ^ l < n / nodes f (l + 1) ∨ q / f ^ l = n / nodes f (l + 1) ∧
              q % f ^ l < leaves f l (n % nodes f (l + 1)) := by
            rw [mul_add_lt_iff hlt hmod.le, hrec]
        _ ↔ f ^ l * (q / f ^ l) + q % f ^ l < f ^ l * (n / nodes f (l + 1)) +
              leaves f l (n % nodes f (l + 1)) := (mul_add_lt_iff hqmod hle).symm
        _ ↔ q < leaves f (l + 1) (n + 1) := by
            rw [div_add_mod, leaves, mul_comm (f ^ l)]

theorem leaves_zero (l : Nat) : leaves f l 0 = 0 := by
  cases l <;> simp [leaves]

/-- A tree of which some children of the root and a part of the next one are
there. -/
theorem leaves_succ_add (l i n : Nat) (hn : n < nodes f (l + 1)) :
    leaves f (l + 1) (i * nodes f (l + 1) + n + 1) = i * f ^ l + leaves f l n := by
  rw [leaves, mul_comm i (nodes f (l + 1)), Nat.mul_add_div (nodes_pos f l), Nat.div_eq_of_lt hn,
    Nat.mul_add_mod, Nat.mod_eq_of_lt hn, add_zero]

theorem leaves_nodes (l : Nat) : leaves f l (nodes f (l + 1)) = f ^ l := by
  cases l with
  | zero => simp [leaves, nodes]
  | succ l =>
    have h := leaves_succ_add f l f 0 (nodes_pos f l)
    simp only [leaves_zero, add_zero] at h
    rw [nodes, h, pow_succ, mul_comm]

theorem leaves_succ_add_le (l i n : Nat) (hn : n ≤ nodes f (l + 1)) :
    leaves f (l + 1) (i * nodes f (l + 1) + n + 1) = i * f ^ l + leaves f l n := by
  rcases lt_or_eq_of_le hn with hlt | rfl
  · exact leaves_succ_add f l i n hlt
  · have h := leaves_succ_add f l (i + 1) 0 (nodes_pos f l)
    simp only [leaves_zero, Nat.succ_mul, add_zero] at h
    rw [leaves_nodes, ← h]

theorem leaves_succ_bounds (l n : Nat) (hn : n < nodes f (l + 1)) :
    leaves f l n ≤ leaves f l (n + 1) ∧ leaves f l (n + 1) ≤ leaves f l n + 1 := by
  induction l generalizing n with
  | zero =>
    rw [leaves, leaves]
    omega
  | succ l ih =>
    cases n with
    | zero =>
      have h := leaves_succ_add f l 0 0 (nodes_pos f l)
      rw [zero_mul, zero_mul, leaves_zero, zero_add] at h
      rw [leaves_zero, h]
      exact ⟨le_refl _, Nat.zero_le _⟩
    | succ n =>
      have hpos := nodes_pos f l
      have hmod := mod_lt n hpos
      have hsplit := Nat.div_add_mod' n (nodes f (l + 1))
      generalize n / nodes f (l + 1) = i at hsplit
      generalize n % nodes f (l + 1) = m at hsplit hmod
      obtain rfl := hsplit.symm
      have hstep := ih m hmod
      rw [leaves_succ_add f l i m hmod]
      rw [add_assoc (i * nodes f (l + 1)) m 1, leaves_succ_add_le f l i (m + 1) hmod]
      omega

theorem le_nodes (hf : 0 < f) (l : Nat) : l ≤ nodes f l := by
  cases l with
  | zero => exact le_refl _
  | succ l => exact lt_nodes f hf l

/-- The number of leaves of the tree with that many nodes in preorder, of the
least height possible. -/
def leafCount (n : Nat) : Nat := leaves f (Nat.findGreatest (fun l => nodes f l < n) n) n

theorem leafCount_eq (hf : 0 < f) {l n : Nat} (hl : nodes f l < n) (hn : n ≤ nodes f (l + 1)) :
    leafCount f n = leaves f l n := by
  have hfind : Nat.findGreatest (fun l => nodes f l < n) n = l := by
    rw [Nat.findGreatest_eq_iff]
    refine ⟨(lt_of_le_of_lt (le_nodes f hf l) hl).le, fun _ => hl, ?_⟩
    intro m hm _
    exact not_lt.mpr (le_trans hn (nodes_mono f hf hm))
  rw [leafCount, hfind]

theorem exists_height (hf : 0 < f) {n : Nat} (hn : 0 < n) :
    ∃ l, nodes f l < n ∧ n ≤ nodes f (l + 1) := by
  induction n, hn using Nat.le_induction with
  | base => exact ⟨0, Nat.zero_lt_one, nodes_pos f 0⟩
  | succ n _ ih =>
    obtain ⟨l, hl, hle⟩ := ih
    rcases lt_or_eq_of_le hle with hlt | rfl
    · exact ⟨l, Nat.lt_succ_of_lt hl, hlt⟩
    · exact ⟨l + 1, lt_succ_self _, nodes_lt_of_lt f hf (lt_succ_self _)⟩

theorem leafCount_nodes (hf : 0 < f) (l : Nat) : leafCount f (nodes f (l + 1)) = f ^ l := by
  rw [leafCount_eq f hf (nodes_lt_of_lt f hf (lt_succ_self l)) (le_refl _), leaves_nodes f]

/-- Some more nodes than a complete tree has got do not make for another leaf. -/
theorem leafCount_nodes_add (hf : 2 ≤ f) (l k : Nat) (hk : k ≤ l + 1) :
    leafCount f (nodes f (l + 1) + k) = f ^ l := by
  have hpos : 0 < f := by omega
  cases k with
  | zero => exact leafCount_nodes f hpos l
  | succ k =>
    have hlt := lt_nodes f hpos l
    have hdouble := Nat.mul_le_mul_right (nodes f (l + 1)) hf
    have hnodes : nodes f (l + 1 + 1) = f * nodes f (l + 1) + 1 := rfl
    have h := leaves_succ_add f l 1 k (by omega)
    simp only [one_mul, leaves_eq_zero f hpos l k (by omega), add_zero] at h
    rw [leafCount_eq f hpos (l := l + 1) (by omega) (by omega), ← add_assoc, h]

theorem leafCount_succ_bounds (hf : 2 ≤ f) (n : Nat) :
    leafCount f n ≤ leafCount f (n + 1) ∧ leafCount f (n + 1) ≤ leafCount f n + 1 := by
  have hpos : 0 < f := by omega
  rcases Nat.eq_zero_or_pos n with rfl | hn
  · rw [leafCount_eq f hpos (l := 0) Nat.zero_lt_one (nodes_pos f 0)]
    simp [leafCount, leaves]
  · obtain ⟨l, hl, hle⟩ := exists_height f hpos hn
    rcases lt_or_eq_of_le hle with hlt | rfl
    · rw [leafCount_eq f hpos hl hle, leafCount_eq f hpos (Nat.lt_succ_of_lt hl) hlt]
      exact leaves_succ_bounds f l n hlt
    · rw [leafCount_nodes f hpos, leafCount_nodes_add f hf l 1 (by omega)]
      omega

theorem leafCount_add_bounds (hf : 2 ≤ f) (n k : Nat) :
    leafCount f n ≤ leafCount f (n + k) ∧ leafCount f (n + k) ≤ leafCount f n + k := by
  induction k with
  | zero => exact ⟨le_refl _, le_refl _⟩
  | succ k ih =>
    have := leafCount_succ_bounds f hf (n + k)
    rw [← add_assoc n k 1]
    omega

theorem leaves_position_succ (hf : 0 < f) (l q : Nat) (hq : q < f ^ l) :
    leaves f l (position f 0 l q + 1) = q + 1 := by
  have hlt := position_lt f 0 l q hf hq
  rw [zero_add] at hlt
  have hle := leaves_le f l (position f 0 l q + 1) hlt
  have hself := (position_lt_iff f l (position f 0 l q + 1) q hlt hq).mp (lt_succ_self _)
  by_cases hnext : q + 1 < f ^ l
  · have hafter := position_add_le_of_lt f 0 l hf (lt_succ_self q) hnext
    have hpos := nodes_pos f 0
    rw [Nat.succ_eq_add_one] at hafter
    have := (position_lt_iff f l (position f 0 l q + 1) (q + 1) hlt hnext).not.mp (by omega)
    omega
  · omega

end CocoonFs.CompleteTree
