import Mathlib.Data.List.Pairwise
import Mathlib.Data.List.Sort

namespace CocoonFs.BlockRuns

open List

theorem add_le_of_lt_of_dvd {n x y : Nat} (hx : n ∣ x) (hy : n ∣ y) (h : x < y) : x + n ≤ y := by
  obtain ⟨i, rfl⟩ := hx
  obtain ⟨j, rfl⟩ := hy
  have hij : i < j := Nat.lt_of_mul_lt_mul_left h
  calc n * i + n = n * (i + 1) := (Nat.mul_succ n i).symm
    _ ≤ n * j := Nat.mul_le_mul_left n hij

structure Run where
  b : Nat
  count : Nat
  deriving DecidableEq, Repr

def Run.blocks (n : Nat) (r : Run) : List Nat := (List.range r.count).map (fun i => r.b + i * n)

def Run.stop (n : Nat) (r : Run) : Nat := r.b + r.count * n

variable {r : Run}

theorem Run.mem_blocks {n x : Nat} :
    x ∈ r.blocks n ↔ ∃ i, i < r.count ∧ r.b + i * n = x := by
  simp [Run.blocks]

theorem Run.blocks_one (n b : Nat) : Run.blocks n ⟨b, 1⟩ = [b] := by
  simp [Run.blocks]

theorem Run.blocks_succ (n : Nat) (r : Run) :
    Run.blocks n ⟨r.b, r.count + 1⟩ = r.blocks n ++ [r.stop n] := by
  simp [Run.blocks, Run.stop, range_succ]

theorem Run.block_within {n x : Nat} (hx : x ∈ r.blocks n) :
    r.b ≤ x ∧ x + n ≤ r.stop n := by
  obtain ⟨i, hi, rfl⟩ := Run.mem_blocks.mp hx
  have hmul : (i + 1) * n ≤ r.count * n := Nat.mul_le_mul_right n hi
  rw [Nat.succ_mul] at hmul
  rw [Run.stop]
  omega

theorem Run.pairwise_blocks {n : Nat} (hn : 0 < n) (r : Run) :
    (r.blocks n).Pairwise (· < ·) := by
  rw [Run.blocks, pairwise_map]
  refine pairwise_lt_range.imp ?_
  intro i j hij
  exact Nat.add_lt_add_left (Nat.mul_lt_mul_of_pos_right hij hn) _

/-- A position is within a run if and only if it is within one of its blocks. -/
theorem Run.covers_iff {n p : Nat} :
    (r.b ≤ p ∧ p < r.stop n) ↔ ∃ x ∈ r.blocks n, x ≤ p ∧ p < x + n := by
  constructor
  · rintro ⟨hle, hlt⟩
    rw [Run.stop] at hlt
    have hn : 0 < n := by
      rcases Nat.eq_zero_or_pos n with rfl | hn
      · omega
      · exact hn
    have hdiv := Nat.div_add_mod (p - r.b) n
    have hmod := Nat.mod_lt (p - r.b) hn
    have hi : (p - r.b) / n < r.count := by
      rw [Nat.div_lt_iff_lt_mul hn]
      omega
    refine ⟨r.b + (p - r.b) / n * n, Run.mem_blocks.mpr ⟨_, hi, rfl⟩, ?_, ?_⟩
    · rw [Nat.mul_comm]
      omega
    · rw [Nat.mul_comm]
      omega
  · rintro ⟨x, hx, hle, hlt⟩
    have hwithin := Run.block_within hx
    omega

variable {n : Nat} {rs : List Run}

theorem covers_flatMap_iff {p : Nat} :
    (∃ r ∈ rs, r.b ≤ p ∧ p < r.stop n) ↔
      ∃ x ∈ rs.flatMap (Run.blocks n), x ≤ p ∧ p < x + n := by
  simp only [Run.covers_iff, mem_flatMap]
  constructor
  · rintro ⟨r, hr, x, hx, hp⟩
    exact ⟨x, ⟨r, hr, hx⟩, hp⟩
  · rintro ⟨x, ⟨r, hr, hx⟩, hp⟩
    exact ⟨r, hr, x, hx, hp⟩

theorem pairwise_of_blocks (hpos : ∀ r ∈ rs, 0 < r.count)
    (h : (rs.flatMap (Run.blocks n)).Pairwise (fun x y => x + n ≤ y)) :
    rs.Pairwise (fun r s => r.stop n ≤ s.b) := by
  have hpw := (pairwise_flatMap.mp h).2
  refine hpw.imp_of_mem ?_
  intro r s hr hs hrs
  have hr := hpos r hr
  have hs := hpos s hs
  have hlast : r.b + (r.count - 1) * n ∈ r.blocks n :=
    Run.mem_blocks.mpr ⟨r.count - 1, by omega, rfl⟩
  have hfirst : s.b ∈ s.blocks n := Run.mem_blocks.mpr ⟨0, hs, by simp⟩
  have hle := hrs _ hlast _ hfirst
  obtain ⟨c, hc⟩ : ∃ c, r.count = c + 1 := ⟨r.count - 1, by omega⟩
  rw [Run.stop, hc, Nat.succ_mul]
  rw [hc, Nat.add_sub_cancel] at hle
  omega

theorem first_mem_blocks (hr : r ∈ rs) (hpos : 0 < r.count) :
    r.b ∈ rs.flatMap (Run.blocks n) :=
  mem_flatMap.mpr ⟨r, hr, Run.mem_blocks.mpr ⟨0, hpos, by simp⟩⟩

def Enumerates (P : Nat → Prop) (xs : List Nat) : Prop :=
  xs.Pairwise (· < ·) ∧ ∀ x, x ∈ xs ↔ P x

variable {P : Nat → Prop} {xs : List Nat}

theorem Enumerates.unique {ys : List Nat} (hx : Enumerates P xs) (hy : Enumerates P ys) : xs = ys :=
  hx.1.eq_of_mem_iff hy.1 (fun x => (hx.2 x).trans (hy.2 x).symm)

theorem Enumerates.congr {Q : Nat → Prop} (hx : Enumerates P xs) (h : ∀ x, P x ↔ Q x) :
    Enumerates Q xs :=
  ⟨hx.1, fun x => (hx.2 x).trans (h x)⟩

theorem enumerates_nil (h : ∀ x, ¬P x) : Enumerates P [] :=
  ⟨List.Pairwise.nil, fun x => iff_of_false (not_mem_nil) (h x)⟩

theorem Enumerates.cons {Q : Nat → Prop} {b : Nat} (h : Enumerates Q xs)
    (hlt : ∀ x, Q x → b < x) (hP : ∀ x, P x ↔ x = b ∨ Q x) : Enumerates P (b :: xs) := by
  refine ⟨pairwise_cons.mpr ⟨fun x hx => hlt x ((h.2 x).mp hx), h.1⟩, fun x => ?_⟩
  rw [mem_cons, h.2, hP]

theorem take_filter_lt {α : Type} {f : α → Nat} {items : List α} (c : Nat)
    (hasc : items.Pairwise (fun x y => f x < f y)) :
    items.take (items.filter (fun x => decide (f x < c))).length =
        items.filter (fun x => decide (f x < c)) ∧
      items.drop (items.filter (fun x => decide (f x < c))).length =
        items.filter (fun x => decide (c ≤ f x)) := by
  induction items with
  | nil => exact ⟨rfl, rfl⟩
  | cons x items ih =>
    obtain ⟨hx, hasc⟩ := pairwise_cons.mp hasc
    obtain ⟨htake, hdrop⟩ := ih hasc
    by_cases hc : f x < c
    · rw [filter_cons_of_pos (by simpa using hc), filter_cons_of_neg (by simpa using hc),
        length_cons, take_succ_cons, drop_succ_cons, htake, hdrop]
      exact ⟨rfl, rfl⟩
    · have hnil : items.filter (fun y => decide (f y < c)) = [] := by
        rw [filter_eq_nil_iff]
        intro y hy
        have hxy := hx y hy
        simp only [decide_eq_true_eq]
        omega
      rw [hnil] at hdrop
      rw [filter_cons_of_neg (by simpa using hc), hnil,
        filter_cons_of_pos (by simpa using hc), ← hdrop]
      exact ⟨rfl, rfl⟩

theorem tail_filter_eq {α : Type} {f : α → Nat} {n pos : Nat} {items tl : List α} {x : α}
    (hn : 0 < n) (hasc : items.Pairwise (fun x y => f x + n ≤ f y))
    (h : items.filter (fun y => decide (pos ≤ f y)) = x :: tl) :
    tl = items.filter (fun y => decide (f x + n ≤ f y)) := by
  induction items with
  | nil => cases h
  | cons y items ih =>
    obtain ⟨hy, hasc⟩ := pairwise_cons.mp hasc
    by_cases hpos : pos ≤ f y
    · rw [filter_cons_of_pos (by simpa using hpos)] at h
      obtain ⟨rfl, rfl⟩ := List.cons.inj h
      rw [filter_cons_of_neg (by simp only [decide_eq_true_eq]; omega)]
      refine filter_congr (fun z hz => ?_)
      have hyz := hy z hz
      rw [decide_eq_true (show pos ≤ f z by omega), decide_eq_true hyz]
    · rw [filter_cons_of_neg (by simpa using hpos)] at h
      have hmem : x ∈ items := (mem_filter.mp (h ▸ mem_cons_self ..)).1
      have hyx := hy x hmem
      rw [filter_cons_of_neg (by simp only [decide_eq_true_eq]; omega)]
      exact ih hasc h

end CocoonFs.BlockRuns
