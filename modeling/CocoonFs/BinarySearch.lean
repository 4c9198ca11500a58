import Mathlib.Data.List.Pairwise
import Mathlib.Tactic.Common

namespace CocoonFs.BinarySearch

open List

variable {α : Type} (cmp : α → Ordering)

/-- The loop of slice::binary_search_by(): narrow the range down to one element. -/
def binarySearchLoop (xs : List α) : Nat → Nat → Nat → Nat
  | 0, base, _ => base
  | fuel + 1, base, size =>
    if 1 < size then
      let half := size / 2
      let mid := base + half
      let base := match (xs[mid]?).map cmp with
        | some .gt | none => base
        | _ => mid
      binarySearchLoop xs fuel base (size - half)
    else base

/-- slice::binary_search_by() -/
def binarySearchBy (xs : List α) : Except Nat Nat :=
  let base := binarySearchLoop cmp xs xs.length 0 xs.length
  match (xs[base]?).map cmp with
  | none => .error 0
  | some .eq => .ok base
  | some .lt => .error (base + 1)
  | some .gt => .error base

/-- The elements compare less first, then equal and then greater. -/
def Ordered (x y : α) : Prop := (cmp y = .lt → cmp x = .lt) ∧ (cmp x = .gt → cmp y = .gt)

def GreaterFrom (xs : List α) (n : Nat) : Prop := ∀ i x, n ≤ i → xs[i]? = some x → cmp x = .gt

structure Narrowed (xs : List α) (base size : Nat) : Prop where
  pos : 0 < size
  le : base + size ≤ xs.length
  notGreater : base = 0 ∨ ∃ x, xs[base]? = some x ∧ cmp x ≠ .gt
  greater : GreaterFrom cmp xs (base + size)

variable {cmp} {xs : List α}

theorem greaterFrom_of_gt (h : xs.Pairwise (Ordered cmp)) {n : Nat} {x : α}
    (hx : xs[n]? = some x) (hgt : cmp x = .gt) : GreaterFrom cmp xs n := by
  intro i y hle hy
  rcases Nat.eq_or_lt_of_le hle with rfl | hlt
  · rwa [← Option.some.inj (hx.symm.trans hy)]
  · obtain ⟨hn, rfl⟩ := List.getElem?_eq_some_iff.mp hx
    obtain ⟨hi, rfl⟩ := List.getElem?_eq_some_iff.mp hy
    exact (pairwise_iff_getElem.mp h n i hn hi hlt).2 hgt

theorem binarySearchLoop_spec (h : xs.Pairwise (Ordered cmp)) (fuel : Nat) {base size : Nat}
    (hsize : size ≤ fuel + 1) (hnarrow : Narrowed cmp xs base size) :
    Narrowed cmp xs (binarySearchLoop cmp xs fuel base size) 1 := by
  induction fuel generalizing base size with
  | zero =>
    obtain rfl : size = 1 := Nat.le_antisymm hsize hnarrow.pos
    exact hnarrow
  | succ fuel ih =>
    rw [binarySearchLoop]
    by_cases hone : 1 < size
    · have hle := hnarrow.le
      rw [if_pos hone]
      dsimp only
      obtain ⟨x, hx⟩ : ∃ x, xs[base + size / 2]? = some x :=
        ⟨_, getElem?_eq_getElem (by omega : base + size / 2 < xs.length)⟩
      -- Either half is at most as long as the remaining size.
      have hupper (hne : cmp x ≠ .gt) : Narrowed cmp xs (base + size / 2) (size - size / 2) :=
        ⟨by omega, by omega, Or.inr ⟨x, hx, hne⟩, by
          rw [show base + size / 2 + (size - size / 2) = base + size by omega]
          exact hnarrow.greater⟩
      rw [hx, Option.map_some]
      apply ih (by omega)
      cases hcmp : cmp x with
      | lt => exact hupper (by simp [hcmp])
      | eq => exact hupper (by simp [hcmp])
      | gt =>
        have hlower : GreaterFrom cmp xs (base + (size - size / 2)) := fun i y hi hy =>
          greaterFrom_of_gt h hx hcmp i y (by omega) hy
        exact ⟨by omega, (by omega : base + (size - size / 2) ≤ xs.length), hnarrow.notGreater, hlower⟩
    · have hpos := hnarrow.pos
      obtain rfl : size = 1 := by omega
      rwa [if_neg hone]

theorem narrowed_all (hne : xs ≠ []) : Narrowed cmp xs 0 xs.length where
  pos := length_pos_iff.mpr hne
  le := Nat.le_of_eq (Nat.zero_add _)
  notGreater := Or.inl rfl
  greater := by
    intro i x hi hx
    rw [getElem?_eq_none (by omega)] at hx
    cases hx

def Found (cmp : α → Ordering) (xs : List α) : Except Nat Nat → Prop
  | .ok k => ∃ x, xs[k]? = some x ∧ cmp x = .eq
  | .error k => k ≤ xs.length ∧ (∀ i x, i < k → xs[i]? = some x → cmp x = .lt) ∧ GreaterFrom cmp xs k

theorem binarySearchBy_found (h : xs.Pairwise (Ordered cmp)) : Found cmp xs (binarySearchBy cmp xs) := by
  by_cases hne : xs = []
  · subst hne
    exact ⟨Nat.le_refl _, fun i x hi => absurd hi (Nat.not_lt_zero i), fun i x _ hx => by cases hx⟩
  · have hnarrow := binarySearchLoop_spec h xs.length (Nat.le_succ _) (narrowed_all hne)
    rw [binarySearchBy]
    generalize binarySearchLoop cmp xs xs.length 0 xs.length = base at hnarrow ⊢
    have hlt : base < xs.length := hnarrow.le
    obtain ⟨x, hx⟩ : ∃ x, xs[base]? = some x := ⟨_, getElem?_eq_getElem hlt⟩
    rw [hx, Option.map_some]
    cases hcmp : cmp x with
    | eq => exact ⟨x, hx, hcmp⟩
    | lt =>
      refine ⟨hlt, ?_, hnarrow.greater⟩
      intro i y hi hy
      rcases Nat.eq_or_lt_of_le (Nat.le_of_lt_succ hi) with rfl | hilt
      · rwa [← Option.some.inj (hx.symm.trans hy)]
      · obtain ⟨hb, rfl⟩ := List.getElem?_eq_some_iff.mp hx
        obtain ⟨hi', rfl⟩ := List.getElem?_eq_some_iff.mp hy
        exact (pairwise_iff_getElem.mp h i base hi' hb hilt).1 hcmp
    | gt =>
      obtain rfl : base = 0 := by
        rcases hnarrow.notGreater with hzero | ⟨y, hy, hng⟩
        · exact hzero
        · rw [← Option.some.inj (hx.symm.trans hy)] at hng
          exact absurd hcmp hng
      exact ⟨Nat.zero_le _, fun i _ hi => absurd hi (Nat.not_lt_zero i), greaterFrom_of_gt h hx hcmp⟩

end CocoonFs.BinarySearch
