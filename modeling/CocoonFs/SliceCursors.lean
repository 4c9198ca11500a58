import Mathlib.Algebra.GroupWithZero.Nat
import Mathlib.Data.List.Zip

namespace CocoonFs.SliceCursors

open List

variable {α β γ : Type}

/-- The length of the slice in front, with the empty ones skipped. -/
def nextSliceLen : List (List α) → Nat
  | [] => 0
  | [] :: slices => nextSliceLen slices
  | (_ :: xs) :: _ => xs.length + 1

def nextSlice (maxLen : Option Nat) : List (List α) → Option (List α × List (List α))
  | [] => none
  | [] :: slices => nextSlice maxLen slices
  | (x :: xs) :: slices =>
    match maxLen with
    | none => some (x :: xs, slices)
    | some n => some ((x :: xs).take n, (x :: xs).drop n :: slices)

def isEmpty (slices : List (List α)) : Bool := nextSliceLen slices == 0

def totalLen (slices : List (List α)) : Nat := (slices.map List.length).sum

theorem totalLen_eq (slices : List (List α)) : totalLen slices = slices.flatten.length := by
  rw [totalLen, List.length_flatten]

theorem nextSliceLen_eq_zero (slices : List (List α)) :
    nextSliceLen slices = 0 ↔ slices.flatten = [] := by
  induction slices with
  | nil => simp [nextSliceLen]
  | cons slice slices ih =>
    cases slice with
    | nil => rw [nextSliceLen, ih, flatten_cons, List.nil_append]
    | cons x xs => simp [nextSliceLen]

theorem isEmpty_iff (slices : List (List α)) : isEmpty slices = true ↔ slices.flatten = [] := by
  rw [isEmpty, beq_iff_eq, nextSliceLen_eq_zero]

theorem nextSlice_none (maxLen : Option Nat) (slices : List (List α)) :
    nextSlice maxLen slices = none ↔ slices.flatten = [] := by
  induction slices with
  | nil => simp [nextSlice]
  | cons slice slices ih =>
    cases slice with
    | nil => rw [nextSlice, ih, flatten_cons, List.nil_append]
    | cons x xs => cases maxLen <;> simp [nextSlice]

variable {slices rest : List (List α)} {slice : List α}

theorem flatten_nextSlice {maxLen : Option Nat} (h : nextSlice maxLen slices = some (slice, rest)) :
    slices.flatten = slice ++ rest.flatten := by
  induction slices with
  | nil => cases h
  | cons front slices ih =>
    cases front with
    | nil =>
      rw [flatten_cons, List.nil_append]
      exact ih h
    | cons x xs =>
      cases maxLen with
      | none =>
        cases h
        rfl
      | some n =>
        cases h
        rw [flatten_cons, flatten_cons, ← append_assoc, take_append_drop]

theorem length_nextSlice {n : Nat} (h : nextSlice (some n) slices = some (slice, rest)) :
    slice.length = min n (nextSliceLen slices) := by
  induction slices with
  | nil => cases h
  | cons front slices ih =>
    cases front with
    | nil => exact ih h
    | cons x xs =>
      cases h
      rw [length_take, length_cons, nextSliceLen]

theorem length_nextSlice_le {n : Nat}
    (h : nextSlice (some n) slices = some (slice, rest)) : slice.length ≤ n := by
  rw [length_nextSlice h]
  exact Nat.min_le_left _ _

theorem nextSlice_pos {n : Nat} (hn : 0 < n)
    (h : nextSlice (some n) slices = some (slice, rest)) : 0 < slice.length := by
  have hne : nextSliceLen slices ≠ 0 := by
    rw [Ne, nextSliceLen_eq_zero, ← nextSlice_none (some n), h]
    simp
  rw [length_nextSlice h]
  omega

/-- `copy_from_iter()` and `xor_from_iter()`, which differ in how the bytes get combined: the
bytes written, and what remains on both sides. -/
def copyFromIter (combine : α → β → γ) (dst : List (List α)) (src : List (List β)) :
    List γ × List (List α) × List (List β) :=
  let curSliceLen := min (nextSliceLen dst) (nextSliceLen src)
  match _hd : nextSlice (some curSliceLen) dst with
  | none => ([], [], src)
  | some (dstSlice, dst') =>
    match _hs : nextSlice (some curSliceLen) src with
    | none => ([], dst', [])
    | some (srcSlice, src') =>
      let copied := copyFromIter combine dst' src'
      (List.zipWith combine dstSlice srcSlice ++ copied.1, copied.2)
termination_by dst.flatten.length
decreasing_by
  have hdst : nextSliceLen dst ≠ 0 := by
    rw [Ne, nextSliceLen_eq_zero, ← nextSlice_none (some curSliceLen), _hd]
    simp
  have hsrc : nextSliceLen src ≠ 0 := by
    rw [Ne, nextSliceLen_eq_zero, ← nextSlice_none (some curSliceLen), _hs]
    simp
  have hpos := nextSlice_pos (by omega) _hd
  rw [flatten_nextSlice _hd, List.length_append]
  omega

/-- The front of the destination is combined with the source, as far as both of them go. -/
theorem copyFromIter_spec (combine : α → β → γ) (dst : List (List α)) (src : List (List β)) :
    (copyFromIter combine dst src).1 = List.zipWith combine dst.flatten src.flatten ∧
      (copyFromIter combine dst src).2.1.flatten = dst.flatten.drop src.flatten.length ∧
      (copyFromIter combine dst src).2.2.flatten = src.flatten.drop dst.flatten.length := by
  fun_induction copyFromIter combine dst src with
  | case1 dst src n hd =>
    have hnil := (nextSlice_none _ _).mp hd
    simp [hnil]
  | case2 dst src n dstSlice dst' hd hs =>
    have hnil := (nextSlice_none _ _).mp hs
    have hn : n ≤ nextSliceLen src := Nat.min_le_right _ _
    rw [(nextSliceLen_eq_zero src).mpr hnil] at hn
    have hlen : dstSlice.length = 0 := Nat.le_zero.mp (Nat.le_trans (length_nextSlice_le hd) hn)
    have hdst := flatten_nextSlice hd
    rw [length_eq_zero_iff.mp hlen, List.nil_append] at hdst
    simp [hnil, hdst]
  | case3 dst src n dstSlice dst' hd srcSlice src' hs copied ih =>
    have hdst := flatten_nextSlice hd
    have hsrc := flatten_nextSlice hs
    have hlen : dstSlice.length = srcSlice.length := by
      rw [length_nextSlice hd, length_nextSlice hs]
      omega
    obtain ⟨hwritten, hrest, hrest'⟩ := ih
    refine ⟨?_, ?_, ?_⟩
    · rw [hwritten, hdst, hsrc, zipWith_append hlen]
    · rw [hrest, hdst, hsrc, length_append, ← hlen, ← drop_drop, drop_left]
    · rw [hrest', hdst, hsrc, length_append, hlen, ← drop_drop, drop_left]

theorem zipWith_snd (xs : List α) (ys : List β) :
    List.zipWith (fun _ y => y) xs ys = ys.take xs.length := by
  induction xs generalizing ys with
  | nil => simp
  | cons x xs ih =>
    cases ys with
    | nil => rfl
    | cons y ys => rw [zipWith_cons_cons, ih, length_cons, take_succ_cons]

end CocoonFs.SliceCursors
