import Mathlib.Algebra.GroupWithZero.Nat
import Mathlib.Data.List.Basic

namespace CocoonFs.IoSlices

open List

variable {α : Type}

def copyFromIter : Nat → List (List α) → List α × List (List α)
  | _, [] => ([], [])
  | n, slice :: src =>
    if n < slice.length then (slice.take n, slice.drop n :: src)
    else
      let (copied, src) := copyFromIter (n - slice.length) src
      (slice ++ copied, src)

/-- Skip over the front of the slices, unless they get exhausted. -/
def skip : Nat → List (List α) → Option (List (List α))
  | 0, src => some src
  | _ + 1, [] => none
  | n + 1, slice :: src =>
    if n + 1 < slice.length then some (slice.drop (n + 1) :: src)
    else skip (n + 1 - slice.length) src

def totalLen (src : List (List α)) : Nat := (src.map List.length).sum

theorem totalLen_eq (src : List (List α)) : totalLen src = src.flatten.length := by
  rw [totalLen, List.length_flatten]

section

variable (n : Nat) (src : List (List α))
include n src

theorem copyFromIter_fst :
    (copyFromIter n src).1 = src.flatten.take n := by
  induction src generalizing n with
  | nil => simp [copyFromIter]
  | cons slice src ih =>
    rw [copyFromIter, flatten_cons]
    split
    next hlt => rw [take_append_of_le_length (Nat.le_of_lt hlt)]
    next hge =>
      dsimp only
      rw [ih, List.take_append, take_of_length_le (Nat.le_of_not_lt hge)]

theorem copyFromIter_snd :
    (copyFromIter n src).2.flatten = src.flatten.drop n := by
  induction src generalizing n with
  | nil => simp [copyFromIter]
  | cons slice src ih =>
    rw [copyFromIter, flatten_cons]
    split
    next hlt => rw [flatten_cons, drop_append_of_le_length (Nat.le_of_lt hlt)]
    next hge =>
      rw [ih, drop_append, drop_of_length_le (Nat.le_of_not_lt hge), List.nil_append]

theorem skip_eq (h : n ≤ src.flatten.length) :
    ∃ src', skip n src = some src' ∧ src'.flatten = src.flatten.drop n := by
  induction src generalizing n with
  | nil =>
    obtain rfl : n = 0 := by simpa using h
    exact ⟨[], rfl, rfl⟩
  | cons slice src ih =>
    cases n with
    | zero => exact ⟨slice :: src, rfl, rfl⟩
    | succ n =>
      rw [flatten_cons, length_append] at h
      rw [skip, flatten_cons]
      split
      next hlt => exact ⟨_, rfl, by rw [flatten_cons, drop_append_of_le_length (Nat.le_of_lt hlt)]⟩
      next hge =>
        obtain ⟨src', hskip, hflat⟩ := ih (n + 1 - slice.length) (by omega)
        refine ⟨src', hskip, ?_⟩
        rw [hflat, drop_append, drop_of_length_le (Nat.le_of_not_lt hge), List.nil_append]

end

end CocoonFs.IoSlices
