import Mathlib.Data.List.Basic

namespace CocoonFs.Patches

open List

variable {α : Type}

/-- The list with some of its entries overwritten, from an offset on. -/
def patch (xs : List α) (offset : Nat) (ys : List α) : List α :=
  xs.take offset ++ ys ++ xs.drop (offset + ys.length)

variable {offset : Nat}

theorem patch_append {as bs cs ys : List α} (ha : as.length = offset)
    (hb : bs.length = ys.length) : patch (as ++ bs ++ cs) offset ys = as ++ ys ++ cs := by
  subst ha
  rw [patch, append_assoc as bs cs, take_left, ← drop_drop, drop_left, drop_left' hb]

theorem length_patch {xs ys : List α} (h : offset + ys.length ≤ xs.length) :
    (patch xs offset ys).length = xs.length := by
  rw [patch, length_append, length_append, length_take, length_drop]
  omega

theorem getElem?_patch {xs ys : List α} (h : offset + ys.length ≤ xs.length) (i : Nat) :
    (patch xs offset ys)[i]? =
      if offset ≤ i ∧ i < offset + ys.length then ys[i - offset]? else xs[i]? := by
  have htake : (xs.take offset).length = offset := by
    rw [length_take]
    omega
  have hfront : (xs.take offset ++ ys).length = offset + ys.length := by
    rw [length_append, htake]
  rw [patch]
  by_cases hlo : i < offset
  · rw [getElem?_append_left (by omega), getElem?_append_left (by omega),
      getElem?_take, if_pos hlo, if_neg (by omega)]
  · by_cases hhi : i < offset + ys.length
    · rw [getElem?_append_left (by omega), getElem?_append_right (by omega), htake,
        if_pos ⟨by omega, hhi⟩]
    · rw [getElem?_append_right (by omega), hfront, getElem?_drop, if_neg (by omega)]
      congr 1
      omega

variable {xs : List α}

theorem getElem?_modify_eq {i : Nat} {x : α} (h : xs[i]? = some x) (f : α → α)
    (j : Nat) : (xs.modify i f)[j]? = if i = j then some (f x) else xs[j]? := by
  rw [getElem?_modify]
  by_cases hij : i = j
  · subst hij
    simp [h]
  · simp [hij]

def slice (xs : List α) (lo hi : Nat) : List α := (xs.drop lo).take (hi - lo)

theorem length_slice {lo hi : Nat} (h : hi ≤ xs.length) :
    (slice xs lo hi).length = hi - lo := by
  rw [slice, length_take, length_drop]
  omega

theorem getElem?_slice {lo hi i : Nat} (h : i < hi - lo) :
    (slice xs lo hi)[i]? = xs[lo + i]? := by
  rw [slice, getElem?_take, if_pos h, getElem?_drop]

end CocoonFs.Patches
