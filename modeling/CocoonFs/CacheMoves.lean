import CocoonFs.CacheCompress
import CocoonFs.CacheOrder

namespace CocoonFs.CacheMoves

open Checked CacheSet CacheRows CacheOrder CacheCompress Lanes BitVec
open Function (update_of_ne update_self)
open Fin (ext ext_iff)

variable {a b : Nat}

section Ranks

variable (evicted : BitVec 8)

theorem rank_succ (c : Nat) :
    rank evicted (c + 1) = rank evicted c + if evicted.getLsbD c then 0 else 1 := by
  rw [rank, List.range_succ, List.countP_append, List.countP_singleton, rank]
  cases evicted.getLsbD c <;> rfl

theorem rank_mono (h : a ≤ b) : rank evicted a ≤ rank evicted b := by
  induction h with
  | refl => exact le_rfl
  | step _ ih =>
    rw [rank_succ]
    exact Nat.le_add_right_of_le ih

theorem rank_lt (h : a < b) (ha : evicted.getLsbD a = false) :
    rank evicted a < rank evicted b := by
  have hle := rank_mono evicted (show a + 1 ≤ b from h)
  rw [rank_succ, ha] at hle
  exact hle

theorem rank_injective (ha : evicted.getLsbD a = false) (hb : evicted.getLsbD b = false)
    (h : rank evicted a = rank evicted b) : a = b := by
  rcases Nat.lt_trichotomy a b with hlt | heq | hgt
  · exact absurd h (rank_lt evicted hlt ha).ne
  · exact heq
  · exact absurd h (rank_lt evicted hgt hb).ne'

theorem exists_rank_eq {c i : Nat} (h : i < rank evicted c) :
    ∃ r, r < c ∧ evicted.getLsbD r = false ∧ rank evicted r = i := by
  induction c with
  | zero => simp [rank] at h
  | succ c ih =>
    by_cases hi : i < rank evicted c
    · obtain ⟨r, hr, hkept, hrank⟩ := ih hi
      exact ⟨r, by omega, hkept, hrank⟩
    · rw [rank_succ] at h
      cases he : evicted.getLsbD c with
      | true =>
        rw [he] at h
        exact absurd h hi
      | false =>
        rw [he] at h
        simp only [Bool.false_eq_true, if_false] at h
        exact ⟨c, by omega, he, by omega⟩

end Ranks

section Counts

variable (pr : Profile)

def leCount (evicted : BitVec 8) (r : Nat) : Nat := r + 1 - rank evicted (r + 1)

theorem rank_add_leCount (evicted : BitVec 8) (r : Nat) :
    rank evicted (r + 1) + leCount evicted r = r + 1 := by
  have := rank_le evicted (r + 1)
  rw [leCount]
  omega

def evictedBelow (evicted : BitVec 8) (c : Nat) : Nat := c - rank evicted c

theorem evictedBelow_succ (evicted : BitVec 8) (c : Nat) :
    evictedBelow evicted (c + 1) = evictedBelow evicted c + if evicted.getLsbD c then 1 else 0 := by
  have hle := rank_le evicted c
  rw [evictedBelow, evictedBelow, rank_succ]
  split <;> omega

theorem evictedBelow_mono (evicted : BitVec 8) (h : a ≤ b) :
    evictedBelow evicted a ≤ evictedBelow evicted b := by
  induction h with
  | refl => exact le_rfl
  | step _ ih =>
    rw [evictedBelow_succ]
    exact Nat.le_add_right_of_le ih

/-- Each nibble counts the slots evicted among some of the ones up to it. -/
def Counts (evicted : BitVec 8) (k : Nat) (x : BitVec 32) : Prop :=
  ∀ i < 8, (lane 4 x i).toNat = evictedBelow evicted (i + 1) - evictedBelow evicted (i + 1 - k)

theorem counts_double {evicted : BitVec 8} {k : Nat} {x : BitVec 32} (h : Counts evicted k x) :
    ∃ z, add pr x (x <<< (4 * k)) = .ok z ∧ Counts evicted (2 * k) z := by
  have hsum (i : Nat) (hi : i < 8) : (lane 4 x i).toNat + (lane 4 (x <<< (4 * k)) i).toNat =
      evictedBelow evicted (i + 1) - evictedBelow evicted (i + 1 - 2 * k) := by
    rw [lane_shiftLeft x k (by omega), h i hi]
    by_cases hik : i < k
    · rw [if_pos hik, show i + 1 - k = 0 by omega, show i + 1 - 2 * k = 0 by omega]
      rfl
    · have hmono := evictedBelow_mono evicted (show i + 1 - k ≤ i + 1 by omega)
      have hmono' := evictedBelow_mono evicted (show i + 1 - 2 * k ≤ i + 1 - k by omega)
      rw [if_neg hik, h (i - k) (by omega), show i - k + 1 = i + 1 - k by omega,
        show i + 1 - k - k = i + 1 - 2 * k by omega]
      omega
  have hbound (i : Nat) (hi : i < 8) : (lane 4 x i).toNat + (lane 4 (x <<< (4 * k)) i).toNat < 2 ^ 4 := by
    rw [hsum i hi, evictedBelow]
    omega
  refine ⟨x + x <<< (4 * k), add_ok pr (toNat_add_lt (w := 4) (n := 8) hbound), ?_⟩
  intro i hi
  rw [lane_add (by omega) (fun j hj => hbound j (hj.trans hi)), toNat_add,
    Nat.mod_eq_of_lt (hbound i hi), hsum i hi]

theorem evictedLeCounts_spec {evicted : BitVec 8} {slotIsEvicted : BitVec 32}
    (h : ∀ r : Fin 8, lane 4 slotIsEvicted r = if evicted.getLsbD r then 1#4 else 0#4) :
    ∃ z, evictedLeCounts pr slotIsEvicted = .ok z ∧
      ∀ r : Fin 8, (lane 4 z r).toNat = leCount evicted r := by
  have hone : Counts evicted 1 slotIsEvicted := by
    intro i hi
    rw [h ⟨i, hi⟩, Nat.add_sub_cancel, evictedBelow_succ, Nat.add_sub_cancel_left]
    split <;> rfl
  obtain ⟨x, hx, htwo⟩ := counts_double pr hone
  obtain ⟨y, hy, hfour⟩ := counts_double pr htwo
  obtain ⟨z, hz, height⟩ := counts_double pr hfour
  refine ⟨z, ?_, ?_⟩
  · rw [evictedLeCounts, show slotIsEvicted <<< 4 = slotIsEvicted <<< (4 * 1) from rfl, hx, ok_bind,
      show x <<< 8 = x <<< (4 * (2 * 1)) from rfl, hy, ok_bind]
    exact hz
  · intro r
    rw [height r r.isLt, show r.val + 1 - 2 * (2 * (2 * 1)) = 0 by omega]
    rfl

end Counts

section Removals

variable (pr : Profile)

theorem row_low : ∀ k < 8, ∀ i < 8,
    row (1#64 <<< (8 * k) - 1#64) i = if i < k then BitVec.allOnes 8 else 0#8 := by
  decide

theorem removeRow_spec (matrix : BitVec 64) {k : Nat} (hk : k < 8) :
    ∃ z, removeRow pr matrix k = .ok z ∧
      ∀ i < 8, row z i = if i < k then row matrix i else row matrix (i + 1) := by
  have hle : ∀ k < 8, (1#64).toNat ≤ (1#64 <<< (8 * k)).toNat := by decide
  refine ⟨(matrix >>> (8 * k)) >>> 8 <<< (8 * k) ||| (matrix &&& (1#64 <<< (8 * k) - 1#64)), ?_, ?_⟩
  · rw [removeRow, shr_ok pr _ (by omega), ok_bind, shl_ok pr _ (by omega), ok_bind,
      shl_ok pr _ (by omega), ok_bind, sub_ok pr (hle k hk), ok_bind, pure_eq_ok]
  · intro i hi
    rw [row_or, row_and, row_low k hk i hi]
    have hshift : row ((matrix >>> (8 * k)) >>> 8 <<< (8 * k)) i =
        if i < k then 0#8 else row ((matrix >>> (8 * k)) >>> 8) (i - k) :=
      lane_shiftLeft _ _ (by omega)
    rw [hshift]
    by_cases hik : i < k
    · rw [if_pos hik, if_pos hik, if_pos hik, and_allOnes, zero_or]
    · rw [if_neg hik, if_neg hik, if_neg hik, and_zero, or_zero, row,
        lane_ushiftRight_one, lane_ushiftRight, show k + (i - k + 1) = i + 1 by omega]
      rfl

theorem removeOrderedSlot_spec {orderedSlots : BitVec 32} {order : List (Fin 8)}
    (h : Packs orderedSlots order) (hnodup : order.Nodup) (slot : Fin 8) :
    ∃ z, removeOrderedSlot pr orderedSlots slot.val = .ok z ∧
      Packs z (order.filter fun r => decide (r ≠ slot)) := by
  obtain ⟨i, hfind, hi⟩ := findOrderedSlot_spec pr h slot
  rw [removeOrderedSlot, reverseLookupOrderedSlotsIndex,
    debugAssert_ok pr (p := slot.val < maxAssociativity) slot.isLt, ok_bind, hfind, ok_bind, pure_eq_ok,
    ok_bind]
  rcases hi with ⟨hi8, hget⟩ | ⟨rfl, hmem⟩
  · obtain ⟨z, hz, hpacks⟩ := removeOrderedSlotsEntry_spec pr h hi8
    have hne : i ≠ maxAssociativity := ne_of_lt hi8
    have herase : order.eraseIdx i = order.filter fun r => decide (r ≠ slot) := by
      obtain ⟨hlt, hval⟩ := List.getElem?_eq_some_iff.mp hget
      rw [← hnodup.erase_getElem i hlt, hval, hnodup.erase_eq_filter]
      apply List.filter_congr
      intro r _
      rw [bne, beq_eq_decide, decide_not]
    rw [if_pos hne]
    exact ⟨z, hz, herase ▸ hpacks⟩
  · have hself : (order.filter fun r => decide (r ≠ slot)) = order := by
      rw [List.filter_eq_self]
      intro r hr
      simp only [ne_eq, decide_not, Bool.not_eq_eq_eq_not, Bool.not_true, decide_eq_false_iff_not]
      rintro rfl
      exact hmem hr
    rw [if_neg (not_not.mpr (show 8 = maxAssociativity from rfl)), hself]
    exact ⟨orderedSlots, rfl, h⟩

end Removals

section Moves

variable {K T : Type} (pr : Profile)

/-- Where the contents of the slots are after the first `t` slots have been processed:
those retained have moved to their new positions, all other rows follow. -/
structure Moved (s₀ s : SetAssocCacheSet K T) (order : List (Fin 8)) (evicted : BitVec 8) (t : Nat) : Prop where
  slots_moved : ∀ r i : Fin 8, r.val < t → evicted.getLsbD r = false → i.val = rank evicted r →
    s.slots i = s₀.slots r
  slots_none : ∀ i : Fin 8, rank evicted t ≤ i.val → i.val < t → s.slots i = none
  slots_rest : ∀ i : Fin 8, t ≤ i.val → s.slots i = s₀.slots i
  rows_moved : ∀ r, r < t → evicted.getLsbD r = false →
    row s.lruReferenceMatrix (rank evicted r) = row s₀.lruReferenceMatrix r
  rows_rest : ∀ k, row s.lruReferenceMatrix (rank evicted t + k) = row s₀.lruReferenceMatrix (t + k)
  packs : Packs s.orderedSlots (order.filter fun r : Fin 8 => !(decide (r.val < t) && evicted.getLsbD r))

theorem moved_zero {s : SetAssocCacheSet K T} {order : List (Fin 8)} (h : Packs s.orderedSlots order)
    (evicted : BitVec 8) : Moved s s order evicted 0 := by
  refine ⟨?_, ?_, fun i _ => rfl, ?_, fun k => rfl, ?_⟩
  · intro r i hr
    omega
  · intro i _ hi
    omega
  · intro r hr
    omega
  · simpa using h

variable {s₀ s : SetAssocCacheSet K T} {order : List (Fin 8)} {evicted : BitVec 8} {t : Nat}

theorem filter_succ (order : List (Fin 8)) (evicted : BitVec 8) {t : Nat}
    (hkept : evicted.getLsbD t = false) :
    (order.filter fun r : Fin 8 => !(decide (r.val < t + 1) && evicted.getLsbD r)) =
      order.filter fun r : Fin 8 => !(decide (r.val < t) && evicted.getLsbD r) := by
  apply List.filter_congr
  intro r _
  by_cases hr : r.val = t
  · rw [hr, hkept, Bool.and_false, Bool.and_false]
  · rw [decide_eq_decide.mpr (show r.val < t + 1 ↔ r.val < t by omega)]

theorem Moved.keep (h : Moved s₀ s order evicted t) (ht : t < 8) (hkept : evicted.getLsbD t = false)
    {count : BitVec 4} (hcount : count.toNat = leCount evicted t) :
    ∃ s', moveSlot pr t 0#4 count s = .ok s' ∧ Moved s₀ s' order evicted (t + 1) := by
  have hrank : rank evicted (t + 1) = rank evicted t + 1 := by
    rw [rank_succ, hkept]
    rfl
  have hsum := rank_add_leCount evicted t
  have hnew : rank evicted t < 8 := by omega
  refine ⟨⟨s.lruReferenceMatrix, Function.update (Function.update s.slots ⟨t, ht⟩ none)
    ⟨rank evicted t, hnew⟩ (s.slots ⟨t, ht⟩), s.orderedSlots, s.capacity⟩, ?_, ?_⟩
  · rw [moveSlot, if_pos rfl, hcount, subU32_ok pr (by omega) (by omega), ok_bind,
      show t - leCount evicted t = rank evicted t by omega]
    have hslot := slot_ok s ⟨t, ht⟩
    have hset := setSlot_ok s ⟨t, ht⟩ none
    rw [hslot, ok_bind, hset, ok_bind]
    exact setSlot_ok _ ⟨rank evicted t, hnew⟩ _
  · refine ⟨?_, ?_, ?_, ?_, ?_, ?_⟩
    · intro r i hr hr' hi
      change Function.update (Function.update s.slots ⟨t, ht⟩ none) _ _ i = s₀.slots r
      rcases Nat.lt_succ_iff_lt_or_eq.mp hr with hrt | hrt
      · have hlt := rank_lt evicted hrt hr'
        rw [update_of_ne (by rw [ne_eq, ext_iff]; dsimp only; omega),
          update_of_ne (by rw [ne_eq, ext_iff]; dsimp only; omega),
          h.slots_moved r i hrt hr' hi]
      · have hi' : i = ⟨rank evicted t, hnew⟩ := ext (by rw [hi, hrt])
        rw [hi', update_self, h.slots_rest ⟨t, ht⟩ le_rfl]
        exact congrArg s₀.slots (ext hrt.symm)
    · intro i hi hit
      change Function.update (Function.update s.slots ⟨t, ht⟩ none) _ _ i = none
      rw [update_of_ne (by rw [ne_eq, ext_iff]; dsimp only; omega)]
      by_cases heq : i = ⟨t, ht⟩
      · rw [heq, update_self]
      · have hval : i.val ≠ t := fun hv => heq (ext hv)
        rw [update_of_ne heq, h.slots_none i (by omega) (by omega)]
    · intro i hi
      change Function.update (Function.update s.slots ⟨t, ht⟩ none) _ _ i = s₀.slots i
      rw [update_of_ne (by rw [ne_eq, ext_iff]; dsimp only; omega),
        update_of_ne (by rw [ne_eq, ext_iff]; dsimp only; omega),
        h.slots_rest i (by omega)]
    · intro r hr hr'
      rcases Nat.lt_succ_iff_lt_or_eq.mp hr with hrt | rfl
      · exact h.rows_moved r hrt hr'
      · exact h.rows_rest 0
    · intro k
      have := h.rows_rest (1 + k)
      rw [← add_assoc, ← add_assoc, ← hrank] at this
      exact this
    · rw [filter_succ order evicted hkept]
      exact h.packs

theorem Moved.evict (h : Moved s₀ s order evicted t) (hnodup : order.Nodup) (ht : t < 8)
    (hev : evicted.getLsbD t = true) {count : BitVec 4} (hcount : count.toNat = leCount evicted t) :
    ∃ s', moveSlot pr t 1#4 count s = .ok s' ∧ Moved s₀ s' order evicted (t + 1) := by
  have hrank : rank evicted (t + 1) = rank evicted t := by
    rw [rank_succ, hev]
    rfl
  have hle := rank_le evicted t
  have hsum := rank_add_leCount evicted t
  obtain ⟨os, hos, hpacks⟩ := removeOrderedSlot_spec pr h.packs (hnodup.filter _) ⟨t, ht⟩
  obtain ⟨matrix, hmatrix, hrows⟩ :=
    removeRow_spec pr s.lruReferenceMatrix (k := rank evicted t) (by omega)
  have hrow (i : Nat) : row matrix i = if i < rank evicted t then row s.lruReferenceMatrix i
      else row s.lruReferenceMatrix (i + 1) := by
    by_cases hi : i < 8
    · exact hrows i hi
    · rw [if_neg (by omega), row, lane_of_le matrix (by omega), row, lane_of_le _ (by omega)]
  refine ⟨⟨matrix, Function.update s.slots ⟨t, ht⟩ none, os, s.capacity⟩, ?_, ?_⟩
  · have hset := setSlot_ok s ⟨t, ht⟩ none
    rw [moveSlot, if_neg (by decide), hset, ok_bind]
    rw [hos, ok_bind, hcount, subU32_ok pr (by omega) (by omega), ok_bind,
      show t + 1 - leCount evicted t = rank evicted t by omega, hmatrix]
    rfl
  · refine ⟨?_, ?_, ?_, ?_, ?_, ?_⟩
    · intro r i hr hr' hi
      change Function.update s.slots ⟨t, ht⟩ none i = s₀.slots r
      have hrt : r.val ≠ t := by
        intro hrt
        rw [hrt, hev] at hr'
        cases hr'
      have hlt := rank_lt evicted (show r.val < t by omega) hr'
      rw [update_of_ne (by rw [ne_eq, ext_iff]; dsimp only; omega),
        h.slots_moved r i (by omega) hr' hi]
    · intro i hi hit
      change Function.update s.slots ⟨t, ht⟩ none i = none
      by_cases heq : i = ⟨t, ht⟩
      · rw [heq, update_self]
      · have hval : i.val ≠ t := fun hv => heq (ext hv)
        rw [update_of_ne heq, h.slots_none i (by omega) (by omega)]
    · intro i hi
      change Function.update s.slots ⟨t, ht⟩ none i = s₀.slots i
      rw [update_of_ne (by rw [ne_eq, ext_iff]; dsimp only; omega),
        h.slots_rest i (by omega)]
    · intro r hr hr'
      have hrt : r ≠ t := by
        rintro rfl
        rw [hev] at hr'
        cases hr'
      have hlt := rank_lt evicted (show r < t by omega) hr'
      rw [hrow, if_pos hlt, h.rows_moved r (by omega) hr']
    · intro k
      rw [hrank, hrow, if_neg (by omega), add_assoc, h.rows_rest (k + 1),
        show t + (k + 1) = t + 1 + k by omega]
    · rw [List.filter_filter] at hpacks
      have hfilter : (order.filter fun r : Fin 8 => !(decide (r.val < t + 1) && evicted.getLsbD r)) =
          order.filter fun r : Fin 8 => decide (r ≠ ⟨t, ht⟩) && !(decide (r.val < t) && evicted.getLsbD r) := by
        apply List.filter_congr
        intro r _
        by_cases hr : r = ⟨t, ht⟩
        · subst hr
          simp [hev]
        · have hval : r.val ≠ t := fun hv => hr (ext hv)
          rw [decide_eq_true hr, Bool.true_and,
            decide_eq_decide.mpr (show r.val < t + 1 ↔ r.val < t by omega)]
      rw [hfilter]
      exact hpacks

theorem lane_zero_eq_setWidth (x : BitVec 32) : x.setWidth 4 = lane 4 x 0 := by
  apply eq_of_getLsbD_eq
  intro j hj
  rw [getLsbD_lane, getLsbD_setWidth, Nat.mul_zero, Nat.zero_add]

theorem moveSlots_spec (hnodup : order.Nodup) {n : Nat} (hn : t + n = 8) (slotIsEvicted counts : BitVec 32)
    (hev : ∀ i, t + i < 8 → lane 4 slotIsEvicted i = if evicted.getLsbD (t + i) then 1#4 else 0#4)
    (hcounts : ∀ i, t + i < 8 → (lane 4 counts i).toNat = leCount evicted (t + i))
    (h : Moved s₀ s order evicted t) :
    ∃ s', moveSlots pr n slotIsEvicted counts s = .ok s' ∧ Moved s₀ s' order evicted 8 := by
  induction n generalizing t s slotIsEvicted counts with
  | zero =>
    exact ⟨s, rfl, hn ▸ h⟩
  | succ n ih =>
    have ht : t < 8 := by omega
    have hev₀ := hev 0 ht
    have hcount₀ := hcounts 0 ht
    obtain ⟨s₁, hok₁, h₁⟩ : ∃ s₁, moveSlot pr t (lane 4 slotIsEvicted 0) (lane 4 counts 0) s = .ok s₁ ∧
        Moved s₀ s₁ order evicted (t + 1) := by
      rw [hev₀]
      cases he : evicted.getLsbD t with
      | true => exact h.evict pr hnodup ht he hcount₀
      | false => exact h.keep pr ht he hcount₀
    obtain ⟨s', hok', h'⟩ := ih (t := t + 1) (by omega) (slotIsEvicted >>> 4) (counts >>> 4) (by
        intro i hi
        rw [lane_ushiftRight_one, hev (i + 1) (by omega), show t + (i + 1) = t + 1 + i by omega]) (by
        intro i hi
        rw [lane_ushiftRight_one, hcounts (i + 1) (by omega), show t + (i + 1) = t + 1 + i by omega]) h₁
    refine ⟨s', ?_, h'⟩
    rw [moveSlots, lane_zero_eq_setWidth, lane_zero_eq_setWidth,
      show maxAssociativity - (n + 1) = t by rw [maxAssociativity]; omega, hok₁, ok_bind, hok']

end Moves

section Positions

variable (pr : Profile) {orderedSlots : BitVec 32} {order : List (Fin 8)} {evicted : BitVec 8}
  (counts : BitVec 32)

def compact (evicted : BitVec 8) (r : Fin 8) : Fin 8 :=
  ⟨rank evicted r, lt_of_le_of_lt (rank_le evicted r) r.isLt⟩

def countOf : Option (Fin 8) → BitVec 4
  | some slot => lane 4 counts slot
  | none => 0#4

theorem lane_low_nibble (x : BitVec 32) {i : Nat} (hi : i < 8) :
    lane 4 (x &&& 0xf#32) i = if i = 0 then lane 4 x 0 else 0#4 := by
  have hmask : ∀ i < 8, lane 4 0xf#32 i = if i = 0 then BitVec.allOnes 4 else 0#4 := by decide
  rw [lane_and, hmask i hi]
  by_cases h0 : i = 0
  · rw [if_pos h0, if_pos h0, and_allOnes, h0]
  · rw [if_neg h0, if_neg h0, and_zero]

theorem orderedLeCounts_spec (h : Packs orderedSlots order) {i : Nat} (hi : i ≤ order.length)
    (acc : BitVec 32) (hacc : ∀ j < 8, lane 4 acc j = countOf counts order[i + j]?) :
    ∃ z, orderedLeCounts pr orderedSlots counts i acc = .ok z ∧
      ∀ j < 8, lane 4 z j = countOf counts order[j]? := by
  induction i generalizing acc with
  | zero =>
    refine ⟨acc, rfl, ?_⟩
    intro j hj
    rw [hacc j hj, zero_add]
  | succ i ih =>
    have hlen := h.length_le
    have hget : order[i]? = some order[i] := List.getElem?_eq_getElem (by omega)
    obtain ⟨z, hz, hlanes⟩ := ih (by omega)
      (acc <<< 4 ||| (counts >>> (4 * order[i].val) &&& 0xf#32)) (by
        intro j hj
        rw [lane_or, lane_shiftLeft_one _ (by omega), lane_low_nibble _ hj]
        by_cases hj0 : j = 0
        · rw [if_pos hj0, if_pos hj0, zero_or, lane_ushiftRight, hj0, add_zero, add_zero, hget]
          rfl
        · rw [if_neg hj0, if_neg hj0, or_zero, hacc (j - 1) (by omega),
            show i + 1 + (j - 1) = i + j by omega])
    refine ⟨z, ?_, hlanes⟩
    rw [orderedLeCounts, getOrderedSlot_spec pr h (by omega), ok_bind, hget]
    simp only [Option.map_some, unwrap, ok_bind]
    rw [shr_ok pr _ (by omega), ok_bind, hz]

theorem toNat_nibble : ∀ r : Fin 8, (nibble (some r)).toNat = r.val + 1 := by decide

theorem subCounts_spec (h : Packs orderedSlots order)
    (hcounts : ∀ r : Fin 8, (lane 4 counts r).toNat = leCount evicted r)
    (hkept : ∀ r ∈ order, evicted.getLsbD r = false) :
    ∃ i c z, findLeastSignificantZeroNibble pr orderedSlots = .ok i ∧
      orderedLeCounts pr orderedSlots counts i 0#32 = .ok c ∧ sub pr orderedSlots c = .ok z ∧
      Packs z (order.map (compact evicted)) := by
  have hlen := h.length_le
  obtain ⟨i, hi, hfirst⟩ := findLeastSignificantZeroNibble_spec pr orderedSlots
  have hzero (j : Nat) (hj : j < 8) : lane 4 orderedSlots j = 0#4 ↔ order.length ≤ j := by
    rw [h.lane_eq j hj, ← List.getElem?_eq_none_iff]
    exact ⟨nibble_injective _ none, fun hn => by rw [hn]; rfl⟩
  have hilen : i = order.length := by
    rcases hfirst with ⟨hi8, hlane, hbelow⟩ | ⟨hi8, hall⟩
    · have hle := (hzero i hi8).mp hlane
      by_contra hne
      exact hbelow order.length (by omega) ((hzero order.length (by omega)).mpr le_rfl)
    · by_contra hne
      exact hall order.length (by omega) ((hzero order.length (by omega)).mpr le_rfl)
  obtain ⟨c, hc, hlanes⟩ := orderedLeCounts_spec pr counts h hilen.le 0#32 (by
    intro j hj
    rw [lane_zero, List.getElem?_eq_none (by omega)]
    rfl)
  have hlane (j : Nat) (hj : j < 8) : (lane 4 c j).toNat ≤ (lane 4 orderedSlots j).toNat ∧
      lane 4 orderedSlots j - lane 4 c j = nibble (order.map (compact evicted))[j]? := by
    rw [hlanes j hj, h.lane_eq j hj, List.getElem?_map]
    rcases hr : order[j]? with _ | r
    · exact ⟨le_rfl, BitVec.sub_zero 0#4⟩
    · have hsum := rank_add_leCount evicted r
      have hle : (lane 4 counts r).toNat ≤ (nibble (some r)).toNat := by
        rw [hcounts, toNat_nibble]
        omega
      refine ⟨hle, ?_⟩
      have hsucc := rank_succ evicted r
      rw [hkept r (List.mem_of_getElem? hr)] at hsucc
      simp only [Bool.false_eq_true, if_false] at hsucc
      apply eq_of_toNat_eq
      simp only [Option.map_some]
      rw [countOf, toNat_sub_of_le hle, hcounts, toNat_nibble, toNat_nibble, compact]
      dsimp only
      omega
  refine ⟨i, c, orderedSlots - c, hi, hc, sub_ok pr ?_, ?_, ?_⟩
  · exact toNat_le (w := 4) (n := 8) fun j hj => (hlane j hj).1
  · rwa [List.length_map]
  · intro j hj
    rw [lane_sub (by omega) (fun k hk => (hlane k (by omega)).1), (hlane j hj).2]

end Positions

end CocoonFs.CacheMoves
