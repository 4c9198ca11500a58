import CocoonFs.Checked
import Mathlib.Algebra.BigOperators.Group.Finset.Piecewise
import Mathlib.Algebra.Order.BigOperators.Group.Finset

namespace CocoonFs.DistinctByte

open Checked List
open UInt8 (ofNat)

/-- An element of a `[u8; 16]` gets incremented. -/
def bump (pr : Profile) (c : List Nat) (i : Nat) : Comp (List Nat) := do
  let x ← index c i
  let x ← if x + 1 < 256 then pure (x + 1) else wrapping pr ((x + 1) % 256)
  pure (c.set i x)

def countPrefixes (pr : Profile) (c : List Nat) (slice : List UInt8) : Comp (List Nat) :=
  slice.foldlM (fun c (v : UInt8) => bump pr c (v >>> 4).toNat) c

def countSuffixes (pr : Profile) (h : Nat) (c : List Nat) (slice : List UInt8) : Comp (List Nat) :=
  slice.foldlM (fun c (v : UInt8) =>
    if (v >>> 4).toNat = h then bump pr c (v &&& 0xf).toNat else pure c) c

/-- The loops over the counts, from the first one on. -/
def firstCount (p : Nat → Bool) (c : List Nat) : Nat → Nat → Comp Nat
  | 0, i => pure i
  | n + 1, i => do
    let x ← index c i
    if p x then pure i else firstCount p c n (i + 1)

def findDistinctU8Value (pr : Profile) (values : List (List UInt8)) : Comp UInt8 := do
  let c ← values.foldlM (countPrefixes pr) (List.replicate 16 0)
  let h ← firstCount (fun x => decide (x < 16)) c 16 0
  debugAssert pr (h < 16)
  -- Avoid returning a zero byte.
  let c := if h = 0 then (List.replicate 16 0).set 0 1 else List.replicate 16 0
  let c ← values.foldlM (countSuffixes pr h) c
  let l ← firstCount (fun x => decide (x = 0)) c 16 0
  debugAssert pr (l < 16)
  pure (ofNat h <<< 4 ||| ofNat l)

section Counts

variable {pr : Profile} {g : Nat → Nat} {values : List (List UInt8)}

def counts (g : Nat → Nat) : List Nat := (List.range 16).map g

theorem index_counts {i : Nat} (hi : i < 16) : index (counts g) i = .ok (g i) := by
  apply index_ok
  rw [counts, getElem?_map, getElem?_range hi, Option.map_some]

theorem bump_counts {i : Nat} (hi : i < 16) (hg : g i + 1 < 256) :
    bump pr (counts g) i = .ok (counts (Function.update g i (g i + 1))) := by
  rw [bump, index_counts hi, ok_bind, if_pos hg, pure_eq_ok, ok_bind]
  dsimp only
  congr 1
  apply ext_getElem?
  intro k
  rw [getElem?_set, counts, counts, getElem?_map, getElem?_map, length_map, length_range]
  by_cases hk : i = k
  · subst hk
    rw [if_pos rfl, if_pos hi, getElem?_range hi, Option.map_some, Function.update_self]
  · rw [if_neg hk]
    by_cases hlt : k < 16
    · rw [getElem?_range hlt, Option.map_some, Option.map_some, Function.update_of_ne (Ne.symm hk)]
    · rw [getElem?_eq_none (by rw [length_range]; omega)]
      rfl

theorem bump_all (xs : List Nat) (hxs : ∀ x ∈ xs, x < 16) (hg : ∀ i, g i + xs.length < 256) :
    xs.foldlM (bump pr) (counts g) = .ok (counts (fun i => g i + xs.count i)) := by
  induction xs generalizing g with
  | nil => rfl
  | cons x xs ih =>
    have hx := hg x
    rw [length_cons] at hx
    rw [foldlM_cons, bump_counts (hxs x (mem_cons_self ..)) (by omega), ok_bind,
      ih (fun y hy => hxs y (mem_cons_of_mem _ hy))]
    · congr 2
      funext i
      by_cases hi : i = x
      · subst hi
        rw [Function.update_self, count_cons_self]
        omega
      · rw [Function.update_of_ne hi, count_cons_of_ne (Ne.symm hi)]
    · intro i
      have hi := hg i
      rw [length_cons] at hi
      by_cases hix : i = x
      · subst hix
        rw [Function.update_self]
        omega
      · rw [Function.update_of_ne hix]
        omega

theorem firstCount_ok (p : Nat → Bool) (n i : Nat) (hn : i + n = 16) :
    ∃ k, firstCount p (counts g) n i = .ok k ∧ i ≤ k ∧ k ≤ 16 ∧
      (∀ j, i ≤ j → j < k → p (g j) = false) ∧ (k < 16 → p (g k) = true) := by
  induction n generalizing i with
  | zero => exact ⟨i, rfl, by omega, by omega, by omega, by omega⟩
  | succ n ih =>
    rw [firstCount, index_counts (by omega), ok_bind]
    cases hp : p (g i) with
    | true => exact ⟨i, rfl, le_refl _, by omega, by omega, fun _ => hp⟩
    | false =>
      obtain ⟨k, hok, hik, hk, hbefore, hat⟩ := ih (i + 1) (by omega)
      refine ⟨k, hok, by omega, hk, fun j hij hjk => ?_, hat⟩
      rcases eq_or_lt_of_le hij with rfl | hij
      · exact hp
      · exact hbefore j hij hjk

theorem foldlM_slices {f : List Nat → UInt8 → Comp (List Nat)} (c : List Nat) :
    values.foldlM (fun c slice => slice.foldlM f c) c = values.flatten.foldlM f c := by
  induction values generalizing c with
  | nil => rfl
  | cons slice values ih =>
    rw [foldlM_cons, flatten_cons, foldlM_append]
    congr 1
    funext c
    exact ih c

end Counts

section Find

variable {values : List (List UInt8)} {h : Nat}

theorem toNat_prefix (v : UInt8) : (v >>> 4).toNat = v.toNat / 16 := by
  rw [UInt8.toNat_shiftRight, Nat.shiftRight_eq_div_pow]
  rfl

theorem toNat_suffix (v : UInt8) : (v &&& 0xf).toNat = v.toNat % 16 := by
  rw [UInt8.toNat_and]
  exact Nat.and_two_pow_sub_one_eq_mod _ 4

theorem toNat_join {h l : Nat} (hh : h < 16) (hl : l < 16) :
    (ofNat h <<< 4 ||| ofNat l).toNat = 16 * h + l := by
  have hall : ∀ h < 16, ∀ l < 16, (ofNat h <<< 4 ||| ofNat l).toNat = 16 * h + l := by
    decide
  exact hall h hh l hl

def slotted (values : List UInt8) (h : Nat) : List UInt8 :=
  values.filter (fun v => decide (v.toNat / 16 = h))

theorem countPrefixes_ok (pr : Profile) (hlen : values.flatten.length < 256) :
    values.foldlM (countPrefixes pr) (List.replicate 16 0) =
      .ok (counts (fun h => (slotted values.flatten h).length)) := by
  have hmap : ∀ v ∈ values.flatten.map (fun v => v.toNat / 16), v < 16 := by
    intro v hv
    obtain ⟨u, -, rfl⟩ := mem_map.mp hv
    have := u.toNat_lt
    omega
  have hrun := @bump_all pr (fun _ => 0) (values.flatten.map (fun v => v.toNat / 16)) hmap
    (by intro i; rwa [zero_add, length_map])
  rw [foldlM_map] at hrun
  have hstep : countPrefixes pr = fun c slice => slice.foldlM (fun c v => bump pr c (v.toNat / 16)) c := by
    funext c slice
    rw [countPrefixes]
    simp only [ toNat_prefix]
  rw [hstep, foldlM_slices]
  refine hrun.trans ?_
  congr 2
  funext i
  rw [zero_add, List.count, countP_map, slotted, ← countP_eq_length_filter]
  rfl

theorem countSuffixes_ok (pr : Profile) {g : Nat → Nat}
    (hlen : ∀ i, g i + (slotted values.flatten h).length < 256) :
    values.foldlM (countSuffixes pr h) (counts g) =
      .ok (counts (fun l => g l + ((slotted values.flatten h).map (fun v => v.toNat % 16)).count l)) := by
  have hmap : ∀ v ∈ (slotted values.flatten h).map (fun v => v.toNat % 16), v < 16 := by
    intro v hv
    obtain ⟨u, -, rfl⟩ := mem_map.mp hv
    exact Nat.mod_lt _ (by decide)
  have hrun := @bump_all pr g _ hmap (by simpa using hlen)
  rw [foldlM_map, slotted, foldlM_filter] at hrun
  have hstep : countSuffixes pr h = fun c slice => slice.foldlM (fun c v =>
      if decide (v.toNat / 16 = h) = true then bump pr c (v.toNat % 16) else pure c) c := by
    funext c slice
    rw [countSuffixes]
    simp only [ toNat_prefix, toNat_suffix, decide_eq_true_eq]
  rw [hstep, foldlM_slices]
  exact hrun

theorem sum_slotted (values : List UInt8) :
    ∑ h ∈ Finset.range 16, (slotted values h).length = values.length := by
  induction values with
  | nil => rfl
  | cons v values ih =>
    have hv : v.toNat / 16 ∈ Finset.range 16 := Finset.mem_range.mpr (by have := v.toNat_lt; omega)
    have hcons : ∀ h, (slotted (v :: values) h).length =
        (slotted values h).length + if v.toNat / 16 = h then 1 else 0 := by
      intro h
      rw [slotted, filter_cons]
      by_cases hvh : v.toNat / 16 = h
      · simp [hvh, slotted]
      · simp [hvh, slotted]
    rw [Finset.sum_congr rfl (fun h _ => hcons h), Finset.sum_add_distrib, ih, Finset.sum_ite_eq,
      if_pos hv, length_cons]

/-- Some prefix has been slotted less than 16 values. -/
theorem exists_slotted_lt (values : List UInt8) (hlen : values.length < 256) :
    ∃ h < 16, (slotted values h).length < 16 := by
  by_contra hnone
  have hall : ∀ h ∈ Finset.range 16, 16 ≤ (slotted values h).length := by
    intro h hh
    by_contra hlt
    exact hnone ⟨h, Finset.mem_range.mp hh, Nat.lt_of_not_le hlt⟩
  have hsum := Finset.card_nsmul_le_sum _ _ _ hall
  rw [sum_slotted, Finset.card_range] at hsum
  exact absurd hlen (not_lt.mpr hsum)

/-- Bytes below 16 leave no room for another one, but for the zero byte. -/
def Exhausted (values : List UInt8) : Prop :=
  (∀ v : UInt8, 0 < v.toNat → v.toNat < 16 → v ∈ values) ∧ (slotted values 0).length < 16

theorem mem_slotted {values : List UInt8} {v : UInt8} :
    v ∈ slotted values h ↔ v ∈ values ∧ v.toNat / 16 = h := by
  rw [slotted, mem_filter, decide_eq_true_eq]

theorem suffix_count_eq_zero {values : List UInt8} {l : Nat} (hl : l < 16) :
    ((slotted values h).map (fun v => v.toNat % 16)).count l = 0 ↔
      ∀ v ∈ values, v.toNat ≠ 16 * h + l := by
  rw [count_eq_zero, mem_map]
  constructor
  · intro hnot v hv heq
    exact hnot ⟨v, mem_slotted.mpr ⟨hv, by omega⟩, by omega⟩
  · rintro hne ⟨v, hv, hvl⟩
    obtain ⟨hv, hvh⟩ := mem_slotted.mp hv
    exact hne v hv (by omega)

/-- Less than 16 values can't have all the suffixes. -/
theorem exists_suffix_free {values : List UInt8} (hlt : (slotted values h).length < 16) :
    ∃ l < 16, ∀ v ∈ values, v.toNat ≠ 16 * h + l := by
  by_contra hnone
  have hsub : Finset.range 16 ⊆ ((slotted values h).map (fun v => v.toNat % 16)).toFinset := by
    intro l hl
    rw [mem_toFinset]
    by_contra hnot
    have hl := Finset.mem_range.mp hl
    exact hnone ⟨l, hl, (suffix_count_eq_zero hl).mp (count_eq_zero.mpr hnot)⟩
  have hcard := (Finset.card_le_card hsub).trans (toFinset_card_le _)
  rw [Finset.card_range, length_map] at hcard
  omega

theorem findDistinctU8Value_run (hlen : values.flatten.length < 256) :
    ∃ h l, h < 16 ∧ l ≤ 16 ∧ (slotted values.flatten h).length < 16 ∧
      (∀ j < h, 16 ≤ (slotted values.flatten j).length) ∧
      (∀ j < l, (h = 0 ∧ j = 0) ∨ ¬∀ v ∈ values.flatten, v.toNat ≠ 16 * h + j) ∧
      (l < 16 → 0 < 16 * h + l ∧ ∀ v ∈ values.flatten, v.toNat ≠ 16 * h + l) ∧
      ∀ pr, findDistinctU8Value pr values = (debugAssert pr (l < 16) >>= fun _ =>
        pure (ofNat h <<< 4 ||| ofNat l)) := by
  obtain ⟨h, hfirst, -, -, hbefore, hat⟩ := firstCount_ok
    (g := fun h => (slotted values.flatten h).length) (fun x => decide (x < 16)) 16 0 rfl
  have hh : h < 16 := by
    obtain ⟨j, hj, hlt⟩ := exists_slotted_lt values.flatten hlen
    by_contra hge
    exact of_decide_eq_false (hbefore j (Nat.zero_le _) (by omega)) hlt
  have hslot := of_decide_eq_true (hat hh)
  let base := fun l => if h = 0 ∧ l = 0 then 1 else 0
  have hbase : (if h = 0 then (List.replicate 16 0).set 0 1 else List.replicate 16 0) = counts base := by
    by_cases h0 : h = 0
    · subst h0
      rfl
    · rw [if_neg h0]
      have hzero : base = fun _ => 0 := funext (fun l => if_neg (fun hl => h0 hl.1))
      rw [hzero]
      rfl
  have hle : ∀ l, base l ≤ 1 := by
    intro l
    change (if _ then _ else _) ≤ _
    split <;> omega
  obtain ⟨l, hfree, -, hl, htaken, hzero⟩ := firstCount_ok (fun x => decide (x = 0)) 16 0 rfl
    (g := fun l => base l + ((slotted values.flatten h).map (fun v => v.toNat % 16)).count l)
  refine ⟨h, l, hh, hl, hslot, fun j hj => ?_, fun j hj => ?_, fun hl => ?_, fun pr => ?_⟩
  · exact Nat.not_lt.mp (of_decide_eq_false (hbefore j (Nat.zero_le _) hj))
  · rw [← suffix_count_eq_zero (by omega)]
    by_contra hnot
    obtain ⟨hj0, hcount⟩ := not_or.mp hnot
    refine of_decide_eq_false (htaken j (Nat.zero_le _) hj) ?_
    rw [not_not.mp hcount]
    exact if_neg hj0
  · have hsum := of_decide_eq_true (hzero hl)
    obtain ⟨hb, hcount⟩ := Nat.add_eq_zero_iff.mp hsum
    refine ⟨?_, (suffix_count_eq_zero hl).mp hcount⟩
    by_contra h0
    exact absurd (hb.symm.trans (if_pos (by omega))) (by decide)
  · rw [findDistinctU8Value, countPrefixes_ok pr hlen, ok_bind, hfirst, ok_bind, debugAssert_ok pr hh,
      ok_bind]
    dsimp only
    rw [hbase, countSuffixes_ok pr (fun i => by have := hle i; omega), ok_bind, hfree, ok_bind]

end Find

/-- A non-zero byte not among the values is found unless the bytes from 1 to 15 are all among
them and there's no other value below 16. -/
theorem findDistinctU8Value_distinct_iff (values : List (List UInt8))
    (hlen : values.flatten.length < 256) :
    (∃ v, (∀ pr, findDistinctU8Value pr values = .ok v) ∧ v ≠ 0 ∧ v ∉ values.flatten) ↔
      ¬Exhausted values.flatten := by
  obtain ⟨h, l, hh, hl, hslot, hbefore, htaken, hfree, hrun⟩ := findDistinctU8Value_run hlen
  constructor
  · rintro ⟨v, hok, -, -⟩ ⟨hall, hzero⟩
    have hlt : l < 16 := by
      have hdebug := (hrun .debug).symm.trans (hok .debug)
      obtain ⟨_, hassert, -⟩ := bind_eq_ok hdebug
      exact of_debugAssert hassert
    have h0 : h = 0 := by
      by_contra hne
      exact absurd hzero (not_lt.mpr (hbefore 0 (pos_of_ne_zero hne)))
    subst h0
    obtain ⟨hpos, hnone⟩ := hfree hlt
    have hofNat : (ofNat l).toNat = l := UInt8.toNat_ofNat_of_lt (hlt.trans (by decide))
    exact hnone _ (hall (ofNat l) (by omega) (by omega)) (by omega)
  · intro hnot
    have hlt : l < 16 := by
      by_contra hge
      obtain rfl : l = 16 := by omega
      by_cases h0 : h = 0
      · subst h0
        refine hnot ⟨fun v hpos hv => ?_, hslot⟩
        rcases htaken v.toNat hv with ⟨-, hzero⟩ | htaken
        · omega
        · obtain ⟨u, hu⟩ := not_forall.mp htaken
          obtain ⟨hmem, heq⟩ := Classical.not_imp.mp hu
          rw [Nat.mul_zero, zero_add, not_not] at heq
          exact UInt8.toNat_inj.mp heq ▸ hmem
      · obtain ⟨j, hj, hnone⟩ := exists_suffix_free hslot
        rcases htaken j hj with ⟨hzero, -⟩ | htaken
        · exact h0 hzero
        · exact htaken hnone
    obtain ⟨hpos, hnone⟩ := hfree hlt
    have hjoin := toNat_join hh hlt
    refine ⟨ofNat h <<< 4 ||| ofNat l, fun pr => ?_, fun hzero => ?_, fun hmem => ?_⟩
    · rw [hrun pr, debugAssert_ok pr hlt]
      rfl
    · rw [hzero] at hjoin
      exact absurd hjoin.symm hpos.ne'
    · exact hnone _ hmem hjoin

theorem findDistinctU8Value_distinct_iff_one :
    (∃ v, (∀ pr, findDistinctU8Value pr [[0x10]] = .ok v) ∧ v ≠ 0 ∧ v ∉ [[0x10]].flatten) ↔
      ¬Exhausted [[0x10]].flatten :=
  findDistinctU8Value_distinct_iff [[0x10]] (by decide)

def smallBytes : List UInt8 := [1, 2, 3, 4, 5, 6, 7, 8, 9, 10, 11, 12, 13, 14, 15]

theorem findDistinctU8Value_small :
    ¬∃ v, (∀ pr, findDistinctU8Value pr [smallBytes] = .ok v) ∧ v ≠ 0 ∧ v ∉ [smallBytes].flatten := by
  rintro ⟨v, hok, -, -⟩
  have hpanic : findDistinctU8Value .debug [smallBytes] = .error (.panic .debugAssert) := by decide
  cases hpanic.symm.trans (hok .debug)

end CocoonFs.DistinctByte
