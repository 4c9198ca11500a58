import CocoonFs.CacheRows
import Mathlib.Data.Fintype.Option

namespace CocoonFs.CacheOrder

open Checked CacheSet CacheRows Lanes List
open Function (update_of_ne update_self)
open BitVec (and_allOnes and_zero ofNat or_zero zero_or)

/-- A slot's nibble is its index plus one, unused nibbles are zero. -/
def nibble : Option (Fin 8) → BitVec 4
  | some slot => ofNat 4 (slot.val + 1)
  | none => 0#4

theorem nibble_injective : ∀ a b : Option (Fin 8), nibble a = nibble b → a = b := by decide

structure Packs (orderedSlots : BitVec 32) (order : List (Fin 8)) : Prop where
  length_le : order.length ≤ 8
  lane_eq : ∀ i, i < 8 → lane 4 orderedSlots i = nibble order[i]?

theorem packs_nil : Packs 0#32 [] := ⟨by decide, by decide⟩

variable {i : Nat}

section Specs

variable (pr : Profile) {orderedSlots : BitVec 32} {order : List (Fin 8)}

theorem toNat_low_nibble (x : BitVec 32) (i : Nat) :
    (x >>> (4 * i) &&& 0xf#32).toNat = (lane 4 x i).toNat := by
  rw [toNat_lane, BitVec.toNat_and, BitVec.toNat_ushiftRight, Nat.shiftRight_eq_div_pow]
  exact Nat.and_two_pow_sub_one_eq_mod _ 4

theorem getOrderedSlot_spec (h : Packs orderedSlots order) (hi : i < 8) :
    getOrderedSlot pr orderedSlots i = .ok (order[i]?.map Fin.val) := by
  rw [getOrderedSlot, shr_ok pr _ (by omega), ok_bind, toNat_low_nibble, h.lane_eq i hi]
  rcases order[i]? with _ | slot
  · rfl
  · revert slot
    decide

theorem orderedSlots_eq_zero_iff (h : Packs orderedSlots order) : orderedSlots = 0#32 ↔ order = [] := by
  constructor
  · rintro rfl
    have h0 := h.lane_eq 0 (by decide)
    have : order[0]? = none := nibble_injective _ none h0.symm
    simpa using this
  · rintro rfl
    apply lane_ext (w := 4) (n := 8) le_rfl
    intro i hi
    rw [h.lane_eq i hi, lane_zero]
    rfl

theorem lane_nibble : ∀ slot : Fin 8, ∀ i < 8,
    lane 4 (ofNat 32 (slot.val + 1)) i = if i = 0 then nibble (some slot) else 0#4 := by
  decide

theorem lane_low : ∀ k < 8, ∀ i < 8,
    lane 4 (1#32 <<< (4 * k) - 1#32) i = if i < k then BitVec.allOnes 4 else 0#4 := by
  decide

theorem low_le : ∀ k < 8, (1#32).toNat ≤ (1#32 <<< (4 * k)).toNat := by decide

theorem insertOrderedSlotsEntry_spec (h : Packs orderedSlots order) (hlen : order.length < 8)
    (hi : i ≤ order.length) (slot : Fin 8) :
    ∃ z, insertOrderedSlotsEntry pr orderedSlots i slot.val = .ok z ∧
      Packs z (order.insertIdx i slot) := by
  have hi8 : i < 8 := by omega
  refine ⟨((orderedSlots >>> (4 * i)) <<< 4 ||| ofNat 32 (slot.val + 1)) <<< (4 * i) |||
    (orderedSlots &&& (1#32 <<< (4 * i) - 1#32)), ?_, ?_, ?_⟩
  · rw [insertOrderedSlotsEntry, debugAssert_ok pr (p := slot.val < maxAssociativity) slot.isLt,
      ok_bind, debugAssert_ok pr (p := i < maxAssociativity) hi8, ok_bind,
      shr_ok pr _ (by omega), ok_bind, shl_ok pr _ (by omega), ok_bind, shl_ok pr _ (by omega),
      ok_bind, sub_ok pr (low_le i hi8), ok_bind, pure_eq_ok]
  · rw [length_insertIdx_of_le_length hi]
    omega
  · intro j hj
    rw [lane_or, lane_and, lane_low i hi8 j hj, lane_shiftLeft _ _ (by omega), getElem?_insertIdx]
    by_cases hji : j < i
    · rw [if_pos hji, if_pos hji, if_pos hji, and_allOnes, zero_or, h.lane_eq j hj]
    · rw [if_neg hji, if_neg hji, if_neg hji, and_zero, or_zero, lane_or,
        lane_nibble slot _ (by omega), lane_shiftLeft_one _ (by omega)]
      by_cases hj0 : j = i
      · subst hj0
        simp [hi]
      · have hne : ¬ j - i = 0 := by omega
        rw [if_neg hne, if_neg hne, if_neg hj0, or_zero, lane_ushiftRight,
          show i + (j - i - 1) = j - 1 by omega, h.lane_eq (j - 1) (by omega)]

theorem removeOrderedSlotsEntry_spec (h : Packs orderedSlots order) (hi : i < 8) :
    ∃ z, removeOrderedSlotsEntry pr orderedSlots i = .ok z ∧ Packs z (order.eraseIdx i) := by
  refine ⟨(orderedSlots >>> (4 * i)) >>> 4 <<< (4 * i) |||
    (orderedSlots &&& (1#32 <<< (4 * i) - 1#32)), ?_, ?_, ?_⟩
  · rw [removeOrderedSlotsEntry, shr_ok pr _ (by omega), ok_bind, shl_ok pr _ (by omega), ok_bind,
      shl_ok pr _ (by omega), ok_bind, sub_ok pr (low_le i hi), ok_bind, pure_eq_ok]
  · exact (length_eraseIdx_le order i).trans h.length_le
  · intro j hj
    rw [lane_or, lane_and, lane_low i hi j hj, lane_shiftLeft _ _ (by omega), getElem?_eraseIdx]
    by_cases hji : j < i
    · rw [if_pos hji, if_pos hji, if_pos hji, and_allOnes, zero_or, h.lane_eq j hj]
    · rw [if_neg hji, if_neg hji, if_neg hji, and_zero, or_zero,
        lane_ushiftRight_one, lane_ushiftRight, show i + (j - i + 1) = j + 1 by omega]
      by_cases hlast : j + 1 < 8
      · exact h.lane_eq (j + 1) hlast
      · have hlen := h.length_le
        rw [lane_of_le _ (by omega), getElem?_eq_none (by omega)]
        rfl

theorem lane_repeat : ∀ slot : Fin 8, ∀ i < 8,
    lane 4 (ofNat 32 (slot.val + 1) * subwords4MaskLsb) i = nibble (some slot) := by
  decide

theorem findOrderedSlot_spec (h : Packs orderedSlots order) (slot : Fin 8) :
    ∃ i, findOrderedSlot pr orderedSlots slot.val = .ok i ∧
      (i < 8 ∧ order[i]? = some slot ∨ i = 8 ∧ slot ∉ order) := by
  have hmul : ∀ slot : Fin 8, (ofNat 32 (slot.val + 1)).toNat * subwords4MaskLsb.toNat <
      2 ^ 32 := by decide
  obtain ⟨i, hi, hfirst⟩ := findLeastSignificantZeroNibble_spec pr
    (orderedSlots ^^^ ofNat 32 (slot.val + 1) * subwords4MaskLsb)
  have hiff (j : Nat) (hj : j < 8) :
      lane 4 (orderedSlots ^^^ ofNat 32 (slot.val + 1) * subwords4MaskLsb) j = 0#4 ↔
        order[j]? = some slot := by
    rw [lane_xor, lane_repeat slot j hj, h.lane_eq j hj, BitVec.xor_eq_zero_iff]
    exact ⟨nibble_injective _ _, congrArg nibble⟩
  refine ⟨i, by rw [findOrderedSlot, mul_ok pr (hmul slot), ok_bind, hi], ?_⟩
  rcases hfirst with ⟨hlt, hzero, -⟩ | ⟨heq, hne⟩
  · exact Or.inl ⟨hlt, (hiff i hlt).mp hzero⟩
  · refine Or.inr ⟨heq, ?_⟩
    intro hmem
    obtain ⟨j, hj, hslot⟩ := getElem_of_mem hmem
    have hlen := h.length_le
    exact hne j (by omega) ((hiff j (by omega)).mpr (by rw [getElem?_eq_getElem hj, hslot]))

end Specs

variable {K T : Type}

theorem slot_ok (s : SetAssocCacheSet K T) (r : Fin 8) : s.slot r.val = .ok (s.slots r) := by
  rw [SetAssocCacheSet.slot, dif_pos r.isLt]

theorem setSlot_ok (s : SetAssocCacheSet K T) (r : Fin 8) (e : Option (K × T)) :
    s.setSlot r.val e = .ok { s with slots := Function.update s.slots r e } := by
  rw [SetAssocCacheSet.setSlot, dif_pos r.isLt]

variable [LinearOrder K]

/-- The ordered slots are the occupied ones in strictly increasing key order. -/
structure Ordered (orderedSlots : BitVec 32) (slots : Fin 8 → Option (K × T))
    (order : List (Fin 8)) : Prop where
  packs : Packs orderedSlots order
  mem_iff : ∀ r, r ∈ order ↔ (slots r).isSome = true
  sorted : ∀ (i j : Nat) (a b : Fin 8) (x y : K × T), i < j → order[i]? = some a → order[j]? = some b →
    slots a = some x → slots b = some y → x.1 < y.1

/-- All keys before the position are less than the key and all others greater. -/
structure IsInsertPos (slots : Fin 8 → Option (K × T)) (order : List (Fin 8)) (key : K) (i : Nat) :
    Prop where
  le_length : i ≤ order.length
  lt_key : ∀ (k : Nat) (r : Fin 8) (e : K × T), k < i → order[k]? = some r → slots r = some e → e.1 < key
  key_lt : ∀ (k : Nat) (r : Fin 8) (e : K × T), i ≤ k → order[k]? = some r → slots r = some e → key < e.1

def LookupResult (slots : Fin 8 → Option (K × T)) (order : List (Fin 8)) (key : K) : Lookup → Prop
  | .found i => ∃ r e, order[i]? = some r ∧ slots r = some e ∧ e.1 = key
  | .missing i => IsInsertPos slots order key i

variable {r : Fin 8}

section Lookups

variable {orderedSlots : BitVec 32} {slots : Fin 8 → Option (K × T)} {order : List (Fin 8)}

section

variable (h : Ordered orderedSlots slots order)
include h

theorem Ordered.entry (hr : order[i]? = some r) : ∃ e, slots r = some e :=
  Option.isSome_iff_exists.mp ((h.mem_iff r).mp (mem_of_getElem? hr))

theorem Ordered.index_eq {i j : Nat}
    (hi : order[i]? = some r) (hj : order[j]? = some r) : i = j := by
  obtain ⟨e, he⟩ := h.entry hi
  rcases Nat.lt_trichotomy i j with hlt | heq | hgt
  · exact absurd (h.sorted i j r r e e hlt hi hj he he) (lt_irrefl _)
  · exact heq
  · exact absurd (h.sorted j i r r e e hgt hj hi he he) (lt_irrefl _)

theorem Ordered.nodup : order.Nodup := by
  rw [nodup_iff_getElem?_ne_getElem?]
  intro i j hij hj heq
  have hi : order[i]? = some order[i] := getElem?_eq_getElem (hij.trans hj)
  exact absurd (h.index_eq hi (heq ▸ hi)) (Nat.ne_of_lt hij)

end

variable (pr : Profile) {s : SetAssocCacheSet K T} {key : K}

/-- The loop narrows down the positions whose keys have not been compared yet. -/
theorem lookupLoop_spec (h : Ordered s.orderedSlots s.slots order) (hne : order ≠ [])
    (fuel l u : Nat) (hu : u < 8) (hl : l ≤ order.length) (hlu : l ≤ u + 1)
    (hfuel : u + 1 - l < fuel)
    (hbelow : ∀ (k : Nat) (r : Fin 8) (e : K × T), k < l → order[k]? = some r → s.slots r = some e → e.1 < key)
    (habove : ∀ (k : Nat) (r : Fin 8) (e : K × T), u < k → order[k]? = some r → s.slots r = some e → key < e.1) :
    ∃ res, lookupLoop pr s key fuel l u = .ok res ∧ LookupResult s.slots order key res := by
  induction fuel generalizing l u with
  | zero => omega
  | succ fuel ih =>
    change ∃ res, ite (u < l) _ _ = _ ∧ _
    by_cases hend : u < l
    · refine ⟨.missing l, if_pos hend, hl, hbelow, ?_⟩
      intro k r e hk
      exact habove k r e (by omega)
    · rw [if_neg hend]
      have hm8 : (l + u) / 2 < 8 := by omega
      dsimp only
      rw [getOrderedSlot_spec pr h.packs hm8, ok_bind]
      rcases hm : order[(l + u) / 2]? with _ | r
      · have hlen : order.length ≤ (l + u) / 2 := List.getElem?_eq_none_iff.mp hm
        have hpos : 0 < order.length := length_pos_of_ne_nil hne
        dsimp only [Option.map_none]
        rw [debugAssert_ok pr (by omega), ok_bind, subU32_ok pr (by omega) (by omega), ok_bind]
        apply ih l ((l + u) / 2 - 1) (by omega) hl (by omega) (by omega) hbelow
        intro k r e hk hr
        rw [getElem?_eq_none (by omega)] at hr
        cases hr
      · obtain ⟨e, he⟩ := h.entry hm
        have hlt : (l + u) / 2 < order.length := (List.getElem?_eq_some_iff.mp hm).1
        dsimp only [Option.map_some]
        rw [slot_ok, ok_bind, he, unwrap, ok_bind]
        rcases hcmp : cmp key e.1 with _ | _ | _
        · have hkey : key < e.1 := (cmp_eq_lt_iff _ _).mp hcmp
          have hge (k : Nat) (r' : Fin 8) (e' : K × T) (hk : (l + u) / 2 ≤ k)
              (hr' : order[k]? = some r') (he' : s.slots r' = some e') : key < e'.1 := by
            rcases hk.eq_or_lt with rfl | hk
            · rw [hm] at hr'
              cases hr'
              rw [he] at he'
              cases he'
              exact hkey
            · exact hkey.trans (h.sorted _ _ r r' e e' hk hm hr' he he')
          by_cases hm0 : (l + u) / 2 = 0
          · refine ⟨.missing ((l + u) / 2), if_pos hm0, by omega, ?_, hge⟩
            intro k r' e' hk
            exact hbelow k r' e' (by omega)
          · dsimp only
            rw [if_neg hm0]
            apply ih l ((l + u) / 2 - 1) (by omega) hl (by omega) (by omega) hbelow
            intro k r' e' hk
            exact hge k r' e' (by omega)
        · exact ⟨.found ((l + u) / 2), rfl, r, e, hm, he, ((cmp_eq_eq_iff _ _).mp hcmp).symm⟩
        · have hkey : e.1 < key := (cmp_eq_gt_iff _ _).mp hcmp
          apply ih ((l + u) / 2 + 1) u hu (by omega) (by omega) (by omega) _ habove
          intro k r' e' hk hr' he'
          rcases (Nat.lt_succ_iff.mp hk).eq_or_lt with rfl | hk
          · rw [hm] at hr'
            cases hr'
            rw [he] at he'
            cases he'
            exact hkey
          · exact (h.sorted _ _ r' r e' e hk hr' hm he' he).trans hkey

theorem lookupOrderedSlotsIndex_spec (h : Ordered s.orderedSlots s.slots order)
    (hcap : s.capacity ≤ 8) (hlen : order.length ≤ s.capacity) (key : K) :
    ∃ res, lookupOrderedSlotsIndex pr s key = .ok res ∧ LookupResult s.slots order key res := by
  rw [lookupOrderedSlotsIndex]
  by_cases hzero : s.orderedSlots = 0#32
  · rw [if_pos hzero]
    obtain rfl := (orderedSlots_eq_zero_iff h.packs).mp hzero
    refine ⟨.missing 0, rfl, le_rfl, ?_, ?_⟩
    · intro k r e hk
      omega
    · intro k r e _ hr
      simp at hr
  · have hne : order ≠ [] := fun h' => hzero ((orderedSlots_eq_zero_iff h.packs).mpr h')
    have hpos : 0 < order.length := length_pos_of_ne_nil hne
    rw [if_neg hzero, subU32_ok pr (by omega) (by omega), ok_bind]
    apply lookupLoop_spec pr h hne _ _ _ (by omega) (by omega) (by omega) (by omega)
    · intro k r e hk
      omega
    · intro k r e hk hr
      rw [getElem?_eq_none (by omega)] at hr
      cases hr

end Lookups

section Updates

variable {orderedSlots os : BitVec 32} {slots : Fin 8 → Option (K × T)} {order : List (Fin 8)}

theorem Ordered.replace (h : Ordered orderedSlots slots order) {e e' : K × T}
    (he : slots r = some e) (hkey : e'.1 = e.1) :
    Ordered orderedSlots (Function.update slots r (some e')) order := by
  have hsame (a : Fin 8) (x : K × T) (hx : Function.update slots r (some e') a = some x) :
      ∃ x', slots a = some x' ∧ x'.1 = x.1 := by
    by_cases har : a = r
    · subst har
      rw [update_self] at hx
      cases hx
      exact ⟨e, he, hkey.symm⟩
    · rw [update_of_ne har] at hx
      exact ⟨x, hx, rfl⟩
  refine ⟨h.packs, ?_, ?_⟩
  · intro a
    rw [h.mem_iff]
    by_cases har : a = r
    · subst har
      rw [update_self, he]
      rfl
    · rw [update_of_ne har]
  · intro i j a b x y hij ha hb hx hy
    obtain ⟨x', hx', hxk⟩ := hsame a x hx
    obtain ⟨y', hy', hyk⟩ := hsame b y hy
    rw [← hxk, ← hyk]
    exact h.sorted i j a b x' y' hij ha hb hx' hy'

omit [LinearOrder K] in
theorem of_update_none {r a : Fin 8} {x : K × T} (hx : Function.update slots r none a = some x) :
    slots a = some x := by
  by_cases har : a = r
  · subst har
    rw [update_self] at hx
    cases hx
  · rwa [update_of_ne har] at hx

theorem Ordered.erase (h : Ordered orderedSlots slots order) {j : Nat}
    (hj : order[j]? = some r) (hos : Packs os (order.eraseIdx j)) :
    Ordered os (Function.update slots r none) (order.eraseIdx j) := by
  refine ⟨hos, ?_, ?_⟩
  · intro a
    rw [mem_eraseIdx_iff_getElem?]
    by_cases har : a = r
    · subst har
      rw [update_self]
      simp only [Option.isSome_none, Bool.false_eq_true, iff_false]
      rintro ⟨i, hne, hi⟩
      exact hne (h.index_eq hi hj)
    · rw [update_of_ne har, ← h.mem_iff, mem_iff_getElem?]
      constructor
      · rintro ⟨i, -, hi⟩
        exact ⟨i, hi⟩
      · rintro ⟨i, hi⟩
        refine ⟨i, ?_, hi⟩
        rintro rfl
        exact har (Option.some.inj (hi.symm.trans hj))
  · intro i k a b x y hik ha hb hx hy
    rw [getElem?_eraseIdx] at ha hb
    have hx' := of_update_none hx
    have hy' := of_update_none hy
    split at ha <;> split at hb
    · exact h.sorted i k a b x y hik ha hb hx' hy'
    · exact h.sorted i (k + 1) a b x y (by omega) ha hb hx' hy'
    · omega
    · exact h.sorted (i + 1) (k + 1) a b x y (by omega) ha hb hx' hy'

theorem IsInsertPos.erase {key : K} (h : IsInsertPos slots order key i)
    {j : Nat} (hj : order[j]? = some r) :
    IsInsertPos (Function.update slots r none) (order.eraseIdx j) key
      (if j < i then i - 1 else i) := by
  have hlt : j < order.length := (List.getElem?_eq_some_iff.mp hj).1
  have hle := h.le_length
  refine ⟨?_, ?_, ?_⟩
  · rw [length_eraseIdx_of_lt hlt]
    split <;> omega
  · intro k a e hk ha he
    rw [getElem?_eraseIdx] at ha
    split at ha
    · exact h.lt_key k a e (by split at hk <;> omega) ha (of_update_none he)
    · exact h.lt_key (k + 1) a e (by split at hk <;> omega) ha (of_update_none he)
  · intro k a e hk ha he
    rw [getElem?_eraseIdx] at ha
    split at ha
    · exact h.key_lt k a e (by split at hk <;> omega) ha (of_update_none he)
    · exact h.key_lt (k + 1) a e (by split at hk <;> omega) ha (of_update_none he)

theorem Ordered.insert (h : Ordered orderedSlots slots order) (hr : slots r = none)
    {e : K × T} (hi : IsInsertPos slots order e.1 i) (hos : Packs os (order.insertIdx i r)) :
    Ordered os (Function.update slots r (some e)) (order.insertIdx i r) := by
  have hle := hi.le_length
  have hrne {k : Nat} {a : Fin 8} (ha : order[k]? = some a) : a ≠ r := by
    rintro rfl
    obtain ⟨e, he⟩ := h.entry ha
    rw [hr] at he
    cases he
  -- Every position of the new order is the new one, or one of the old order before or after it.
  have hpos (k : Nat) (a : Fin 8) (x : K × T) (ha : (order.insertIdx i r)[k]? = some a)
      (hx : Function.update slots r (some e) a = some x) :
      k = i ∧ x = e ∨ k < i ∧ order[k]? = some a ∧ slots a = some x ∨
        i < k ∧ order[k - 1]? = some a ∧ slots a = some x := by
    rw [getElem?_insertIdx] at ha
    by_cases hki : k < i
    · rw [if_pos hki] at ha
      rw [update_of_ne (hrne ha)] at hx
      exact Or.inr (Or.inl ⟨hki, ha, hx⟩)
    · rw [if_neg hki] at ha
      by_cases hk : k = i
      · subst hk
        rw [if_pos rfl, if_pos hle] at ha
        cases ha
        rw [update_self] at hx
        exact Or.inl ⟨rfl, (Option.some.inj hx).symm⟩
      · rw [if_neg hk] at ha
        rw [update_of_ne (hrne ha)] at hx
        exact Or.inr (Or.inr ⟨by omega, ha, hx⟩)
  refine ⟨hos, ?_, ?_⟩
  · intro a
    rw [mem_insertIdx hle, h.mem_iff]
    by_cases har : a = r
    · subst har
      simp
    · rw [update_of_ne har]
      simp [har]
  · intro k l a b x y hkl ha hb hx hy
    rcases hpos k a x ha hx with ⟨rfl, rfl⟩ | ⟨hk, ha', hx'⟩ | ⟨hk, ha', hx'⟩
    · rcases hpos l b y hb hy with ⟨rfl, -⟩ | ⟨hl, -, -⟩ | ⟨hl, hb', hy'⟩
      · omega
      · omega
      · exact hi.key_lt (l - 1) b y (by omega) hb' hy'
    · rcases hpos l b y hb hy with ⟨rfl, rfl⟩ | ⟨hl, hb', hy'⟩ | ⟨hl, hb', hy'⟩
      · exact hi.lt_key k a x hk ha' hx'
      · exact h.sorted k l a b x y hkl ha' hb' hx' hy'
      · exact h.sorted k (l - 1) a b x y (by omega) ha' hb' hx' hy'
    · rcases hpos l b y hb hy with ⟨rfl, -⟩ | ⟨hl, -, -⟩ | ⟨hl, hb', hy'⟩
      · omega
      · omega
      · exact h.sorted (k - 1) (l - 1) a b x y (by omega) ha' hb' hx' hy'

end Updates

end CocoonFs.CacheOrder
