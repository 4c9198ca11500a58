import CocoonFs.CacheOrder

namespace CocoonFs.CacheInsert

open Checked CacheSet CacheRows CacheOrder Lanes List
open Function (update update_eq_self update_of_ne update_self)

variable {K T : Type} [LinearOrder K]

/-- What a cache set's fields have to look like, besides the age order of its
occupied slots. -/
structure Shape (s : SetAssocCacheSet K T) (order : List (Fin 8)) : Prop where
  ordered : Ordered s.orderedSlots s.slots order
  capacity_le : s.capacity ≤ 8
  lt_capacity : ∀ r : Fin 8, (s.slots r).isSome = true → r.val < s.capacity
  free_row : ∀ r : Fin 8, r.val < s.capacity → s.slots r = none →
    row s.lruReferenceMatrix r = allOnes
  beyond_row : ∀ r : Fin 8, s.capacity ≤ r.val → row s.lruReferenceMatrix r = 0#8
  own_clear : ∀ r : Fin 8, (s.slots r).isSome = true → (row s.lruReferenceMatrix r).getLsbD r = false
  high_clear : ∀ r c : Fin 8, (s.slots r).isSome = true → s.capacity ≤ c.val →
    (row s.lruReferenceMatrix r).getLsbD c = false

def Full (s : SetAssocCacheSet K T) : Prop := ∀ r : Fin 8, r.val < s.capacity → (s.slots r).isSome = true

def Chosen (s : SetAssocCacheSet K T) (slot : Fin 8) : Prop :=
  slot.val < s.capacity ∧ (s.slots slot = none ∨ Full s ∧ row s.lruReferenceMatrix slot = 0#8)

/-- The slot's row gets all other bits within the capacity, its column is cleared
in the rows of the other occupied slots. -/
structure Referenced (matrix matrix' : BitVec 64) (capacity : Nat) (slot : Fin 8) : Prop where
  own : row matrix' slot = ones capacity &&& ~~~(1#8 <<< slot.val)
  others : ∀ r, r < 8 → r ≠ slot.val → row matrix' r = aged slot.val (row matrix r)

variable {slot : Fin 8}

section Shapes

variable {s : SetAssocCacheSet K T} {order : List (Fin 8)}

theorem Shape.length_le (h : Shape s order) : order.length ≤ s.capacity := by
  have hsub : order.map Fin.val ⊆ List.range s.capacity := by
    intro n hn
    obtain ⟨r, hr, rfl⟩ := mem_map.mp hn
    exact mem_range.mpr (h.lt_capacity r ((h.ordered.mem_iff r).mp hr))
  have hnodup : (order.map Fin.val).Nodup := h.ordered.nodup.map Fin.val_injective
  have hlen := (hnodup.subperm hsub).length_le
  rwa [length_map, length_range] at hlen

theorem Shape.length_lt (h : Shape s order) {r : Fin 8} (hr : r.val < s.capacity)
    (hnone : s.slots r = none) : order.length < s.capacity := by
  have hmem : r ∉ order := by
    rw [h.ordered.mem_iff, hnone]
    simp
  have hsub : (r :: order).map Fin.val ⊆ List.range s.capacity := by
    intro n hn
    obtain ⟨a, ha, rfl⟩ := mem_map.mp hn
    rcases mem_cons.mp ha with rfl | ha
    · exact mem_range.mpr hr
    · exact mem_range.mpr (h.lt_capacity a ((h.ordered.mem_iff a).mp ha))
  have hnodup : ((r :: order).map Fin.val).Nodup :=
    (nodup_cons.mpr ⟨hmem, h.ordered.nodup⟩).map Fin.val_injective
  have hlen := (hnodup.subperm hsub).length_le
  rw [length_map, length_range, length_cons] at hlen
  omega

theorem Shape.row_ne_allOnes (h : Shape s order) {r : Fin 8} (hr : (s.slots r).isSome = true) :
    row s.lruReferenceMatrix r ≠ allOnes := by
  intro hrow
  have hown := h.own_clear r hr
  rw [(eq_allOnes_iff _).mp hrow r r.isLt] at hown
  cases hown

theorem Shape.row_eq_allOnes_iff (h : Shape s order) (r : Fin 8) :
    row s.lruReferenceMatrix r = allOnes ↔ r.val < s.capacity ∧ s.slots r = none := by
  constructor
  · intro hrow
    refine ⟨?_, ?_⟩
    · by_contra hge
      rw [h.beyond_row r (not_lt.mp hge)] at hrow
      cases hrow
    · by_contra hne
      exact h.row_ne_allOnes (Option.isSome_iff_ne_none.mpr hne) hrow
  · rintro ⟨hlt, hnone⟩
    exact h.free_row r hlt hnone

variable {key : K} {i : Nat}

theorem Shape.key_ne (h : Shape s order) (hi : IsInsertPos s.slots order key i)
    (r : Fin 8) (e : K × T) (he : s.slots r = some e) : e.1 ≠ key := by
  obtain ⟨k, hk⟩ := mem_iff_getElem?.mp ((h.ordered.mem_iff r).mpr (by rw [he]; rfl))
  by_cases hki : k < i
  · exact (hi.lt_key k r e hki hk he).ne
  · exact (hi.key_lt k r e (not_lt.mp hki) hk he).ne'

variable (pr : Profile)

theorem slotForInsert_spec (h : Shape s order) (hzero : Full s →
    ∃ r, (s.slots r).isSome = true ∧ row s.lruReferenceMatrix r = 0#8) :
    ∃ slot : Fin 8, slotForInsert pr s = .ok (slot.val, (s.slots slot).isNone) ∧ Chosen s slot := by
  have hlane (i : Nat) (hi : i < 8) :
      lane 8 (subwords8MaskAllSetLsb s.lruReferenceMatrix) i ≠ 0#8 ↔
        row s.lruReferenceMatrix i = allOnes := by
    have := row_maskAllSetLsb s.lruReferenceMatrix hi
    rw [row] at this
    rw [this]
    split
    next heq => simp [heq]
    next hne => simp [hne]
  rw [slotForInsert]
  by_cases hmask : subwords8MaskAllSetLsb s.lruReferenceMatrix = 0#64
  · -- No row is all ones, so that all slots are occupied.
    have hfull : Full s := by
      intro r hr
      by_contra hnone
      have hrow := h.free_row r hr (by simpa using hnone)
      have hne := (hlane r r.isLt).mpr hrow
      rw [hmask, lane_zero] at hne
      exact hne rfl
    obtain ⟨r, hr, hrow⟩ := hzero hfull
    obtain ⟨i, hi, hfirst⟩ := findLeastSignificantZeroByte_spec pr s.lruReferenceMatrix
    simp only [hmask, ne_eq, not_true_eq_false, if_false]
    rw [hi, ok_bind]
    rcases hfirst with ⟨hlt, hlane0, hbelow⟩ | ⟨-, hall⟩
    · have hir : i ≤ r.val := by
        by_contra hgt
        exact hbelow r.val (not_le.mp hgt) hrow
      have hrcap := h.lt_capacity r hr
      have hisome := hfull ⟨i, hlt⟩ (show i < s.capacity by omega)
      refine ⟨⟨i, hlt⟩, ?_, show i < s.capacity by omega, Or.inr ⟨hfull, hlane0⟩⟩
      rw [Option.isNone_eq_false_iff.mpr hisome]
      rfl
    · exact absurd hrow (hall r r.isLt)
  · simp only [ne_eq, hmask, not_false_eq_true, if_true]
    rcases ctz_div_spec (w := 8) (n := 8) (by decide)
        (x := subwords8MaskAllSetLsb s.lruReferenceMatrix) rfl with ⟨hlt, hne, -⟩ | ⟨-, hall⟩
    · obtain ⟨hcap, hnone⟩ := (h.row_eq_allOnes_iff ⟨_, hlt⟩).mp ((hlane _ hlt).mp hne)
      refine ⟨⟨_, hlt⟩, ?_, hcap, Or.inl hnone⟩
      rw [hnone]
      rfl
    · exact absurd (lane_ext (w := 8) (n := 8) le_rfl
        (fun i _ => (hall i).trans (lane_zero i).symm)) hmask

/-- Once the position of an entry to be evicted has been freed up, the remaining
ones are ordered and have room for another entry. -/
theorem evictOrderedSlot_spec (h : Shape s order) (hslot : Chosen s slot)
    (hi : IsInsertPos s.slots order key i) :
    ∃ os i' order', evictOrderedSlot pr s.orderedSlots slot.val i (s.slots slot).isNone = .ok (os, i') ∧
      Ordered os (update s.slots slot none) order' ∧ order'.length < 8 ∧
      IsInsertPos (update s.slots slot none) order' key i' := by
  have hcap := h.capacity_le
  obtain ⟨hlt, hnone | ⟨hfull, -⟩⟩ := hslot
  · have hlen := h.length_lt hlt hnone
    refine ⟨s.orderedSlots, i, order, ?_, ?_, by omega, ?_⟩
    · rw [hnone]
      rfl
    · rw [← hnone, update_eq_self]
      exact h.ordered
    · rw [← hnone, update_eq_self]
      exact hi
  · have hsome := hfull slot hlt
    have hlen := h.length_le
    obtain ⟨j, hj, ⟨hj8, hget⟩ | ⟨-, hmem⟩⟩ := findOrderedSlot_spec pr h.ordered.packs slot
    · obtain ⟨os, hos, hpacks⟩ := removeOrderedSlotsEntry_spec pr h.ordered.packs hj8
      have hjlen : j < order.length := (List.getElem?_eq_some_iff.mp hget).1
      refine ⟨os, if j < i then i - 1 else i, order.eraseIdx j, ?_, h.ordered.erase hget hpacks, ?_,
        hi.erase hget⟩
      · have hne : j ≠ maxAssociativity := Nat.ne_of_lt hj8
        rw [Option.isNone_eq_false_iff.mpr hsome, evictOrderedSlot]
        simp only [Bool.false_eq_true, if_false]
        rw [reverseLookupOrderedSlotsIndex,
          debugAssert_ok pr (p := slot.val < maxAssociativity) slot.isLt, ok_bind, hj, ok_bind]
        simp only [hne, ne_eq, not_false_eq_true, if_true, pure_eq_ok, ok_bind, unwrap]
        rw [hos, ok_bind]
      · rw [length_eraseIdx_of_lt hjlen]
        omega
    · exact absurd ((h.ordered.mem_iff slot).mpr hsome) hmem

/-- A key that is not there gets a slot chosen for it, and replaces what is in there. -/
def Inserts (pr : Profile) (s : SetAssocCacheSet K T) (key : K) (value : T) : Prop :=
  ∃ (slot : Fin 8) (matrix : BitVec 64) (os : BitVec 32) (order' : List (Fin 8)), Chosen s slot ∧
    CacheSet.insert pr s key value =
      .ok (⟨matrix, update s.slots slot (some (key, value)), os, s.capacity⟩, slot.val,
        s.slots slot) ∧
    Ordered os (update s.slots slot (some (key, value))) order' ∧
    Referenced s.lruReferenceMatrix matrix s.capacity slot

/-- Inserting an entry with a key that is there already replaces that one's value.
The reference matrix does not change. -/
theorem insert_found (h : Shape s order) (value : T)
    (hlookup : lookupOrderedSlotsIndex pr s key = .ok (.found i)) (hi : order[i]? = some slot) :
    CacheSet.insert pr s key value =
      .ok ({ s with slots := update s.slots slot (some (key, value)) }, slot.val, none) := by
  have hi8 : i < 8 := by
    have := (List.getElem?_eq_some_iff.mp hi).1
    have := h.ordered.packs.length_le
    omega
  rw [CacheSet.insert, hlookup, ok_bind]
  dsimp only
  rw [getOrderedSlot_spec pr h.ordered.packs hi8, ok_bind, hi]
  simp only [Option.map_some, unwrap, ok_bind]
  rw [setSlot_ok, ok_bind]
  rfl

section

variable (h : Shape s order)
  (hzero : Full s → ∃ r, (s.slots r).isSome = true ∧ row s.lruReferenceMatrix r = 0#8)
include h hzero

theorem insert_missing (value : T) (hlookup : lookupOrderedSlotsIndex pr s key = .ok (.missing i))
    (hi : IsInsertPos s.slots order key i) : Inserts pr s key value := by
  obtain ⟨slot, hslot, hchosen⟩ := slotForInsert_spec pr h hzero
  obtain ⟨matrix, hmatrix, hown, hothers⟩ :=
    lruReferenceSlotLocked_spec pr h.capacity_le slot.isLt s.lruReferenceMatrix
  obtain ⟨os₁, i₁, order₁, hevict, hordered, hlen, hpos⟩ := evictOrderedSlot_spec pr h hchosen hi
  obtain ⟨os, hos, hpacks⟩ := insertOrderedSlotsEntry_spec pr hordered.packs hlen hpos.le_length slot
  have hins := hordered.insert (e := (key, value)) (update_self slot none s.slots) hpos hpacks
  rw [Function.update_idem] at hins
  refine ⟨slot, matrix, os, _, hchosen, ?_, hins, ⟨hown, hothers⟩⟩
  rw [CacheSet.insert, hlookup, ok_bind]
  dsimp only
  rw [hslot, ok_bind]
  rw [debugAssert_ok pr hchosen.1, ok_bind, hmatrix, ok_bind, hevict, ok_bind]
  rw [hos, ok_bind, slot_ok, ok_bind, setSlot_ok, ok_bind, debugAssert_ok pr]
  · rfl
  · cases s.slots slot <;> simp

theorem insert_cases (key : K) (value : T) :
    (∃ (slot : Fin 8) (e : K × T), s.slots slot = some e ∧ e.1 = key ∧
      CacheSet.insert pr s key value =
        .ok ({ s with slots := update s.slots slot (some (key, value)) }, slot.val, none)) ∨
    (∀ r e, s.slots r = some e → e.1 ≠ key) ∧ Inserts pr s key value := by
  obtain ⟨res, hlookup, hres⟩ :=
    lookupOrderedSlotsIndex_spec pr h.ordered h.capacity_le h.length_le key
  cases res with
  | found i =>
    obtain ⟨slot, e, hi, he, hkey⟩ := hres
    exact Or.inl ⟨slot, e, he, hkey, insert_found pr h value hlookup hi⟩
  | missing i =>
    exact Or.inr ⟨h.key_ne hres, insert_missing pr h hzero value hlookup hres⟩

end

end Shapes

section Referenced

theorem getLsbD_own : ∀ capacity < 9, ∀ slot c : Fin 8,
    (ones capacity &&& ~~~(1#8 <<< slot.val)).getLsbD c =
      (decide (c.val < capacity) && decide (c ≠ slot)) := by
  decide

theorem getLsbD_aged : ∀ v : BitVec 8, v ≠ allOnes → ∀ slot c : Fin 8,
    (aged slot.val v).getLsbD c = (v.getLsbD c && decide (c ≠ slot)) := by
  intro v hv slot c
  have hbit : ∀ slot c : Fin 8, (~~~(1#8 <<< slot.val)).getLsbD c = decide (c ≠ slot) := by decide
  rw [aged, if_neg hv, BitVec.getLsbD_and, hbit]

theorem aged_allOnes (slot : Nat) : aged slot allOnes = allOnes := if_pos rfl

theorem aged_zero (slot : Nat) : aged slot 0#8 = 0#8 := by
  rw [aged, if_neg (by decide), BitVec.zero_and]

variable {s : SetAssocCacheSet K T} {order order' : List (Fin 8)}

theorem Shape.referenced (h : Shape s order) (hlt : slot.val < s.capacity)
    {matrix : BitVec 64} (hm : Referenced s.lruReferenceMatrix matrix s.capacity slot) {e : K × T}
    {os : BitVec 32} (hos : Ordered os (update s.slots slot (some e)) order') :
    Shape ⟨matrix, update s.slots slot (some e), os, s.capacity⟩ order' := by
  have hcap := h.capacity_le
  have hsome (r : Fin 8) (hr : r ≠ slot)
      (h' : (update s.slots slot (some e) r).isSome = true) : (s.slots r).isSome = true := by
    rwa [update_of_ne hr] at h'
  have hval {r : Fin 8} (hr : r ≠ slot) : r.val ≠ slot.val := fun hv => hr (Fin.ext hv)
  refine ⟨hos, hcap, ?_, ?_, ?_, ?_, ?_⟩
  · intro r hr
    by_cases hrs : r = slot
    · exact hrs ▸ hlt
    · exact h.lt_capacity r (hsome r hrs hr)
  · intro r hr hnone
    have hrs : r ≠ slot := by
      rintro rfl
      simp at hnone
    change update s.slots slot (some e) r = none at hnone
    rw [update_of_ne hrs] at hnone
    rw [hm.others r r.isLt (hval hrs), h.free_row r hr hnone, aged_allOnes]
  · intro r hr
    have hrs : r ≠ slot := by
      rintro rfl
      exact absurd hr (not_le.mpr hlt)
    rw [hm.others r r.isLt (hval hrs), h.beyond_row r hr, aged_zero]
  · intro r hr
    by_cases hrs : r = slot
    · subst hrs
      rw [hm.own, getLsbD_own _ (by omega)]
      simp
    · have hr' := hsome r hrs hr
      rw [hm.others r r.isLt (hval hrs), getLsbD_aged _ (h.row_ne_allOnes hr'), h.own_clear r hr',
        Bool.false_and]
  · intro r c hr hc
    by_cases hrs : r = slot
    · subst hrs
      rw [hm.own, getLsbD_own _ (by omega), decide_eq_false (not_lt.mpr hc), Bool.false_and]
    · have hr' := hsome r hrs hr
      rw [hm.others r r.isLt (hval hrs), getLsbD_aged _ (h.row_ne_allOnes hr'),
        h.high_clear r c hr' hc, Bool.false_and]

theorem Shape.replaced (h : Shape s order) {e e' : K × T} (he : s.slots slot = some e)
    (hkey : e'.1 = e.1) :
    Shape { s with slots := update s.slots slot (some e') } order := by
  have hsome (r : Fin 8) : (update s.slots slot (some e') r).isSome = (s.slots r).isSome := by
    by_cases hrs : r = slot
    · subst hrs
      rw [update_self, he]
      rfl
    · rw [update_of_ne hrs]
  refine ⟨h.ordered.replace he hkey, h.capacity_le, ?_, ?_, h.beyond_row, ?_, ?_⟩
  · intro r hr
    exact h.lt_capacity r ((hsome r).symm.trans hr)
  · intro r hr hnone
    apply h.free_row r hr
    have := hsome r
    change update s.slots slot (some e') r = none at hnone
    rw [hnone] at this
    simpa using this.symm
  · intro r hr
    exact h.own_clear r ((hsome r).symm.trans hr)
  · intro r c hr
    exact h.high_clear r c ((hsome r).symm.trans hr)

end Referenced

end CocoonFs.CacheInsert
