import CocoonFs.CacheLru

namespace CocoonFs.CacheOps

open Checked CacheSet CacheRows CacheOrder CacheInsert CacheCalls CacheLru List
open Function (update_of_ne update_self)

variable {K T : Type} [LinearOrder K] (pr : Profile)
variable {s : SetAssocCacheSet K T} {order ages : List (Fin 8)} {l : Lru K T} {i : Nat}

section Lookups

theorem getOrderedSlot_some (h : Shape s order) {r : Fin 8} (hi : order[i]? = some r) :
    getOrderedSlot pr s.orderedSlots i = .ok (some r.val) := by
  have hlt : i < order.length := (List.getElem?_eq_some_iff.mp hi).1
  have hlen := h.ordered.packs.length_le
  rw [getOrderedSlot_spec pr h.ordered.packs (by omega), hi]
  rfl

theorem lookupKey_refines (h : Holds s order ages l) (key : K) :
    ∃ o : Option (Fin 8), lookupKey pr s key = .ok (o.map Fin.val) ∧ o.bind s.slots = l.lookup key ∧
      ∀ r, o = some r → (s.slots r).isSome = true := by
  obtain ⟨res, hlookup, hres⟩ :=
    lookupOrderedSlotsIndex_spec pr h.shape.ordered h.shape.capacity_le h.shape.length_le key
  cases res with
  | found i =>
    obtain ⟨r, e, hi, he, rfl⟩ := hres
    refine ⟨some r, ?_, ?_, ?_⟩
    · rw [lookupKey, hlookup, ok_bind]
      dsimp only
      rw [getOrderedSlot_some pr h.shape hi]
      rfl
    · rw [Option.bind_some, he, h.lookup_eq_some he]
    · rintro r' hr'
      cases hr'
      rw [he]
      rfl
  | missing i =>
    refine ⟨none, ?_, ?_, ?_⟩
    · rw [lookupKey, hlookup]
      rfl
    · rw [Option.bind_none, h.lookup_eq_none (h.shape.key_ne hres)]
    · intro r hr
      cases hr

end Lookups

variable {slot : Fin 8} {e : K × T} {matrix : BitVec 64}

section Inserts

omit [LinearOrder K] in
theorem ageOrder_replaced {slots : Fin 8 → Option (K × T)}
    (h : AgeOrder matrix slots ages) (he : slots slot = some e) (e' : K × T) :
    AgeOrder matrix (Function.update slots slot (some e')) ages := by
  refine ⟨?_, h.nodup, h.pairwise⟩
  intro r
  rw [h.mem_iff]
  by_cases hr : r = slot
  · subst hr
    rw [update_self, he]
    rfl
  · rw [update_of_ne hr]

omit [LinearOrder K] in
theorem map_referenced (slots : Fin 8 → Option (K × T)) (h : ages.Nodup) (slot : Fin 8) (e : K × T) :
    (slot :: ages.erase slot).map (Function.update slots slot (some e)) =
      some e :: (ages.erase slot).map slots := by
  have hnot : slot ∉ ages.erase slot := by
    rw [h.mem_erase_iff]
    simp
  rw [map_cons, map_update_of_notMem hnot, update_self]

theorem length_eq_order (h : Holds s order ages l) : l.entries.length = order.length := by
  rw [h.length_le]
  apply List.Perm.length_eq
  rw [perm_ext_iff_of_nodup h.age.nodup h.shape.ordered.nodup]
  intro r
  rw [h.age.mem_iff, h.shape.ordered.mem_iff]

theorem capacity_le_length_of_full (h : Shape s order) (hfull : Full s) : s.capacity ≤ order.length := by
  have hcap := h.capacity_le
  have hsub : List.range s.capacity ⊆ order.map Fin.val := by
    intro n hn
    have hlt := mem_range.mp hn
    have hmem := (h.ordered.mem_iff ⟨n, by omega⟩).mpr (hfull ⟨n, by omega⟩ hlt)
    exact mem_map.mpr ⟨_, hmem, rfl⟩
  have hlen := (nodup_range.subperm hsub).length_le
  rwa [length_map, length_range] at hlen

/-- An insertion adds the entry as the most recently used one, in place of the least
recently used one if the set is full. -/
theorem insert_refines (h : Holds s order ages l) (hcap : 0 < s.capacity) (key : K) (value : T) :
    ∃ (s' : SetAssocCacheSet K T) (slot : Fin 8) (order' ages' : List (Fin 8)),
      CacheSet.insert pr s key value = .ok (s', slot.val, (l.insert key value).2) ∧
      Holds s' order' ages' (l.insert key value).1 ∧ s'.slots slot = some (key, value) := by
  have hzero := exists_zero_row h.shape (h.age.acyclic h.shape.own_clear) hcap
  rcases insert_cases pr h.shape hzero key value with
    ⟨slot, e, he, rfl, hok⟩ | ⟨hkey, slot, matrix, os, order', ⟨hlt, hslot⟩, hok, hordered, hm⟩
  · have hlookup := h.lookup_eq_some he
    have hins : l.insert e.1 value =
        (⟨l.entries.map fun x => if x.1 = e.1 then (e.1, value) else x, l.capacity⟩, none) := by
      rw [Lru.insert, hlookup]
      rfl
    refine ⟨_, slot, order, ages, hok.trans (by rw [hins]), ?_, update_self ..⟩
    · rw [hins]
      refine ⟨h.shape.replaced he rfl, ageOrder_replaced h.age he _, ?_, h.capacity_eq⟩
      apply map_corresponds h.entries_eq
      intro a _ x hx
      by_cases ha : a = slot
      · subst ha
        rw [he] at hx
        obtain rfl := Option.some.inj hx
        rw [if_pos rfl]
        exact update_self ..
      · have hne : x.1 ≠ e.1 := fun hk => ha (slot_eq_of_key h.shape hx he hk)
        rw [if_neg hne, ← hx]
        exact update_of_ne ha ..
  · have hlookup := h.lookup_eq_none hkey
    have hshape := h.shape.referenced hlt hm hordered
    have hage := ageOrder_referenced h.shape h.age hlt hm (key, value)
    have hentries := map_referenced s.slots h.age.nodup slot (key, value)
    rcases hslot with hnone | ⟨hfull, hrow⟩
    · have hlen : l.entries.length < l.capacity := by
        rw [length_eq_order h, ← h.capacity_eq]
        exact h.shape.length_lt hlt hnone
      have hins : l.insert key value = (⟨(key, value) :: l.entries, l.capacity⟩, none) := by
        rw [Lru.insert, hlookup, if_pos hlen]
        rfl
      refine ⟨_, slot, order', slot :: ages.erase slot, hok.trans (by rw [hins, hnone]), ?_,
        update_self ..⟩
      · rw [hins]
        refine ⟨hshape, hage, ?_, h.capacity_eq⟩
        have hmem : slot ∉ ages := by
          rw [h.age.mem_iff, hnone]
          simp
        rw [erase_of_not_mem hmem, h.entries_eq] at hentries
        rw [erase_of_not_mem hmem]
        exact hentries
    · have hsome := hfull slot hlt
      obtain ⟨e, he⟩ := Option.isSome_iff_exists.mp hsome
      have hlen : ¬ l.entries.length < l.capacity := by
        rw [length_eq_order h, ← h.capacity_eq, not_lt]
        exact capacity_le_length_of_full h.shape hfull
      -- The slot evicted is the last one in the order of ages.
      have hlast := h.entries_eq
      rw [last_of_zero_row h.age hsome hrow, map_append, map_singleton, he] at hlast
      obtain ⟨es, es', hes, hmap, hmap'⟩ := map_eq_append_iff.mp hlast.symm
      obtain ⟨x, rfl, hx⟩ := map_eq_singleton_iff.mp hmap'
      obtain rfl := Option.some.inj hx
      have hins : l.insert key value = (⟨(key, value) :: es, l.capacity⟩, some x) := by
        rw [Lru.insert, hlookup, if_neg hlen, hes]
        simp
      refine ⟨_, slot, order', slot :: ages.erase slot, hok.trans (by rw [hins, he]), ?_,
        update_self ..⟩
      · rw [hins]
        refine ⟨hshape, hage, ?_, h.capacity_eq⟩
        rw [← hmap] at hentries
        exact hentries

end Inserts

section Accesses

/-- Accessing a slot through a shared reference without any concurrent calls has the
same effect as through an exclusive one. -/
theorem lruReferenceSlotSync_spec (h : Shape s order) (hsome : (s.slots slot).isSome = true) :
    ∃ matrix, lruReferenceSlotSync pr s.lruReferenceMatrix s.capacity slot.val = .ok matrix ∧
      Referenced s.lruReferenceMatrix matrix s.capacity slot := by
  obtain ⟨z, mask, hor, hown, hothers, hmask⟩ :=
    lruReferenceSlotSyncOr_spec pr h.capacity_le slot.isLt s.lruReferenceMatrix
  have hcap := h.capacity_le
  refine ⟨z &&& mask, ?_, ?_, ?_⟩
  · rw [lruReferenceSlotSync, hor]
    rfl
  · rw [row_and, hown, hmask slot slot.isLt, if_neg (h.row_ne_allOnes hsome)]
    congr 1
    apply BitVec.eq_of_getLsbD_eq
    intro c hc
    rw [BitVec.getLsbD_or, getLsbD_ones _ (by omega) ⟨c, hc⟩]
    by_cases hcc : c < s.capacity
    · rw [decide_eq_true hcc, Bool.or_true]
    · rw [h.high_clear slot ⟨c, hc⟩ hsome (not_lt.mp hcc), Bool.false_or]
  · intro r hr hne
    rw [row_and, hothers r hr hne, hmask r hr, aged]
    split
    · next hrow =>
      rw [hrow]
      rfl
    · rfl

theorem lruReferenceSlotLocked_referenced (h : Shape s order) (slot : Fin 8) :
    ∃ matrix, lruReferenceSlotLocked pr s.lruReferenceMatrix s.capacity slot.val = .ok matrix ∧
      Referenced s.lruReferenceMatrix matrix s.capacity slot := by
  obtain ⟨matrix, hok, hown, hothers⟩ :=
    lruReferenceSlotLocked_spec pr h.capacity_le slot.isLt s.lruReferenceMatrix
  exact ⟨matrix, hok, hown, hothers⟩

theorem Holds.accessed (h : Holds s order ages l) (he : s.slots slot = some e)
    (hm : Referenced s.lruReferenceMatrix matrix s.capacity slot) (write : T → T) :
    Holds { s with
        lruReferenceMatrix := matrix
        slots := Function.update s.slots slot (some (e.1, write e.2)) }
      order (slot :: ages.erase slot) (l.access e.1 write).1 := by
  have hlt : slot.val < s.capacity := h.shape.lt_capacity slot (by rw [he]; rfl)
  have hordered : Ordered s.orderedSlots (Function.update s.slots slot (some (e.1, write e.2))) order :=
    h.shape.ordered.replace he rfl
  have hentries := map_referenced s.slots h.age.nodup slot (e.1, write e.2)
  rw [h.erase_eq he] at hentries
  rw [Lru.access, h.lookup_eq_some he]
  exact ⟨h.shape.referenced hlt hm hordered, ageOrder_referenced h.shape h.age hlt hm _, hentries,
    h.capacity_eq⟩

/-- The entry at a slot, if there is one, gets accessed by its key. -/
def accessAt (l : Lru K T) (slots : Fin 8 → Option (K × T)) (slot : Fin 8) (write : T → T) :
    Lru K T × Option (K × T) :=
  match slots slot with
  | none => (l, none)
  | some e => l.access e.1 write

theorem getSlotMut_refines (h : Holds s order ages l) (slot : Fin 8) (write : T → T) :
    ∃ s' ages', getSlotMut pr s slot.val write = .ok (s', (accessAt l s.slots slot write).2) ∧
      Holds s' order ages' (accessAt l s.slots slot write).1 := by
  rcases he : s.slots slot with _ | e
  · refine ⟨s, ages, ?_, ?_⟩
    · rw [getSlotMut, slot_ok, accessAt, he]
      rfl
    · rw [accessAt, he]
      exact h
  · obtain ⟨matrix, hok, hm⟩ := lruReferenceSlotLocked_referenced pr h.shape slot
    have hat : accessAt l s.slots slot write = l.access e.1 write := by rw [accessAt, he]
    rw [hat]
    refine ⟨_, _, ?_, Holds.accessed h he hm write⟩
    rw [getSlotMut, slot_ok, ok_bind, he]
    dsimp only
    rw [hok, ok_bind, setSlot_ok, ok_bind, Lru.access, h.lookup_eq_some he]
    rfl

theorem getSlot_refines (h : Holds s order ages l) (slot : Fin 8) :
    ∃ s' ages', getSlot pr s slot.val = .ok (s', (accessAt l s.slots slot id).2) ∧
      Holds s' order ages' (accessAt l s.slots slot id).1 := by
  rcases he : s.slots slot with _ | e
  · refine ⟨s, ages, ?_, ?_⟩
    · rw [getSlot, slot_ok, accessAt, he]
      rfl
    · rw [accessAt, he]
      exact h
  · have hsome : (s.slots slot).isSome = true := by
      rw [he]
      rfl
    obtain ⟨matrix, hok, hm⟩ := lruReferenceSlotSync_spec pr h.shape hsome
    have hacc := Holds.accessed h he hm id
    have hslots : Function.update s.slots slot (some (e.1, id e.2)) = s.slots := by
      rw [id_eq, Prod.mk.eta, ← he, Function.update_eq_self]
    rw [hslots] at hacc
    have hat : accessAt l s.slots slot id = l.access e.1 id := by rw [accessAt, he]
    rw [hat]
    refine ⟨_, _, ?_, hacc⟩
    rw [getSlot, slot_ok, ok_bind, he]
    dsimp only
    rw [hok, ok_bind, Lru.access, h.lookup_eq_some he]
    rfl

end Accesses

section Removals

theorem lruRemoveSlotLocked_spec (matrix : BitVec 64) (slot : Fin 8) :
    ∃ z, lruRemoveSlotLocked pr matrix slot.val = .ok z ∧ row z slot = allOnes ∧
      ∀ r : Fin 8, r ≠ slot → row z r = row matrix r := by
  refine ⟨matrix ||| 0xff#64 <<< (8 * slot.val), ?_, ?_, ?_⟩
  · rw [lruRemoveSlotLocked, shl_ok pr _ (by omega)]
    rfl
  · rw [row_or, row_ff slot slot.isLt slot slot.isLt, if_pos rfl]
    exact BitVec.or_allOnes
  · intro r hr
    rw [row_or, row_ff slot slot.isLt r r.isLt, if_neg (fun hv => hr (Fin.ext hv)), BitVec.or_zero]

theorem takeSlot_refines (h : Holds s order ages l)
    (he : s.slots slot = some e) (hi : order[i]? = some slot) :
    ∃ s', takeSlot pr s slot.val i = .ok (s', some e) ∧
      Holds s' (order.eraseIdx i) (ages.erase slot) ⟨l.without e.1, l.capacity⟩ ∧
      s'.slots = Function.update s.slots slot none ∧
      ∀ r : Fin 8, r ≠ slot → row s'.lruReferenceMatrix r = row s.lruReferenceMatrix r := by
  have hi8 : i < 8 := by
    have hlt : i < order.length := (List.getElem?_eq_some_iff.mp hi).1
    have hlen := h.shape.ordered.packs.length_le
    omega
  obtain ⟨matrix, hmatrix, hown, hothers⟩ := lruRemoveSlotLocked_spec pr s.lruReferenceMatrix slot
  obtain ⟨os, hos, hpacks⟩ := removeOrderedSlotsEntry_spec pr h.shape.ordered.packs hi8
  have hsome {r : Fin 8} (hr : (Function.update s.slots slot none r).isSome = true) :
      r ≠ slot ∧ (s.slots r).isSome = true := by
    by_cases hrs : r = slot
    · subst hrs
      rw [update_self] at hr
      cases hr
    · rw [update_of_ne hrs] at hr
      exact ⟨hrs, hr⟩
  have hmem (r : Fin 8) : r ∈ ages.erase slot ↔ r ≠ slot ∧ (s.slots r).isSome = true := by
    rw [h.age.nodup.mem_erase_iff, h.age.mem_iff]
  refine ⟨⟨matrix, Function.update s.slots slot none, os, s.capacity⟩, ?_, ⟨?_, ?_, ?_, h.capacity_eq⟩,
    rfl, hothers⟩
  · rw [takeSlot, hmatrix, ok_bind, hos, ok_bind, slot_ok, ok_bind, setSlot_ok, he]
    rfl
  · refine ⟨h.shape.ordered.erase hi hpacks, h.shape.capacity_le, ?_, ?_, ?_, ?_, ?_⟩
    · intro r hr
      exact h.shape.lt_capacity r (hsome hr).2
    · intro r hr hnone
      by_cases hrs : r = slot
      · rw [hrs, hown]
      · change Function.update s.slots slot none r = none at hnone
        rw [update_of_ne hrs] at hnone
        rw [hothers r hrs, h.shape.free_row r hr hnone]
    · intro r hr
      have hrs : r ≠ slot := by
        rintro rfl
        exact absurd (h.shape.lt_capacity r (by rw [he]; rfl)) (not_lt.mpr hr)
      rw [hothers r hrs, h.shape.beyond_row r hr]
    · intro r hr
      rw [hothers r (hsome hr).1, h.shape.own_clear r (hsome hr).2]
    · intro r c hr hc
      rw [hothers r (hsome hr).1, h.shape.high_clear r c (hsome hr).2 hc]
  · refine ⟨?_, h.age.nodup.erase slot, ?_⟩
    · intro r
      rw [hmem]
      constructor
      · rintro ⟨hrs, hr⟩
        change (Function.update s.slots slot none r).isSome = true
        rwa [update_of_ne hrs]
      · exact hsome
    · apply (h.age.pairwise.sublist erase_sublist).imp_of_mem
      intro a b ha hb hab
      rw [hothers a ((hmem a).mp ha).1, hothers b ((hmem b).mp hb).1]
      exact hab
  · have hnot : slot ∉ ages.erase slot := fun hs => ((hmem slot).mp hs).1 rfl
    rw [map_update_of_notMem hnot, h.erase_eq he]

theorem without_eq_self {key : K} (hkey : l.lookup key = none) : l.without key = l.entries := by
  rw [Lru.lookup, find?_eq_none] at hkey
  rw [Lru.without, filter_eq_self]
  intro e he
  simpa using hkey e he

theorem removeByKey_refines (h : Holds s order ages l) (key : K) :
    ∃ s' order' ages', removeByKey pr s key = .ok (s', (l.remove key).2) ∧
      Holds s' order' ages' (l.remove key).1 := by
  obtain ⟨res, hlookup, hres⟩ :=
    lookupOrderedSlotsIndex_spec pr h.shape.ordered h.shape.capacity_le h.shape.length_le key
  cases res with
  | found i =>
    obtain ⟨r, e, hi, he, rfl⟩ := hres
    obtain ⟨s', hok, hs', -⟩ := takeSlot_refines pr h he hi
    refine ⟨s', _, _, ?_, hs'⟩
    rw [removeByKey, hlookup, ok_bind]
    dsimp only
    rw [getOrderedSlot_some pr h.shape hi, ok_bind, unwrap, ok_bind, hok, Lru.remove,
      h.lookup_eq_some he]
  | missing i =>
    have hnone := h.lookup_eq_none (h.shape.key_ne hres)
    refine ⟨s, order, ages, ?_, ?_⟩
    · rw [removeByKey, hlookup, Lru.remove, hnone]
      rfl
    · rw [Lru.remove, without_eq_self hnone]
      exact h

/-- The entry at a slot, if there is one, gets removed by its key. -/
def removeAt (l : Lru K T) (slots : Fin 8 → Option (K × T)) (slot : Fin 8) : Lru K T × Option (K × T) :=
  match slots slot with
  | none => (l, none)
  | some e => l.remove e.1

theorem removeAtPosition_refines (h : Holds s order ages l)
    (hi : i < 8 ∧ order[i]? = some slot ∨ i = 8 ∧ slot ∉ order) :
    ∃ s' order' ages', removeAtPosition pr s slot.val i = .ok (s', (removeAt l s.slots slot).2) ∧
      Holds s' order' ages' (removeAt l s.slots slot).1 := by
  rcases hi with ⟨hi8, hget⟩ | ⟨rfl, hmem⟩
  · obtain ⟨e, he⟩ := h.shape.ordered.entry hget
    obtain ⟨s', hok, hs', -⟩ := takeSlot_refines pr h he hget
    have hat : removeAt l s.slots slot = l.remove e.1 := by rw [removeAt, he]
    have hne : i ≠ maxAssociativity := Nat.ne_of_lt hi8
    rw [hat]
    refine ⟨s', _, _, ?_, hs'⟩
    rw [removeAtPosition, if_neg hne, hok, ok_bind]
    dsimp only
    rw [debugAssert_ok pr (p := (some e).isSome = true) rfl, ok_bind, Lru.remove, h.lookup_eq_some he]
    rfl
  · have hnone : s.slots slot = none := by
      rw [h.shape.ordered.mem_iff] at hmem
      simpa using hmem
    refine ⟨s, order, ages, ?_, ?_⟩
    · rw [removeAtPosition, if_pos (show 8 = maxAssociativity from rfl), slot_ok, ok_bind, hnone,
        debugAssert_ok pr (p := (none : Option (K × T)).isNone = true) rfl, removeAt, hnone]
      rfl
    · rw [removeAt, hnone]
      exact h

theorem removeBySlot_refines (h : Holds s order ages l) (slot : Fin 8) (position : Option Nat)
    (hposition : ∀ i, position = some i → order[i]? = some slot) :
    ∃ s' order' ages', removeBySlot pr s slot.val position = .ok (s', (removeAt l s.slots slot).2) ∧
      Holds s' order' ages' (removeAt l s.slots slot).1 := by
  cases position with
  | none =>
    obtain ⟨i, hfind, hi⟩ := findOrderedSlot_spec pr h.shape.ordered.packs slot
    rw [removeBySlot, hfind, ok_bind]
    exact removeAtPosition_refines pr h hi
  | some i =>
    have hi := hposition i rfl
    have hlt : i < order.length := (List.getElem?_eq_some_iff.mp hi).1
    have hlen := h.shape.ordered.packs.length_le
    exact removeAtPosition_refines pr h (Or.inl ⟨by omega, hi⟩)

end Removals

section Capacities

theorem trailingBitsMask_spec {n : Nat} (hn : n ≤ 8) :
    ∃ z, trailingBitsMask pr (8 * n) = .ok z ∧
      ∀ r < 8, row z r = if r < n then allOnes else 0#8 := by
  interval_cases n <;> cases pr <;> exact ⟨_, rfl, by decide⟩

theorem growCapacity_refines (h : Holds s order ages l) {newCapacity : Nat}
    (hlt : s.capacity < newCapacity) (hnew : newCapacity ≤ 8) :
    ∃ s', growCapacity pr s newCapacity = .ok s' ∧
      Holds s' order ages ⟨l.entries, newCapacity⟩ ∧ (Nested s.lruReferenceMatrix s.slots →
        Nested s'.lruReferenceMatrix s'.slots) := by
  obtain ⟨mask, hmask, hrows⟩ :=
    trailingBitsMask_spec pr (n := newCapacity - s.capacity) (by omega)
  have hrow (r : Fin 8) : row (s.lruReferenceMatrix ||| mask <<< (8 * s.capacity)) r =
      if s.capacity ≤ r.val ∧ r.val < newCapacity then allOnes else row s.lruReferenceMatrix r := by
    have hshift : row (mask <<< (8 * s.capacity)) r =
        if r.val < s.capacity then 0#8 else row mask (r - s.capacity) :=
      Lanes.lane_shiftLeft mask s.capacity (by omega)
    rw [row_or, hshift]
    by_cases hr : r.val < s.capacity
    · rw [if_pos hr, if_neg (by omega), BitVec.or_zero]
    · rw [if_neg hr, hrows _ (by omega)]
      by_cases hr' : r.val < newCapacity
      · rw [if_pos (by omega), if_pos ⟨not_lt.mp hr, hr'⟩]
        exact BitVec.or_allOnes
      · rw [if_neg (by omega), if_neg (fun hc => hr' hc.2), BitVec.or_zero]
  have hold (r : Fin 8) (hr : (s.slots r).isSome = true) :
      row (s.lruReferenceMatrix ||| mask <<< (8 * s.capacity)) r = row s.lruReferenceMatrix r := by
    have := h.shape.lt_capacity r hr
    rw [hrow, if_neg (by omega)]
  refine ⟨⟨s.lruReferenceMatrix ||| mask <<< (8 * s.capacity), s.slots, s.orderedSlots, newCapacity⟩,
    ?_, ⟨⟨h.shape.ordered, hnew, ?_, ?_, ?_, ?_, ?_⟩, ⟨h.age.mem_iff, h.age.nodup, ?_⟩, h.entries_eq, rfl⟩,
    fun hn => hn.of_rows_eq fun r hr => ⟨hr, hold r hr⟩⟩
  · rw [growCapacity, debugAssert_ok pr (p := newCapacity ≤ maxAssociativity) hnew, ok_bind,
      debugAssert_ok pr hlt, ok_bind, subU32_ok pr hlt.le (by omega), ok_bind, hmask, ok_bind,
      shl_ok pr mask (by omega)]
    rfl
  · intro r hr
    exact (h.shape.lt_capacity r hr).trans hlt
  · intro r hr hnone
    rw [hrow]
    by_cases hrc : r.val < s.capacity
    · rw [if_neg (by omega), h.shape.free_row r hrc hnone]
    · rw [if_pos ⟨not_lt.mp hrc, hr⟩]
  · intro r hr
    change newCapacity ≤ r.val at hr
    rw [hrow, if_neg (by omega), h.shape.beyond_row r (by omega)]
  · intro r hr
    rw [hold r hr, h.shape.own_clear r hr]
  · intro r c hr hc
    change newCapacity ≤ c.val at hc
    rw [hold r hr, h.shape.high_clear r c hr (by omega)]
  · apply h.age.pairwise.imp_of_mem
    intro a b ha hb hab
    rw [hold a ((h.age.mem_iff a).mp ha), hold b ((h.age.mem_iff b).mp hb)]
    exact hab

theorem pruneAll_refines (h : Holds s order ages l) :
    ∃ s', pruneAll pr s = .ok s' ∧ Holds s' [] [] ⟨[], l.capacity⟩ := by
  obtain ⟨mask, hmask, hrows⟩ := trailingBitsMask_spec pr h.shape.capacity_le
  have hnone (r : Fin 8) : ¬ ((fun _ => none : Fin 8 → Option (K × T)) r).isSome = true :=
    Bool.false_ne_true
  refine ⟨⟨mask, fun _ => none, 0#32, s.capacity⟩, ?_,
    ⟨⟨packs_nil, ?_, ?_⟩, h.shape.capacity_le, ?_, ?_, ?_, ?_, ?_⟩, ⟨?_, nodup_nil, .nil⟩, rfl,
    h.capacity_eq⟩
  · rw [pruneAll, hmask]
    rfl
  · intro r
    simp [hnone r]
  · intro i j a b x y _ ha
    simp at ha
  · intro r hr
    exact absurd hr (hnone r)
  · intro r hr _
    exact (hrows r r.isLt).trans (if_pos hr)
  · intro r hr
    exact (hrows r r.isLt).trans (if_neg (not_lt.mpr hr))
  · intro r hr
    exact absurd hr (hnone r)
  · intro r c hr
    exact absurd hr (hnone r)
  · intro r
    simp [hnone r]

end Capacities

section Prunes

variable {S : Type} (cond : S → K → T → Bool × S)

def evictedKeys : List (K × T) → S → List K × S
  | [], st => ([], st)
  | e :: es, st =>
    let (evict, st) := cond st e.1 e.2
    let (keys, st) := evictedKeys es st
    (if evict then e.1 :: keys else keys, st)

def sortedEntries (l : Lru K T) : List (K × T) := l.entries.mergeSort fun x y => decide (x.1 ≤ y.1)

def prune (l : Lru K T) (st : S) : Lru K T × S :=
  let (keys, st) := evictedKeys cond (sortedEntries l) st
  (⟨l.entries.filter fun e => decide (e.1 ∉ keys), l.capacity⟩, st)

theorem pruneCondLoop_refines (es : List (K × T)) {fuel : Nat} (hfuel : es.length < fuel) (st : S)
    (hi : i + es.length ≤ 8) (h : Holds s order ages l) (hes : (order.drop i).map s.slots = es.map some) :
    ∃ s' order' ages', pruneCondLoop pr cond fuel s st i = .ok (s', (evictedKeys cond es st).2) ∧
      Holds s' order' ages' ⟨l.entries.filter fun e => decide (e.1 ∉ (evictedKeys cond es st).1),
        l.capacity⟩ := by
  induction es generalizing s order ages l fuel st i with
  | nil =>
    obtain ⟨fuel, rfl⟩ : ∃ n, fuel = n + 1 := ⟨fuel - 1, by omega⟩
    have hlen : order.length ≤ i := by
      rw [map_nil, map_eq_nil_iff, drop_eq_nil_iff] at hes
      exact hes
    refine ⟨s, order, ages, ?_, ?_⟩
    · rw [pruneCondLoop]
      by_cases h8 : maxAssociativity ≤ i
      · rw [if_pos h8]
        rfl
      · rw [if_neg h8, getOrderedSlot_spec pr h.shape.ordered.packs (not_le.mp h8),
          getElem?_eq_none hlen]
        rfl
    · have hfilter : (l.entries.filter fun e => decide (e.1 ∉ (evictedKeys cond [] st).1)) = l.entries := by
        rw [filter_eq_self]
        intro e _
        simp [evictedKeys]
      rw [hfilter]
      exact h
  | cons e es ih =>
    obtain ⟨fuel, rfl⟩ : ∃ n, fuel = n + 1 := ⟨fuel - 1, by omega⟩
    rw [length_cons] at hfuel hi
    obtain ⟨slot, rest, hdrop, he, hrest⟩ := map_eq_cons_iff.mp hes
    have hget : order[i]? = some slot := by
      rw [← head?_drop, hdrop]
      rfl
    have hdrop' : order.drop (i + 1) = rest := by
      rw [← drop_drop, hdrop]
      rfl
    rw [pruneCondLoop, if_neg (show ¬ maxAssociativity ≤ i by rw [maxAssociativity]; omega),
      getOrderedSlot_some pr h.shape hget, ok_bind]
    dsimp only
    rw [slot_ok, ok_bind, he, unwrap, ok_bind, evictedKeys]
    rcases hcond : cond st e.1 e.2 with ⟨evict, st'⟩
    cases evict with
    | false =>
      obtain ⟨s', order', ages', hok, hs'⟩ := ih (show es.length < fuel by omega) st' (i := i + 1) (by omega) h
        (by rw [hdrop', hrest])
      exact ⟨s', order', ages', hok, hs'⟩
    | true =>
      obtain ⟨s₁, hok₁, hs₁, hslots, -⟩ := takeSlot_refines pr h he hget
      have hnot : slot ∉ rest := by
        have hnodup := h.shape.ordered.nodup.sublist (drop_sublist i order)
        rw [hdrop, nodup_cons] at hnodup
        exact hnodup.1
      have hes₁ : ((order.eraseIdx i).drop i).map s₁.slots = es.map some := by
        have hlt : i < order.length := (List.getElem?_eq_some_iff.mp hget).1
        rw [eraseIdx_eq_take_drop_succ, drop_append_of_le_length (by simp; omega),
          drop_take, Nat.sub_self, take_zero, List.nil_append, hdrop', hslots,
          map_update_of_notMem hnot, hrest]
      obtain ⟨s', order', ages', hok, hs'⟩ := ih (show es.length < fuel by omega) st' (i := i) (by omega) hs₁
        hes₁
      refine ⟨s', order', ages', ?_, ?_⟩
      · have hne : i ≠ maxAssociativity := by
          rw [maxAssociativity]
          omega
        simp only [if_true]
        rw [removeBySlot, removeAtPosition, if_neg hne, hok₁, ok_bind]
        dsimp only
        rw [debugAssert_ok pr (p := (some e).isSome = true) rfl, ok_bind]
        exact hok
      · have hfilter : (l.entries.filter fun x => decide (x.1 ∉ e.1 :: (evictedKeys cond es st').1)) =
            (l.without e.1).filter fun x => decide (x.1 ∉ (evictedKeys cond es st').1) := by
          rw [Lru.without, filter_filter]
          apply filter_congr
          intro x _
          simp [Bool.and_comm]
        simp only [if_true]
        rw [hfilter]
        exact hs'

theorem map_slots_eq_sortedEntries (h : Holds s order ages l) :
    order.map s.slots = (sortedEntries l).map some := by
  have hmap : order.map s.slots = (order.filterMap s.slots).map some := by
    rw [map_filterMap_some_eq_filter_map_isSome, eq_comm, filter_eq_self]
    intro o ho
    obtain ⟨r, hr, rfl⟩ := mem_map.mp ho
    exact (h.shape.ordered.mem_iff r).mp hr
  have hperm : (order.filterMap s.slots).Perm l.entries := by
    have hages : (order.map s.slots).Perm (ages.map s.slots) := by
      apply List.Perm.map
      rw [perm_ext_iff_of_nodup h.shape.ordered.nodup h.age.nodup]
      intro r
      rw [h.age.mem_iff, h.shape.ordered.mem_iff]
    rw [hmap, h.entries_eq] at hages
    exact (map_perm_map_iff (Option.some_injective _)).mp hages
  have hsorted : (order.filterMap s.slots).Pairwise fun x y => x.1 < y.1 := by
    rw [pairwise_filterMap, pairwise_iff_getElem]
    intro i j hi hj hij x hx y hy
    exact h.shape.ordered.sorted i j _ _ x y hij (getElem?_eq_getElem hi)
      (getElem?_eq_getElem hj) hx hy
  have hmerge : (sortedEntries l).Pairwise fun x y => x.1 ≤ y.1 := by
    have htrans : ∀ a b c : K × T, decide (a.1 ≤ b.1) = true → decide (b.1 ≤ c.1) = true →
        decide (a.1 ≤ c.1) = true := by
      intro a b c hab hbc
      exact decide_eq_true ((of_decide_eq_true hab).trans (of_decide_eq_true hbc))
    have htotal : ∀ a b : K × T, (decide (a.1 ≤ b.1) || decide (b.1 ≤ a.1)) = true := by
      intro a b
      simp [le_total]
    exact (pairwise_mergeSort htrans htotal l.entries).imp of_decide_eq_true
  rw [hmap]
  congr 1
  apply List.Perm.eq_of_pairwise _ (hsorted.imp le_of_lt) hmerge
    (hperm.trans (mergeSort_perm l.entries _).symm)
  intro x y hx hy hxy hyx
  -- Entries with the same key come from the same slot.
  obtain ⟨a, -, ha⟩ := mem_filterMap.mp hx
  obtain ⟨b, hb⟩ := h.mem_iff.mp ((mergeSort_perm l.entries _).mem_iff.mp hy)
  obtain rfl := slot_eq_of_key h.shape ha hb (le_antisymm hxy hyx)
  exact Option.some.inj (ha.symm.trans hb)

theorem pruneCond_refines (h : Holds s order ages l) (st : S) :
    ∃ s' order' ages', pruneCond pr s cond st = .ok (s', (prune cond l st).2) ∧
      Holds s' order' ages' (prune cond l st).1 := by
  have hlen : (sortedEntries l).length ≤ 8 := by
    rw [sortedEntries, length_mergeSort, length_eq_order h]
    exact h.shape.ordered.packs.length_le
  exact pruneCondLoop_refines pr cond (sortedEntries l) (by rw [maxAssociativity]; omega) st (by omega) h
    (map_slots_eq_sortedEntries h)

end Prunes

end CocoonFs.CacheOps
