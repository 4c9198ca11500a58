import CocoonFs.CacheAges
import CocoonFs.CacheRuns

namespace CocoonFs.CacheSetSteps

open Checked CacheSet CacheRows CacheOrder CacheInsert CacheCalls CacheLru CacheOps CacheShrink List
  CacheAges CacheRuns

variable {K T S : Type} [LinearOrder K] (pr : Profile) {s s' : SetAssocCacheSet K T}
  {l : Lru K T} {order ages : List (Fin 8)} {o : Option (K × T)} {slot i : Nat}

section Nesting

/-- The slots keep their order in what each of the operations does. -/
def NestedSet (s : SetAssocCacheSet K T) : Prop := Nested s.lruReferenceMatrix s.slots

variable {pr}

omit [LinearOrder K] in
theorem nested_takeSlot (hok : takeSlot pr s slot i = .ok (s', o))
    (hn : NestedSet s) : NestedSet s' := by
  obtain ⟨matrix, hmatrix, hok⟩ := bind_eq_ok hok
  obtain ⟨os, -, hok⟩ := bind_eq_ok hok
  obtain ⟨removed, -, hok⟩ := bind_eq_ok hok
  obtain ⟨s₁, hset, hok⟩ := bind_eq_ok hok
  obtain rfl := congrArg Prod.fst (Except.ok.inj hok)
  by_cases hslot : slot < 8
  · obtain ⟨z, hz, -, hothers⟩ := lruRemoveSlotLocked_spec pr s.lruReferenceMatrix ⟨slot, hslot⟩
    cases hmatrix.symm.trans hz
    rw [setSlot_ok _ ⟨slot, hslot⟩] at hset
    cases hset
    refine hn.of_rows_eq fun r hr => ?_
    have hne : r ≠ ⟨slot, hslot⟩ := by
      rintro rfl
      dsimp only at hr
      rw [Function.update_self] at hr
      cases hr
    dsimp only at hr
    rw [Function.update_of_ne hne] at hr
    exact ⟨hr, hothers r hne⟩
  · rw [SetAssocCacheSet.setSlot, dif_neg hslot] at hset
    cases hset

omit [LinearOrder K] in
theorem nested_removeAtPosition (hok : removeAtPosition pr s slot i = .ok (s', o))
    (hn : NestedSet s) : NestedSet s' := by
  rw [removeAtPosition] at hok
  split at hok
  · obtain ⟨entry, -, hok⟩ := bind_eq_ok hok
    obtain ⟨⟨⟩, -, hok⟩ := bind_eq_ok hok
    obtain rfl := congrArg Prod.fst (Except.ok.inj hok)
    exact hn
  · obtain ⟨⟨s₁, removed⟩, htake, hok⟩ := bind_eq_ok hok
    obtain ⟨⟨⟩, -, hok⟩ := bind_eq_ok hok
    obtain rfl := congrArg Prod.fst (Except.ok.inj hok)
    exact nested_takeSlot htake hn

omit [LinearOrder K] in
theorem nested_removeBySlot {slot : Nat} {position : Option Nat}
    (hok : removeBySlot pr s slot position = .ok (s', o)) (hn : NestedSet s) : NestedSet s' := by
  cases position with
  | none =>
    obtain ⟨i, -, hok⟩ := bind_eq_ok hok
    exact nested_removeAtPosition hok hn
  | some i => exact nested_removeAtPosition hok hn

theorem nested_insert (h : Holds s order ages l) (hn : NestedSet s) (hcap : 0 < s.capacity)
    {key : K} {value : T} {slot : Nat} (hok : CacheSet.insert pr s key value = .ok (s', slot, o)) :
    NestedSet s' := by
  have hzero := exists_zero_row h.shape (h.age.acyclic h.shape.own_clear) hcap
  rcases insert_cases pr h.shape hzero key value with
    ⟨r, e, he, -, hok'⟩ | ⟨-, r, matrix, os, order', -, hok', -, hm⟩
  · obtain rfl := congrArg Prod.fst (Except.ok.inj (hok.symm.trans hok'))
    refine hn.of_rows_eq fun a ha => ⟨?_, rfl⟩
    by_cases har : a = r
    · rw [har, he]
      rfl
    · dsimp only at ha
      rwa [Function.update_of_ne har] at ha
  · obtain rfl := congrArg Prod.fst (Except.ok.inj (hok.symm.trans hok'))
    exact nested_referenced h.shape hn hm (key, value)

end Nesting

/-- A set whose slots are in the order of their ages in all of the matrix. -/
def Aged (s : SetAssocCacheSet K T) (l : Lru K T) : Prop :=
  ∃ order ages, Holds s order ages l ∧ NestedSet s

theorem aged_default : Aged (SetAssocCacheSet.default : SetAssocCacheSet K T) ⟨[], 0⟩ :=
  ⟨[], [], holds_default, fun _ _ ha => absurd ha Bool.false_ne_true⟩

section Entries

variable {es : List (K × T)} {e : K × T} {i : Nat} {slot : Fin 8}

theorem without_getElem (h : Holds s order ages l)
    (hslot : ages[i]? = some slot) (he : s.slots slot = some e) :
    l.without e.1 = l.entries.eraseIdx i := by
  obtain ⟨hlt, hget⟩ := List.getElem?_eq_some_iff.mp hslot
  have herase := h.erase_eq he
  rw [← hget, h.age.nodup.erase_getElem i hlt, ← eraseIdx_map, h.entries_eq, eraseIdx_map] at herase
  exact (map_injective_iff.mpr (Option.some_injective _) herase).symm

theorem exists_slot (h : Holds s order ages l) (hi : l.entries[i]? = some e) :
    ∃ slot, ages[i]? = some slot ∧ s.slots slot = some e := by
  have hget : (ages.map s.slots)[i]? = (l.entries.map some)[i]? := by rw [h.entries_eq]
  rw [getElem?_map, getElem?_map, hi] at hget
  obtain ⟨slot, hslot, he⟩ := Option.map_eq_some_iff.mp hget
  exact ⟨slot, hslot, he⟩

theorem removeBySlot_entry (h : Holds s order ages l) (hn : NestedSet s)
    (hslot : ages[i]? = some slot) (he : s.slots slot = some e) :
    ∃ s', removeBySlot pr s slot.val none = .ok (s', some e) ∧
      Aged s' ⟨l.entries.eraseIdx i, l.capacity⟩ := by
  obtain ⟨s', order', ages', hok, hs'⟩ := removeBySlot_refines pr h slot none (by simp)
  have hat : removeAt l s.slots slot = l.remove e.1 := by rw [removeAt, he]
  rw [hat, Lru.remove] at hok hs'
  rw [h.lookup_eq_some he] at hok
  rw [without_getElem h hslot he] at hs'
  exact ⟨s', hok, order', ages', hs', nested_removeBySlot hok hn⟩

theorem Aged.oldest (h : Aged s ⟨es ++ [e], 8⟩) :
    ∃ slot : Fin 8, leastRecentlyUsedOccupiedSlot pr s = .ok (some slot.val) ∧
      s.slots slot = some e ∧
      (∃ s', removeBySlot pr s slot.val none = .ok (s', some e) ∧ Aged s' ⟨es, 8⟩) ∧
      ∃ matrix, lruReferenceSlotLocked pr s.lruReferenceMatrix s.capacity slot.val = .ok matrix ∧
        Aged { s with lruReferenceMatrix := matrix } ⟨e :: es, 8⟩ := by
  obtain ⟨order, ages, hs, hn⟩ := h
  have hi : (es ++ [e])[es.length]? = some e := getElem?_concat_length ..
  have herase : (es ++ [e]).eraseIdx es.length = es := by
    rw [eraseIdx_append_of_length_le (Nat.le_refl _), Nat.sub_self]
    exact List.append_nil es
  obtain ⟨slot, hslot, he⟩ := exists_slot hs hi
  have hlast : ages.getLast? = some slot := by
    have hlen := hs.length_le
    rw [length_append, length_singleton] at hlen
    rw [getLast?_eq_getElem?, ← hlen, Nat.add_sub_cancel, hslot]
  have hfound := leastRecentlyUsedOccupiedSlot_spec pr hs.shape hs.age hn hs.capacity_eq
  rw [hlast] at hfound
  obtain ⟨s', hok, hs'⟩ := removeBySlot_entry pr hs hn hslot he
  rw [herase] at hs'
  obtain ⟨matrix, hmatrix, hm⟩ := lruReferenceSlotLocked_referenced pr hs.shape slot
  refine ⟨slot, hfound, he, ⟨s', hok, hs'⟩, matrix, hmatrix, order, slot :: ages.erase slot, ?_, ?_⟩
  · have hacc := Holds.accessed hs he hm id
    have hslots : Function.update s.slots slot (some (e.1, id e.2)) = s.slots :=
      (congrArg _ he.symm).trans (Function.update_eq_self slot s.slots)
    have hentries : ((⟨es ++ [e], 8⟩ : Lru K T).access e.1 id).1 = ⟨e :: es, 8⟩ := by
      rw [Lru.access, hs.lookup_eq_some he]
      rw [without_getElem hs hslot he, herase]
      rfl
    rwa [hslots, hentries] at hacc
  · have hnested := nested_referenced hs.shape hn hm e
    rwa [← he, Function.update_eq_self] at hnested

theorem Aged.insert (h : Aged s ⟨es, 8⟩) (hkey : ∀ x ∈ es, x.1 ≠ e.1) :
    ∃ s' slot, CacheSet.insert pr s e.1 e.2 =
        .ok (s', slot, if es.length < 8 then none else es.getLast?) ∧
      Aged s' ⟨e :: if es.length < 8 then es else es.dropLast, 8⟩ := by
  obtain ⟨order, ages, hs, hn⟩ := h
  have hcap : 0 < s.capacity := hs.capacity_eq ▸ Nat.succ_pos 7
  have hlookup : (⟨es, 8⟩ : Lru K T).lookup e.1 = none := by
    rw [Lru.lookup, find?_eq_none]
    intro x hx
    rw [decide_eq_true_eq]
    exact hkey x hx
  obtain ⟨s', slot, order', ages', hok, hs', -⟩ := insert_refines pr hs hcap e.1 e.2
  have hnested := nested_insert hs hn hcap hok
  rw [Lru.insert, hlookup, if_neg (by simp)] at hok hs'
  refine ⟨s', slot.val, ?_, order', ages', ?_, hnested⟩
  · rw [hok]
    by_cases hlen : es.length < 8
    · rw [if_pos hlen, if_pos hlen]
    · rw [if_neg hlen, if_neg hlen]
  · by_cases hlen : es.length < 8
    · rwa [if_pos hlen] at hs' ⊢
    · rwa [if_neg hlen] at hs' ⊢

theorem Aged.removeWithAge (h : Aged s ⟨es, 8⟩) (hlen : es.length = 8) {age : Nat} (hage : age < 8) :
    ∃ slot s', slotWithAge pr s age = .ok (some slot) ∧
      removeBySlot pr s slot none = .ok (s', es[age]?) ∧ Aged s' ⟨es.eraseIdx age, 8⟩ := by
  obtain ⟨order, ages, hs, hn⟩ := h
  have hi : es[age]? = some es[age] := getElem?_eq_getElem (by omega)
  obtain ⟨slot, hslot, he⟩ := exists_slot hs hi
  have hfound := slotWithAge_spec pr hs.shape hs.age hs.capacity_eq
    (hs.length_le.symm.trans hlen) hage
  rw [hslot] at hfound
  obtain ⟨s', hok, hs'⟩ := removeBySlot_entry pr hs hn hslot he
  exact ⟨slot.val, s', hfound, by rw [hok, hi], hs'⟩

theorem Aged.capacity_eq (h : Aged s l) : s.capacity = l.capacity := by
  obtain ⟨order, ages, hs, -⟩ := h
  exact hs.capacity_eq

theorem Aged.length_le (h : Aged s l) : l.entries.length ≤ l.capacity := by
  obtain ⟨order, ages, hs, -⟩ := h
  rw [length_eq_order hs, ← hs.capacity_eq]
  exact hs.shape.length_le

def setCapacity (s : SetAssocCacheSet K T) (newCapacity : Nat) : Comp (SetAssocCacheSet K T) :=
  match cmp newCapacity s.capacity with
  | .lt => shrinkCapacity pr s newCapacity
  | .gt => growCapacity pr s newCapacity
  | .eq => .ok s

theorem Aged.setCapacity (h : Aged s l) {newCapacity : Nat} (hnew : newCapacity ≤ 8) :
    ∃ s', CacheSetSteps.setCapacity pr s newCapacity = .ok s' ∧
      Aged s' ⟨l.entries.take newCapacity, newCapacity⟩ := by
  have hle := h.length_le
  obtain ⟨order, ages, hs, hn⟩ := h
  have hcap := hs.capacity_eq
  rw [CacheSetSteps.setCapacity]
  rcases Nat.lt_trichotomy newCapacity s.capacity with hlt | heq | hgt
  · obtain ⟨s', order', ages', hok, hs', hnested⟩ := shrinkCapacity_refines pr hs hlt
    rw [show cmp newCapacity s.capacity = .lt from (cmp_eq_lt_iff _ _).mpr hlt]
    exact ⟨s', hok, order', ages', hs', hnested hn⟩
  · rw [show cmp newCapacity s.capacity = .eq from (cmp_eq_eq_iff _ _).mpr heq]
    refine ⟨s, rfl, order, ages, ?_, hn⟩
    rw [take_of_length_le (by omega), heq, hcap]
    exact hs
  · obtain ⟨s', hok, hs', hnested⟩ := growCapacity_refines pr hs hgt hnew
    rw [show cmp newCapacity s.capacity = .gt from (cmp_eq_gt_iff _ _).mpr hgt]
    refine ⟨s', hok, order, ages, ?_, hnested hn⟩
    rw [take_of_length_le (by omega)]
    exact hs'

end Entries

end CocoonFs.CacheSetSteps
