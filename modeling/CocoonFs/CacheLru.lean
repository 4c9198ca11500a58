import CocoonFs.CacheCalls

namespace CocoonFs.CacheLru

open Checked CacheSet CacheRows CacheOrder CacheInsert CacheCalls List
open Function (update update_of_ne)

variable {K T : Type}

/-- The abstract map: its entries from the most to the least recently used one. -/
structure Lru (K T : Type) where
  entries : List (K × T)
  capacity : Nat

variable {e : K × T}

section Correspondence

variable {slots : Fin 8 → Option (K × T)} {ages : List (Fin 8)} {entries : List (K × T)}

section

variable (h : ages.map slots = entries.map some)
include h

theorem filter_corresponds {p : Fin 8 → Bool}
    {q : K × T → Bool} (hpq : ∀ a ∈ ages, ∀ e, slots a = some e → p a = q e) :
    (ages.filter p).map slots = (entries.filter q).map some := by
  induction ages generalizing entries with
  | nil =>
    rw [map_nil, eq_comm, map_eq_nil_iff] at h
    rw [h]
    rfl
  | cons a ages ih =>
    cases entries with
    | nil => simp at h
    | cons e entries =>
      rw [map_cons, map_cons, List.cons.injEq] at h
      have htail := ih h.2 (fun b hb => hpq b (mem_cons_of_mem _ hb))
      rw [filter_cons, filter_cons, hpq a (mem_cons_self ..) e h.1]
      split
      · rw [map_cons, map_cons, h.1, htail]
      · exact htail

theorem map_corresponds {slots' : Fin 8 → Option (K × T)}
    {f : K × T → K × T} (hf : ∀ a ∈ ages, ∀ e, slots a = some e → slots' a = some (f e)) :
    ages.map slots' = (entries.map f).map some := by
  induction ages generalizing entries with
  | nil =>
    rw [map_nil, eq_comm, map_eq_nil_iff] at h
    rw [h]
    rfl
  | cons a ages ih =>
    cases entries with
    | nil => simp at h
    | cons e entries =>
      rw [map_cons, map_cons, List.cons.injEq] at h
      rw [map_cons, map_cons, map_cons, hf a (mem_cons_self ..) e h.1,
        ih h.2 (fun b hb => hf b (mem_cons_of_mem _ hb))]

theorem mem_entries :
    e ∈ entries ↔ ∃ a ∈ ages, slots a = some e := by
  have hmem : some e ∈ entries.map some ↔ e ∈ entries := by simp
  rw [← hmem, ← h, mem_map]

end

end Correspondence

variable [LinearOrder K] {slot : Fin 8} {matrix : BitVec 64}

section Referenced

variable {s : SetAssocCacheSet K T} {order ages : List (Fin 8)}

/-- A slot that's newer than another one has got all of its bits as well, those of
unoccupied slots included. -/
def Nested (matrix : BitVec 64) (slots : Fin 8 → Option (K × T)) : Prop :=
  ∀ a b : Fin 8, (slots a).isSome = true → (slots b).isSome = true →
    (row matrix a).getLsbD b = true →
    ∀ c : Fin 8, (row matrix b).getLsbD c = true → (row matrix a).getLsbD c = true

omit [LinearOrder K] in
theorem Nested.of_rows_eq {matrix matrix' : BitVec 64} {slots slots' : Fin 8 → Option (K × T)}
    (h : Nested matrix slots) (hr : ∀ r : Fin 8, (slots' r).isSome = true →
      (slots r).isSome = true ∧ row matrix' r = row matrix r) : Nested matrix' slots' := by
  intro a b ha hb
  rw [(hr a ha).2, (hr b hb).2]
  exact h a b (hr a ha).1 (hr b hb).1

theorem nested_referenced (h : Shape s order) (hn : Nested s.lruReferenceMatrix s.slots)
    (hm : Referenced s.lruReferenceMatrix matrix s.capacity slot) (e : K × T) :
    Nested matrix (update s.slots slot (some e)) := by
  have hcap := h.capacity_le
  have hsome {r : Fin 8} (hne : r ≠ slot)
      (hr : (update s.slots slot (some e) r).isSome = true) :
      (s.slots r).isSome = true := by
    rwa [update_of_ne hne] at hr
  have hbit {r : Fin 8} (hne : r ≠ slot) (hr : (s.slots r).isSome = true) (c : Fin 8) :
      (row matrix r).getLsbD c = ((row s.lruReferenceMatrix r).getLsbD c && decide (c ≠ slot)) := by
    rw [hm.others r r.isLt (fun hv => hne (Fin.ext hv)), getLsbD_aged _ (h.row_ne_allOnes hr)]
  have hown (c : Fin 8) : (row matrix slot).getLsbD c =
      (decide (c.val < s.capacity) && decide (c ≠ slot)) := by
    rw [hm.own, getLsbD_own _ (by omega)]
  intro a b ha hb hab c hbc
  have hbs : b ≠ slot := by
    rintro rfl
    by_cases ha' : a = b
    · rw [ha', hown, decide_eq_false (not_not_intro rfl), Bool.and_false] at hab
      cases hab
    · rw [hbit ha' (hsome ha' ha), decide_eq_false (not_not_intro rfl), Bool.and_false] at hab
      cases hab
  have hb' := hsome hbs hb
  rw [hbit hbs hb', Bool.and_eq_true] at hbc
  by_cases has : a = slot
  · have hlt : c.val < s.capacity := by
      by_contra hge
      rw [h.high_clear b c hb' (Nat.le_of_not_lt hge)] at hbc
      exact Bool.false_ne_true hbc.1
    rw [has, hown, decide_eq_true hlt, hbc.2]
    rfl
  · have ha' := hsome has ha
    rw [hbit has ha', Bool.and_eq_true] at hab
    rw [hbit has ha', hn a b ha' hb' hab.1 c hbc.1, hbc.2]
    rfl

theorem ageOrder_referenced (h : Shape s order) (hages : AgeOrder s.lruReferenceMatrix s.slots ages)
    (hlt : slot.val < s.capacity)
    (hm : Referenced s.lruReferenceMatrix matrix s.capacity slot) (e : K × T) :
    AgeOrder matrix (update s.slots slot (some e)) (slot :: ages.erase slot) := by
  have hcap := h.capacity_le
  have hmem (r : Fin 8) : r ∈ ages.erase slot ↔ r ≠ slot ∧ (s.slots r).isSome = true := by
    rw [hages.nodup.mem_erase_iff, hages.mem_iff]
  have hbit {r : Fin 8} (hr : r ∈ ages.erase slot) (c : Fin 8) : (row matrix r).getLsbD c =
      ((row s.lruReferenceMatrix r).getLsbD c && decide (c ≠ slot)) := by
    obtain ⟨hne, hsome⟩ := (hmem r).mp hr
    rw [hm.others r r.isLt (fun hv => hne (Fin.ext hv)), getLsbD_aged _ (h.row_ne_allOnes hsome)]
  refine ⟨?_, ?_, ?_⟩
  · intro r
    rw [mem_cons, hmem]
    by_cases hr : r = slot
    · subst hr
      simp
    · rw [update_of_ne hr]
      simp [hr]
  · rw [nodup_cons]
    exact ⟨fun hmem' => ((hmem slot).mp hmem').1 rfl, hages.nodup.erase slot⟩
  · rw [pairwise_cons]
    refine ⟨?_, ?_⟩
    · intro b hb
      obtain ⟨hne, hsome⟩ := (hmem b).mp hb
      rw [hm.own, getLsbD_own _ (by omega), hbit hb, decide_eq_true (h.lt_capacity b hsome),
        decide_eq_true hne]
      simp
    · apply (hages.pairwise.sublist erase_sublist).imp_of_mem
      intro a b ha hb hab
      rw [hbit ha, hbit hb, hab.1, hab.2, decide_eq_true ((hmem b).mp hb).1]
      exact ⟨rfl, rfl⟩

omit [LinearOrder K] in
theorem last_of_zero_row (hages : AgeOrder s.lruReferenceMatrix s.slots ages)
    (hsome : (s.slots slot).isSome = true)
    (hzero : row s.lruReferenceMatrix slot = 0#8) : ages = ages.erase slot ++ [slot] := by
  obtain ⟨l₁, l₂, rfl⟩ := append_of_mem ((hages.mem_iff slot).mpr hsome)
  have hpair := hages.pairwise
  rw [pairwise_append, pairwise_cons] at hpair
  have hl₂ : l₂ = [] := by
    rw [eq_nil_iff_forall_not_mem]
    intro b hb
    have hbit := (hpair.2.1.1 b hb).1
    rw [hzero, BitVec.getLsbD_zero] at hbit
    cases hbit
  subst hl₂
  have hnot : slot ∉ l₁ := by
    intro hmem
    have hnodup := hages.nodup
    rw [nodup_append] at hnodup
    exact hnodup.2.2 slot hmem slot (mem_singleton.mpr rfl) rfl
  rw [erase_append_right _ hnot]
  simp

end Referenced

section Operations

namespace Lru

variable (l : Lru K T)

def lookup (key : K) : Option (K × T) := l.entries.find? fun e => decide (e.1 = key)

def without (key : K) : List (K × T) := l.entries.filter fun e => decide (e.1 ≠ key)

def insert (key : K) (value : T) : Lru K T × Option (K × T) :=
  if (l.lookup key).isSome then
    (⟨l.entries.map fun e => if e.1 = key then (key, value) else e, l.capacity⟩, none)
  else if l.entries.length < l.capacity then (⟨(key, value) :: l.entries, l.capacity⟩, none)
  else (⟨(key, value) :: l.entries.dropLast, l.capacity⟩, l.entries.getLast?)

/-- Make an entry the most recently used one, and change its value. -/
def access (key : K) (write : T → T) : Lru K T × Option (K × T) :=
  match l.lookup key with
  | none => (l, none)
  | some e => (⟨(e.1, write e.2) :: l.without key, l.capacity⟩, some e)

def remove (key : K) : Lru K T × Option (K × T) := (⟨l.without key, l.capacity⟩, l.lookup key)

def resize (newCapacity : Nat) : Lru K T := ⟨l.entries.take newCapacity, newCapacity⟩

end Lru

/-- The packed set holds the entries of the abstract map, in the order of their ages. -/
structure Holds (s : SetAssocCacheSet K T) (order ages : List (Fin 8)) (l : Lru K T) : Prop where
  shape : Shape s order
  age : AgeOrder s.lruReferenceMatrix s.slots ages
  entries_eq : ages.map s.slots = l.entries.map some
  capacity_eq : s.capacity = l.capacity

def Represents (s : SetAssocCacheSet K T) (l : Lru K T) : Prop := ∃ order ages, Holds s order ages l

section Keys

variable {s : SetAssocCacheSet K T} {order ages : List (Fin 8)} {l : Lru K T}

theorem slot_eq_of_key (h : Shape s order) {a b : Fin 8} {x y : K × T} (ha : s.slots a = some x)
    (hb : s.slots b = some y) (hkey : x.1 = y.1) : a = b := by
  obtain ⟨i, hi⟩ := mem_iff_getElem?.mp ((h.ordered.mem_iff a).mpr (by rw [ha]; rfl))
  obtain ⟨j, hj⟩ := mem_iff_getElem?.mp ((h.ordered.mem_iff b).mpr (by rw [hb]; rfl))
  rcases Nat.lt_trichotomy i j with hlt | rfl | hgt
  · exact absurd hkey (h.ordered.sorted i j a b x y hlt hi hj ha hb).ne
  · exact Option.some.inj (hi.symm.trans hj)
  · exact absurd hkey (h.ordered.sorted j i b a y x hgt hj hi hb ha).ne'

section

variable (h : Holds s order ages l)
include h

theorem Holds.mem_iff :
    e ∈ l.entries ↔ ∃ a, s.slots a = some e := by
  rw [mem_entries h.entries_eq]
  constructor
  · rintro ⟨a, -, ha⟩
    exact ⟨a, ha⟩
  · rintro ⟨a, ha⟩
    exact ⟨a, (h.age.mem_iff a).mpr (by rw [ha]; rfl), ha⟩

theorem Holds.lookup_eq_some {r : Fin 8} (he : s.slots r = some e) : l.lookup e.1 = some e := by
  rcases hfind : l.lookup e.1 with _ | x
  · rw [Lru.lookup, find?_eq_none] at hfind
    exact absurd (decide_eq_true rfl) (hfind e (h.mem_iff.mpr ⟨r, he⟩))
  · have hx := find?_some hfind
    obtain ⟨a, ha⟩ := h.mem_iff.mp (mem_of_find?_eq_some hfind)
    obtain rfl := slot_eq_of_key h.shape ha he (of_decide_eq_true hx)
    exact he ▸ ha.symm

theorem Holds.lookup_eq_none {key : K}
    (hkey : ∀ r e, s.slots r = some e → e.1 ≠ key) : l.lookup key = none := by
  rw [Lru.lookup, find?_eq_none]
  intro e he
  obtain ⟨a, ha⟩ := h.mem_iff.mp he
  simpa using hkey a e ha

theorem Holds.erase_eq {r : Fin 8} (he : s.slots r = some e) :
    (ages.erase r).map s.slots = (l.without e.1).map some := by
  rw [h.age.nodup.erase_eq_filter]
  apply filter_corresponds h.entries_eq
  intro a _ x hx
  by_cases har : a = r
  · subst har
    rw [he] at hx
    cases hx
    simp
  · have hne : x.1 ≠ e.1 := fun hkey => har (slot_eq_of_key h.shape hx he hkey)
    simp [har, hne]

end

omit [LinearOrder K] in
theorem map_update_of_notMem {slots : Fin 8 → Option (K × T)} {r : Fin 8} {x : Option (K × T)}
    {rs : List (Fin 8)} (hr : r ∉ rs) : rs.map (update slots r x) = rs.map slots := by
  apply map_congr_left
  intro a ha
  apply update_of_ne
  rintro rfl
  exact hr ha

theorem Holds.length_le (h : Holds s order ages l) : l.entries.length = ages.length := by
  have := congrArg List.length h.entries_eq
  rw [length_map, length_map] at this
  exact this.symm

end Keys

end Operations

end CocoonFs.CacheLru
