import CocoonFs.CacheOrderedIter

namespace CocoonFs.CacheOrderedContents

open Checked CacheSet CacheRows CacheOrder CacheInsert CacheCalls Lanes CacheOrderedCursor List
  CacheOrderedIter
open Option (bind_eq_some_iff bind_some)
open Function (update update_of_ne update_self)

variable {K T : Type} [LinearOrder K]

structure SetAssocCacheOrderedIter (K T : Type) where
  cache : SetAssocCache K T
  cursor : SetAssocCacheOrderedCursor

structure SetAssocCacheOrderedMutIter (K T : Type) where
  cache : SetAssocCache K T
  cursor : SetAssocCacheOrderedCursor

def SetAssocCacheOrderedIter.new (enough : Bool) (cache : SetAssocCache K T) :
    Except SetAssocCacheOrderedIterNewError (SetAssocCacheOrderedIter K T) := do
  let cursor ← SetAssocCacheOrderedCursor.new enough cache.sets
  pure ⟨cache, cursor⟩

def SetAssocCacheOrderedMutIter.new (enough : Bool) (cache : SetAssocCache K T) :
    Except SetAssocCacheOrderedIterNewError (SetAssocCacheOrderedMutIter K T) := do
  let cursor ← SetAssocCacheOrderedCursor.new enough cache.sets
  pure ⟨cache, cursor⟩

def SetAssocCacheOrderedIter.next (pr : Profile) (it : SetAssocCacheOrderedIter K T) :
    Comp (Option (K × T) × SetAssocCacheOrderedIter K T) := do
  let (position, cursor) ← it.cursor.next pr it.cache.sets
  match position with
  | none => pure (none, ⟨it.cache, cursor⟩)
  | some (setIndex, slot) => do
    let s ← index it.cache.sets setIndex
    let entry ← s.slot slot
    pure (entry, ⟨it.cache, cursor⟩)

/-- The caller may write to the value that is returned by reference. -/
def SetAssocCacheOrderedMutIter.next (pr : Profile) (write : K → T → T)
    (it : SetAssocCacheOrderedMutIter K T) :
    Comp (Option (K × T) × SetAssocCacheOrderedMutIter K T) := do
  let (position, cursor) ← it.cursor.next pr it.cache.sets
  match position with
  | none => pure (none, ⟨it.cache, cursor⟩)
  | some (setIndex, slot) => do
    let s ← index it.cache.sets setIndex
    let entry ← s.slot slot
    let s ← s.setSlot slot (entry.map fun e => (e.1, write e.1 e.2))
    let sets ← setAt it.cache.sets setIndex s
    pure (entry, ⟨⟨sets, it.cache.mapKeyToSet⟩, cursor⟩)

def Yields (pr : Profile) : SetAssocCacheOrderedIter K T → List (K × T) → Prop :=
  Emits (fun it => ∃ it', it.next pr = .ok (none, it'))
    (fun it e it' => it.next pr = .ok (some e, it'))

/-- The same for a caller with a state of its own that writes to the values. -/
def MutYields {S : Type} (pr : Profile) (write : S → K → T → T × S) :
    SetAssocCacheOrderedMutIter K T × S → List (K × T) → Prop :=
  Emits (fun st => ∃ it', st.1.next pr (fun k v => (write st.2 k v).1) = .ok (none, it'))
    (fun st e st' => st.1.next pr (fun k v => (write st.2 k v).1) = .ok (some e, st'.1) ∧
      st'.2 = (write st.2 e.1 e.2).2)

/-- Every set has got its slots in order and only entries whose keys map to it. -/
structure WellFormed (cache : SetAssocCache K T) : Prop where
  ordered : ∀ (i : Nat) (s : SetAssocCacheSet K T), cache.sets[i]? = some s →
    ∃ order, Ordered s.orderedSlots s.slots order
  placed : ∀ i s, cache.sets[i]? = some s → ∀ r e, s.slots r = some e →
    cache.mapKeyToSet e.1 = some i

def Cached (sets : List (SetAssocCacheSet K T)) (e : K × T) : Prop :=
  ∃ (i : Nat) (s : SetAssocCacheSet K T) (r : Fin 8), sets[i]? = some s ∧ s.slots r = some e

section Runs

variable {sets : List (SetAssocCacheSet K T)}

def runOf (i : Nat) (s : SetAssocCacheSet K T) (order : List (Fin 8)) : List (Head K) :=
  order.filterMap fun r => (s.slots r).map fun e => ⟨i, r.val, e.1⟩

omit [LinearOrder K] in
theorem runOf_getElem? (i : Nat) (s : SetAssocCacheSet K T) {order : List (Fin 8)}
    (h : ∀ r ∈ order, (s.slots r).isSome = true) (n : Nat) :
    (runOf i s order)[n]? =
      order[n]?.bind fun r => (s.slots r).map fun e => ⟨i, r.val, e.1⟩ := by
  induction order generalizing n with
  | nil => rfl
  | cons r order ih =>
    obtain ⟨e, he⟩ := Option.isSome_iff_exists.mp (h r (by simp))
    have hcons : runOf i s (r :: order) = ⟨i, r.val, e.1⟩ :: runOf i s order := by
      rw [runOf, filterMap_cons, he]
      rfl
    rw [hcons]
    cases n with
    | zero =>
      rw [getElem?_cons_zero, getElem?_cons_zero]
      exact (by rw [bind_some, he]; rfl)
    | succ n =>
      rw [getElem?_cons_succ, getElem?_cons_succ]
      exact ih (fun r hr => h r (by simp [hr])) n

variable {s : SetAssocCacheSet K T}

omit [LinearOrder K] in
theorem mem_runOf {i : Nat} {order : List (Fin 8)} {x : Head K} :
    x ∈ runOf i s order ↔ ∃ r ∈ order, ∃ e, s.slots r = some e ∧ x = ⟨i, r.val, e.1⟩ := by
  rw [runOf, mem_filterMap]
  constructor
  · rintro ⟨r, hr, h⟩
    obtain ⟨e, he, rfl⟩ := Option.map_eq_some_iff.mp h
    exact ⟨r, hr, e, he, rfl⟩
  · rintro ⟨r, hr, e, he, rfl⟩
    exact ⟨r, hr, by rw [he]; rfl⟩

omit [LinearOrder K] in
theorem keyAt_ok {i : Nat} (hs : sets[i]? = some s) {r : Fin 8}
    {e : K × T} (he : s.slots r = some e) : keyAt sets i r.val = .ok e.1 := by
  rw [keyAt, index_ok hs, ok_bind, slot_ok, ok_bind, he]
  rfl

/-- What `SetRuns` asks for of a single set. -/
structure IsRun (pr : Profile) (sets : List (SetAssocCacheSet K T)) (i : Nat)
    (run : List (Head K)) : Prop where
  slot_eq : ∀ s, sets[i]? = some s → ∀ n, n < 8 →
    getOrderedSlot pr s.orderedSlots n = .ok (run[n]?.map Head.slot)
  beyond : sets.length ≤ i → run = []
  mem : ∀ x ∈ run, x.setIndex = i ∧ ∃ s r e, sets[i]? = some s ∧ s.slots r = some e ∧
    x.slot = r.val ∧ x.key = e.1
  length_le : run.length ≤ 8
  sorted : run.Pairwise (fun x y => x.key < y.key)
  complete : ∀ s r e, sets[i]? = some s → s.slots r = some e → ⟨i, r.val, e.1⟩ ∈ run

theorem exists_isRun (pr : Profile) (hordered : ∀ (i : Nat) (s : SetAssocCacheSet K T),
    sets[i]? = some s → ∃ order, Ordered s.orderedSlots s.slots order) (i : Nat) :
    ∃ run, IsRun pr sets i run := by
  cases hs : sets[i]? with
  | none =>
    refine ⟨[], fun s h => ?_, fun _ => rfl, by simp, by simp, List.Pairwise.nil,
      fun s r e h => ?_⟩
    · rw [hs] at h
      cases h
    · rw [hs] at h
      cases h
  | some s =>
    obtain ⟨order, hord⟩ := hordered i s hs
    have hsome : ∀ r ∈ order, (s.slots r).isSome = true := fun r hr => (hord.mem_iff r).mp hr
    refine ⟨runOf i s order, ?_, ?_, ?_, ?_, ?_, ?_⟩
    · intro s' hs' n hn
      cases hs.symm.trans hs'
      rw [getOrderedSlot_spec pr hord.packs hn, runOf_getElem? i s hsome n]
      cases hn' : order[n]? with
      | none => rfl
      | some r =>
        obtain ⟨e, he⟩ := Option.isSome_iff_exists.mp (hsome r (mem_of_getElem? hn'))
        rw [bind_some, he]
        rfl
    · intro hlen
      rw [List.getElem?_eq_none_iff.mpr hlen] at hs
      cases hs
    · intro x hx
      obtain ⟨r, -, e, he, rfl⟩ := mem_runOf.mp hx
      exact ⟨rfl, s, r, e, hs, he, rfl, rfl⟩
    · exact (length_filterMap_le _ _).trans hord.packs.length_le
    · rw [pairwise_iff_getElem]
      intro a b ha hb hab
      have hgeta := runOf_getElem? i s hsome a
      have hgetb := runOf_getElem? i s hsome b
      rw [getElem?_eq_getElem ha] at hgeta
      rw [getElem?_eq_getElem hb] at hgetb
      obtain ⟨ra, hra, hga⟩ := bind_eq_some_iff.mp hgeta.symm
      obtain ⟨rb, hrb, hgb⟩ := bind_eq_some_iff.mp hgetb.symm
      obtain ⟨ea, hea, hxa⟩ := Option.map_eq_some_iff.mp hga
      obtain ⟨eb, heb, hxb⟩ := Option.map_eq_some_iff.mp hgb
      rw [← hxa, ← hxb]
      exact hord.sorted a b ra rb ea eb hab hra hrb hea heb
    · intro s' r e hs' he
      cases hs.symm.trans hs'
      exact mem_runOf.mpr ⟨r, (hord.mem_iff r).mpr (by rw [he]; rfl), e, he, rfl⟩

theorem exists_setRuns (pr : Profile) {cache : SetAssocCache K T} (hw : WellFormed cache) :
    ∃ runs : Nat → List (Head K), SetRuns pr cache.sets runs ∧
      (∀ i, ∀ x ∈ runs i, ∃ e, entryAt cache.sets x = some e ∧ e.1 = x.key) ∧
      ∀ e, Cached cache.sets e ↔ ∃ z, (∃ i, z ∈ runs i) ∧ entryAt cache.sets z = some e ∧
        e.1 = z.key := by
  choose runs hruns using exists_isRun pr hw.ordered
  have hentry {i : Nat} {s : SetAssocCacheSet K T} (hs : cache.sets[i]? = some s) (r : Fin 8)
      (k : K) : entryAt cache.sets ⟨i, r.val, k⟩ = s.slots r := by
    rw [entryAt]
    rw [hs, bind_some, dif_pos r.isLt]
  refine ⟨runs, ⟨fun i => (hruns i).slot_eq, fun i => (hruns i).beyond, ?_,
    fun i => (hruns i).length_le, fun i => (hruns i).sorted, ?_⟩, ?_, fun e => ⟨?_, ?_⟩⟩
  · intro i x hx
    obtain ⟨hidx, s, r, e, hs, he, hslot, hkey⟩ := (hruns i).mem x hx
    rw [hslot, hkey]
    exact ⟨hidx, keyAt_ok hs he⟩
  · intro i j x hx y hy heq
    obtain ⟨-, s, r, e, hs, he, -, hkey⟩ := (hruns i).mem x hx
    obtain ⟨-, s', r', e', hs', he', -, hkey'⟩ := (hruns j).mem y hy
    have hi := hw.placed i s hs r e he
    have hj := hw.placed j s' hs' r' e' he'
    rw [← hkey, heq, hkey', hj] at hi
    exact (Option.some.inj hi).symm
  · intro i x hx
    obtain ⟨hidx, s, r, e, hs, he, hslot, hkey⟩ := (hruns i).mem x hx
    refine ⟨e, ?_, hkey.symm⟩
    obtain ⟨xi, xs, xk⟩ := x
    dsimp only at hidx hslot
    rw [hidx, hslot, hentry hs, he]
  · rintro ⟨i, s, r, hs, he⟩
    refine ⟨⟨i, r.val, e.1⟩, ⟨i, (hruns i).complete s r e hs he⟩, ?_, rfl⟩
    rw [hentry hs, he]
  · rintro ⟨z, -, hz, -⟩
    obtain ⟨s, hs, hslot⟩ := bind_eq_some_iff.mp hz
    split at hslot
    · exact ⟨z.setIndex, s, _, hs, hslot⟩
    · cases hslot

end Runs

section Start

variable (sets : List (SetAssocCacheSet K T)) (runs : Nat → List (Head K))

theorem iterating_new :
    ∃ c, SetAssocCacheOrderedCursor.new true sets = .ok c ∧
      Iterating sets runs (fun _ => 0) c [] := by
  have hshift : sets.length >>> 3 = sets.length / 8 := Nat.shiftRight_eq_div_pow _ 3
  have hmask : sets.length &&& 0x7 = sets.length % 8 := Nat.and_two_pow_sub_one_eq_mod _ 3
  have hlen : sets.length ≤ 8 * (sets.length / 8 + if sets.length % 8 ≠ 0 then 1 else 0) := by
    split <;> omega
  rw [SetAssocCacheOrderedCursor.new, hshift, hmask, if_pos rfl]
  refine ⟨_, rfl, ⟨rfl, Nat.le_refl _, rfl⟩, ⟨List.Pairwise.nil, by simp, by simp⟩, ⟨?_, ?_⟩, ?_⟩
  · intro i hi
    refine ⟨0#32, ?_, ?_⟩
    · apply getElem?_replicate_of_lt
      omega
    · rw [lane_zero, BitVec.toNat_ofNat, Nat.zero_mod]
  · intro i
    exact Nat.zero_le _
  · rwa [length_replicate]

end Start

section Entries

variable {sets : List (SetAssocCacheSet K T)}

omit [LinearOrder K] in
theorem entryAt_eq_some {x : Head K} {e : K × T} (h : entryAt sets x = some e) :
    ∃ s r, sets[x.setIndex]? = some s ∧ x.slot = r.val ∧ s.slots r = some e := by
  obtain ⟨s, hs, hslot⟩ := bind_eq_some_iff.mp h
  split at hslot
  · rename_i hlt
    exact ⟨s, ⟨x.slot, hlt⟩, hs, rfl, hslot⟩
  · cases hslot

def written (sets : List (SetAssocCacheSet K T)) (i : Nat) (s : SetAssocCacheSet K T) (r : Fin 8)
    (e : K × T) : List (SetAssocCacheSet K T) :=
  sets.set i { s with slots := update s.slots r (some e) }

variable {i : Nat} {s : SetAssocCacheSet K T} {r : Fin 8} {e : K × T} {v : T}

omit [LinearOrder K] in
theorem keyAt_written (hs : sets[i]? = some s) (he : s.slots r = some e) (j slot : Nat) :
    keyAt (written sets i s r (e.1, v)) j slot = keyAt sets j slot := by
  have hlt := (List.getElem?_eq_some_iff.mp hs).1
  rw [keyAt, keyAt, index, index, written]
  by_cases hj : i = j
  · subst hj
    rw [getElem?_set_self hlt, hs]
    rw [ok_bind, ok_bind, SetAssocCacheSet.slot, SetAssocCacheSet.slot]
    split
    · rename_i hslot
      dsimp only
      by_cases hr : (⟨slot, hslot⟩ : Fin 8) = r
      · rw [hr, update_self, he]
        rfl
      · rw [update_of_ne hr]
    · rfl
  · rw [getElem?_set_ne hj]

omit [LinearOrder K] in
theorem entryAt_written_of_ne {z : Head K} (hs : sets[i]? = some s)
    (hz : z.setIndex = i → z.slot ≠ r.val) :
    entryAt (written sets i s r (e.1, v)) z = entryAt sets z := by
  have hlt := (List.getElem?_eq_some_iff.mp hs).1
  rw [entryAt, entryAt, written]
  by_cases hi : i = z.setIndex
  · rw [← hi, getElem?_set_self hlt, hs, bind_some, bind_some]
    split
    · rename_i hslot
      apply update_of_ne
      intro heq
      exact hz hi.symm (congrArg Fin.val heq)
    · rfl
  · rw [getElem?_set_ne hi]

variable {runs : Nat → List (Head K)}

theorem setRuns_written {pr : Profile} (hr : SetRuns pr sets runs)
    (hs : sets[i]? = some s) (he : s.slots r = some e) :
    SetRuns pr (written sets i s r (e.1, v)) runs where
  slot_eq := by
    intro j s' hs' n hn
    rw [CacheOrderedContents.written] at hs'
    by_cases hj : i = j
    · subst hj
      rw [getElem?_set_self (List.getElem?_eq_some_iff.mp hs).1] at hs'
      cases hs'
      exact hr.slot_eq i s hs n hn
    · rw [getElem?_set_ne hj] at hs'
      exact hr.slot_eq j s' hs' n hn
  beyond := by
    intro j hj
    rw [CacheOrderedContents.written, length_set] at hj
    exact hr.beyond j hj
  mem := by
    intro j x hx
    rw [keyAt_written hs he]
    exact hr.mem j x hx
  length_le := hr.length_le
  sorted := hr.sorted
  distinct := hr.distinct

theorem iterating_of_length_eq {sets' : List (SetAssocCacheSet K T)}
    {pos : Nat → Nat} {c : SetAssocCacheOrderedCursor}
    {b : List (Head K)} (h : Iterating sets runs pos c b) (hlen : sets'.length = sets.length) :
    Iterating sets' runs pos c b where
  batch := h.batch
  batched := hlen ▸ h.batched
  positioned := ⟨fun j hj => h.positioned.nibble j (hlen ▸ hj), h.positioned.pos_le⟩
  length_eq := hlen ▸ h.length_eq

end Entries

section Iterators

variable {pr : Profile} {runs : Nat → List (Head K)} {pos : Nat → Nat}

def IterState (cache : SetAssocCache K T) (runs : Nat → List (Head K))
    (it : SetAssocCacheOrderedIter K T) (pos : Nat → Nat) : Prop :=
  it.cache = cache ∧ ∃ b, Iterating cache.sets runs pos it.cursor b

variable {cache : SetAssocCache K T}

theorem IterState.step (hr : SetRuns pr cache.sets runs)
    (hentries : ∀ i, ∀ x ∈ runs i, ∃ e, entryAt cache.sets x = some e ∧ e.1 = x.key)
    {it : SetAssocCacheOrderedIter K T} (h : IterState cache runs it pos) :
    ((∃ it', it.next pr = .ok (none, it')) ∧ ∀ i, (runs i).drop (pos i) = []) ∨
    ∃ x e it', entryAt cache.sets x = some e ∧ e.1 = x.key ∧ it.next pr = .ok (some e, it') ∧
      IterState cache runs it' (advanced pos x.setIndex) ∧
      (runs x.setIndex)[pos x.setIndex]? = some x ∧
      ∀ i, ∀ z ∈ (runs i).drop (pos i), z = x ∨ x.key < z.key := by
  obtain ⟨hcache, b, hit⟩ := h
  rw [SetAssocCacheOrderedIter.next, hcache]
  obtain ⟨c', hnext, hnil⟩ | ⟨x, c', b', hnext, hit', hx, hfirst⟩ := next_ok hr hit
  · rw [hnext, ok_bind]
    exact .inl ⟨⟨⟨cache, c'⟩, rfl⟩, hnil⟩
  · obtain ⟨e, he, hkey⟩ := hentries _ x (mem_of_getElem? hx)
    obtain ⟨s, r, hs, hslot, hse⟩ := entryAt_eq_some he
    refine .inr ⟨x, e, ⟨cache, c'⟩, he, hkey, ?_, ⟨rfl, b', hit'⟩, hx, hfirst⟩
    rw [hnext, ok_bind]
    dsimp only [Head.position]
    rw [index_ok hs, ok_bind, hslot, slot_ok, ok_bind, hse]
    rfl

/-- The state of the mutable one. What's still to come has not been written to. -/
structure MutIterState (pr : Profile) (cache : SetAssocCache K T) (runs : Nat → List (Head K))
    (it : SetAssocCacheOrderedMutIter K T) (pos : Nat → Nat) : Prop where
  setRuns : SetRuns pr it.cache.sets runs
  iterating : ∃ b, Iterating it.cache.sets runs pos it.cursor b
  unwritten : ∀ i, ∀ z ∈ (runs i).drop (pos i), entryAt it.cache.sets z = entryAt cache.sets z

theorem MutIterState.step
    (hentries : ∀ i, ∀ x ∈ runs i, ∃ e, entryAt cache.sets x = some e ∧ e.1 = x.key)
    (write : K → T → T) {it : SetAssocCacheOrderedMutIter K T}
    (h : MutIterState pr cache runs it pos) :
    ((∃ it', it.next pr write = .ok (none, it')) ∧ ∀ i, (runs i).drop (pos i) = []) ∨
    ∃ x e it', entryAt cache.sets x = some e ∧ e.1 = x.key ∧
      it.next pr write = .ok (some e, it') ∧
      MutIterState pr cache runs it' (advanced pos x.setIndex) ∧
      (runs x.setIndex)[pos x.setIndex]? = some x ∧
      ∀ i, ∀ z ∈ (runs i).drop (pos i), z = x ∨ x.key < z.key := by
  obtain ⟨b, hit⟩ := h.iterating
  rw [SetAssocCacheOrderedMutIter.next]
  obtain ⟨c', hnext, hnil⟩ | ⟨x, c', b', hnext, hit', hx, hfirst⟩ := next_ok h.setRuns hit
  · rw [hnext, ok_bind]
    exact .inl ⟨⟨⟨it.cache, c'⟩, rfl⟩, hnil⟩
  · obtain ⟨e, he, hkey⟩ := hentries _ x (mem_of_getElem? hx)
    have hmem : x ∈ (runs x.setIndex).drop (pos x.setIndex) := by
      rw [drop_eq_cons hx]
      exact mem_cons_self ..
    have he' : entryAt it.cache.sets x = some e := by rw [h.unwritten _ x hmem, he]
    obtain ⟨s, r, hs, hslot, hse⟩ := entryAt_eq_some he'
    have hset : setAt it.cache.sets x.setIndex
        { s with slots := update s.slots r (some (e.1, write e.1 e.2)) } =
        .ok (written it.cache.sets x.setIndex s r (e.1, write e.1 e.2)) := by
      rw [setAt, if_pos (List.getElem?_eq_some_iff.mp hs).1]
      rfl
    have hlen : (written it.cache.sets x.setIndex s r (e.1, write e.1 e.2)).length =
        it.cache.sets.length := by
      rw [written, length_set]
    refine .inr ⟨x, e, ⟨⟨written it.cache.sets x.setIndex s r (e.1, write e.1 e.2),
      it.cache.mapKeyToSet⟩, c'⟩, he, hkey, ?_, ⟨setRuns_written h.setRuns hs hse,
      ⟨b', iterating_of_length_eq hit' hlen⟩, ?_⟩, hx, hfirst⟩
    · rw [hnext, ok_bind]
      dsimp only [Head.position]
      rw [index_ok hs, ok_bind, hslot, slot_ok, ok_bind, setSlot_ok, ok_bind, hse]
      dsimp only [Option.map_some]
      rw [hset, ok_bind]
      rfl
    · intro i z hz
      have hzpos : z ∈ (runs i).drop (pos i) := by
        obtain ⟨j, hj⟩ := (mem_drop_iff hx z).mpr (.inr ⟨i, hz⟩)
        obtain rfl : z.setIndex = i := (h.setRuns.mem i z (mem_of_mem_drop hz)).1
        obtain rfl : z.setIndex = j := (h.setRuns.mem j z (mem_of_mem_drop hj)).1
        exact hj
      rw [← h.unwritten i z hzpos]
      apply entryAt_written_of_ne hs
      -- Equal slots had the same key.
      intro hidx hzslot
      have hzi := h.setRuns.mem i z (mem_of_mem_drop hz)
      have hxi := h.setRuns.mem _ x (mem_of_getElem? hx)
      rw [← hzi.1, hidx, hzslot, ← hslot, hxi.2] at hzi
      rcases hfirst i z hzpos with rfl | hlt
      · exact not_mem_drop_advanced h.setRuns hx i hz
      · exact lt_irrefl _ ((Except.ok.inj hzi.2).symm ▸ hlt)

/-- Iterating yields the cached entries once each and in order. -/
theorem iter_ordered_sorted (pr : Profile) (hw : WellFormed cache) :
    (∃ it items, SetAssocCacheOrderedIter.new true cache = .ok it ∧ Yields pr it items ∧
      items.Pairwise (fun x y => x.1 < y.1) ∧ ∀ e, e ∈ items ↔ Cached cache.sets e) ∧
    ∃ it, SetAssocCacheOrderedMutIter.new true cache = .ok it ∧
      ∀ (S : Type) (write : S → K → T → T × S) (st : S), ∃ items,
        MutYields pr write (it, st) items ∧ items.Pairwise (fun x y => x.1 < y.1) ∧
        ∀ e, e ∈ items ↔ Cached cache.sets e := by
  obtain ⟨runs, hr, hentries, hcached⟩ := exists_setRuns pr hw
  obtain ⟨c, hnew, hit⟩ := iterating_new cache.sets runs
  constructor
  · have hstart : IterState cache runs ⟨cache, c⟩ (fun _ => 0) := ⟨rfl, [], hit⟩
    have hemits : ∃ items, Yields pr ⟨cache, c⟩ items ∧ items.Pairwise (fun x y => x.1 < y.1) ∧ _ :=
      emits_all hr (IterState cache runs) (fun it pos h => h.step hr hentries) hstart
    obtain ⟨items, hitems, hsorted, hmem⟩ := hemits
    refine ⟨⟨cache, c⟩, items, ?_, hitems, hsorted, fun e => ?_⟩
    · rw [SetAssocCacheOrderedIter.new, hnew]
      rfl
    · rw [hmem, hcached]
      rfl
  · refine ⟨⟨cache, c⟩, ?_, fun S write st => ?_⟩
    · rw [SetAssocCacheOrderedMutIter.new, hnew]
      rfl
    · have hstart : MutIterState pr cache runs ⟨cache, c⟩ (fun _ => 0) :=
        ⟨hr, ⟨[], hit⟩, fun _ _ _ => rfl⟩
      have hemits : ∃ items, MutYields pr write (⟨cache, c⟩, st) items ∧
          items.Pairwise (fun x y => x.1 < y.1) ∧ _ :=
        emits_all hr (fun st pos => MutIterState pr cache runs st.1 pos) (fun st pos h => ?_) hstart
      · obtain ⟨items, hitems, hsorted, hmem⟩ := hemits
        refine ⟨items, hitems, hsorted, fun e => ?_⟩
        rw [hmem, hcached]
        rfl
      · obtain hdone | ⟨x, e, it', he, hkey, hnext, hinv, hrest⟩ :=
          h.step hentries (fun k v => (write st.2 k v).1)
        · exact .inl hdone
        · exact .inr ⟨x, e, (it', (write st.2 e.1 e.2).2), he, hkey, ⟨hnext, rfl⟩, hinv, hrest⟩

end Iterators

/-- Two sets with an entry each, the smaller key is in the second set. -/
def twoSets : SetAssocCache Nat Nat where
  sets := [⟨0#64, update (fun _ => none) 3 (some (4, 40)), 0x4#32, 8⟩,
    ⟨0#64, update (fun _ => none) 0 (some (1, 10)), 0x1#32, 1⟩]
  mapKeyToSet k := some (k % 2)

theorem eq_of_update_none {r a : Fin 8} {e x : Nat × Nat}
    (h : update (fun _ => none) r (some e) a = some x) : e = x := by
  by_cases ha : a = r
  · rw [ha, update_self] at h
    exact Option.some.inj h
  · rw [update_of_ne ha] at h
    cases h

theorem wellFormed_twoSets : WellFormed twoSets where
  ordered := by
    have hsingle {os : BitVec 32} {r : Fin 8} {e : Nat × Nat} (hpacks : Packs os [r]) :
        Ordered os (update (fun _ => none) r (some e)) [r] := by
      refine ⟨hpacks, fun a => ?_, fun i j a b x y hij hi hj => ?_⟩
      · rw [mem_singleton]
        by_cases ha : a = r
        · simp [ha]
        · simp [ha]
      · have hlt := (List.getElem?_eq_some_iff.mp hj).1
        rw [length_singleton] at hlt
        omega
    intro i s hs
    match i, hs with
    | 0, rfl => exact ⟨[3], hsingle ⟨by decide, by decide⟩⟩
    | 1, rfl => exact ⟨[0], hsingle ⟨by decide, by decide⟩⟩
  placed := by
    intro i s hs r e he
    match i, hs with
    | 0, rfl =>
      obtain rfl := eq_of_update_none he
      rfl
    | 1, rfl =>
      obtain rfl := eq_of_update_none he
      rfl

theorem iter_ordered_sorted_twoSets :
    WellFormed twoSets ∧ ∃ it items, SetAssocCacheOrderedIter.new true twoSets = .ok it ∧
      Yields .debug it items ∧ items.Pairwise (fun x y => x.1 < y.1) ∧
      ∀ e, e ∈ items ↔ Cached twoSets.sets e :=
  ⟨wellFormed_twoSets, (iter_ordered_sorted .debug wellFormed_twoSets).1⟩

end CocoonFs.CacheOrderedContents
