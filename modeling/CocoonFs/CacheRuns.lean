import CocoonFs.CacheShrink

namespace CocoonFs.CacheRuns

open Checked CacheSet CacheRows CacheOrder CacheInsert CacheCalls CacheLru CacheOps CacheShrink
open SetAssocCacheSet (default)

variable {K T S : Type} [LinearOrder K]

inductive Op (K T S : Type) where
  | lookup (key : K)
  | insert (key : K) (value : T)
  | getSlot (slot : Fin 8)
  | getSlotMut (slot : Fin 8) (write : T → T)
  | removeByKey (key : K)
  | removeBySlot (slot : Fin 8) (orderedSlotsIndex : Option Nat)
  | pruneAll
  | pruneCond (cond : S → K → T → Bool × S) (st : S)
  | growCapacity (newCapacity : Nat)
  | shrinkCapacity (newCapacity : Nat)

inductive Output (K T S : Type) where
  | slot (slot : Option Nat)
  | inserted (slot : Nat) (evicted : Option (K × T))
  | entry (entry : Option (K × T))
  | state (st : S)
  | done

def applyOp (pr : Profile) (s : SetAssocCacheSet K T) :
    Op K T S → Comp (SetAssocCacheSet K T × Output K T S)
  | .lookup key => do
    let slot ← lookupKey pr s key
    pure (s, .slot slot)
  | .insert key value => do
    let (s, slot, evicted) ← CacheSet.insert pr s key value
    pure (s, .inserted slot evicted)
  | .getSlot slot => do
    let (s, entry) ← getSlot pr s slot
    pure (s, .entry entry)
  | .getSlotMut slot write => do
    let (s, entry) ← getSlotMut pr s slot write
    pure (s, .entry entry)
  | .removeByKey key => do
    let (s, entry) ← removeByKey pr s key
    pure (s, .entry entry)
  | .removeBySlot slot orderedSlotsIndex => do
    let (s, entry) ← removeBySlot pr s slot orderedSlotsIndex
    pure (s, .entry entry)
  | .pruneAll => do
    let s ← pruneAll pr s
    pure (s, .done)
  | .pruneCond cond st => do
    let (s, st) ← pruneCond pr s cond st
    pure (s, .state st)
  | .growCapacity newCapacity => do
    let s ← growCapacity pr s newCapacity
    pure (s, .done)
  | .shrinkCapacity newCapacity => do
    let s ← shrinkCapacity pr s newCapacity
    pure (s, .done)

def Legal (pr : Profile) (s : SetAssocCacheSet K T) : Op K T S → Prop
  | .insert _ _ => 1 ≤ s.capacity
  | .removeBySlot slot orderedSlotsIndex => ∀ i, orderedSlotsIndex = some i →
      i < 8 ∧ getOrderedSlot pr s.orderedSlots i = .ok (some slot.val)
  | .growCapacity newCapacity => s.capacity < newCapacity ∧ newCapacity ≤ 8
  | .shrinkCapacity newCapacity => newCapacity < s.capacity
  | _ => True

inductive Answer (K T S : Type) where
  | found (entry : Option (K × T))
  | inserted (entry : K × T) (evicted : Option (K × T))
  | entry (entry : Option (K × T))
  | state (st : S)
  | done

/-- The operation on the abstract map. The slots tell what a slot index refers to. -/
def Lru.step (l : Lru K T) (slots : Fin 8 → Option (K × T)) : Op K T S → Lru K T × Answer K T S
  | .lookup key => (l, .found (l.lookup key))
  | .insert key value => ((l.insert key value).1, .inserted (key, value) (l.insert key value).2)
  | .getSlot slot => ((accessAt l slots slot id).1, .entry (accessAt l slots slot id).2)
  | .getSlotMut slot write => ((accessAt l slots slot write).1, .entry (accessAt l slots slot write).2)
  | .removeByKey key => ((l.remove key).1, .entry (l.remove key).2)
  | .removeBySlot slot _ => ((removeAt l slots slot).1, .entry (removeAt l slots slot).2)
  | .pruneAll => (⟨[], l.capacity⟩, .done)
  | .pruneCond cond st => ((prune cond l st).1, .state (prune cond l st).2)
  | .growCapacity newCapacity => (⟨l.entries, newCapacity⟩, .done)
  | .shrinkCapacity newCapacity => (l.resize newCapacity, .done)

def Agrees (s : SetAssocCacheSet K T) : Output K T S → Answer K T S → Prop
  | .slot none, .found entry => entry = none
  | .slot (some slot), .found entry => ∃ h : slot < 8, entry.isSome = true ∧ s.slots ⟨slot, h⟩ = entry
  | .inserted slot evicted, .inserted entry evicted' =>
    (∃ h : slot < 8, s.slots ⟨slot, h⟩ = some entry) ∧ evicted = evicted'
  | .entry entry, .entry entry' => entry = entry'
  | .state st, .state st' => st = st'
  | .done, .done => True
  | _, _ => False

/-- The states that sequences of operations lead to from the default one, with the abstract
map that the same sequence leads to. -/
inductive Reach (pr : Profile) (S : Type) : SetAssocCacheSet K T → Lru K T → Prop where
  | default : Reach pr S default ⟨[], 0⟩
  | step {s s' : SetAssocCacheSet K T} {l : Lru K T} {op : Op K T S} {out : Output K T S}
      (h : Reach pr S s l) (hop : Legal pr s op) (hok : applyOp pr s op = .ok (s', out)) :
      Reach pr S s' (Lru.step l s.slots op).1

section Refinement

variable (pr : Profile) {s : SetAssocCacheSet K T} {order ages : List (Fin 8)} {l : Lru K T}

theorem order_of_getOrderedSlot (h : Shape s order) {i : Nat} (hi : i < 8) {slot : Fin 8}
    (hget : getOrderedSlot pr s.orderedSlots i = .ok (some slot.val)) : order[i]? = some slot := by
  rw [getOrderedSlot_spec pr h.ordered.packs hi] at hget
  rcases hr : order[i]? with _ | r
  · rw [hr] at hget
    cases hget
  · rw [hr] at hget
    have hval := Option.some.inj (Except.ok.inj hget)
    rw [Fin.ext hval]

theorem applyOp_refines (h : Holds s order ages l) (op : Op K T S) (hop : Legal pr s op) :
    ∃ s' out order' ages', applyOp pr s op = .ok (s', out) ∧
      Holds s' order' ages' (Lru.step l s.slots op).1 ∧ Agrees s' out (Lru.step l s.slots op).2 := by
  cases op with
  | lookup key =>
    obtain ⟨o, hok, hentry, hsome⟩ := lookupKey_refines pr h key
    refine ⟨s, .slot (o.map Fin.val), order, ages, ?_, h, ?_⟩
    · rw [applyOp, hok]
      rfl
    · cases o with
      | none => exact hentry.symm
      | some r => exact ⟨r.isLt, by rw [← hentry]; exact hsome r rfl, hentry⟩
  | insert key value =>
    obtain ⟨s', slot, order', ages', hok, hs', hslot⟩ := insert_refines pr h hop key value
    refine ⟨s', .inserted slot.val _, order', ages', ?_, hs', ⟨slot.isLt, hslot⟩, rfl⟩
    rw [applyOp, hok]
    rfl
  | getSlot slot =>
    obtain ⟨s', ages', hok, hs'⟩ := getSlot_refines pr h slot
    refine ⟨s', .entry _, order, ages', ?_, hs', rfl⟩
    rw [applyOp, hok]
    rfl
  | getSlotMut slot write =>
    obtain ⟨s', ages', hok, hs'⟩ := getSlotMut_refines pr h slot write
    refine ⟨s', .entry _, order, ages', ?_, hs', rfl⟩
    rw [applyOp, hok]
    rfl
  | removeByKey key =>
    obtain ⟨s', order', ages', hok, hs'⟩ := removeByKey_refines pr h key
    refine ⟨s', .entry _, order', ages', ?_, hs', rfl⟩
    rw [applyOp, hok]
    rfl
  | removeBySlot slot orderedSlotsIndex =>
    obtain ⟨s', order', ages', hok, hs'⟩ := removeBySlot_refines pr h slot orderedSlotsIndex
      (fun i hi => order_of_getOrderedSlot pr h.shape (hop i hi).1 (hop i hi).2)
    refine ⟨s', .entry _, order', ages', ?_, hs', rfl⟩
    rw [applyOp, hok]
    rfl
  | pruneAll =>
    obtain ⟨s', hok, hs'⟩ := pruneAll_refines pr h
    refine ⟨s', .done, _, _, ?_, hs', trivial⟩
    rw [applyOp, hok]
    rfl
  | pruneCond cond st =>
    obtain ⟨s', order', ages', hok, hs'⟩ := pruneCond_refines pr cond h st
    refine ⟨s', .state _, order', ages', ?_, hs', rfl⟩
    rw [applyOp, hok]
    rfl
  | growCapacity newCapacity =>
    obtain ⟨s', hok, hs', -⟩ := growCapacity_refines pr h hop.1 hop.2
    refine ⟨s', .done, order, ages, ?_, hs', trivial⟩
    rw [applyOp, hok]
    rfl
  | shrinkCapacity newCapacity =>
    obtain ⟨s', order', ages', hok, hs', -⟩ := shrinkCapacity_refines pr h hop
    refine ⟨s', .done, order', ages', ?_, hs', trivial⟩
    rw [applyOp, hok]
    rfl

theorem holds_default : Holds (default : SetAssocCacheSet K T) [] [] ⟨[], 0⟩ := by
  have hnone (r : Fin 8) :
      ¬ ((default : SetAssocCacheSet K T).slots r).isSome = true :=
    Bool.false_ne_true
  refine ⟨⟨⟨packs_nil, ?_, ?_⟩, Nat.zero_le 8, ?_, ?_, ?_, ?_, ?_⟩, ⟨?_, List.nodup_nil, .nil⟩, rfl, rfl⟩
  · intro r
    simp [hnone r]
  · intro i j a b x y _ ha
    simp at ha
  · intro r hr
    exact absurd hr (hnone r)
  · intro r hr
    exact absurd hr (Nat.not_lt_zero r)
  · intro r _
    exact Lanes.lane_zero _
  · intro r hr
    exact absurd hr (hnone r)
  · intro r c hr
    exact absurd hr (hnone r)
  · intro r
    simp [hnone r]

theorem reach_represents (h : Reach pr S s l) : Represents s l := by
  induction h with
  | default => exact ⟨[], [], holds_default⟩
  | step _ hop hok ih =>
    obtain ⟨order, ages, hs⟩ := ih
    obtain ⟨s', out, order', ages', hok', hs', -⟩ := applyOp_refines pr hs _ hop
    rw [hok] at hok'
    obtain rfl := congrArg Prod.fst (Except.ok.inj hok')
    exact ⟨order', ages', hs'⟩

theorem keys_nodup (h : Holds s order ages l) : (l.entries.map Prod.fst).Nodup := by
  have hslots : (ages.map s.slots).Pairwise fun o o' => ∀ x y, o = some x → o' = some y → x.1 ≠ y.1 := by
    rw [List.pairwise_map]
    apply h.age.nodup.imp
    intro a b hab x y hx hy hkey
    exact hab (slot_eq_of_key h.shape hx hy hkey)
  rw [h.entries_eq, List.pairwise_map] at hslots
  rw [List.Nodup, List.pairwise_map]
  exact hslots.imp fun hxy => hxy _ _ rfl rfl

end Refinement

section Reinsertion

/-- The map that evicts the key least recently inserted or accessed: inserting a key that
is there already makes it the most recently used one as well. -/
def Lru.insertRefreshing (l : Lru K T) (key : K) (value : T) : Lru K T × Option (K × T) :=
  if (l.lookup key).isSome then (⟨(key, value) :: l.without key, l.capacity⟩, none)
  else l.insert key value

/-- The entry evicted by an insertion, after others at a capacity of two. -/
def evictedAtLast (pr : Profile) (es : List (Nat × Nat)) (e : Nat × Nat) : Comp (Option (Nat × Nat)) := do
  let s ← growCapacity pr default 2
  let (s, _) ← insertAll pr s es
  let (_, _, evicted) ← CacheSet.insert pr s e.1 e.2
  pure evicted

end Reinsertion

end CocoonFs.CacheRuns
