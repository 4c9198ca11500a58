import CocoonFs.CacheRedistribution

namespace CocoonFs.CacheReconfigured

open Checked CacheSet CacheRows CacheOrder CacheInsert CacheCalls CacheLru CacheOps CacheAges List
  CacheSetSteps CacheOrderedCursor CacheReconfigure CacheRedistribution CacheRuns Lanes
open List (append_nil finRange replicate zipWith)

variable {K T : Type}

def slotEntries (s : SetAssocCacheSet K T) : List (K × T) := (finRange 8).filterMap s.slots

def entriesOf (sets : List (SetAssocCacheSet K T)) : List (K × T) := sets.flatMap slotEntries

variable {s : SetAssocCacheSet K T}

theorem mem_slotEntries {e : K × T} :
    e ∈ slotEntries s ↔ ∃ r, s.slots r = some e := by
  rw [slotEntries, mem_filterMap]
  constructor
  · rintro ⟨r, -, hr⟩
    exact ⟨r, hr⟩
  · rintro ⟨r, hr⟩
    exact ⟨r, mem_finRange r, hr⟩

variable [LinearOrder K]

theorem entries_perm {l : Lru K T} (h : Aged s l) :
    l.entries.Perm (slotEntries s) := by
  obtain ⟨order, ages, hs, -⟩ := h
  have hentries : l.entries = ages.filterMap s.slots := by
    have hmap := congrArg (List.filterMap id) hs.entries_eq
    rw [filterMap_map, filterMap_map] at hmap
    exact ((filterMap_some ..).symm.trans hmap.symm)
  have hages : ages.Perm ((finRange 8).filter fun r => (s.slots r).isSome) := by
    apply (perm_ext_iff_of_nodup hs.age.nodup ((nodup_finRange 8).filter _)).mpr
    intro r
    rw [hs.age.mem_iff, mem_filter]
    exact ⟨fun hr => ⟨mem_finRange r, hr⟩, fun hr => hr.2⟩
  have hfilter : ((finRange 8).filter fun r => (s.slots r).isSome).filterMap s.slots =
      slotEntries s := by
    rw [filterMap_filter, slotEntries]
    apply filterMap_congr
    intro r _
    cases hr : s.slots r <;> rfl
  rw [hentries, ← hfilter]
  exact hages.filterMap s.slots

/-- Every set is in a valid state and has got only entries whose keys map to it. -/
structure Sound (cache : SetAssocCache K T) : Prop where
  aged : ∀ s ∈ cache.sets, ∃ l, Aged s l
  placed : ∀ (i : Nat) (s : SetAssocCacheSet K T), cache.sets[i]? = some s →
    ∀ e ∈ slotEntries s, cache.mapKeyToSet e.1 = some i

theorem Sound.keys_nodup {cache : SetAssocCache K T} (h : Sound cache) :
    ((entriesOf cache.sets).map Prod.fst).Nodup := by
  rw [entriesOf, map_flatMap, nodup_flatMap]
  constructor
  · intro s hs
    obtain ⟨l, hl⟩ := h.aged s hs
    have hperm := entries_perm hl
    obtain ⟨order, ages, hholds, -⟩ := hl
    exact (hperm.map Prod.fst).nodup_iff.mp (CacheRuns.keys_nodup hholds)
  · rw [pairwise_iff_getElem]
    intro i j hi hj hij k hk hk'
    obtain ⟨e, he, rfl⟩ := mem_map.mp hk
    obtain ⟨e', he', hkey⟩ := mem_map.mp hk'
    have hpi := h.placed i _ (getElem?_eq_getElem hi) e he
    have hpj := h.placed j _ (getElem?_eq_getElem hj) e' he'
    rw [hkey, hpi] at hpj
    exact absurd (Option.some.inj hpj) (ne_of_lt hij)

variable {es : List (K × T)}

section Preparation

/-- A set of some capacity, with all of its entries remaining to be redistributed. -/
def Prepared (q : ReconfigureSet K T) (es : List (K × T)) : Prop :=
  ∃ capacity, capacity ≤ 8 ∧ Aged q.set ⟨es, capacity⟩ ∧
    q.reconfigureState.remainingToRedistribute = es.length ∧
    q.reconfigureState.unoccupiedSlots + es.length = capacity

def Holding (s : SetAssocCacheSet K T) (es : List (K × T)) : Prop :=
  ∃ capacity, Aged s ⟨es, capacity⟩

variable (pr : Profile)

omit [LinearOrder K] in
theorem occupiedSlotsCount_ok {order : List (Fin 8)}
    (h : Packs s.orderedSlots order) : occupiedSlotsCount pr s = .ok order.length := by
  have hle := h.length_le
  have hzero (i : Nat) (hi : i < 8) : lane 4 s.orderedSlots i = 0#4 ↔ order.length ≤ i := by
    rw [h.lane_eq i hi]
    constructor
    · intro hnib
      exact List.getElem?_eq_none_iff.mp (nibble_injective _ none hnib)
    · intro hle'
      rw [List.getElem?_eq_none_iff.mpr hle']
      rfl
  obtain ⟨i, hfind, ⟨hlt, hi, hbelow⟩ | ⟨rfl, hnone⟩⟩ :=
    findLeastSignificantZeroNibble_spec pr s.orderedSlots
  · have hge := (hzero i hlt).mp hi
    have heq : i = order.length := by
      by_contra hne
      exact hbelow order.length (by omega) ((hzero _ (by omega)).mpr (le_refl _))
    rw [occupiedSlotsCount, hfind, heq]
  · have heq : order.length = 8 := by
      by_contra hne
      exact hnone order.length (by omega) ((hzero _ (by omega)).mpr (le_refl _))
    rw [occupiedSlotsCount, hfind, heq]

theorem resetReconfigureState_ok
    (h : Holding s es) : ∃ q, resetReconfigureState pr s = .ok q ∧ Prepared q es := by
  obtain ⟨capacity, hs⟩ := h
  have haged := hs
  have hlen := hs.length_le
  dsimp only at hlen
  obtain ⟨order, ages, hholds, -⟩ := hs
  have hcap := hholds.capacity_eq
  have hcap8 := hholds.shape.capacity_le
  dsimp only at hcap
  have hcount := occupiedSlotsCount_ok pr hholds.shape.ordered.packs
  rw [← length_eq_order hholds] at hcount
  refine ⟨⟨s, ⟨es.length, capacity - es.length, false⟩⟩, ?_, capacity, by omega, haged, rfl, ?_⟩
  · rw [resetReconfigureState, hcount, ok_bind, hcap, subU8_ok pr hlen (by omega)]
    rfl
  · dsimp only
    omega

theorem prepared_default :
    Prepared (ReconfigureSet.default : ReconfigureSet K T) [] :=
  ⟨0, Nat.zero_le 8, aged_default, rfl, rfl⟩

theorem growToMaxAssociativity_ok {q : ReconfigureSet K T}
    (h : Prepared q es) : ∃ q', growToMaxAssociativity pr q = .ok q' ∧
      ∀ (mapKeyToSet : K → Option Nat) (i : Nat), Settled mapKeyToSet i q' es := by
  obtain ⟨capacity, hle, haged, hrem, hun⟩ := h
  have hcap := haged.capacity_eq
  have hlen := haged.length_le
  dsimp only at hcap hlen
  rw [growToMaxAssociativity]
  by_cases h8 : q.set.capacity = maxAssociativity
  · rw [if_neg (not_not_intro h8)]
    obtain rfl : capacity = 8 := hcap.symm.trans h8
    refine ⟨q, rfl, fun mapKeyToSet i => ⟨haged, by omega, by omega, fun e he => ?_⟩⟩
    rw [hrem, Nat.sub_self, take_zero] at he
    cases he
  · rw [if_pos h8]
    rw [maxAssociativity] at h8 ⊢
    obtain ⟨order, ages, hs, hn⟩ := haged
    have hlt : q.set.capacity < 8 := by omega
    obtain ⟨s', hgrow, hs', hnested⟩ := growCapacity_refines pr hs hlt le_rfl
    rw [hgrow, ok_bind, subU8_ok pr (by omega) (by omega), ok_bind, addU8_ok pr (by omega)]
    refine ⟨_, rfl, fun mapKeyToSet i => ⟨⟨order, ages, hs', hnested hn⟩, ?_, ?_, fun e he => ?_⟩⟩
    · dsimp only
      omega
    · dsimp only
      omega
    · rw [hrem, Nat.sub_self, take_zero] at he
      cases he

end Preparation

section Lists

variable {α β γ : Type} {xs : List α}

omit [LinearOrder K] in
theorem mapM_forall₂ {f : α → Comp β} {R : α → γ → Prop} {Q : β → γ → Prop}
    (hf : ∀ a c, R a c → ∃ b, f a = .ok b ∧ Q b c) {cs : List γ}
    (h : List.Forall₂ R xs cs) : ∃ ys, xs.mapM f = .ok ys ∧ List.Forall₂ Q ys cs := by
  induction h with
  | nil => exact ⟨[], rfl, .nil⟩
  | cons hac hrest ih =>
    obtain ⟨b, hb, hq⟩ := hf _ _ hac
    obtain ⟨ys, hys, hqs⟩ := ih
    refine ⟨b :: ys, ?_, .cons hq hqs⟩
    rw [mapM_cons, hb, ok_bind, hys]
    rfl

variable {R : α → β → Prop}

theorem forall₂_getElem? {ys : List β} (h : List.Forall₂ R xs ys)
    {i : Nat} {x : α} {y : β} (hx : xs[i]? = some x) (hy : ys[i]? = some y) : R x y := by
  obtain ⟨hi, rfl⟩ := List.getElem?_eq_some_iff.mp hx
  obtain ⟨hi', rfl⟩ := List.getElem?_eq_some_iff.mp hy
  exact h.get hi hi'

theorem forall₂_replicate {x : α} {y : β} (h : R x y) (n : Nat) :
    List.Forall₂ R (replicate n x) (replicate n y) := by
  induction n with
  | zero => exact .nil
  | succ n ih => exact .cons h ih

theorem forall₂_append {xs xs' : List α} {ys ys' : List β}
    (h : List.Forall₂ R xs ys) (h' : List.Forall₂ R xs' ys') :
    List.Forall₂ R (xs ++ xs') (ys ++ ys') := by
  induction h with
  | nil => exact h'
  | cons hxy _ ih => exact .cons hxy ih

theorem exists_forall₂ (h : ∀ x ∈ xs, ∃ y, R x y) :
    ∃ ys, List.Forall₂ R xs ys := by
  induction xs with
  | nil => exact ⟨[], .nil⟩
  | cons x xs ih =>
    obtain ⟨y, hy⟩ := h x (by simp)
    obtain ⟨ys, hys⟩ := ih fun z hz => h z (by simp [hz])
    exact ⟨y :: ys, .cons hy hys⟩

end Lists

variable {bins : List (List (K × T))}

theorem entriesOf_perm {sets : List (SetAssocCacheSet K T)}
    (h : List.Forall₂ Holding sets bins) : bins.flatten.Perm (entriesOf sets) := by
  induction h with
  | nil => exact List.Perm.refl _
  | cons hs _ ih =>
    obtain ⟨capacity, hs⟩ := hs
    exact (entries_perm hs).append ih

section Capacities

variable (pr : Profile)

theorem setCapacities_ok (capacities : List Nat) (hmax : ∀ c ∈ capacities, c ≤ 8) (k : Nat)
    (sets : List (SetAssocCacheSet K T)) (hlen : k + capacities.length ≤ sets.length)
    (hsets : ∀ s ∈ sets, ∃ l, Aged s l) :
    ∃ sets', setCapacities pr k capacities sets = .ok sets' ∧ sets'.length = sets.length ∧
      (∀ j, j < k → sets'[j]? = sets[j]?) ∧
      ∀ (j c : Nat) (s : SetAssocCacheSet K T) (l : Lru K T), capacities[j]? = some c →
        sets[k + j]? = some s → Aged s l →
        ∃ s', sets'[k + j]? = some s' ∧ Aged s' ⟨l.entries.take c, c⟩ := by
  induction capacities generalizing k sets with
  | nil => exact ⟨sets, rfl, rfl, fun _ _ => rfl, fun j c s l hj => by cases hj⟩
  | cons c rest ih =>
    rw [length_cons] at hlen
    have hk : k < sets.length := by omega
    have hget := getElem?_eq_getElem hk
    obtain ⟨l, hl⟩ := hsets _ (getElem_mem hk)
    obtain ⟨s', hset, -⟩ := hl.setCapacity pr (hmax c (by simp))
    have hrest (s : SetAssocCacheSet K T) (hs : s ∈ sets.set k s') : ∃ l, Aged s l := by
      rcases mem_or_eq_of_mem_set hs with hs | rfl
      · exact hsets s hs
      · obtain ⟨s'', hset', hs'⟩ := hl.setCapacity pr (hmax c (by simp))
        cases hset.symm.trans hset'
        exact ⟨_, hs'⟩
    obtain ⟨sets', hok, hlen', hbelow, hall⟩ := ih (fun c' hc' => hmax c' (by simp [hc'])) (k + 1)
      (sets.set k s') (by rw [length_set]; omega) hrest
    rw [length_set] at hlen'
    refine ⟨sets', ?_, hlen', fun j hj => ?_, fun j c' s l' hj hs hl' => ?_⟩
    · rw [setCapacities, index_ok hget, ok_bind, hset, ok_bind, setAt_ok hget, ok_bind]
      exact hok
    · rw [hbelow j (by omega), getElem?_set_ne (by omega)]
    · cases j with
      | zero =>
        cases hj
        rw [add_zero] at hs ⊢
        cases hget.symm.trans hs
        obtain ⟨s'', hset', hs'⟩ := hl'.setCapacity pr (hmax c (by simp))
        cases hset.symm.trans hset'
        refine ⟨s', ?_, hs'⟩
        rw [hbelow k (by omega), getElem?_set_self hk]
      | succ j =>
        rw [show k + (j + 1) = k + 1 + j by omega] at hs ⊢
        apply hall j c' s l' hj ?_ hl'
        rw [getElem?_set_ne (by omega)]
        exact hs

end Capacities

section Results

variable {pr : Profile} {mapKeyToSet : K → Option Nat} {cache : SetAssocCache K T}
  {capacities : List Nat}

theorem exists_prepared (pr : Profile) (h : Sound cache) (n : Nat) :
    ∃ (qs : List (ReconfigureSet K T)) (bins : List (List (K × T)))
      (sets : List (ReconfigureSet K T)), cache.sets.mapM (resetReconfigureState pr) = .ok qs ∧
      qs.length = cache.sets.length ∧ List.Forall₂ Holding cache.sets bins ∧
      (qs ++ replicate (n - qs.length) ReconfigureSet.default).mapM
        (growToMaxAssociativity pr) = .ok sets ∧
      sets.length = cache.sets.length + (n - cache.sets.length) ∧
      ∀ mapKeyToSet : K → Option Nat, Redistributing mapKeyToSet (entriesOf cache.sets) sets
        (bins ++ replicate (n - cache.sets.length) []) [] := by
  obtain ⟨bins, hbins⟩ : ∃ bins, List.Forall₂ Holding cache.sets bins := by
    apply exists_forall₂
    intro s hs
    obtain ⟨l, hl⟩ := h.aged s hs
    exact ⟨l.entries, l.capacity, hl⟩
  obtain ⟨qs, hqs, hprepared⟩ := mapM_forall₂ (fun s es => resetReconfigureState_ok pr) hbins
  have hlen : qs.length = cache.sets.length := hprepared.length_eq.trans hbins.length_eq.symm
  obtain ⟨sets, hsets, hsettled⟩ := mapM_forall₂ (fun q es => growToMaxAssociativity_ok pr)
    (forall₂_append hprepared (forall₂_replicate prepared_default (n - qs.length)))
  refine ⟨qs, bins, sets, hqs, hlen, hbins, hsets, ?_, fun mapKeyToSet => ⟨?_, ?_, ?_⟩⟩
  · rw [hsettled.length_eq, length_append, length_replicate, ← hprepared.length_eq, hlen]
  · rw [hsettled.length_eq, hlen]
  · intro i q es hq hes
    rw [← hlen] at hes
    exact forall₂_getElem? hsettled hq hes mapKeyToSet i
  · rw [append_nil, flatten_append, flatten_replicate_nil, append_nil]
    exact (entriesOf_perm hbins).subperm

omit [LinearOrder K] in
theorem zipWith_take_sublist (bins : List (List (K × T))) (capacities : List Nat) :
    (zipWith (fun es c => es.take c) bins capacities).flatten.Sublist bins.flatten := by
  induction bins generalizing capacities with
  | nil => rw [zipWith_nil_left]
  | cons es bins ih =>
    cases capacities with
    | nil =>
      rw [zipWith_nil_right]
      exact nil_sublist _
    | cons c capacities =>
      rw [zipWith_cons_cons, flatten_cons, flatten_cons]
      exact (take_sublist c es).append (ih capacities)

variable {sets : List (ReconfigureSet K T)} {before : List (K × T)} {i : Nat}

theorem placed_of_remaining (h : Redistributing mapKeyToSet before sets bins [])
    (hrem : ∀ q ∈ sets, q.reconfigureState.remainingToRedistribute = 0)
    (hes : bins[i]? = some es) : ∀ e ∈ es, mapKeyToSet e.1 = some i := by
  have hi := (List.getElem?_eq_some_iff.mp hes).1
  rw [h.length_eq] at hi
  obtain ⟨q, es', hq, hes', hs⟩ := h.exists_bin hi
  cases hes.symm.trans hes'
  have hplaced := hs.placed
  rw [hrem q (mem_of_getElem? hq), Nat.sub_zero, take_length] at hplaced
  exact hplaced

theorem setCapacities_result (pr : Profile) (h : Redistributing mapKeyToSet before sets bins [])
    (hmax : ∀ c ∈ capacities, c ≤ 8) (hlen : capacities.length ≤ sets.length) :
    ∃ sets', setCapacities pr 0 capacities (sets.map ReconfigureSet.set) = .ok sets' ∧
      (sets'.take capacities.length).length = capacities.length ∧
      ∀ (i c : Nat) (es : List (K × T)), capacities[i]? = some c → bins[i]? = some es →
        ∃ s, (sets'.take capacities.length)[i]? = some s ∧ Aged s ⟨es.take c, c⟩ := by
  have haged : ∀ s ∈ sets.map ReconfigureSet.set, ∃ l, Aged s l := by
    intro s hs
    obtain ⟨q, hq, rfl⟩ := mem_map.mp hs
    obtain ⟨i, hi, rfl⟩ := mem_iff_getElem.mp hq
    obtain ⟨q', es, hq', -, hs⟩ := h.exists_bin hi
    cases (getElem?_eq_getElem hi).symm.trans hq'
    exact ⟨_, hs.aged⟩
  obtain ⟨sets', hok, hlen', -, hall⟩ := setCapacities_ok pr capacities hmax 0
    (sets.map ReconfigureSet.set) (by rw [zero_add, length_map]; exact hlen) haged
  rw [length_map] at hlen'
  refine ⟨sets', hok, by rw [length_take]; omega, fun i c es hc hes => ?_⟩
  have hi := (List.getElem?_eq_some_iff.mp hc).1
  obtain ⟨q, es', hq, hes', hs⟩ := h.exists_bin (show i < sets.length by omega)
  cases hes.symm.trans hes'
  obtain ⟨s, hget, hs'⟩ := hall i c q.set ⟨es, 8⟩ hc (by
    rw [zero_add, getElem?_map, hq]
    rfl) hs.aged
  rw [zero_add] at hget
  exact ⟨s, by rw [getElem?_take_of_lt hi, hget], hs'⟩

/-- At first, the sets have got room for all entries that are mapped to them. -/
theorem keeping_initial
    (hbins : List.Forall₂ Holding cache.sets bins) (hmax : ∀ c ∈ capacities, c ≤ 8)
    (hcounts : ∀ (i c : Nat), capacities[i]? = some c → (entriesOf cache.sets).countP
      (fun e => decide (mapKeyToSet e.1 = some i)) ≤ c)
    (hroom : ∀ (i : Nat) (s : SetAssocCacheSet K T), cache.sets[i]? = some s →
      (slotEntries s).countP (fun e => !decide (mapKeyToSet e.1 = some i)) +
        (entriesOf cache.sets).countP (fun e => decide (mapKeyToSet e.1 = some i)) ≤ 8) :
    Keeping mapKeyToSet (entriesOf cache.sets)
      (bins ++ replicate (capacities.length - cache.sets.length) []) [] where
  room := by
    intro i es hes
    by_cases hi : i < bins.length
    · rw [getElem?_append_left hi] at hes
      have hs := getElem?_eq_getElem (hbins.length_eq.symm ▸ hi)
      obtain ⟨c, haged⟩ := forall₂_getElem? hbins hs hes
      have hcount := hroom i _ hs
      rwa [← (entries_perm haged).countP_eq] at hcount
    · rw [getElem?_append_right (by omega), getElem?_replicate] at hes
      split at hes
      · cases hes
        have hlen := hbins.length_eq
        have hc := getElem?_eq_getElem (show i < capacities.length by omega)
        have hcount := hcounts i _ hc
        have hle := hmax _ (mem_of_getElem? hc)
        rw [countP_nil]
        omega
      · cases hes
  kept := by
    intro e he _
    rw [append_nil, flatten_append, flatten_replicate_nil, append_nil]
    exact (entriesOf_perm hbins).symm.subset he

structure Result (mapKeyToSet : K → Option Nat) (capacities : List Nat)
    (before after : SetAssocCache K T) : Prop where
  sound : Sound after
  mapKeyToSet_eq : after.mapKeyToSet = mapKeyToSet
  capacities_eq : after.sets.map SetAssocCacheSet.capacity = capacities
  subperm : (entriesOf after.sets).Subperm (entriesOf before.sets)
  keys_nodup : ((entriesOf after.sets).map Prod.fst).Nodup

/-- The state when nothing remains and the sets have got their new capacities. -/
structure Finished (mapKeyToSet : K → Option Nat) (capacities : List Nat) (before : List (K × T))
    (sets : List (ReconfigureSet K T)) (bins : List (List (K × T))) (cache : SetAssocCache K T) :
    Prop where
  redistributing : Redistributing mapKeyToSet before sets bins []
  remaining : ∀ q ∈ sets, q.reconfigureState.remainingToRedistribute = 0
  map_eq : cache.mapKeyToSet = mapKeyToSet
  length_le : capacities.length ≤ sets.length
  length_eq : cache.sets.length = capacities.length
  aged : ∀ (i c : Nat) (es : List (K × T)), capacities[i]? = some c → bins[i]? = some es →
    ∃ s, cache.sets[i]? = some s ∧ Aged s ⟨es.take c, c⟩

section Finished

variable {before : List (K × T)} {sets : List (ReconfigureSet K T)} {bins : List (List (K × T))}

section

variable (h : Finished mapKeyToSet capacities before sets bins cache)
include h

theorem Finished.exists_set
    (hi : i < capacities.length) : ∃ c es s, capacities[i]? = some c ∧ bins[i]? = some es ∧
      cache.sets[i]? = some s ∧ Aged s ⟨es.take c, c⟩ := by
  have hlen := h.length_le
  have hbins := h.redistributing.length_eq
  have hc := getElem?_eq_getElem hi
  have hes := getElem?_eq_getElem (show i < bins.length by omega)
  obtain ⟨s, hs, haged⟩ := h.aged i _ _ hc hes
  exact ⟨_, _, s, hc, hes, hs, haged⟩

theorem Finished.of_getElem? (hs : cache.sets[i]? = some s) : ∃ c es, capacities[i]? = some c ∧
      bins[i]? = some es ∧ Aged s ⟨es.take c, c⟩ := by
  have hi := (List.getElem?_eq_some_iff.mp hs).1
  obtain ⟨c, es, s₁, hc, hes, hs₁, haged⟩ := h.exists_set (h.length_eq ▸ hi)
  cases hs.symm.trans hs₁
  exact ⟨c, es, hc, hes, haged⟩

theorem Finished.sound :
    Sound cache where
  aged := by
    intro s hs
    obtain ⟨i, hi⟩ := mem_iff_getElem?.mp hs
    obtain ⟨c, es, -, -, haged⟩ := h.of_getElem? hi
    exact ⟨_, haged⟩
  placed := by
    intro i s hs e he
    obtain ⟨c, es, -, hes, haged⟩ := h.of_getElem? hs
    rw [h.map_eq]
    exact placed_of_remaining h.redistributing h.remaining hes e
      (mem_of_mem_take ((entries_perm haged).symm.subset he))

theorem Finished.capacities_eq :
    cache.sets.map SetAssocCacheSet.capacity = capacities := by
  have hlen := h.length_eq
  apply ext_getElem?
  intro i
  rw [getElem?_map]
  by_cases hi : i < capacities.length
  · obtain ⟨c, es, s, hc, -, hs, haged⟩ := h.exists_set hi
    rw [hs, hc]
    exact congrArg some haged.capacity_eq
  · rw [List.getElem?_eq_none_iff.mpr (show cache.sets.length ≤ i by omega),
      List.getElem?_eq_none_iff.mpr (show capacities.length ≤ i by omega)]
    rfl

theorem Finished.subperm :
    (entriesOf cache.sets).Subperm before := by
  have hlen := h.length_le
  have hlen' := h.length_eq
  have hbins := h.redistributing.length_eq
  have hfinal : List.Forall₂ Holding cache.sets
      (zipWith (fun es c => es.take c) bins capacities) := by
    rw [forall₂_iff_get]
    refine ⟨by rw [length_zipWith]; omega, fun i hi hi' => ?_⟩
    obtain ⟨c, es, hc, hes, haged⟩ := h.of_getElem? (getElem?_eq_getElem hi)
    refine ⟨c, ?_⟩
    rw [get_eq_getElem, get_eq_getElem, getElem_zipWith]
    obtain ⟨_, rfl⟩ := List.getElem?_eq_some_iff.mp hc
    obtain ⟨_, rfl⟩ := List.getElem?_eq_some_iff.mp hes
    exact haged
  have hsub := h.redistributing.subperm
  rw [append_nil] at hsub
  exact ((entriesOf_perm hfinal).symm.subperm.trans
    (zipWith_take_sublist bins capacities).subperm).trans hsub

end

theorem Finished.result {cache' : SetAssocCache K T}
    (h : Finished mapKeyToSet capacities (entriesOf cache.sets) sets bins cache') :
    Result mapKeyToSet capacities cache cache' :=
  ⟨h.sound, h.map_eq, h.capacities_eq, h.subperm, h.sound.keys_nodup⟩

theorem Finished.kept (h : Finished mapKeyToSet capacities before sets bins cache)
    (hmap : ∀ k i, mapKeyToSet k = some i → i < capacities.length)
    (hkeep : Keeping mapKeyToSet before bins [])
    (hcounts : ∀ (i c : Nat), capacities[i]? = some c →
      before.countP (fun e => decide (mapKeyToSet e.1 = some i)) ≤ c) :
    ∀ e ∈ before, (mapKeyToSet e.1).isSome = true → e ∈ entriesOf cache.sets := by
  intro e he hsome
  have hkept := hkeep.kept e he hsome
  rw [append_nil] at hkept
  obtain ⟨es, hes, hmem⟩ := mem_flatten.mp hkept
  obtain ⟨i, hi⟩ := mem_iff_getElem?.mp hes
  have hall := placed_of_remaining h.redistributing h.remaining hi
  obtain ⟨c, es', s, hc, hes', hs, haged⟩ := h.exists_set (hmap e.1 i (hall e hmem))
  cases hi.symm.trans hes'
  have hlen : es.length ≤ c := by
    have hcount : es.countP (fun e => decide (mapKeyToSet e.1 = some i)) = es.length :=
      countP_eq_length.mpr fun x hx => decide_eq_true (hall x hx)
    have hsub := h.redistributing.subperm.countP_le (fun e => decide (mapKeyToSet e.1 = some i))
    rw [append_nil, (flatten_perm hi).countP_eq, countP_append] at hsub
    have := hcounts i c hc
    omega
  rw [take_of_length_le hlen] at haged
  exact mem_flatMap.mpr ⟨s, mem_of_getElem? hs, (entries_perm haged).subset hmem⟩

end Finished

variable (pr)

theorem reconfigure_finished (h : Sound cache) (hne : capacities ≠ [])
    (hmax : ∀ c ∈ capacities, c ≤ 8)
    (hmap : ∀ k i, mapKeyToSet k = some i → i < capacities.length) (enough : Bool) :
    (cache.sets.length < capacities.length ∧ enough = false ∧
      reconfigure pr mapKeyToSet enough cache capacities =
        .ok (cache, .error .memoryAllocationFailure)) ∨
    ∃ cache' sets bins bins₀, reconfigure pr mapKeyToSet enough cache capacities =
        .ok (cache', .ok ()) ∧
      Finished mapKeyToSet capacities (entriesOf cache.sets) sets bins cache' ∧
      List.Forall₂ Holding cache.sets bins₀ ∧
      (Keeping mapKeyToSet (entriesOf cache.sets)
        (bins₀ ++ replicate (capacities.length - cache.sets.length) []) [] →
        Keeping mapKeyToSet (entriesOf cache.sets) bins []) := by
  obtain ⟨qs, bins₀, sets₀, hreset, hqs, hholding, hgrow, hlen₀, hred₀⟩ :=
    exists_prepared pr h capacities.length
  have hpos : 0 < capacities.length := length_pos_iff.mpr hne
  rw [reconfigure, hreset, ok_bind]
  dsimp only
  by_cases hmem : qs.length < capacities.length ∧ enough = false
  · rw [if_pos hmem]
    exact .inl ⟨hqs ▸ hmem.1, hmem.2, rfl⟩
  · rw [if_neg hmem, hgrow, ok_bind]
    obtain ⟨sets, bins, hok, hred, hkeep, hlen, hrem⟩ := redistribute_ok h.keys_nodup
      (fun k i hk => by have := hmap k i hk; omega) (totalRemaining sets₀ + 1) 0
      (hred₀ mapKeyToSet) (by omega) (Nat.lt_succ_self _)
    have hle : capacities.length ≤ sets.length := by omega
    obtain ⟨sets', hset, hlen', hget⟩ := setCapacities_result pr hred hmax hle
    refine .inr ⟨⟨sets'.take capacities.length, mapKeyToSet⟩, sets, bins, bins₀, ?_,
      ⟨hred, hrem, rfl, hle, hlen', hget⟩, hholding, hkeep⟩
    rw [hok, ok_bind, hset, ok_bind]
    rfl

end Results

section Losses

def fullSet (offset : Nat) : SetAssocCacheSet Nat Nat :=
  ⟨0x7f3f1f0f07030100#64, fun r => some (2 * r.val + offset, r.val), 0x87654321#32, 8⟩

theorem aged_fullSet (offset : Nat) : ∃ l, Aged (fullSet offset) l := by
  have hsome (r : Fin 8) : ((fullSet offset).slots r).isSome = true := rfl
  have horder : ∀ (i : Nat) (a : Fin 8), (finRange 8)[i]? = some a → i = a.val := by
    intro i a ha
    obtain ⟨hi, rfl⟩ := List.getElem?_eq_some_iff.mp ha
    rw [getElem_finRange]
    rfl
  have hpacks : Packs 0x87654321#32 (finRange 8) := ⟨by decide, by decide⟩
  refine ⟨⟨(finRange 8).reverse.map fun r => (2 * r.val + offset, r.val), 8⟩, finRange 8,
    (finRange 8).reverse, ⟨⟨⟨hpacks, ?_, ?_⟩, le_rfl, ?_, ?_, ?_, ?_, ?_⟩,
      ⟨?_, ?_, ?_⟩, ?_, rfl⟩, ?_⟩
  · intro r
    exact ⟨fun _ => hsome r, fun _ => mem_finRange r⟩
  · intro i j a b x y hij ha hb hx hy
    cases hx
    cases hy
    have hia := horder i a ha
    have hjb := horder j b hb
    omega
  · intro r _
    exact r.isLt
  · intro r _ hr
    cases hr
  · intro r hr
    exact absurd r.isLt (not_lt.mpr hr)
  · intro r _
    have hclear : ∀ r : Fin 8, (row 0x7f3f1f0f07030100#64 r).getLsbD r = false := by decide
    exact hclear r
  · intro r c _ hc
    exact absurd c.isLt (not_lt.mpr hc)
  · intro r
    exact ⟨fun _ => hsome r, fun _ => mem_reverse.mpr (mem_finRange r)⟩
  · exact nodup_reverse.mpr (nodup_finRange 8)
  · have hbits : ((finRange 8).reverse).Pairwise fun (a b : Fin 8) =>
        (row 0x7f3f1f0f07030100#64 a).getLsbD b = true ∧
          (row 0x7f3f1f0f07030100#64 b).getLsbD a = false := by decide
    exact hbits
  · rw [List.map_map]
    rfl
  · intro a b _ _
    have hnested : ∀ a b : Fin 8, (row 0x7f3f1f0f07030100#64 a).getLsbD b = true → ∀ c : Fin 8,
        (row 0x7f3f1f0f07030100#64 b).getLsbD c = true →
        (row 0x7f3f1f0f07030100#64 a).getLsbD c = true := by decide
    exact hnested a b

def parity (k : Nat) : Option Nat := some (k % 2)

/-- The even keys are in the one set and the odd ones are in the other. -/
def twoFullSets : SetAssocCache Nat Nat := ⟨[fullSet 0, fullSet 1], parity⟩

def swapped (k : Nat) : Option Nat := some (if k = 0 then 1 else if k = 15 then 0 else k % 2)

theorem sound_twoFullSets : Sound twoFullSets where
  aged := by
    intro s hs
    rcases mem_cons.mp hs with rfl | hs
    · exact aged_fullSet 0
    · obtain rfl := mem_singleton.mp hs
      exact aged_fullSet 1
  placed := by
    intro i s hs e he
    obtain ⟨r, hr⟩ := mem_slotEntries.mp he
    match i, hs with
    | 0, rfl =>
      cases hr
      change some ((2 * r.val + 0) % 2) = some 0
      congr 1
      omega
    | 1, rfl =>
      cases hr
      change some ((2 * r.val + 1) % 2) = some 1
      congr 1
      omega

theorem reconfigure_twoFullSets_lost (pr : Profile) :
    (match reconfigure pr swapped true twoFullSets [8, 8] with
    | .ok (cache', .ok ()) => decide ((0, 0) ∉ entriesOf cache'.sets)
    | _ => false) = true := by
  cases pr <;> decide +kernel

end Losses

end CocoonFs.CacheReconfigured
