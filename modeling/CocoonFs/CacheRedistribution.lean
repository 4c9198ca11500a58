import CocoonFs.CacheReconfigure

namespace CocoonFs.CacheRedistribution

open Checked CacheSet CacheRows CacheOrder CacheLru CacheAges CacheSetSteps CacheOrderedCursor List
  CacheReconfigure
open Option (map_none toList_none)
open CacheReconfigure (clearVisited)
open List (append_nil)
open Prod (fst)

section Lists

variable {α : Type} {xss : List (List α)} {xs : List α} {i : Nat}

theorem flatten_perm (h : xss[i]? = some xs) : xss.flatten.Perm (xs ++ (xss.eraseIdx i).flatten) := by
  obtain ⟨hlt, rfl⟩ := List.getElem?_eq_some_iff.mp h
  have hsplit : xss = xss.take i ++ xss[i] :: xss.drop (i + 1) := by
    rw [← drop_eq_getElem_cons hlt, take_append_drop]
  rw [eraseIdx_eq_take_drop_succ, flatten_append]
  conv_lhs => rw [hsplit, flatten_append, flatten_cons]
  exact perm_append_comm_assoc _ _ _

theorem flatten_set_perm (h : xss[i]? = some xs) (ys : List α) :
    (xss.set i ys).flatten.Perm (ys ++ (xss.eraseIdx i).flatten) := by
  have hlt := (List.getElem?_eq_some_iff.mp h).1
  have hperm := flatten_perm (getElem?_set_self (a := ys) hlt)
  rwa [eraseIdx_set_eq] at hperm

theorem sum_set (ns : List Nat) {n m : Nat} (h : ns[i]? = some n) :
    (ns.set i m).sum + n = ns.sum + m := by
  induction ns generalizing i with
  | nil => cases h
  | cons k ns ih =>
    cases i with
    | zero =>
      cases h
      rw [set_cons_zero, sum_cons, sum_cons]
      omega
    | succ i =>
      have hrest := ih h
      rw [set_cons_succ, sum_cons, sum_cons]
      omega

end Lists

variable {K T : Type} [LinearOrder K] {pr : Profile} {mapKeyToSet : K → Option Nat}

/-- The most recent entries of the set have been redistributed into it already. -/
structure Settled (mapKeyToSet : K → Option Nat) (i : Nat) (q : ReconfigureSet K T)
    (es : List (K × T)) : Prop where
  aged : Aged q.set ⟨es, 8⟩
  unoccupied : q.reconfigureState.unoccupiedSlots + es.length = 8
  remaining_le : q.reconfigureState.remainingToRedistribute ≤ es.length
  placed : ∀ e ∈ es.take (es.length - q.reconfigureState.remainingToRedistribute),
    mapKeyToSet e.1 = some i

section Settling

variable {i : Nat} {q : ReconfigureSet K T} {es : List (K × T)} {e : K × T}

omit [LinearOrder K] in
theorem placed_cons {ys : List (K × T)} {n m k : Nat} (he : mapKeyToSet e.1 = some i)
    (hes : ∀ x ∈ es.take n, mapKeyToSet x.1 = some i) (hk : k ≤ m + 1)
    (hsub : ys.take m ⊆ es.take n) : ∀ x ∈ (e :: ys).take k, mapKeyToSet x.1 = some i := by
  intro x hx
  have hx := take_subset_take_left _ hk hx
  rw [take_succ_cons, mem_cons] at hx
  rcases hx with rfl | hx
  · exact he
  · exact hes x (hsub hx)

variable {s' : SetAssocCacheSet K T}

section

variable (h : Settled mapKeyToSet i q (es ++ [e]))
  (hrem : q.reconfigureState.remainingToRedistribute ≠ 0)
include h hrem

theorem Settled.pop (hs' : Aged s' ⟨es, 8⟩) (v : Bool) :
    Settled mapKeyToSet i ⟨s', ⟨q.reconfigureState.remainingToRedistribute - 1,
      q.reconfigureState.unoccupiedSlots + 1, v⟩⟩ es := by
  have hun := h.unoccupied
  have hle := h.remaining_le
  have hplaced := h.placed
  rw [length_append, length_singleton] at hun hle hplaced
  refine ⟨hs', ?_, ?_, ?_⟩
  · dsimp only
    omega
  · dsimp only
    omega
  · dsimp only
    intro x hx
    apply hplaced x
    rw [take_append_of_le_length (by omega)]
    exact take_subset_take_left _ (by omega) hx

theorem Settled.refresh (he : mapKeyToSet e.1 = some i)
    (hs' : Aged s' ⟨e :: es, 8⟩) : Settled mapKeyToSet i ⟨s', { q.reconfigureState with
      remainingToRedistribute := q.reconfigureState.remainingToRedistribute - 1 }⟩ (e :: es) := by
  have hun := h.unoccupied
  have hle := h.remaining_le
  have hplaced := h.placed
  rw [length_append, length_singleton] at hun hle hplaced
  refine ⟨hs', ?_, ?_, ?_⟩
  · omega
  · dsimp only [length_cons]
    omega
  · refine placed_cons (m := es.length + 1 - q.reconfigureState.remainingToRedistribute) he hplaced ?_ ?_
    · dsimp only [length_cons]
      omega
    · rw [take_append_of_le_length (by omega)]
      exact List.Subset.refl _

end

theorem Settled.push (h : Settled mapKeyToSet i q es)
    (hun : q.reconfigureState.unoccupiedSlots ≠ 0) (he : mapKeyToSet e.1 = some i)
    (hs' : Aged s' ⟨e :: es, 8⟩) : Settled mapKeyToSet i ⟨s', { q.reconfigureState with
      unoccupiedSlots := q.reconfigureState.unoccupiedSlots - 1 }⟩ (e :: es) := by
  have hun' := h.unoccupied
  have hle := h.remaining_le
  refine ⟨hs', ?_, ?_, ?_⟩
  · dsimp only [length_cons]
    omega
  · dsimp only [length_cons]
    omega
  · refine placed_cons he h.placed ?_ (List.Subset.refl _)
    dsimp only [length_cons]
    omega

omit [LinearOrder K] in
theorem take_dropLast_subset (n : Nat) : es.dropLast.take n ⊆ es.take n := by
  rw [dropLast_eq_take, take_take]
  exact take_subset_take_left _ (min_le_left _ _)

section

variable (h : Settled mapKeyToSet i q es) (hun : q.reconfigureState.unoccupiedSlots = 0)
include h hun

theorem Settled.pushFull (he : mapKeyToSet e.1 = some i)
    (hs' : Aged s' ⟨e :: es.dropLast, 8⟩) : Settled mapKeyToSet i
      ⟨s', ⟨q.reconfigureState.remainingToRedistribute - 1, q.reconfigureState.unoccupiedSlots,
        true⟩⟩ (e :: es.dropLast) := by
  have hun' := h.unoccupied
  have hle := h.remaining_le
  refine ⟨hs', ?_, ?_, ?_⟩
  · dsimp only [length_cons]
    rw [length_dropLast]
    omega
  · dsimp only [length_cons]
    rw [length_dropLast]
    omega
  · refine placed_cons he h.placed ?_ (take_dropLast_subset _)
    dsimp only [length_cons]
    rw [length_dropLast]
    omega

theorem Settled.replaceLast
    (hrem : q.reconfigureState.remainingToRedistribute = 0) (he : mapKeyToSet e.1 = some i)
    (hs' : Aged s' ⟨e :: es.dropLast, 8⟩) :
    Settled mapKeyToSet i { q with set := s' } (e :: es.dropLast) := by
  have hun' := h.unoccupied
  refine ⟨hs', ?_, ?_, ?_⟩
  · dsimp only [length_cons]
    rw [length_dropLast]
    omega
  · dsimp only [length_cons]
    omega
  · refine placed_cons he h.placed ?_ (take_dropLast_subset _)
    dsimp only [length_cons]
    rw [length_dropLast]
    omega

theorem Settled.replaceAged
    (hlt : q.reconfigureState.remainingToRedistribute < 8) (he : mapKeyToSet e.1 = some i)
    (hs' : Aged s' ⟨e :: es.eraseIdx (7 - q.reconfigureState.remainingToRedistribute), 8⟩) :
    Settled mapKeyToSet i { q with set := s' }
      (e :: es.eraseIdx (7 - q.reconfigureState.remainingToRedistribute)) := by
  have hun' := h.unoccupied
  have hlen : (es.eraseIdx (7 - q.reconfigureState.remainingToRedistribute)).length = 7 := by
    rw [length_eraseIdx_of_lt (by omega)]
    omega
  refine ⟨hs', ?_, ?_, ?_⟩
  · dsimp only [length_cons]
    omega
  · dsimp only [length_cons]
    omega
  · refine placed_cons (m := 7 - q.reconfigureState.remainingToRedistribute) he h.placed ?_ ?_
    · dsimp only [length_cons]
      omega
    · rw [take_eraseIdx_eq_take_of_le _ _ _ (le_refl _)]
      exact take_subset_take_left _ (by omega)

end

variable (pr)

theorem evictRedistributed_ok (h : Settled mapKeyToSet i q es)
    (hun : q.reconfigureState.unoccupiedSlots = 0)
    (hlt : q.reconfigureState.remainingToRedistribute < 8) (he : mapKeyToSet e.1 = some i)
    (hkey : ∀ x ∈ es, x.1 ≠ e.1) :
    ∃ s', evictRedistributed pr q e = .ok s' ∧ Settled mapKeyToSet i { q with set := s' }
      (e :: es.eraseIdx (7 - q.reconfigureState.remainingToRedistribute)) := by
  have hun' := h.unoccupied
  have hcap := h.aged.capacity_eq
  dsimp only at hcap
  obtain ⟨slot, s₁, hslot, hremove, hs₁⟩ := h.aged.removeWithAge pr (by omega)
    (show 7 - q.reconfigureState.remainingToRedistribute < 8 by omega)
  obtain ⟨s', slot', hinsert, hs'⟩ := hs₁.insert pr
    (fun x hx => hkey x (mem_of_mem_eraseIdx hx))
  have hlen : (es.eraseIdx (7 - q.reconfigureState.remainingToRedistribute)).length < 8 := by
    rw [length_eraseIdx_of_lt (by omega)]
    omega
  rw [if_pos hlen] at hs'
  refine ⟨s', ?_, h.replaceAged hun hlt he hs'⟩
  rw [evictRedistributed, hcap, debugAssert_ok pr hlt, ok_bind, subU8_ok pr (by omega) (by omega),
    ok_bind, subU8_ok pr (by omega) (by omega), ok_bind,
    show 8 - q.reconfigureState.remainingToRedistribute - 1 =
      7 - q.reconfigureState.remainingToRedistribute by omega, hslot, ok_bind, unwrap, ok_bind,
    hremove, ok_bind]
  dsimp only
  rw [hinsert]
  rfl

end Settling

/-- The entries in the sets and the one being moved are from the cache as it was before. -/
structure Redistributing (mapKeyToSet : K → Option Nat) (before : List (K × T))
    (sets : List (ReconfigureSet K T)) (bins : List (List (K × T))) (moving : List (K × T)) :
    Prop where
  length_eq : bins.length = sets.length
  settled : ∀ (i : Nat) (q : ReconfigureSet K T) (es : List (K × T)), sets[i]? = some q →
    bins[i]? = some es → Settled mapKeyToSet i q es
  subperm : (bins.flatten ++ moving).Subperm before

/-- No entry gets lost: the entries that have to leave a set and all those it has to get
fit into it together. -/
structure Keeping (mapKeyToSet : K → Option Nat) (before : List (K × T))
    (bins : List (List (K × T))) (moving : List (K × T)) : Prop where
  room : ∀ (i : Nat) (es : List (K × T)), bins[i]? = some es →
    es.countP (fun e => !decide (mapKeyToSet e.1 = some i)) +
      before.countP (fun e => decide (mapKeyToSet e.1 = some i)) ≤ 8
  kept : ∀ e ∈ before, (mapKeyToSet e.1).isSome = true → e ∈ bins.flatten ++ moving

section Invariants

variable {before : List (K × T)} {sets : List (ReconfigureSet K T)} {bins : List (List (K × T))}
  {moving moving' : List (K × T)} {i : Nat} {q q' : ReconfigureSet K T} {es es' : List (K × T)}

theorem Redistributing.exists_bin (h : Redistributing mapKeyToSet before sets bins moving)
    (hi : i < sets.length) : ∃ q es, sets[i]? = some q ∧ bins[i]? = some es ∧
      Settled mapKeyToSet i q es := by
  have hq := getElem?_eq_getElem hi
  have hes := getElem?_eq_getElem (h.length_eq.symm ▸ hi)
  exact ⟨_, _, hq, hes, h.settled i _ _ hq hes⟩

theorem Redistributing.set (h : Redistributing mapKeyToSet before sets bins moving)
    (hes : bins[i]? = some es) (hq' : Settled mapKeyToSet i q' es')
    (hsub : (es' ++ moving').Subperm (es ++ moving)) :
    Redistributing mapKeyToSet before (sets.set i q') (bins.set i es') moving' where
  length_eq := by rw [length_set, length_set, h.length_eq]
  settled := by
    intro j r fs hr hfs
    have hlt := (List.getElem?_eq_some_iff.mp hes).1
    by_cases hij : i = j
    · subst hij
      rw [getElem?_set_self (h.length_eq ▸ hlt)] at hr
      rw [getElem?_set_self hlt] at hfs
      rwa [← Option.some.inj hr, ← Option.some.inj hfs]
    · rw [getElem?_set_ne hij] at hr hfs
      exact h.settled j r fs hr hfs
  subperm := by
    have hcomm (xs ys zs : List (K × T)) : (xs ++ ys ++ zs).Perm (ys ++ (xs ++ zs)) := by
      rw [append_assoc]
      exact perm_append_comm_assoc _ _ _
    have hnew := ((flatten_set_perm hes es').append_right moving').trans (hcomm _ _ _)
    have hold := ((flatten_perm hes).append_right moving).trans (hcomm _ _ _)
    exact (hnew.subperm.trans ((subperm_append_left _).mpr hsub)).trans
      (hold.symm.subperm.trans h.subperm)

omit [LinearOrder K] in
theorem Keeping.set (h : Keeping mapKeyToSet before bins moving) (hes : bins[i]? = some es)
    (hroom : es'.countP (fun e => !decide (mapKeyToSet e.1 = some i)) ≤
      es.countP (fun e => !decide (mapKeyToSet e.1 = some i)))
    (hkept : ∀ e ∈ es ++ moving, (mapKeyToSet e.1).isSome = true → e ∈ es' ++ moving') :
    Keeping mapKeyToSet before (bins.set i es') moving' where
  room := by
    intro j fs hfs
    have hlt := (List.getElem?_eq_some_iff.mp hes).1
    by_cases hij : i = j
    · subst hij
      rw [getElem?_set_self hlt] at hfs
      cases hfs
      exact (Nat.add_le_add_right hroom _).trans (h.room i es hes)
    · rw [getElem?_set_ne hij] at hfs
      exact h.room j fs hfs
  kept := by
    intro e he hsome
    have hmem := h.kept e he hsome
    rw [mem_append, (flatten_perm hes).mem_iff, mem_append] at hmem
    rw [mem_append, (flatten_set_perm hes es').mem_iff, mem_append]
    have hcase : e ∈ es ++ moving ∨ e ∈ (bins.eraseIdx i).flatten := by
      rw [mem_append]
      tauto
    rcases hcase with hcase | hcase
    · have hnew := hkept e hcase hsome
      rw [mem_append] at hnew
      tauto
    · exact .inl (.inr hcase)

theorem Keeping.length_lt {e : K × T} (h : Keeping mapKeyToSet before bins [e])
    (hr : Redistributing mapKeyToSet before sets bins [e]) (hes : bins[i]? = some es)
    (he : mapKeyToSet e.1 = some i) : es.length < 8 := by
  have hroom := h.room i es hes
  have hcount := hr.subperm.countP_le (fun e => decide (mapKeyToSet e.1 = some i))
  rw [countP_append, (flatten_perm hes).countP_eq, countP_append,
    countP_singleton, if_pos (decide_eq_true he)] at hcount
  have hlen := length_eq_countP_add_countP (fun e => decide (mapKeyToSet e.1 = some i)) (l := es)
  simp only [Bool.not_eq_true, Bool.decide_eq_false] at hlen
  omega

theorem Redistributing.key_ne {e : K × T} (h : Redistributing mapKeyToSet before sets bins [e])
    (hnodup : (before.map fst).Nodup) (hes : bins[i]? = some es) : ∀ x ∈ es, x.1 ≠ e.1 := by
  intro x hx hkey
  obtain ⟨l, hperm, hsub⟩ := h.subperm
  have hl := hnodup.sublist (hsub.map fst)
  rw [(hperm.map fst).nodup_iff, map_append, nodup_append] at hl
  exact hl.2.2 x.1 (mem_map_of_mem (mem_flatten_of_mem (mem_of_getElem? hes) hx))
    e.1 (by simp) hkey

end Invariants

variable {q' : ReconfigureSet K T} {i : Nat}

section Paths

variable {before : List (K × T)} {sets : List (ReconfigureSet K T)} {bins : List (List (K × T))}
  {start destination : Nat} {q : ReconfigureSet K T} {es : List (K × T)} {e : K × T}

/-- What a path relies on: its start set has got room for what comes back, and the sets
that have been visited have got some redistributed entries. -/
structure OnPath (start : Nat) (sets : List (ReconfigureSet K T)) : Prop where
  start_unoccupied : ∀ q, sets[start]? = some q → q.reconfigureState.unoccupiedSlots ≠ 0
  visited_lt : ∀ (i : Nat) (q : ReconfigureSet K T), sets[i]? = some q →
    q.reconfigureState.visited = true → q.reconfigureState.remainingToRedistribute < 8

def unvisited (sets : List (ReconfigureSet K T)) : Nat :=
  sets.countP fun q => !q.reconfigureState.visited

omit [LinearOrder K] in
theorem setAt_ok {α : Type} {xs : List α} {x : α} (h : xs[i]? = some x) (y : α) :
    setAt xs i y = .ok (xs.set i y) :=
  if_pos (List.getElem?_eq_some_iff.mp h).1

omit [LinearOrder K] in
theorem subperm_push {ys moving : List (K × T)} (h : (ys ++ moving).Subperm es) :
    ((e :: ys) ++ moving).Subperm (es ++ [e]) :=
  ((subperm_cons e).mpr h).trans (perm_append_singleton e es).symm.subperm

/-- What a step does to the destination and what the next one is to move. -/
structure Stepped (mapKeyToSet : K → Option Nat) (before : List (K × T)) (start destination : Nat)
    (sets : List (ReconfigureSet K T)) (bins : List (List (K × T))) (q : ReconfigureSet K T)
    (e : K × T) (q' : ReconfigureSet K T) (es' : List (K × T))
    (next : Option ((K × T) × Nat)) : Prop where
  redistributing : Redistributing mapKeyToSet before (sets.set destination q')
    (bins.set destination es') (next.map fst).toList
  keeping : Keeping mapKeyToSet before bins [e] →
    Keeping mapKeyToSet before (bins.set destination es') (next.map fst).toList
  remaining_le : q'.reconfigureState.remainingToRedistribute ≤
    q.reconfigureState.remainingToRedistribute
  continues : ∀ x, next = some x → mapKeyToSet x.1.1 = some x.2 ∧ destination ≠ start ∧
    q.reconfigureState.visited = false ∧ q'.reconfigureState.visited = true ∧
    q'.reconfigureState.remainingToRedistribute < 8

variable (pr)

section

variable (hnodup : (before.map fst).Nodup)
  (h : Redistributing mapKeyToSet before sets bins [e]) (he : mapKeyToSet e.1 = some destination)
include hnodup h he

theorem pathStep_unoccupied (hq : sets[destination]? = some q) (hes : bins[destination]? = some es)
    (hun : q.reconfigureState.unoccupiedSlots ≠ 0) :
    ∃ q' es' next, pathStep pr mapKeyToSet start sets e destination =
        .ok (sets.set destination q', next) ∧
      Stepped mapKeyToSet before start destination sets bins q e q' es' next := by
  have hs := h.settled _ _ _ hq hes
  have hun' := hs.unoccupied
  obtain ⟨s', slot, hinsert, hs'⟩ := hs.aged.insert pr (h.key_ne hnodup hes)
  rw [if_pos (by omega)] at hs'
  refine ⟨_, e :: es, none, ?_, h.set hes (hs.push hun he hs') ?_, fun hk => ?_, le_rfl, by simp⟩
  · rw [pathStep, index_ok hq, ok_bind, if_neg hun, subU8_ok pr (by omega) (by omega), ok_bind,
      hinsert, ok_bind]
    dsimp only
    rw [setAt_ok hq]
    rfl
  · apply subperm_push
    rw [map_none, toList_none, append_nil]
  · apply hk.set hes
    · rw [countP_cons_of_neg (by simpa using he)]
    · intro x hx _
      rw [mem_append, mem_singleton] at hx
      rw [map_none, toList_none, append_nil, mem_cons]
      exact hx.symm

theorem pathStep_full (hpath : OnPath start sets) (hq : sets[destination]? = some q)
    (hes : bins[destination]? = some es) (hun : q.reconfigureState.unoccupiedSlots = 0) :
    ∃ q' es' next, pathStep pr mapKeyToSet start sets e destination =
        .ok (sets.set destination q', next) ∧
      Stepped mapKeyToSet before start destination sets bins q e q' es' next := by
  have hs := h.settled _ _ _ hq hes
  have hun' := hs.unoccupied
  have hle := hs.remaining_le
  have hkey := h.key_ne hnodup hes
  have hne : destination ≠ start := by
    rintro rfl
    exact hpath.start_unoccupied q hq hun
  have hlost {bins' : List (List (K × T))} {moving : List (K × T)}
      (hk : Keeping mapKeyToSet before bins [e]) : Keeping mapKeyToSet before bins' moving := by
    have hlt := hk.length_lt h hes he
    omega
  obtain ⟨s', slot, hinsert, hs'⟩ := hs.aged.insert pr hkey
  rw [if_neg (by omega)] at hinsert hs'
  obtain hnil | ⟨ys, z, hz⟩ := es.eq_nil_or_concat
  · rw [hnil, length_nil] at hun'
    omega
  rw [concat_eq_append] at hz
  have hlast : es.getLast? = some z := by rw [hz, getLast?_concat]
  have hdrop : es.dropLast = ys := by rw [hz, dropLast_concat]
  rw [pathStep, index_ok hq, ok_bind, if_pos hun, debugAssert_ok pr hne, ok_bind]
  by_cases hrem : q.reconfigureState.remainingToRedistribute ≠ 0
  · rw [if_pos hrem]
    by_cases hv : q.reconfigureState.visited = true
    · obtain ⟨s₁, hevict, hs₁⟩ := evictRedistributed_ok pr hs hun (hpath.visited_lt _ q hq hv) he hkey
      rw [if_pos hv, hevict, ok_bind, setAt_ok hq]
      refine ⟨_, _, none, rfl, h.set hes hs₁ ?_, hlost, le_rfl, by simp⟩
      apply subperm_push
      rw [map_none, toList_none, append_nil]
      exact (eraseIdx_sublist _ _).subperm
    · rw [if_neg hv, subU8_ok pr (by omega) (by omega), ok_bind, hinsert, ok_bind]
      dsimp only
      rw [debugAssert_ok pr (by rw [hlast]; rfl), ok_bind, setAt_ok hq]
      refine ⟨_, e :: es.dropLast, _, rfl, h.set hes (hs.pushFull hun he hs') ?_, hlost, ?_, ?_⟩
      · apply subperm_push
        rw [hlast, hdrop, Option.bind_some]
        cases mapKeyToSet z.1 with
        | none =>
          rw [map_none, map_none, toList_none, append_nil, hz]
          exact (sublist_append_left _ _).subperm
        | some next =>
          rw [hz]
          exact List.Subperm.refl _
      · exact Nat.sub_le _ _
      · rintro x hx
        rw [hlast, Option.bind_some] at hx
        obtain ⟨next, hnext, rfl⟩ := Option.map_eq_some_iff.mp hx
        refine ⟨hnext, hne, by simpa using hv, rfl, ?_⟩
        dsimp only
        omega
  · have hrem := not_not.mp hrem
    rw [if_neg (by omega), hinsert, ok_bind]
    dsimp only
    rw [setAt_ok hq]
    refine ⟨_, e :: es.dropLast, none, rfl, h.set hes (hs.replaceLast hun hrem he hs') ?_, hlost,
      le_rfl, by simp⟩
    apply subperm_push
    rw [map_none, toList_none, append_nil]
    exact (dropLast_sublist es).subperm

end

variable {pr}

omit [LinearOrder K] in
theorem totalRemaining_set (hq : sets[i]? = some q) (q' : ReconfigureSet K T) :
    totalRemaining (sets.set i q') + q.reconfigureState.remainingToRedistribute =
      totalRemaining sets + q'.reconfigureState.remainingToRedistribute := by
  rw [totalRemaining, totalRemaining, map_set]
  exact sum_set _ (by rw [getElem?_map, hq]; rfl)

omit [LinearOrder K] in
theorem OnPath.step (h : OnPath start sets) (hne : destination ≠ start)
    (hlt : q'.reconfigureState.remainingToRedistribute < 8) :
    OnPath start (sets.set destination q') where
  start_unoccupied := by
    intro r hr
    rw [getElem?_set_ne hne] at hr
    exact h.start_unoccupied r hr
  visited_lt := by
    intro i r hr hv
    by_cases hi : destination = i
    · subst hi
      rw [getElem?_set] at hr
      split at hr
      · split at hr
        · cases hr
          exact hlt
        · cases hr
      · exact absurd rfl ‹_›
    · rw [getElem?_set_ne hi] at hr
      exact h.visited_lt i r hr hv

omit [LinearOrder K] in
theorem unvisited_set (hq : sets[destination]? = some q)
    (hv : q.reconfigureState.visited = false) (hv' : q'.reconfigureState.visited = true) :
    unvisited (sets.set destination q') < unvisited sets := by
  obtain ⟨hlt, rfl⟩ := List.getElem?_eq_some_iff.mp hq
  have hpos : 0 < unvisited sets :=
    countP_pos_iff.mpr ⟨_, getElem_mem hlt, by rw [hv]; rfl⟩
  rw [unvisited] at hpos ⊢
  rw [countP_set hlt, hv, hv']
  simp only [Bool.not_false, Bool.not_true, if_true, Bool.false_eq_true, if_false]
  rw [unvisited]
  omega

variable (pr)

/-- The whole path. Each step but the last one goes to a set that has not been visited
before. -/
theorem redistributePath_ok (hnodup : (before.map fst).Nodup)
    (hmap : ∀ k i, mapKeyToSet k = some i → i < sets.length) (fuel : Nat)
    (next : Option ((K × T) × Nat))
    (h : Redistributing mapKeyToSet before sets bins (next.map fst).toList)
    (hnext : ∀ x, next = some x → mapKeyToSet x.1.1 = some x.2 ∧ OnPath start sets ∧
      unvisited sets + 1 < fuel) (hfuel : 0 < fuel) :
    ∃ sets' bins', redistributePath pr mapKeyToSet start fuel sets next = .ok sets' ∧
      Redistributing mapKeyToSet before sets' bins' [] ∧
      (Keeping mapKeyToSet before bins (next.map fst).toList →
        Keeping mapKeyToSet before bins' []) ∧
      totalRemaining sets' ≤ totalRemaining sets ∧ sets'.length = sets.length := by
  induction fuel generalizing sets bins next with
  | zero => exact absurd hfuel (lt_irrefl 0)
  | succ fuel ih =>
    cases next with
    | none => exact ⟨sets, bins, rfl, h, id, le_rfl, rfl⟩
    | some x =>
      obtain ⟨e, destination⟩ := x
      obtain ⟨he, hpath, hlt⟩ := hnext _ rfl
      dsimp only at he
      obtain ⟨q, es, hq, hes, -⟩ := h.exists_bin (hmap _ _ he)
      have hstep : ∃ q' es' next, pathStep pr mapKeyToSet start sets e destination =
            .ok (sets.set destination q', next) ∧
          Stepped mapKeyToSet before start destination sets bins q e q' es' next := by
        by_cases hun : q.reconfigureState.unoccupiedSlots = 0
        · exact pathStep_full pr hnodup h he hpath hq hes hun
        · exact pathStep_unoccupied pr hnodup h he hq hes hun
      obtain ⟨q', es', next, hok, hst⟩ := hstep
      have htotal := totalRemaining_set hq q'
      have hrem := hst.remaining_le
      obtain ⟨sets', bins', hrest, hred, hkeep, hle, hlen⟩ := ih
        (fun k i hk => by rw [length_set]; exact hmap k i hk) _ hst.redistributing
        (fun x hx => by
          obtain ⟨hx, hne, hv, hv', h8⟩ := hst.continues x hx
          refine ⟨hx, hpath.step hne h8, ?_⟩
          have := unvisited_set hq hv hv'
          omega) (by omega)
      refine ⟨sets', bins', ?_, hred, fun hk => hkeep (hst.keeping hk), by omega, ?_⟩
      · rw [redistributePath, hok, ok_bind]
        exact hrest
      · rw [hlen, length_set]

end Paths

section Rounds

variable {before : List (K × T)} {sets : List (ReconfigureSet K T)} {bins : List (List (K × T))}
  {start : Nat} {q : ReconfigureSet K T}

theorem Redistributing.clearVisited {moving : List (K × T)}
    (h : Redistributing mapKeyToSet before sets bins moving) :
    Redistributing mapKeyToSet before (sets.map clearVisited) bins moving where
  length_eq := by rw [length_map, h.length_eq]
  settled := by
    intro i r es hr hes
    rw [getElem?_map] at hr
    obtain ⟨q, hq, rfl⟩ := Option.map_eq_some_iff.mp hr
    have hs := h.settled i q es hq hes
    exact ⟨hs.aged, hs.unoccupied, hs.remaining_le, hs.placed⟩
  subperm := h.subperm

omit [LinearOrder K] in
theorem totalRemaining_clearVisited :
    totalRemaining (sets.map clearVisited) = totalRemaining sets := by
  rw [totalRemaining, List.map_map]
  rfl

omit [LinearOrder K] in
theorem onPath_start (hq : sets[start]? = some q) (hun : q'.reconfigureState.unoccupiedSlots ≠ 0)
    (hlt : q'.reconfigureState.remainingToRedistribute < 8) :
    OnPath start ((sets.map clearVisited).set start q') where
  start_unoccupied := by
    intro r hr
    have hstart := (List.getElem?_eq_some_iff.mp hq).1
    rw [getElem?_set_self (by rwa [length_map])] at hr
    cases hr
    exact hun
  visited_lt := by
    intro i r hr hv
    rcases mem_or_eq_of_mem_set (mem_of_getElem? hr) with hmem | rfl
    · obtain ⟨q₀, -, rfl⟩ := mem_map.mp hmem
      cases hv
    · exact hlt

variable (pr)

theorem redistributeOldest_ok (hnodup : (before.map fst).Nodup)
    (hmap : ∀ k i, mapKeyToSet k = some i → i < sets.length)
    (h : Redistributing mapKeyToSet before sets bins []) (hq : sets[start]? = some q)
    (hrem : q.reconfigureState.remainingToRedistribute ≠ 0) :
    ∃ sets' bins', redistributeOldest pr mapKeyToSet start sets = .ok sets' ∧
      Redistributing mapKeyToSet before sets' bins' [] ∧
      (Keeping mapKeyToSet before bins [] → Keeping mapKeyToSet before bins' []) ∧
      totalRemaining sets' < totalRemaining sets ∧ sets'.length = sets.length := by
  have hlt := (List.getElem?_eq_some_iff.mp hq).1
  obtain ⟨q₀, es, hq₀, hes, hs⟩ := h.exists_bin hlt
  cases hq.symm.trans hq₀
  have hle := hs.remaining_le
  have hun := hs.unoccupied
  obtain rfl | ⟨ys, e, rfl⟩ := es.eq_nil_or_concat
  · rw [length_nil] at hle
    omega
  rw [concat_eq_append] at hes hs hle hun
  obtain ⟨slot, hslot, he, ⟨s₁, hremove, hs₁⟩, matrix, hmatrix, hs₂⟩ := hs.aged.oldest pr
  have hroom : ys.countP (fun e => !decide (mapKeyToSet e.1 = some start)) ≤
      (ys ++ [e]).countP (fun e => !decide (mapKeyToSet e.1 = some start)) := by
    rw [countP_append]
    exact Nat.le_add_right _ _
  rw [redistributeOldest, index_ok hq, ok_bind, hslot, ok_bind, unwrap, ok_bind, slot_ok, he,
    ok_bind, unwrap, ok_bind]
  cases hdest : mapKeyToSet e.1 with
  | none =>
    have htotal := totalRemaining_set hq ⟨s₁,
      ⟨q.reconfigureState.remainingToRedistribute - 1, q.reconfigureState.unoccupiedSlots + 1,
        q.reconfigureState.visited⟩⟩
    dsimp only at htotal ⊢
    rw [hremove, ok_bind]
    dsimp only
    rw [addU8_ok pr (by omega), ok_bind, subU8_ok pr (by omega) (by omega), ok_bind, setAt_ok hq]
    refine ⟨_, _, rfl, h.set hes (hs.pop hrem hs₁ _) ?_, fun hk => ?_, by omega,
      length_set⟩
    · rw [append_nil, append_nil]
      exact (sublist_append_left _ _).subperm
    · apply hk.set hes hroom
      intro x hx hsome
      rw [append_nil, mem_append, mem_singleton] at hx
      rw [append_nil]
      rcases hx with hx | rfl
      · exact hx
      · rw [hdest] at hsome
        cases hsome
  | some destination =>
    dsimp only
    by_cases hsame : destination = start
    · subst hsame
      have htotal := totalRemaining_set hq ⟨{ q.set with lruReferenceMatrix := matrix },
        { q.reconfigureState with remainingToRedistribute :=
          q.reconfigureState.remainingToRedistribute - 1 }⟩
      dsimp only at htotal
      rw [if_pos rfl, hmatrix, ok_bind, subU8_ok pr (by omega) (by omega), ok_bind, setAt_ok hq]
      have hperm : (e :: ys).Perm (ys ++ [e]) := (perm_append_singleton e ys).symm
      refine ⟨_, _, rfl, h.set hes (hs.refresh hrem hdest hs₂) ?_, fun hk => ?_, by omega,
        length_set⟩
      · rw [append_nil, append_nil]
        exact hperm.subperm
      · apply hk.set hes (hperm.countP_eq _).le
        intro x hx _
        rw [append_nil] at hx ⊢
        exact hperm.symm.subset hx
    · rw [if_neg hsame, hremove, ok_bind]
      have hclear : (sets.map clearVisited)[start]? =
          some (clearVisited q) := by
        rw [getElem?_map, hq]
        rfl
      have hpop := hs.pop hrem hs₁ true
      have htotal := totalRemaining_set hclear ⟨s₁,
        ⟨q.reconfigureState.remainingToRedistribute - 1, q.reconfigureState.unoccupiedSlots + 1,
          true⟩⟩
      rw [totalRemaining_clearVisited] at htotal
      dsimp only [clearVisited] at htotal
      rw [debugAssert_ok pr (show (some e).isSome = true from rfl), ok_bind, addU8_ok pr (by omega), ok_bind,
        subU8_ok pr (by omega) (by omega), ok_bind, setAt_ok hclear, ok_bind, Option.map_some,
        length_set, length_map]
      have hred : Redistributing mapKeyToSet before _ (bins.set start ys) [e] :=
        h.clearVisited.set hes hpop (by rw [append_nil])
      obtain ⟨sets', bins', hok, hred', hkeep, htotal', hlen⟩ := redistributePath_ok pr hnodup
        (fun k i hk => by rw [length_set, length_map]; exact hmap k i hk)
        (sets.length + 2) (some (e, destination)) hred (fun x hx => by
          cases hx
          refine ⟨hdest, onPath_start hq (Nat.succ_ne_zero _) (by dsimp only; omega), ?_⟩
          have hcount := countP_le_length (p := fun q : ReconfigureSet K T =>
            !q.reconfigureState.visited) (l := (sets.map clearVisited).set start
              ⟨s₁, ⟨q.reconfigureState.remainingToRedistribute - 1,
                q.reconfigureState.unoccupiedSlots + 1, true⟩⟩)
          rw [length_set, length_map] at hcount
          rw [unvisited]
          omega) (Nat.succ_pos _)
      refine ⟨sets', bins', hok, hred', fun hk => hkeep (hk.set hes hroom ?_), by omega, ?_⟩
      · intro x hx _
        rwa [append_nil] at hx
      · rw [hlen, length_set, length_map]

end Rounds

section Search

variable {sets : List (ReconfigureSet K T)} {searchBegin : Nat}

/-- The index so many steps after the begin, wrapping around at the end. -/
def stepsAfter (count searchBegin d : Nat) : Nat :=
  if searchBegin + d < count then searchBegin + d else searchBegin + d - count

def Found (sets : List (ReconfigureSet K T)) (found : Option (Nat × Nat × Nat)) : Prop :=
  ∀ x, found = some x → ∃ q, sets[x.1]? = some q ∧
    q.reconfigureState.remainingToRedistribute ≠ 0

variable {found : Option (Nat × Nat × Nat)}

omit [LinearOrder K] in
theorem betterStartSet_spec {q : ReconfigureSet K T} (hq : sets[i]? = some q)
    (h : Found sets found) :
    Found sets (betterStartSet found i q.reconfigureState) ∧
      (betterStartSet found i q.reconfigureState = none →
        found = none ∧ q.reconfigureState.remainingToRedistribute = 0) := by
  unfold betterStartSet
  by_cases hrem : q.reconfigureState.remainingToRedistribute = 0
  · rw [if_neg (not_not_intro hrem)]
    exact ⟨h, fun hnone => ⟨hnone, hrem⟩⟩
  · rw [if_pos hrem]
    have hnew : Found sets (some (i, q.reconfigureState.remainingToRedistribute,
        q.reconfigureState.unoccupiedSlots)) := by
      intro x hx
      cases hx
      exact ⟨q, hq, hrem⟩
    cases found with
    | none => exact ⟨hnew, fun hnone => by cases hnone⟩
    | some x =>
      dsimp only
      split
      · exact ⟨hnew, fun hnone => by cases hnone⟩
      · exact ⟨h, fun hnone => by cases hnone⟩

omit [LinearOrder K] in
theorem findStartSet_spec (hbegin : searchBegin < sets.length) (fuel d : Nat)
    (hd : d < sets.length) (hfuel : sets.length ≤ fuel + d) (h : Found sets found) :
    ∃ found', findStartSet sets searchBegin fuel (stepsAfter sets.length searchBegin d) found =
        .ok found' ∧ Found sets found' ∧
      (found' = none → found = none ∧ ∀ k, d ≤ k → k < sets.length →
        ∀ q, sets[stepsAfter sets.length searchBegin k]? = some q →
          q.reconfigureState.remainingToRedistribute = 0) := by
  induction fuel generalizing d found with
  | zero => omega
  | succ fuel ih =>
    have hlt : stepsAfter sets.length searchBegin d < sets.length := by
      rw [stepsAfter]
      split <;> omega
    have hq := getElem?_eq_getElem hlt
    obtain ⟨hfound, hnone⟩ := betterStartSet_spec hq h
    rw [findStartSet, index_ok hq, ok_bind]
    by_cases hlast : d + 1 = sets.length
    · have hnext : nextSetIndex sets.length (stepsAfter sets.length searchBegin d) = searchBegin := by
        rw [nextSetIndex, stepsAfter]
        split <;> split <;> omega
      rw [if_pos hnext]
      refine ⟨_, rfl, hfound, fun hnil => ⟨(hnone hnil).1, fun k hk hk' r hr => ?_⟩⟩
      obtain rfl : k = d := by omega
      cases hq.symm.trans hr
      exact (hnone hnil).2
    · have hnext : nextSetIndex sets.length (stepsAfter sets.length searchBegin d) ≠ searchBegin := by
        rw [nextSetIndex, stepsAfter]
        split <;> split <;> omega
      have hstep : nextSetIndex sets.length (stepsAfter sets.length searchBegin d) =
          stepsAfter sets.length searchBegin (d + 1) := by
        rw [nextSetIndex, stepsAfter, stepsAfter]
        split <;> split <;> split <;> omega
      obtain ⟨found', hok, hfound', hrest⟩ := ih (d + 1) (by omega) (by omega) hfound
      rw [if_neg hnext, hstep]
      refine ⟨found', hok, hfound', fun hnil => ?_⟩
      obtain ⟨hmid, hall⟩ := hrest hnil
      refine ⟨(hnone hmid).1, fun k hk hk' r hr => ?_⟩
      by_cases hkd : k = d
      · subst hkd
        cases hq.symm.trans hr
        exact (hnone hmid).2
      · exact hall k (by omega) hk' r hr

omit [LinearOrder K] in
theorem findStartSet_ok (hbegin : searchBegin < sets.length) :
    ∃ found, findStartSet sets searchBegin sets.length searchBegin none = .ok found ∧
      Found sets found ∧ (found = none → ∀ q ∈ sets,
        q.reconfigureState.remainingToRedistribute = 0) := by
  have hzero : stepsAfter sets.length searchBegin 0 = searchBegin := if_pos hbegin
  obtain ⟨found, hok, hfound, hnone⟩ := findStartSet_spec hbegin sets.length 0
    (by omega) (le_refl _) (show Found sets none from fun x hx => by cases hx)
  rw [hzero] at hok
  refine ⟨found, hok, hfound, fun hnil q hq => ?_⟩
  obtain ⟨j, hj, rfl⟩ := mem_iff_getElem.mp hq
  have hall := (hnone hnil).2
  by_cases hle : searchBegin ≤ j
  · apply hall (j - searchBegin) (by omega) (by omega)
    rw [stepsAfter, if_pos (by omega), Nat.add_sub_cancel' hle, getElem?_eq_getElem hj]
  · apply hall (j + sets.length - searchBegin) (by omega) (by omega)
    rw [stepsAfter, if_neg (by omega),
      show searchBegin + (j + sets.length - searchBegin) - sets.length = j by omega,
      getElem?_eq_getElem hj]

end Search

section Loop

variable {before : List (K × T)} {sets : List (ReconfigureSet K T)} {bins : List (List (K × T))}

theorem redistribute_ok (hnodup : (before.map fst).Nodup)
    (hmap : ∀ k i, mapKeyToSet k = some i → i < sets.length) (fuel searchBegin : Nat)
    (h : Redistributing mapKeyToSet before sets bins []) (hbegin : searchBegin < sets.length)
    (hfuel : totalRemaining sets < fuel) :
    ∃ sets' bins', redistribute pr mapKeyToSet fuel searchBegin sets = .ok sets' ∧
      Redistributing mapKeyToSet before sets' bins' [] ∧
      (Keeping mapKeyToSet before bins [] → Keeping mapKeyToSet before bins' []) ∧
      sets'.length = sets.length ∧
      ∀ q ∈ sets', q.reconfigureState.remainingToRedistribute = 0 := by
  induction fuel generalizing searchBegin sets bins with
  | zero => omega
  | succ fuel ih =>
    obtain ⟨found, hfind, hfound, hnone⟩ := findStartSet_ok hbegin
    rw [redistribute, hfind, ok_bind]
    cases found with
    | none => exact ⟨sets, bins, rfl, h, id, rfl, hnone rfl⟩
    | some x =>
      obtain ⟨q, hq, hrem⟩ := hfound x rfl
      have hlt := (List.getElem?_eq_some_iff.mp hq).1
      obtain ⟨sets₁, bins₁, hround, hred, hkeep, htotal, hlen⟩ :=
        redistributeOldest_ok pr hnodup hmap h hq hrem
      have hnext : nextSetIndex sets.length x.1 < sets₁.length := by
        rw [hlen, nextSetIndex]
        split <;> omega
      obtain ⟨sets', bins', hok, hred', hkeep', hlen', hall⟩ := ih
        (fun k i hk => hlen ▸ hmap k i hk) _ hred hnext (by omega)
      refine ⟨sets', bins', ?_, hred', fun hk => hkeep' (hkeep hk), hlen'.trans hlen, hall⟩
      dsimp only
      rw [hround, ok_bind]
      exact hok

end Loop

end CocoonFs.CacheRedistribution
