import CocoonFs.CacheInsert
import CocoonFs.DeferredClears

namespace CocoonFs.CacheCalls

open Checked CacheSet CacheRows CacheOrder CacheInsert DeferredClears List
open Function (update update_of_ne update_self)

variable {K T : Type}

/-- The occupied slots from the most to the least recently used one. -/
structure AgeOrder (matrix : BitVec 64) (slots : Fin 8 → Option (K × T)) (ages : List (Fin 8)) :
    Prop where
  mem_iff : ∀ r, r ∈ ages ↔ (slots r).isSome = true
  nodup : ages.Nodup
  pairwise : ages.Pairwise fun (a b : Fin 8) =>
    (row matrix a).getLsbD b = true ∧ (row matrix b).getLsbD a = false

/-- The atomic steps of concurrent calls: the first step of a call on a slot, and
the second step of one of the calls that have not completed yet. -/
inductive CallStep where
  | fetchOr (slot : Fin 8)
  | fetchAnd (i : Nat)
  deriving DecidableEq, Repr

/-- The shared matrix, and the masks of the calls in between their two steps. -/
structure CallState where
  matrix : BitVec 64
  masks : List (BitVec 64)
  deriving DecidableEq, Repr

def callStep (pr : Profile) (s : SetAssocCacheSet K T) (st : CallState) :
    CallStep → Comp CallState
  | .fetchOr slot => do
    match s.slots slot with
    | none => pure st
    | some _ => do
      let (matrix, mask) ← lruReferenceSlotSyncOr pr st.matrix s.capacity slot.val
      pure ⟨matrix, mask :: st.masks⟩
  | .fetchAnd i =>
    match st.masks[i]? with
    | none => pure st
    | some mask => pure ⟨lruReferenceSlotSyncAnd st.matrix mask, st.masks.eraseIdx i⟩

def callSteps (pr : Profile) (s : SetAssocCacheSet K T) (steps : List CallStep) : Comp CallState :=
  steps.foldlM (callStep pr s) ⟨s.lruReferenceMatrix, []⟩

section Graph

variable {matrix : BitVec 64} {slots : Fin 8 → Option (K × T)}

def Newer (matrix : BitVec 64) (slots : Fin 8 → Option (K × T)) (x y : Fin 8) : Prop :=
  (slots x).isSome = true ∧ (slots y).isSome = true ∧ (row matrix x).getLsbD y = true

/-- The slots an occupied slot is more recently used than, and those unoccupied. -/
def olders (matrix : BitVec 64) (slots : Fin 8 → Option (K × T)) (x : Fin 8) : Set (Fin 8) :=
  {y | (slots x).isSome = true ∧ ((slots y).isSome = true → (row matrix x).getLsbD y = true)}

def Acyclic (matrix : BitVec 64) (slots : Fin 8 → Option (K × T)) : Prop :=
  ∀ x, ¬ Relation.TransGen (Newer matrix slots) x x

theorem AgeOrder.acyclic {ages : List (Fin 8)} (h : AgeOrder matrix slots ages)
    (hown : ∀ r : Fin 8, (slots r).isSome = true → (row matrix r).getLsbD r = false) :
    Acyclic matrix slots := by
  have hstep {x y : Fin 8} (hxy : Newer matrix slots x y) : ages.idxOf x < ages.idxOf y := by
    obtain ⟨hx, hy, hbit⟩ := hxy
    have hxlt := idxOf_lt_length_of_mem ((h.mem_iff x).mpr hx)
    have hylt := idxOf_lt_length_of_mem ((h.mem_iff y).mpr hy)
    by_contra hge
    rcases (not_lt.mp hge).eq_or_lt with heq | hlt
    · have := idxOf_inj ((h.mem_iff y).mpr hy) |>.mp heq
      subst this
      rw [hown y hy] at hbit
      cases hbit
    · have hpair := pairwise_iff_getElem.mp h.pairwise _ _ hylt hxlt hlt
      rw [getElem_idxOf, getElem_idxOf, hbit] at hpair
      cases hpair.2
  have hidx {x y : Fin 8} (hxy : Relation.TransGen (Newer matrix slots) x y) :
      ages.idxOf x < ages.idxOf y := by
    induction hxy with
    | single hxy => exact hstep hxy
    | tail _ hby ih => exact ih.trans (hstep hby)
  intro x hcycle
  exact absurd (hidx hcycle) (lt_irrefl _)

theorem settling_of_acyclic (hown : ∀ r : Fin 8, (slots r).isSome = true →
    (row matrix r).getLsbD r = false) (h : Acyclic matrix slots) : Settling (olders matrix slots) [] := by
  apply settling_nil
  · rintro x ⟨hx, hbit⟩
    rw [hown x hx] at hbit
    cases hbit hx
  · intro x hcycle
    -- The last node of a cycle is the first one as well, so all nodes of it are occupied.
    have hpath {x y : Fin 8} (hxy : Relation.TransGen (fun x y => y ∈ olders matrix slots x) x y)
        (hy : (slots y).isSome = true) : Relation.TransGen (Newer matrix slots) x y := by
      induction hxy with
      | single hxy => exact .single ⟨hxy.1, hy, hxy.2 hy⟩
      | tail _ hby ih => exact (ih hby.1).tail ⟨hby.1, hy, hby.2 hy⟩
    obtain ⟨y, hxy, -⟩ := Relation.TransGen.head'_iff.mp hcycle
    exact h x (hpath hcycle hxy.1)

theorem acyclic_of_settling (h : Settling (olders matrix slots) []) : Acyclic matrix slots := by
  intro x hcycle
  apply h.acyclic x
  apply hcycle.lift id
  rintro x y ⟨hx, hy, hbit⟩
  refine ⟨?_, ⟨hx, fun _ => hbit⟩, fun ex hex => absurd hex not_mem_nil⟩
  rintro rfl
  obtain ⟨ex, hex, -⟩ := h.own x ⟨hx, fun _ => hbit⟩
  exact absurd hex not_mem_nil

end Graph

section Calls

variable {s : SetAssocCacheSet K T}

/-- A pending mask clears a column, except in the rows of the slots exempt and in
those of unoccupied slots. -/
structure MaskOf (s : SetAssocCacheSet K T) (mask : BitVec 64) (slot : Fin 8) (ex : Set (Fin 8)) :
    Prop where
  occupied : (s.slots slot).isSome = true
  free : ∀ r : Fin 8, s.slots r = none → r.val < s.capacity → row mask r = allOnes
  exempt : ∀ r ∈ ex, row mask r = allOnes
  clears : ∀ r : Fin 8, (s.slots r).isSome = true → r ∉ ex → row mask r = ~~~(1#8 <<< slot.val)

structure CallInv (s : SetAssocCacheSet K T) (st : CallState) (pending : List (Fin 8 × Set (Fin 8))) :
    Prop where
  masks : List.Forall₂ (fun mask p => MaskOf s mask p.1 p.2) st.masks pending
  settling : Settling (olders st.matrix s.slots) pending
  free_row : ∀ r : Fin 8, r.val < s.capacity → s.slots r = none → row st.matrix r = allOnes
  beyond_row : ∀ r : Fin 8, s.capacity ≤ r.val → row st.matrix r = 0#8
  high_clear : ∀ r c : Fin 8, (s.slots r).isSome = true → s.capacity ≤ c.val →
    (row st.matrix r).getLsbD c = false

theorem getLsbD_ones : ∀ capacity < 9, ∀ c : Fin 8, (ones capacity).getLsbD c = decide (c.val < capacity) := by
  decide

theorem getLsbD_not_bit : ∀ slot c : Fin 8, (~~~(1#8 <<< slot.val)).getLsbD c = decide (c ≠ slot) := by
  decide

variable (pr : Profile) (hcap : s.capacity ≤ 8)
  (hlt : ∀ r : Fin 8, (s.slots r).isSome = true → r.val < s.capacity)

include hcap hlt

variable {st : CallState} {pending : List (Fin 8 × Set (Fin 8))}

theorem CallInv.fetchOr (h : CallInv s st pending) (slot : Fin 8) :
    ∃ st' pending', callStep pr s st (.fetchOr slot) = .ok st' ∧ CallInv s st' pending' := by
  rcases hslot : s.slots slot with _ | e
  · refine ⟨st, pending, ?_, h⟩
    rw [callStep, hslot]
    rfl
  · have hsome : (s.slots slot).isSome = true := by rw [hslot]; rfl
    have hslotcap := hlt slot hsome
    obtain ⟨matrix, mask, hor, hown, hothers, hmask⟩ :=
      lruReferenceSlotSyncOr_spec pr hcap slot.isLt st.matrix
    have hother (r : Fin 8) (hr : r ≠ slot) : row matrix r = row st.matrix r :=
      hothers r r.isLt (fun hv => hr (Fin.ext hv))
    have hbit (c : Fin 8) : (row matrix slot).getLsbD c =
        ((row st.matrix slot).getLsbD c || decide (c.val < s.capacity)) := by
      rw [hown, BitVec.getLsbD_or, getLsbD_ones _ (by omega)]
    let ex : Set (Fin 8) := {r | (s.slots r).isSome = true ∧ row st.matrix r = allOnes}
    have hex : ∀ c ∈ ex, ∀ y, y ∈ olders st.matrix s.slots c := by
      rintro c ⟨hc, hrow⟩ y
      exact ⟨hc, fun _ => (eq_allOnes_iff _).mp hrow y y.isLt⟩
    have holders : olders matrix s.slots = update (olders st.matrix s.slots) slot Set.univ := by
      funext x
      ext y
      by_cases hx : x = slot
      · subst hx
        rw [update_self]
        refine ⟨fun _ => trivial, fun _ => ⟨hsome, fun hy => ?_⟩⟩
        rw [hbit, decide_eq_true (hlt y hy), Bool.or_true]
      · rw [update_of_ne hx, olders, hother x hx]
        rfl
    refine ⟨⟨matrix, mask :: st.masks⟩, (slot, ex) :: pending, ?_, ?_⟩
    · rw [callStep, hslot]
      rw [hor]
      rfl
    · refine ⟨.cons ⟨hsome, ?_, ?_, ?_⟩ h.masks, ?_, ?_, ?_, ?_⟩
      · intro r hr hrcap
        rw [hmask r r.isLt, if_pos (h.free_row r hrcap hr)]
      · rintro r ⟨-, hrow⟩
        rw [hmask r r.isLt, if_pos hrow]
      · intro r hr hrex
        rw [hmask r r.isLt, if_neg (fun hrow => hrex ⟨hr, hrow⟩)]
      · rw [holders]
        exact h.settling.reference hex
      · intro r hr hnone
        have hne : r ≠ slot := by
          rintro rfl
          rw [hnone] at hslot
          cases hslot
        rw [hother r hne, h.free_row r hr hnone]
      · intro r hr
        have hne : r ≠ slot := by
          rintro rfl
          omega
        rw [hother r hne, h.beyond_row r hr]
      · intro r c hr hc
        by_cases hrs : r = slot
        · subst hrs
          rw [hbit, h.high_clear r c hr hc, decide_eq_false (not_lt.mpr hc), Bool.or_false]
        · rw [hother r hrs, h.high_clear r c hr hc]

omit hcap hlt in
theorem CallInv.fetchAnd (h : CallInv s st pending) (i : Nat) :
    ∃ st' pending', callStep pr s st (.fetchAnd i) = .ok st' ∧ CallInv s st' pending' := by
  rcases hmask : st.masks[i]? with _ | mask
  · refine ⟨st, pending, ?_, h⟩
    rw [callStep, hmask]
    rfl
  · obtain ⟨hi, rfl⟩ := List.getElem?_eq_some_iff.mp hmask
    have hi' : i < pending.length := h.masks.length_eq ▸ hi
    have hof : MaskOf s st.masks[i] pending[i].1 pending[i].2 := h.masks.get hi hi'
    have hsplit : pending = pending.take i ++ pending[i] :: pending.drop (i + 1) := by
      rw [getElem_cons_drop, take_append_drop]
    have hrow (r : Fin 8) : row (st.matrix &&& st.masks[i]) r = row st.matrix r &&& row st.masks[i] r :=
      row_and _ _ _
    have hkeep {r : Fin 8} (hr : row st.masks[i] r = allOnes) :
        row (st.matrix &&& st.masks[i]) r = row st.matrix r := by
      rw [hrow, hr]
      exact BitVec.and_allOnes
    have hbit (r c : Fin 8) (hr : (s.slots r).isSome = true) :
        (row (st.matrix &&& st.masks[i]) r).getLsbD c = true ↔
          (row st.matrix r).getLsbD c = true ∧ (r ∈ pending[i].2 ∨ c ≠ pending[i].1) := by
      by_cases hex : r ∈ pending[i].2
      · rw [hkeep (hof.exempt r hex)]
        simp [hex]
      · rw [hrow, hof.clears r hr hex, BitVec.getLsbD_and, getLsbD_not_bit]
        simp [hex]
    refine ⟨⟨st.matrix &&& st.masks[i], st.masks.eraseIdx i⟩, pending.take i ++ pending.drop (i + 1),
      ?_, ?_, ?_, ?_, ?_, ?_⟩
    · rw [callStep, hmask]
      rfl
    · rw [eraseIdx_eq_take_drop_succ]
      exact rel_append (forall₂_take i h.masks) (forall₂_drop (i + 1) h.masks)
    · have hrem := h.settling
      rw [hsplit] at hrem
      have holders : olders (st.matrix &&& st.masks[i]) s.slots = fun x =>
          {y | y ∈ olders st.matrix s.slots x ∧ (x ∈ pending[i].2 ∨ y ≠ pending[i].1)} := by
        funext x
        ext y
        constructor
        · rintro ⟨hx, hy⟩
          refine ⟨⟨hx, fun hy' => ((hbit x y hx).mp (hy hy')).1⟩, ?_⟩
          by_cases hya : y = pending[i].1
          · subst hya
            exact ((hbit x _ hx).mp (hy hof.occupied)).2
          · exact Or.inr hya
        · rintro ⟨⟨hx, hy⟩, hkeep⟩
          exact ⟨hx, fun hy' => (hbit x y hx).mpr ⟨hy hy', hkeep⟩⟩
      rw [holders]
      exact hrem.remove
    · intro r hr hnone
      rw [hkeep (hof.free r hnone hr), h.free_row r hr hnone]
    · intro r hr
      rw [hrow, h.beyond_row r hr, BitVec.zero_and]
    · intro r c hr hc
      rw [hrow, BitVec.getLsbD_and, h.high_clear r c hr hc, Bool.false_and]

theorem CallInv.steps (h : CallInv s st pending) (steps : List CallStep) :
    ∃ st' pending', steps.foldlM (callStep pr s) st = .ok st' ∧ CallInv s st' pending' := by
  induction steps generalizing st pending with
  | nil => exact ⟨st, pending, rfl, h⟩
  | cons step steps ih =>
    obtain ⟨st₁, pending₁, hstep, h₁⟩ : ∃ st' pending', callStep pr s st step = .ok st' ∧
        CallInv s st' pending' := by
      cases step with
      | fetchOr slot => exact h.fetchOr pr hcap hlt slot
      | fetchAnd i => exact h.fetchAnd pr i
    obtain ⟨st₂, pending₂, hsteps, h₂⟩ := ih h₁
    refine ⟨st₂, pending₂, ?_, h₂⟩
    rw [foldlM_cons, hstep, ok_bind, hsteps]

end Calls

variable [LinearOrder K]

def Valid (s : SetAssocCacheSet K T) : Prop :=
  ∃ order ages, Shape s order ∧ AgeOrder s.lruReferenceMatrix s.slots ages

/-- Insert the entries one after the other. The slots they have been inserted at. -/
def insertAll (pr : Profile) (s : SetAssocCacheSet K T) :
    List (K × T) → Comp (SetAssocCacheSet K T × List Nat)
  | [] => .ok (s, [])
  | e :: es => do
    let (s, slot, _) ← CacheSet.insert pr s e.1 e.2
    let (s, slots) ← insertAll pr s es
    pure (s, slot :: slots)

section Inserts

variable {s : SetAssocCacheSet K T} {order : List (Fin 8)} (pr : Profile) {slot : Fin 8}

section

variable (h : Shape s order) (hac : Acyclic s.lruReferenceMatrix s.slots)
include h hac

theorem exists_zero_row (hcap : 0 < s.capacity) (hfull : Full s) :
    ∃ r, (s.slots r).isSome = true ∧ row s.lruReferenceMatrix r = 0#8 := by
  have hne : {r : Fin 8 | (s.slots r).isSome = true}.Nonempty :=
    ⟨⟨0, by decide⟩, hfull ⟨0, by decide⟩ hcap⟩
  obtain ⟨r, hr, hmin⟩ := exists_no_succ hac hne
  refine ⟨r, hr, ?_⟩
  apply BitVec.eq_of_getLsbD_eq
  intro c hc
  rw [BitVec.getLsbD_zero]
  by_cases hcc : c < s.capacity
  · have hsome := hfull ⟨c, hc⟩ hcc
    by_contra hbit
    exact hmin ⟨c, hc⟩ hsome ⟨hr, hsome, Bool.not_eq_false _ ▸ hbit⟩
  · exact h.high_clear r ⟨c, hc⟩ hr (not_lt.mp hcc)

theorem acyclic_referenced
    {matrix : BitVec 64} (hm : Referenced s.lruReferenceMatrix matrix s.capacity slot)
    (e : K × T) : Acyclic matrix (update s.slots slot (some e)) := by
  have hcap := h.capacity_le
  have hsome {r : Fin 8} (hr : r ≠ slot)
      (h' : (update s.slots slot (some e) r).isSome = true) : (s.slots r).isSome = true := by
    rwa [update_of_ne hr] at h'
  have hbit {r c : Fin 8} (hr : r ≠ slot) (hrs : (s.slots r).isSome = true) :
      (row matrix r).getLsbD c = ((row s.lruReferenceMatrix r).getLsbD c && decide (c ≠ slot)) := by
    rw [hm.others r r.isLt (fun hv => hr (Fin.ext hv)), getLsbD_aged _ (h.row_ne_allOnes hrs)]
  apply not_cycle_of_entry (a := slot) _ hac
  · rintro c ⟨hc, -, hcbit⟩
    exfalso
    by_cases hcs : c = slot
    · subst hcs
      rw [hm.own, getLsbD_own _ (by omega)] at hcbit
      simp at hcbit
    · rw [hbit hcs (hsome hcs hc)] at hcbit
      simp at hcbit
  · rintro x y ⟨hx, hy, hxy⟩ hxs hys
    rw [hbit hxs (hsome hxs hx), Bool.and_eq_true] at hxy
    exact ⟨hsome hxs hx, hsome hys hy, hxy.1⟩

end

omit [LinearOrder K] in
theorem acyclic_replaced (hac : Acyclic s.lruReferenceMatrix s.slots) {e : K × T}
    (he : s.slots slot = some e) (e' : K × T) :
    Acyclic s.lruReferenceMatrix (update s.slots slot (some e')) := by
  have hsome (r : Fin 8) : (update s.slots slot (some e') r).isSome = (s.slots r).isSome := by
    by_cases hrs : r = slot
    · subst hrs
      rw [update_self, he]
      rfl
    · rw [update_of_ne hrs]
  intro x hcycle
  apply hac x
  apply hcycle.lift id
  rintro x y ⟨hx, hy, hxy⟩
  exact ⟨(hsome x).symm.trans hx, (hsome y).symm.trans hy, hxy⟩

section

variable (h : Shape s order) (hac : Acyclic s.lruReferenceMatrix s.slots) (hcap : 0 < s.capacity)
include h hac hcap

theorem insert_usable (key : K) (value : T) :
    ∃ s' slot evicted order', CacheSet.insert pr s key value = .ok (s', slot, evicted) ∧
      Shape s' order' ∧ Acyclic s'.lruReferenceMatrix s'.slots ∧ s'.capacity = s.capacity ∧
      slot < s.capacity := by
  rcases insert_cases pr h (exists_zero_row h hac hcap) key value with
    ⟨slot, e, he, hkey, hok⟩ | ⟨-, slot, matrix, os, order', hchosen, hok, hordered, hm⟩
  · exact ⟨_, _, _, order, hok, h.replaced he hkey.symm, acyclic_replaced hac he _, rfl,
      h.lt_capacity slot (by rw [he]; rfl)⟩
  · exact ⟨_, _, _, order', hok, h.referenced hchosen.1 hm hordered,
      acyclic_referenced h hac hm _, rfl, hchosen.1⟩

theorem insertAll_usable (es : List (K × T)) :
    ∃ s' slots order', insertAll pr s es = .ok (s', slots) ∧ Shape s' order' ∧
      Acyclic s'.lruReferenceMatrix s'.slots ∧ s'.capacity = s.capacity ∧
      ∀ slot ∈ slots, slot < s.capacity := by
  induction es generalizing s order with
  | nil => exact ⟨s, [], order, rfl, h, hac, rfl, by simp⟩
  | cons e es ih =>
    obtain ⟨s₁, slot, evicted, order₁, hok, h₁, hac₁, hcap₁, hslot⟩ :=
      insert_usable pr h hac hcap e.1 e.2
    obtain ⟨s₂, slots, order₂, hall, h₂, hac₂, hcap₂, hslots⟩ := ih h₁ hac₁ (hcap₁ ▸ hcap)
    refine ⟨s₂, slot :: slots, order₂, ?_, h₂, hac₂, hcap₂.trans hcap₁, ?_⟩
    · rw [insertAll, hok, ok_bind]
      dsimp only
      rw [hall]
      rfl
    · intro x hx
      rcases mem_cons.mp hx with rfl | hx
      · exact hslot
      · exact hcap₁ ▸ hslots x hx

end

end Inserts

def emptySet (capacity : Nat) (matrix : BitVec 64) : SetAssocCacheSet Nat Nat :=
  ⟨matrix, fun _ => none, 0#32, capacity⟩

theorem valid_emptySet {capacity : Nat} {matrix : BitVec 64} (hcap : capacity ≤ 8)
    (hfree : ∀ r : Fin 8, r.val < capacity → row matrix r = allOnes)
    (hbeyond : ∀ r : Fin 8, capacity ≤ r.val → row matrix r = 0#8) :
    Valid (emptySet capacity matrix) := by
  have hnone (r : Fin 8) : ¬ ((emptySet capacity matrix).slots r).isSome = true :=
    Bool.false_ne_true
  refine ⟨[], [], ⟨⟨packs_nil, ?_, ?_⟩, hcap, ?_, ?_, hbeyond, ?_, ?_⟩, ?_, nodup_nil, ?_⟩
  · intro r
    simp [hnone r]
  · intro i j a b x y _ ha
    simp at ha
  · intro r hr
    exact absurd hr (hnone r)
  · intro r hr _
    exact hfree r hr
  · intro r hr
    exact absurd hr (hnone r)
  · intro r c hr
    exact absurd hr (hnone r)
  · intro r
    simp [hnone r]
  · exact List.Pairwise.nil

end CocoonFs.CacheCalls
