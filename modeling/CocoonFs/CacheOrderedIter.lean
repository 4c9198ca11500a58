import CocoonFs.CacheOrderedCursor
import Mathlib.Algebra.Order.BigOperators.Group.Finset

namespace CocoonFs.CacheOrderedIter

open Checked CacheSet CacheRows CacheOrder CacheInsert CacheCalls Lanes CacheOrderedCursor List Nat
open Function (update_of_ne update_self)
open SetAssocCacheOrderedCursor (batchNext dequeue refillFromSet refillFromWord refillFromWords
  refillNextOrderedBatch subwords4SetOne)
open BitVec (ofNat)

variable {K T : Type} [LinearOrder K]

/-- The entries of each set in key order, no key being in two of the sets. -/
structure SetRuns (pr : Profile) (sets : List (SetAssocCacheSet K T)) (runs : Nat → List (Head K)) :
    Prop where
  slot_eq : ∀ i s, sets[i]? = some s → ∀ n, n < 8 →
    getOrderedSlot pr s.orderedSlots n = .ok ((runs i)[n]?.map Head.slot)
  beyond : ∀ i, sets.length ≤ i → runs i = []
  mem : ∀ i, ∀ x ∈ runs i, x.setIndex = i ∧ keyAt sets i x.slot = .ok x.key
  length_le : ∀ i, (runs i).length ≤ 8
  sorted : ∀ i, (runs i).Pairwise (fun x y => x.key < y.key)
  distinct : ∀ i j, ∀ x ∈ runs i, ∀ y ∈ runs j, x.key = y.key → i = j

structure Positioned (sets : List (SetAssocCacheSet K T)) (runs : Nat → List (Head K))
    (packed : List (BitVec 32)) (pos : Nat → Nat) : Prop where
  nibble : ∀ i, i < sets.length → ∃ w, packed[i / 8]? = some w ∧ (lane 4 w (i % 8)).toNat = pos i
  pos_le : ∀ i, pos i ≤ (runs i).length

/-- Among the first `n` sets, the batch has got the ones that come first with their
next entries. -/
structure Batched (runs : Nat → List (Head K)) (pos : Nat → Nat) (n : Nat) (b : List (Head K)) :
    Prop where
  sorted : b.Pairwise (fun x y => x.key < y.key)
  head : ∀ x ∈ b, x.setIndex < n ∧ (runs x.setIndex)[pos x.setIndex]? = some x
  below : ∀ i, i < n → ∀ h, (runs i)[pos i]? = some h → h ∉ b → ∀ y ∈ b, y.key < h.key

def Filled (runs : Nat → List (Head K)) (pos : Nat → Nat) (n : Nat) (b : List (Head K)) : Prop :=
  ∀ i, i < n → ∀ h, (runs i)[pos i]? = some h → h ∉ b → b.length = 4

variable {x : Head K} {packed : List (BitVec 32)} {l m : List (Head K)} {w : BitVec 32}
  {i value : Nat}

section Steps

variable {pr : Profile} {sets : List (SetAssocCacheSet K T)} {runs : Nat → List (Head K)}
  {pos : Nat → Nat} {n : Nat} {b : List (Head K)} {i : Nat} {h : Head K}

theorem Batched.setIndex_eq (hr : SetRuns pr sets runs)
    (hh : (runs i)[pos i]? = some h) : h.setIndex = i :=
  (hr.mem i h (mem_of_getElem? hh)).1

theorem Batched.key_ne (hr : SetRuns pr sets runs) (hb : Batched runs pos n b)
    (hh : h ∈ runs i) (hi : ∀ x ∈ b, x.setIndex ≠ i) : ∀ x ∈ b, x.key ≠ h.key := by
  intro x hx heq
  exact hi x hx (hr.distinct _ _ x (mem_of_getElem? (hb.head x hx).2) h hh heq)

theorem Batched.keyAt_eq (hr : SetRuns pr sets runs) (hb : Batched runs pos n b) :
    ∀ x ∈ b, keyAt sets x.setIndex x.slot = .ok x.key :=
  fun x hx => (hr.mem _ x (mem_of_getElem? (hb.head x hx).2)).2

theorem Batched.skip (hb : Batched runs pos n b) (hnone : (runs n)[pos n]? = none) :
    Batched runs pos (n + 1) b where
  sorted := hb.sorted
  head := fun x hx => ⟨lt_succ_of_lt (hb.head x hx).1, (hb.head x hx).2⟩
  below := by
    intro i hi h hh
    rcases Nat.lt_succ_iff_lt_or_eq.mp hi with hi | rfl
    · exact hb.below i hi h hh
    · rw [hnone] at hh
      cases hh

omit [LinearOrder K] in
theorem Filled.skip (hf : Filled runs pos n b) (hnone : (runs n)[pos n]? = none) :
    Filled runs pos (n + 1) b := by
  intro i hi h hh
  rcases Nat.lt_succ_iff_lt_or_eq.mp hi with hi | rfl
  · exact hf i hi h hh
  · rw [hnone] at hh
    cases hh

theorem sorted_insert
    (hs : (l ++ m).Pairwise (fun x y => x.key < y.key)) (hl : ∀ x ∈ l, x.key < h.key)
    (hm : ∀ x ∈ m, h.key < x.key) : (l ++ h :: m).Pairwise (fun x y => x.key < y.key) := by
  obtain ⟨hsl, hsm, hlm⟩ := pairwise_append.mp hs
  refine pairwise_append.mpr ⟨hsl, pairwise_cons.mpr ⟨hm, hsm⟩, ?_⟩
  intro x hx y hy
  rcases mem_cons.mp hy with rfl | hy
  · exact hl x hx
  · exact hlm x hx y hy

theorem lt_of_dropped (hs : (l ++ m).Pairwise (fun x y => x.key < y.key))
    (hx : x ∈ m) (hnot : x ∉ m.dropLast) : ∀ y ∈ l ++ m.dropLast, y.key < x.key := by
  rcases m.eq_nil_or_concat with rfl | ⟨m, z, rfl⟩
  · cases hx
  · rw [concat_eq_append] at hs hx hnot ⊢
    rw [dropLast_concat] at hnot ⊢
    obtain rfl : x = z := by
      rcases mem_append.mp hx with hx | hx
      · exact absurd hx hnot
      · exact mem_singleton.mp hx
    rw [← append_assoc] at hs
    exact fun y hy => (pairwise_append.mp hs).2.2 y hy x (by simp)

/-- The next set's entry goes into the batch. Another one is left out only if the
batch was full already, then it's the last one. -/
theorem Batched.insert {l m m' : List (Head K)} (hb : Batched runs pos n (l ++ m))
    (hh : (runs n)[pos n]? = some h) (hidx : h.setIndex = n) (hl : ∀ x ∈ l, x.key < h.key)
    (hm : ∀ x ∈ m, h.key < x.key) (hsub : m'.Sublist m)
    (hlast : ∀ x ∈ m, x ∉ m' → ∀ y ∈ l ++ m', y.key < x.key)
    (hout : ∀ i, i < n → ∀ g, (runs i)[pos i]? = some g → g ∉ l ++ m → h.key < g.key) :
    Batched runs pos (n + 1) (l ++ h :: m') where
  sorted := sorted_insert (hb.sorted.sublist (List.Sublist.append_left hsub l)) hl
    (fun x hx => hm x (hsub.subset hx))
  head := by
    intro x hx
    rcases mem_append.mp hx with hx | hx
    · exact ⟨lt_succ_of_lt (hb.head x (by simp [hx])).1, (hb.head x (by simp [hx])).2⟩
    · rcases mem_cons.mp hx with rfl | hx
      · rw [hidx]
        exact ⟨lt_succ_self n, hh⟩
      · have hx' : x ∈ l ++ m := mem_append_right l (hsub.subset hx)
        exact ⟨lt_succ_of_lt (hb.head x hx').1, (hb.head x hx').2⟩
  below := by
    intro i hi g hg hnot y hy
    rcases Nat.lt_succ_iff_lt_or_eq.mp hi with hi | rfl
    · by_cases hmem : g ∈ l ++ m
      · have hgm : g ∈ m ∧ g ∉ m' := by
          rcases mem_append.mp hmem with hgl | hgm
          · exact absurd (mem_append_left _ hgl) hnot
          · exact ⟨hgm, fun hgm' => hnot (by simp [hgm'])⟩
        rcases mem_append.mp hy with hy | hy
        · exact hlast g hgm.1 hgm.2 y (mem_append_left m' hy)
        · rcases mem_cons.mp hy with rfl | hy
          · exact hm g hgm.1
          · exact hlast g hgm.1 hgm.2 y (mem_append_right l hy)
      · rcases mem_append.mp hy with hy | hy
        · exact hb.below i hi g hg hmem y (mem_append_left m hy)
        · rcases mem_cons.mp hy with rfl | hy
          · exact hout i hi g hg hmem
          · exact hb.below i hi g hg hmem y (mem_append_right l (hsub.subset hy))
    · rw [hh] at hg
      cases hg
      exact absurd (by simp) hnot

/-- The state of a refill that has gone through some of the sets. -/
structure Refilling (runs : Nat → List (Head K)) (pos : Nat → Nat) (n : Nat)
    (c : SetAssocCacheOrderedCursor) (b : List (Head K)) : Prop where
  batch : Batch c (b.map Head.position)
  batched : Batched runs pos n b
  filled : Filled runs pos n b

theorem Refilling.length {c : SetAssocCacheOrderedCursor} (h : Refilling runs pos n c b) :
    c.nextOrderedBatchBegin + b.length = 4 := by
  have hlen := h.batch.length_entries
  rwa [length_map] at hlen

theorem Refilling.skip {c : SetAssocCacheOrderedCursor} (h : Refilling runs pos n c b)
    (hnone : (runs n)[pos n]? = none) : Refilling runs pos (n + 1) c b :=
  ⟨h.batch, h.batched.skip hnone, h.filled.skip hnone⟩

/-- A set's next entry is batched as long as there is room for it or for another
one that comes after it. -/
theorem Refilling.insert (hr : SetRuns pr sets runs) {c : SetAssocCacheOrderedCursor}
    (hc : Refilling runs pos n c b) (hh : (runs n)[pos n]? = some h) :
    ∃ c' b', (do
      let pos ← c.findNextOrderedBatchInsertionPos sets h.key c.nextOrderedBatch.length
      if c.nextOrderedBatchBegin ≠ 0 ∨ pos ≠ c.nextOrderedBatch.length then
        c.nextOrderedBatchInsertAt pr pos (n, h.slot)
      else
        pure c) = .ok c' ∧ Refilling runs pos (n + 1) c' b' ∧
      c'.packedSetsNextOrderedSlotsIndex = c.packedSetsNextOrderedSlotsIndex := by
  have hidx := Batched.setIndex_eq hr hh
  have hlen := hc.length
  have hne := hc.batched.key_ne hr (mem_of_getElem? hh)
    (fun x hx => (hc.batched.head x hx).1.ne)
  obtain ⟨l, m, rfl, hl, hm, hfind⟩ :=
    findPos_spec hc.batch (hc.batched.keyAt_eq hr) hc.batched.sorted hne
  have hbatch := hc.batch
  rw [map_append] at hbatch
  have hpos : (n, h.slot) = h.position := by rw [Head.position, hidx]
  rw [hfind, ok_bind, hpos, hc.batch.length_eq]
  rw [length_append] at hlen
  by_cases hbegin : c.nextOrderedBatchBegin = 0
  · cases m with
    | nil =>
      rw [length_nil] at hlen
      rw [if_neg (by omega)]
      refine ⟨c, l ++ [], rfl, ⟨hc.batch, ?_, ?_⟩, rfl⟩
      · refine ⟨hc.batched.sorted,
          fun x hx => ⟨lt_succ_of_lt (hc.batched.head x hx).1, (hc.batched.head x hx).2⟩, ?_⟩
        intro i hi g hg hnot y hy
        rcases Nat.lt_succ_iff_lt_or_eq.mp hi with hi | rfl
        · exact hc.batched.below i hi g hg hnot y hy
        · rw [hh] at hg
          cases hg
          rw [List.append_nil] at hy
          exact hl y hy
      · intro i hi g hg hnot
        rw [length_append, length_nil]
        omega
    | cons y m =>
      rw [length_cons] at hlen
      rw [if_pos (by omega), hbegin, zero_add]
      obtain ⟨c', hc', hbatch', hpacked⟩ := insertAt_full pr hbatch hbegin h.position
      rw [length_map] at hc'
      refine ⟨c', l ++ h :: (y :: m).dropLast, hc', ⟨?_, ?_, ?_⟩, hpacked⟩
      · rw [map_append, map_cons, map_dropLast]
        exact hbatch'
      · apply hc.batched.insert hh hidx hl hm (dropLast_sublist _)
        · exact fun x hx hnot => lt_of_dropped hc.batched.sorted hx hnot
        · intro i hi g hg hnot
          exact (hm y (by simp)).trans (hc.batched.below i hi g hg hnot y (by simp))
      · intro i hi g hg hnot
        rw [length_append, length_cons, length_dropLast, length_cons]
        omega
  · rw [if_pos (Or.inl hbegin)]
    obtain ⟨c', hc', hbatch', hpacked⟩ := insertAt_spare pr hbatch hbegin h.position
    rw [length_map] at hc'
    have hall : ∀ i, i < n → ∀ g, (runs i)[pos i]? = some g → g ∈ l ++ m := by
      intro i hi g hg
      by_contra hnot
      have hfull := hc.filled i hi g hg hnot
      rw [length_append] at hfull
      omega
    refine ⟨c', l ++ h :: m, hc', ⟨?_, ?_, ?_⟩, hpacked⟩
    · rw [map_append, map_cons]
      exact hbatch'
    · apply hc.batched.insert hh hidx hl hm (List.Sublist.refl m)
      · exact fun x hx hnot => absurd hx hnot
      · exact fun i hi g hg hnot => absurd (hall i hi g hg) hnot
    · intro i hi g hg hnot
      rcases Nat.lt_succ_iff_lt_or_eq.mp hi with hi | rfl
      · have hmem := hall i hi g hg
        refine absurd ?_ hnot
        rcases mem_append.mp hmem with hmem | hmem
        · exact mem_append_left _ hmem
        · exact mem_append_right _ (mem_cons_of_mem h hmem)
      · rw [hh] at hg
        cases hg
        exact absurd (by simp) hnot

theorem refillFromSet_ok (hr : SetRuns pr sets runs) (hpos : pos n ≤ (runs n).length)
    (hn : n < sets.length) {c : SetAssocCacheOrderedCursor} (hc : Refilling runs pos n c b) :
    ∃ c' b', refillFromSet pr sets c n (pos n) = .ok c' ∧
      Refilling runs pos (n + 1) c' b' ∧
      c'.packedSetsNextOrderedSlotsIndex = c.packedSetsNextOrderedSlotsIndex := by
  have hlen := hr.length_le n
  rw [refillFromSet]
  by_cases hmax : pos n = maxAssociativity
  · rw [if_pos hmax]
    have hnone : (runs n)[pos n]? = none := by
      rw [List.getElem?_eq_none_iff]
      rw [maxAssociativity] at hmax
      omega
    exact ⟨c, b, rfl, hc.skip hnone, rfl⟩
  · have hget : sets[n]? = some sets[n] := getElem?_eq_getElem hn
    have hlt : pos n < 8 := by
      rw [maxAssociativity] at hmax
      omega
    rw [if_neg hmax, index_ok hget, ok_bind, hr.slot_eq n _ hget (pos n) hlt, ok_bind]
    cases hh : (runs n)[pos n]? with
    | none => exact ⟨c, b, rfl, hc.skip hh, rfl⟩
    | some h =>
      dsimp only [Option.map_some]
      rw [(hr.mem n h (mem_of_getElem? hh)).2, ok_bind]
      exact hc.insert hr hh

theorem Refilling.beyond (hr : SetRuns pr sets runs) {c : SetAssocCacheOrderedCursor}
    (hc : Refilling runs pos n c b) (hn : sets.length ≤ n) : Refilling runs pos (n + 1) c b :=
  hc.skip (by rw [hr.beyond n hn]; rfl)

theorem Refilling.beyond_add (hr : SetRuns pr sets runs) {c : SetAssocCacheOrderedCursor}
    (hc : Refilling runs pos n c b) (hn : sets.length ≤ n) (k : Nat) :
    Refilling runs pos (n + k) c b := by
  induction k with
  | zero => exact hc
  | succ k ih => exact ih.beyond hr (by omega)

theorem refillFromWord_ok (hr : SetRuns pr sets runs)
    (hp : Positioned sets runs packed pos) (hw : packed[i]? = some w)
    (k j : Nat) (hk : k + j = 8) {c : SetAssocCacheOrderedCursor}
    (hc : Refilling runs pos (8 * i + j) c b) :
    ∃ c' b', refillFromWord pr sets k (8 * i + j) (w >>> (4 * j)) c =
      .ok c' ∧ Refilling runs pos (8 * i + 8) c' b' ∧
      c'.packedSetsNextOrderedSlotsIndex = c.packedSetsNextOrderedSlotsIndex := by
  induction k generalizing j c b with
  | zero =>
    obtain rfl : j = 8 := by omega
    exact ⟨c, b, rfl, hc, rfl⟩
  | succ k ih =>
    rw [refillFromWord]
    by_cases hend : 8 * i + j ≥ sets.length
    · rw [if_pos hend]
      refine ⟨c, b, rfl, ?_, rfl⟩
      have hbeyond := hc.beyond_add hr hend (8 - j)
      rwa [show 8 * i + j + (8 - j) = 8 * i + 8 by omega] at hbeyond
    · obtain ⟨w', hw', hlane⟩ := hp.nibble (8 * i + j) (by omega)
      rw [show (8 * i + j) / 8 = i by omega, hw] at hw'
      cases hw'
      rw [show (8 * i + j) % 8 = j by omega] at hlane
      obtain ⟨c₁, b₁, hc₁, hrefilling, hpacked⟩ :=
        refillFromSet_ok hr (hp.pos_le _) (by omega) hc
      obtain ⟨c', b', hc', hrefilling', hpacked'⟩ := ih (j + 1) (by omega) hrefilling
      rw [if_neg hend, toNat_low_nibble, hlane, hc₁, ok_bind, ← BitVec.shiftRight_add,
        show 4 * j + 4 = 4 * (j + 1) by omega, add_assoc]
      exact ⟨c', b', hc', hrefilling', hpacked'.trans hpacked⟩

theorem refillFromWords_ok (hr : SetRuns pr sets runs)
    (hp : Positioned sets runs packed pos) (rest : List (BitVec 32)) (i : Nat)
    (hrest : packed.drop i = rest) {c : SetAssocCacheOrderedCursor}
    (hc : Refilling runs pos (8 * i) c b) :
    ∃ c' b', refillFromWords pr sets i rest c = .ok c' ∧
      Refilling runs pos (8 * (i + rest.length)) c' b' ∧
      c'.packedSetsNextOrderedSlotsIndex = c.packedSetsNextOrderedSlotsIndex := by
  induction rest generalizing i c b with
  | nil => exact ⟨c, b, rfl, hc, rfl⟩
  | cons w rest ih =>
    have hw : packed[i]? = some w := by
      have hget : (packed.drop i)[0]? = some w := by rw [hrest]; rfl
      rwa [getElem?_drop, add_zero] at hget
    have htail : packed.drop (i + 1) = rest := by
      rw [← drop_drop, hrest]
      rfl
    obtain ⟨c₁, b₁, hc₁, hrefilling, hpacked⟩ := refillFromWord_ok hr hp hw 8 0 (by decide) hc
    obtain ⟨c', b', hc', hrefilling', hpacked'⟩ := ih (i + 1) htail hrefilling
    rw [mul_zero, BitVec.ushiftRight_zero, add_zero] at hc₁
    rw [refillFromWords, hc₁, ok_bind, hc']
    refine ⟨c', b', rfl, ?_, hpacked'.trans hpacked⟩
    rwa [length_cons, show i + (rest.length + 1) = i + 1 + rest.length by omega]

structure Iterating (sets : List (SetAssocCacheSet K T)) (runs : Nat → List (Head K))
    (pos : Nat → Nat) (c : SetAssocCacheOrderedCursor) (b : List (Head K)) : Prop where
  batch : Batch c (b.map Head.position)
  batched : Batched runs pos sets.length b
  positioned : Positioned sets runs c.packedSetsNextOrderedSlotsIndex pos
  length_eq : sets.length ≤ 8 * c.packedSetsNextOrderedSlotsIndex.length

theorem Batched.restrict (hr : SetRuns pr sets runs) (hb : Batched runs pos n b)
    (hn : sets.length ≤ n) : Batched runs pos sets.length b where
  sorted := hb.sorted
  head := by
    intro x hx
    obtain ⟨-, hget⟩ := hb.head x hx
    refine ⟨?_, hget⟩
    by_contra hge
    rw [hr.beyond _ (Nat.le_of_not_lt hge)] at hget
    cases hget
  below := fun i hi => hb.below i (lt_of_lt_of_le hi hn)

theorem refill_ok (hr : SetRuns pr sets runs) {c : SetAssocCacheOrderedCursor}
    (hc : Iterating sets runs pos c []) :
    ∃ c' b', c.refillNextOrderedBatch pr sets = .ok c' ∧ Iterating sets runs pos c' b' ∧
      (b' = [] → ∀ i, (runs i)[pos i]? = none) := by
  have hlen := hc.batch.length_entries
  rw [map_nil, length_nil] at hlen
  have hstart : Refilling runs pos (8 * 0) c [] :=
    ⟨hc.batch, ⟨List.Pairwise.nil, by simp, fun i hi => absurd hi (by omega)⟩,
      fun i hi => absurd hi (by omega)⟩
  obtain ⟨c', b', hc', hrefilling, hpacked⟩ := refillFromWords_ok hr hc.positioned
    c.packedSetsNextOrderedSlotsIndex 0 rfl hstart
  rw [refillNextOrderedBatch,
    debugAssert_ok pr (by rw [hc.batch.length_eq]; omega), ok_bind, hc']
  refine ⟨c', b', rfl, ⟨hrefilling.batch, hrefilling.batched.restrict hr ?_, ?_, ?_⟩, ?_⟩
  · rw [zero_add]
    exact hc.length_eq
  · rw [hpacked]
    exact hc.positioned
  · rw [hpacked]
    exact hc.length_eq
  · rintro rfl i
    cases hh : (runs i)[pos i]? with
    | none => rfl
    | some h =>
      have hi : i < sets.length := by
        by_contra hge
        rw [hr.beyond i (Nat.le_of_not_lt hge)] at hh
        cases hh
      have hfull := hrefilling.filled i (by have := hc.length_eq; omega) h hh (by simp)
      cases hfull

theorem Iterating.first (hr : SetRuns pr sets runs) {c : SetAssocCacheOrderedCursor}
    (hc : Iterating sets runs pos c (x :: b)) (i : Nat) :
    ∀ z ∈ (runs i).drop (pos i), z = x ∨ x.key < z.key := by
  intro z hz
  have hi : i < sets.length := by
    by_contra hge
    rw [hr.beyond i (Nat.le_of_not_lt hge), drop_nil] at hz
    cases hz
  obtain ⟨h, tail, htail⟩ := exists_cons_of_ne_nil (ne_nil_of_mem hz)
  have hh : (runs i)[pos i]? = some h := by
    have hget : ((runs i).drop (pos i))[0]? = some h := by rw [htail]; rfl
    rwa [getElem?_drop, add_zero] at hget
  have hhx : h = x ∨ x.key < h.key := by
    by_cases hmem : h ∈ x :: b
    · rcases mem_cons.mp hmem with rfl | hmem
      · exact .inl rfl
      · exact .inr ((pairwise_cons.mp hc.batched.sorted).1 h hmem)
    · exact .inr (hc.batched.below i hi h hh hmem x (by simp))
  have hsorted : (h :: tail).Pairwise (fun x y => x.key < y.key) := by
    rw [← htail]
    exact (hr.sorted i).sublist (drop_sublist _ _)
  rw [htail] at hz
  rcases mem_cons.mp hz with rfl | hz
  · exact hhx
  · have hlt := (pairwise_cons.mp hsorted).1 z hz
    rcases hhx with rfl | hhx
    · exact .inr hlt
    · exact .inr (hhx.trans hlt)

theorem lane_setOne (hi : i < 8) (hv : value < 16) {j : Nat} (hj : j < 8) :
    lane 4 (w &&& ~~~(0xf#32 <<< (4 * i)) ||| ofNat 32 value <<< (4 * i)) j =
      if j = i then ofNat 4 value else lane 4 w j := by
  have hmask : ∀ i < 8, ∀ j < 8, lane 4 (~~~(0xf#32 <<< (4 * i))) j =
      if j = i then 0#4 else BitVec.allOnes 4 := by decide
  have hvalue : ∀ value < 16, ∀ k < 8, lane 4 (ofNat 32 value) k =
      if k = 0 then ofNat 4 value else 0#4 := by decide
  rw [lane_or, lane_and, hmask i hi j hj, lane_shiftLeft _ _ (by omega)]
  by_cases heq : j = i
  · subst heq
    rw [if_pos rfl, if_neg (by omega), if_pos rfl, Nat.sub_self, hvalue value hv 0 (by decide),
      if_pos rfl, BitVec.and_zero, BitVec.zero_or]
  · rw [if_neg heq, if_neg heq, BitVec.and_allOnes]
    by_cases hlt : j < i
    · rw [if_pos hlt, BitVec.or_zero]
    · rw [if_neg hlt, hvalue value hv _ (by omega), if_neg (by omega), BitVec.or_zero]

theorem subwords4SetOne_ok (pr : Profile) (w : BitVec 32) (hi : i < 8) (hv : value < 16) :
    subwords4SetOne pr w i value =
      .ok (w &&& ~~~(0xf#32 <<< (4 * i)) ||| ofNat 32 value <<< (4 * i)) := by
  rw [subwords4SetOne, debugAssert_ok pr hi, ok_bind,
    debugAssert_ok pr hv, ok_bind, shl_ok pr _ (by omega), ok_bind, shl_ok pr _ (by omega), ok_bind]
  rfl

def advanced (pos : Nat → Nat) (i : Nat) : Nat → Nat := Function.update pos i (pos i + 1)

theorem Positioned.advance (hp : Positioned sets runs packed pos)
    (hr : SetRuns pr sets runs) (hi : i < sets.length) (hlt : pos i < (runs i).length)
    (hw : packed[i / 8]? = some w) :
    Positioned sets runs (packed.set (i / 8)
      (w &&& ~~~(0xf#32 <<< (4 * (i % 8))) ||| ofNat 32 (pos i + 1) <<< (4 * (i % 8))))
      (advanced pos i) := by
  have hlen := hr.length_le i
  have hset := (List.getElem?_eq_some_iff.mp hw).1
  refine ⟨fun j hj => ?_, fun j => ?_⟩
  · obtain ⟨w', hw', hlane⟩ := hp.nibble j hj
    by_cases hword : j / 8 = i / 8
    · rw [hword, hw] at hw'
      cases hw'
      refine ⟨_, by rw [hword, getElem?_set_self hset], ?_⟩
      rw [lane_setOne (by omega) (by omega) (by omega)]
      by_cases heq : j = i
      · subst heq
        rw [if_pos rfl, advanced, update_self, BitVec.toNat_ofNat, mod_eq_of_lt (by omega)]
      · rw [if_neg (by omega), hlane, advanced, update_of_ne heq]
    · refine ⟨w', by rw [getElem?_set_ne (Ne.symm hword), hw'], ?_⟩
      rw [hlane, advanced, update_of_ne (fun heq => hword (by rw [heq]))]
  · by_cases heq : j = i
    · subst heq
      rw [advanced, update_self]
      exact hlt
    · rw [advanced, update_of_ne heq]
      exact hp.pos_le j

/-- The batch with the next entry of one of the sets not considered. -/
structure BatchedBut (runs : Nat → List (Head K)) (pos : Nat → Nat) (i n : Nat)
    (b : List (Head K)) : Prop where
  sorted : b.Pairwise (fun x y => x.key < y.key)
  head : ∀ x ∈ b, x.setIndex < n ∧ x.setIndex ≠ i ∧ (runs x.setIndex)[pos x.setIndex]? = some x
  below : ∀ j, j < n → j ≠ i → ∀ h, (runs j)[pos j]? = some h → h ∉ b → ∀ y ∈ b, y.key < h.key

theorem Batched.tail (hr : SetRuns pr sets runs) (hb : Batched runs pos n (x :: b)) :
    BatchedBut runs (advanced pos x.setIndex) x.setIndex n b := by
  obtain ⟨hx, hsorted⟩ := pairwise_cons.mp hb.sorted
  have hother : ∀ y ∈ b, y.setIndex ≠ x.setIndex := by
    intro y hy heq
    have hgety := (hb.head y (by simp [hy])).2
    rw [heq, (hb.head x (by simp)).2] at hgety
    cases hgety
    exact lt_irrefl _ (hx x hy)
  have hpos : ∀ j, j ≠ x.setIndex → advanced pos x.setIndex j = pos j :=
    fun j hj => update_of_ne hj _ _
  refine ⟨hsorted, fun y hy => ?_, fun j hj hne h hh hnot y hy => ?_⟩
  · obtain ⟨hlt, hget⟩ := hb.head y (by simp [hy])
    refine ⟨hlt, hother y hy, ?_⟩
    rw [hpos _ (hother y hy)]
    exact hget
  · rw [hpos j hne] at hh
    refine hb.below j hj h hh (fun hmem => ?_) y (by simp [hy])
    rcases mem_cons.mp hmem with rfl | hmem
    · exact hne (Batched.setIndex_eq hr hh).symm
    · exact hnot hmem

theorem BatchedBut.batched (hb : BatchedBut runs pos i n b)
    (hi : ∀ h, (runs i)[pos i]? = some h → ∀ y ∈ b, y.key < h.key) : Batched runs pos n b where
  sorted := hb.sorted
  head := fun x hx => ⟨(hb.head x hx).1, (hb.head x hx).2.2⟩
  below := by
    intro j hj h hh hnot
    by_cases hji : j = i
    · subst hji
      exact hi h hh
    · exact hb.below j hj hji h hh hnot

theorem BatchedBut.insert {y h : Head K}
    (hb : BatchedBut runs pos i n (l ++ y :: m)) (hi : i < n) (hidx : h.setIndex = i)
    (hh : (runs i)[pos i]? = some h) (hl : ∀ x ∈ l, x.key < h.key)
    (hm : ∀ x ∈ y :: m, h.key < x.key) : Batched runs pos n (l ++ h :: y :: m) where
  sorted := sorted_insert hb.sorted hl hm
  head := by
    intro x hx
    rcases mem_append.mp hx with hx | hx
    · exact ⟨(hb.head x (mem_append_left _ hx)).1, (hb.head x (mem_append_left _ hx)).2.2⟩
    · rcases mem_cons.mp hx with rfl | hx
      · rw [hidx]
        exact ⟨hi, hh⟩
      · exact ⟨(hb.head x (mem_append_right l hx)).1,
          (hb.head x (mem_append_right l hx)).2.2⟩
  below := by
    intro j hj g hg hnot z hz
    by_cases hji : j = i
    · rw [hji, hh] at hg
      cases hg
      exact absurd (by simp) hnot
    · have hnot' : g ∉ l ++ y :: m := by
        intro hmem
        rcases mem_append.mp hmem with hmem | hmem
        · exact hnot (mem_append_left _ hmem)
        · exact hnot (mem_append_right l (mem_cons_of_mem h hmem))
      have hbelow := hb.below j hj hji g hg hnot'
      rcases mem_append.mp hz with hz | hz
      · exact hbelow z (mem_append_left _ hz)
      · rcases mem_cons.mp hz with rfl | hz
        · exact (hm y (by simp)).trans (hbelow y (by simp))
        · exact hbelow z (mem_append_right l hz)

theorem batchNext_ok (hr : SetRuns pr sets runs) {c : SetAssocCacheOrderedCursor}
    (hi : i < sets.length) (hle : pos i ≤ 8) (hbatch : Batch c (b.map Head.position))
    (hbegin : c.nextOrderedBatchBegin ≠ 0) (hb : BatchedBut runs pos i sets.length b) :
    ∃ c' b', c.batchNext pr sets i (pos i) = .ok c' ∧ Batch c' (b'.map Head.position) ∧
      Batched runs pos sets.length b' ∧
      c'.packedSetsNextOrderedSlotsIndex = c.packedSetsNextOrderedSlotsIndex := by
  have hlen := hbatch.length_entries
  rw [length_map] at hlen
  rw [batchNext]
  by_cases hstop : pos i = maxAssociativity ∨ c.nextOrderedBatchBegin = c.nextOrderedBatch.length
  · rw [if_pos hstop]
    refine ⟨c, b, rfl, hbatch, hb.batched (fun h hh y hy => ?_), rfl⟩
    rcases hstop with hmax | hempty
    · have hlt := (List.getElem?_eq_some_iff.mp hh).1
      have hlen8 := hr.length_le i
      rw [maxAssociativity] at hmax
      omega
    · rw [hbatch.length_eq] at hempty
      rw [eq_nil_of_length_eq_zero (show b.length = 0 by omega)] at hy
      cases hy
  · have hget : sets[i]? = some sets[i] := getElem?_eq_getElem hi
    have hlt : pos i < 8 := by
      have hne := (not_or.mp hstop).1
      rw [maxAssociativity] at hne
      omega
    rw [if_neg hstop, index_ok hget, ok_bind, hr.slot_eq i _ hget (pos i) hlt, ok_bind]
    cases hh : (runs i)[pos i]? with
    | none =>
      refine ⟨c, b, rfl, hbatch, hb.batched (fun h hh' => ?_), rfl⟩
      rw [hh] at hh'
      cases hh'
    | some h =>
      have hidx := Batched.setIndex_eq hr hh
      have hmem := mem_of_getElem? hh
      have hkeys : ∀ x ∈ b, keyAt sets x.setIndex x.slot = .ok x.key :=
        fun x hx => (hr.mem _ x (mem_of_getElem? (hb.head x hx).2.2)).2
      have hne : ∀ x ∈ b, x.key ≠ h.key := fun x hx heq =>
        (hb.head x hx).2.1
          (hr.distinct _ _ x (mem_of_getElem? (hb.head x hx).2.2) h hmem heq)
      obtain ⟨l, m, rfl, hl, hm, hfind⟩ := findPos_spec hbatch hkeys hb.sorted hne
      have hpos : (i, h.slot) = h.position := by rw [Head.position, hidx]
      dsimp only [Option.map_some]
      rw [(hr.mem i h hmem).2, ok_bind, hfind, ok_bind, hpos, hbatch.length_eq]
      rw [length_append] at hlen
      cases m with
      | nil =>
        rw [length_nil] at hlen
        rw [if_neg (by omega)]
        refine ⟨c, l ++ [], rfl, hbatch, hb.batched (fun g hg y hy => ?_), rfl⟩
        rw [hh] at hg
        cases hg
        rw [List.append_nil] at hy
        exact hl y hy
      | cons y m =>
        rw [length_cons] at hlen
        rw [map_append] at hbatch
        obtain ⟨c', hc', hbatch', hpacked⟩ := insertAt_spare pr hbatch hbegin h.position
        rw [length_map] at hc'
        rw [if_pos (by omega)]
        refine ⟨c', l ++ h :: y :: m, hc', ?_, hb.insert hi hidx hh hl hm, hpacked⟩
        rw [map_append, map_cons]
        exact hbatch'

theorem dequeue_ok (hr : SetRuns pr sets runs) {c : SetAssocCacheOrderedCursor}
    (hc : Iterating sets runs pos c (x :: b)) :
    ∃ c' b', c.dequeue pr sets = .ok (x.position, c') ∧
      Iterating sets runs (advanced pos x.setIndex) c' b' := by
  have hlen := hc.batch.length_entries
  rw [length_map, length_cons] at hlen
  obtain ⟨hi, hhead⟩ := hc.batched.head x (by simp)
  have hlt := (List.getElem?_eq_some_iff.mp hhead).1
  have hlen8 := hr.length_le x.setIndex
  have hget : c.nextOrderedBatch[c.nextOrderedBatchBegin]? = some x.position := by
    have hdrop : (c.nextOrderedBatch.drop c.nextOrderedBatchBegin)[0]? = some x.position := by
      rw [hc.batch.drop_eq]
      rfl
    rwa [getElem?_drop, add_zero] at hdrop
  obtain ⟨w, hw, hlane⟩ := hc.positioned.nibble x.setIndex hi
  have hwlen := (List.getElem?_eq_some_iff.mp hw).1
  have hshift : x.setIndex >>> 3 = x.setIndex / 8 := shiftRight_eq_div_pow _ 3
  have hmask : x.setIndex &&& 0x7 = x.setIndex % 8 := and_two_pow_sub_one_eq_mod _ 3
  have hadvanced : advanced pos x.setIndex x.setIndex = pos x.setIndex + 1 :=
    update_self ..
  have hbatch : Batch ⟨c.packedSetsNextOrderedSlotsIndex.set (x.setIndex / 8)
      (w &&& ~~~(0xf#32 <<< (4 * (x.setIndex % 8))) |||
        ofNat 32 (pos x.setIndex + 1) <<< (4 * (x.setIndex % 8))),
      c.nextOrderedBatch, c.nextOrderedBatchBegin + 1⟩ (b.map Head.position) := by
    refine ⟨hc.batch.length_eq, by dsimp only; omega, ?_⟩
    rw [← drop_drop, hc.batch.drop_eq]
    rfl
  obtain ⟨c', b', hc', hbatch', hbatched, hpacked⟩ := batchNext_ok hr hi
    (by rw [hadvanced]; omega) hbatch (succ_ne_zero _) (hc.batched.tail hr)
  rw [hadvanced] at hc'
  refine ⟨c', b', ?_, hbatch', hbatched, ?_, ?_⟩
  · rw [dequeue, index_ok hget, ok_bind]
    dsimp only [Head.position]
    rw [hshift, hmask, index_ok hw, ok_bind, shr_ok pr _ (by omega), ok_bind, toNat_low_nibble,
      hlane, subwords4SetOne_ok pr w (by omega) (by omega), ok_bind, setAt, if_pos hwlen, ok_bind,
      hc', ok_bind]
    rfl
  · rw [hpacked]
    exact hc.positioned.advance hr hi hlt hw
  · rw [hpacked]
    rw [length_set]
    exact hc.length_eq

theorem dequeue_some (hr : SetRuns pr sets runs) {c : SetAssocCacheOrderedCursor} {x : Head K}
    {b : List (Head K)} (hc : Iterating sets runs pos c (x :: b)) :
    ∃ c' b', (do
      let (dequeued, c) ← c.dequeue pr sets
      pure (some dequeued, c)) = .ok (some x.position, c') ∧
      Iterating sets runs (advanced pos x.setIndex) c' b' := by
  obtain ⟨c', b', hc', hiter⟩ := dequeue_ok hr hc
  rw [hc', ok_bind]
  exact ⟨c', b', rfl, hiter⟩

/-- Either there is nothing left, or else the entry that comes first is returned. -/
theorem next_ok (hr : SetRuns pr sets runs) {c : SetAssocCacheOrderedCursor}
    (hc : Iterating sets runs pos c b) :
    (∃ c', c.next pr sets = .ok (none, c') ∧ ∀ i, (runs i).drop (pos i) = []) ∨
    ∃ x c' b', c.next pr sets = .ok (some x.position, c') ∧
      Iterating sets runs (advanced pos x.setIndex) c' b' ∧
      (runs x.setIndex)[pos x.setIndex]? = some x ∧
      ∀ i, ∀ z ∈ (runs i).drop (pos i), z = x ∨ x.key < z.key := by
  have hlen := hc.batch.length_entries
  rw [length_map] at hlen
  rw [SetAssocCacheOrderedCursor.next]
  cases b with
  | nil =>
    obtain ⟨c₁, b₁, hc₁, hiter, hempty⟩ := refill_ok hr hc
    have hlen₁ := hiter.batch.length_entries
    rw [length_map] at hlen₁
    rw [if_pos (by rw [hc.batch.length_eq]; omega), hc₁, ok_bind]
    cases b₁ with
    | nil =>
      rw [if_pos (by rw [hiter.batch.length_eq]; omega)]
      refine .inl ⟨c₁, rfl, fun i => ?_⟩
      have hnone := List.getElem?_eq_none_iff.mp (hempty rfl i)
      exact drop_eq_nil_of_le hnone
    | cons x b₁ =>
      rw [length_cons] at hlen₁
      rw [if_neg (by rw [hiter.batch.length_eq]; omega)]
      obtain ⟨c', b', hc', hiter'⟩ := dequeue_some hr hiter
      exact .inr ⟨x, c', b', hc', hiter', (hiter.batched.head x (by simp)).2, hiter.first hr⟩
  | cons x b =>
    rw [length_cons] at hlen
    rw [if_neg (by rw [hc.batch.length_eq]; omega)]
    obtain ⟨c', b', hc', hiter'⟩ := dequeue_some hr hc
    exact .inr ⟨x, c', b', hc', hiter', (hc.batched.head x (by simp)).2, hc.first hr⟩

end Steps

/-- What is emitted one after the other until there's nothing more. -/
inductive Emits {σ α : Type} (done : σ → Prop) (emit : σ → α → σ → Prop) : σ → List α → Prop
  | nil {st : σ} : done st → Emits done emit st []
  | cons {st st' : σ} {x : α} {xs : List α} :
      emit st x st' → Emits done emit st' xs → Emits done emit st (x :: xs)

def entryAt (sets : List (SetAssocCacheSet K T)) (x : Head K) : Option (K × T) :=
  sets[x.setIndex]?.bind fun s => if h : x.slot < 8 then s.slots ⟨x.slot, h⟩ else none

section Run

variable {pr : Profile} {sets : List (SetAssocCacheSet K T)} {runs : Nat → List (Head K)}
  {pos : Nat → Nat}

theorem advanced_self (i : Nat) : advanced pos i i = pos i + 1 := update_self ..

theorem advanced_of_ne {i j : Nat} (h : j ≠ i) : advanced pos i j = pos j :=
  update_of_ne h _ _

omit [LinearOrder K] in
theorem drop_eq_cons (hx : (runs x.setIndex)[pos x.setIndex]? = some x) :
    (runs x.setIndex).drop (pos x.setIndex) =
      x :: (runs x.setIndex).drop (advanced pos x.setIndex x.setIndex) := by
  obtain ⟨hlt, heq⟩ := List.getElem?_eq_some_iff.mp hx
  rw [advanced_self, drop_eq_getElem_cons hlt, heq]

omit [LinearOrder K] in
theorem mem_drop_iff (hx : (runs x.setIndex)[pos x.setIndex]? = some x) (z : Head K) :
    (∃ i, z ∈ (runs i).drop (pos i)) ↔
      z = x ∨ ∃ i, z ∈ (runs i).drop (advanced pos x.setIndex i) := by
  have hcons := drop_eq_cons hx
  constructor
  · rintro ⟨i, hz⟩
    by_cases hi : i = x.setIndex
    · rw [hi, hcons] at hz
      rcases mem_cons.mp hz with rfl | hz
      · exact .inl rfl
      · exact .inr ⟨x.setIndex, hz⟩
    · exact .inr ⟨i, by rwa [advanced_of_ne hi]⟩
  · rintro (rfl | ⟨i, hz⟩)
    · exact ⟨z.setIndex, by rw [hcons]; exact mem_cons_self ..⟩
    · by_cases hi : i = x.setIndex
      · subst hi
        exact ⟨x.setIndex, by rw [hcons]; exact mem_cons_of_mem x hz⟩
      · rw [advanced_of_ne hi] at hz
        exact ⟨i, hz⟩

theorem not_mem_drop_advanced (hr : SetRuns pr sets runs)
    (hx : (runs x.setIndex)[pos x.setIndex]? = some x) (i : Nat) :
    x ∉ (runs i).drop (advanced pos x.setIndex i) := by
  intro hmem
  obtain rfl : x.setIndex = i := (hr.mem i x (mem_of_mem_drop hmem)).1
  have hsorted : ((runs x.setIndex).drop (pos x.setIndex)).Pairwise (fun x y => x.key < y.key) :=
    (hr.sorted x.setIndex).sublist (drop_sublist _ _)
  rw [drop_eq_cons hx] at hsorted
  exact lt_irrefl _ ((pairwise_cons.mp hsorted).1 x hmem)

def left (runs : Nat → List (Head K)) (n : Nat) (pos : Nat → Nat) : Nat :=
  ∑ i ∈ Finset.range n, ((runs i).length - pos i)

omit [LinearOrder K] in
theorem left_advanced_lt {n : Nat} (hn : x.setIndex < n)
    (hx : (runs x.setIndex)[pos x.setIndex]? = some x) :
    left runs n (advanced pos x.setIndex) < left runs n pos := by
  have hlt := (List.getElem?_eq_some_iff.mp hx).1
  apply Finset.sum_lt_sum
  · intro i _
    by_cases hi : i = x.setIndex
    · subst hi
      rw [advanced_self]
      omega
    · rw [advanced_of_ne hi]
  · refine ⟨x.setIndex, Finset.mem_range.mpr hn, ?_⟩
    rw [advanced_self]
    omega

/-- Whatever takes the entries that come first, one after the other, emits all of
them in order. -/
theorem emits_all (hr : SetRuns pr sets runs) {σ : Type} {done : σ → Prop}
    {emit : σ → K × T → σ → Prop} (inv : σ → (Nat → Nat) → Prop)
    (hstep : ∀ st pos, inv st pos → (done st ∧ ∀ i, (runs i).drop (pos i) = []) ∨
      ∃ x e st', entryAt sets x = some e ∧ e.1 = x.key ∧ emit st e st' ∧
        inv st' (advanced pos x.setIndex) ∧ (runs x.setIndex)[pos x.setIndex]? = some x ∧
        ∀ i, ∀ z ∈ (runs i).drop (pos i), z = x ∨ x.key < z.key) {st : σ} (hst : inv st pos) :
    ∃ items, Emits done emit st items ∧ items.Pairwise (fun x y => x.1 < y.1) ∧
      ∀ e, e ∈ items ↔ ∃ z, (∃ i, z ∈ (runs i).drop (pos i)) ∧ entryAt sets z = some e ∧
        e.1 = z.key := by
  induction hleft : left runs sets.length pos using Nat.strongRecOn generalizing st pos with
  | ind k ih =>
    obtain ⟨hdone, hnil⟩ | ⟨x, e, st', he, hkey, hemit, hinv, hx, hfirst⟩ := hstep st pos hst
    · refine ⟨[], .nil hdone, List.Pairwise.nil, fun e => ?_⟩
      simp [hnil]
    · have hn : x.setIndex < sets.length := by
        by_contra hge
        rw [hr.beyond _ (Nat.le_of_not_lt hge)] at hx
        cases hx
      obtain ⟨items, hitems, hsorted, hmem⟩ :=
        ih _ (hleft ▸ left_advanced_lt hn hx) hinv rfl
      refine ⟨e :: items, .cons hemit hitems, pairwise_cons.mpr ⟨?_, hsorted⟩, fun e' => ?_⟩
      · intro e' he'
        obtain ⟨z, hz, -, hzkey⟩ := (hmem e').mp he'
        obtain ⟨i, hzi⟩ := (mem_drop_iff hx z).mpr (.inr hz)
        obtain ⟨j, hzj⟩ := hz
        rcases hfirst i z hzi with rfl | hlt
        · exact absurd hzj (not_mem_drop_advanced hr hx j)
        · rwa [hkey, hzkey]
      · rw [mem_cons, hmem e']
        constructor
        · rintro (rfl | ⟨z, hz, hrest⟩)
          · exact ⟨x, (mem_drop_iff hx x).mpr (.inl rfl), he, hkey⟩
          · exact ⟨z, (mem_drop_iff hx z).mpr (.inr hz), hrest⟩
        · rintro ⟨z, hz, hze, hzkey⟩
          rcases (mem_drop_iff hx z).mp hz with rfl | hz
          · exact .inl (Option.some.inj (hze.symm.trans he))
          · exact .inr ⟨z, hz, hze, hzkey⟩

end Run

end CocoonFs.CacheOrderedIter
