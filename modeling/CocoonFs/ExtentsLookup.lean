import CocoonFs.Extents

namespace CocoonFs.ExtentsLookup

open Checked Extents List Nat
open LogicalExtents (allocationBlockCount beginAt findFirst findLast lookupRange)

def LogicalExtent.logicalRange (pr : Profile) (x : LogicalExtent) : Comp BlockRange := do
  let logicalEnd ← checkedAdd x.logicalBegin x.allocationBlockCount
  BlockRange.new pr x.logicalBegin logicalEnd

/-- The part of the containing extent from the query position on. -/
def LogicalExtents.lookup (pr : Profile) (x : LogicalExtents) (query : Nat) :
    Comp (Option LogicalExtent) :=
  let i := x.extents.findIdx (fun entry => query < entry.2)
  if i = x.extents.length then .ok none
  else do
    let logicalRange ← x.entryLogicalRange pr i
    let entry ← index x.extents i
    let offsetInExtent ← checkedSub query logicalRange.b
    let logicalBegin ← checkedAdd logicalRange.b offsetInExtent
    let physicalBegin ← checkedAdd entry.1 offsetInExtent
    let count ← checkedSub logicalRange.e logicalBegin
    pure (some ⟨logicalBegin, physicalBegin, count⟩)

/-- The extent that contains a logical block, by its index and entry. -/
structure InExtent (x : LogicalExtents) (q k : Nat) (entry : Nat × Nat) : Prop where
  entry_eq : x.extents[k]? = some entry
  b_le : x.beginAt k ≤ q
  lt_e : q < entry.2

def AtBlock (x : LogicalExtents) (q b : Nat) : Prop :=
  ∃ k entry, InExtent x q k entry ∧ b = entry.1 + (q - x.beginAt k)

def SameExtent (x : LogicalExtents) (q q' : Nat) : Prop :=
  ∃ k entry, InExtent x q k entry ∧ InExtent x q' k entry

variable {entry : Nat × Nat}

theorem beginAt_mono (x : LogicalExtents) {k k' : Nat} (hlt : k < k')
    (hk : x.extents[k]? = some entry) (hk' : k' < x.extents.length) : entry.2 ≤ x.beginAt k' := by
  obtain ⟨k', rfl⟩ : ∃ m, k' = m + 1 := ⟨k' - 1, by omega⟩
  have hget : x.extents[k']? = some x.extents[k'] := getElem?_eq_getElem (by omega)
  have hbegin : x.beginAt (k' + 1) = x.extents[k'].2 := by
    simp [beginAt, hget]
  rw [hbegin]
  rcases lt_or_eq_of_le (le_of_lt_succ hlt) with hlt | rfl
  · obtain ⟨hklen, rfl⟩ := List.getElem?_eq_some_iff.mp hk
    have htail := (pairwise_cons.mp x.ascending).2
    have := pairwise_iff_getElem.mp htail k k' (by simpa using hklen)
      (by rw [length_map]; omega) hlt
    simp only [getElem_map] at this
    exact this.le
  · rw [hk] at hget
    rw [Option.some.inj hget]

variable {x : LogicalExtents}

theorem InExtent.unique {q k k' : Nat} {entry entry' : Nat × Nat}
    (h : InExtent x q k entry) (h' : InExtent x q k' entry') : k = k' ∧ entry = entry' := by
  have hk : k = k' := by
    have hklen := (List.getElem?_eq_some_iff.mp h.entry_eq).1
    have hklen' := (List.getElem?_eq_some_iff.mp h'.entry_eq).1
    have hb := h.b_le
    have he := h.lt_e
    have hb' := h'.b_le
    have he' := h'.lt_e
    rcases lt_trichotomy k k' with hlt | heq | hlt
    · have := beginAt_mono x hlt h.entry_eq hklen'
      omega
    · exact heq
    · have := beginAt_mono x hlt h'.entry_eq hklen
      omega
  refine ⟨hk, ?_⟩
  have hentry := h'.entry_eq
  rw [← hk, h.entry_eq] at hentry
  exact Option.some.inj hentry

theorem exists_inExtent (x : LogicalExtents) {q : Nat} (hq : q < x.allocationBlockCount) :
    ∃ k entry, InExtent x q k entry := by
  have hexists : ∃ entry ∈ x.extents, decide (q < entry.2) = true := by
    rw [allocationBlockCount] at hq
    cases hlast : x.extents.getLast? with
    | none =>
      rw [hlast] at hq
      exact absurd hq (Nat.not_lt_zero q)
    | some entry =>
      rw [hlast] at hq
      exact ⟨entry, mem_of_getLast? hlast, decide_eq_true hq⟩
  have hlen := findIdx_lt_length_of_exists hexists
  have hget := findIdx_getElem?_eq_getElem_of_exists hexists
  have hfound := findIdx_of_getElem?_eq_some hget
  refine ⟨_, _, hget, ?_, of_decide_eq_true hfound⟩
  cases hk : x.extents.findIdx (fun entry => decide (q < entry.2)) with
  | zero => exact zero_le q
  | succ k =>
    have hprev : x.extents[k]? = some x.extents[k] := getElem?_eq_getElem (by omega)
    have hnot := not_of_lt_findIdx (show k < x.extents.findIdx (fun entry => decide (q < entry.2))
      by omega)
    have hle := not_lt.mp (of_decide_eq_false hnot)
    have hbegin : x.beginAt (k + 1) = x.extents[k].2 := by
      simp [beginAt, hprev]
    rwa [hbegin]

variable {q k : Nat}

theorem InExtent.findIdx_eq
    (h : InExtent x q k entry) : x.extents.findIdx (fun entry => decide (q < entry.2)) = k := by
  obtain ⟨hk, hentry⟩ := List.getElem?_eq_some_iff.mp h.entry_eq
  rw [List.findIdx_eq hk, hentry]
  refine ⟨decide_eq_true h.lt_e, fun j hj => ?_⟩
  have hget : x.extents[j]? = some x.extents[j] := getElem?_eq_getElem (by omega)
  have hle := beginAt_mono x hj hget hk
  exact decide_eq_false (not_lt.mpr (le_trans hle h.b_le))

theorem InExtent.lookup_eq (pr : Profile)
    (h : InExtent x q k entry) (hword : entry.1 + (entry.2 - x.beginAt k) < 2 ^ 64) :
    LogicalExtents.lookup pr x q =
      .ok (some ⟨q, entry.1 + (q - x.beginAt k), entry.2 - q⟩) := by
  have hk := (List.getElem?_eq_some_iff.mp h.entry_eq).1
  have hb := h.b_le
  have he := h.lt_e
  have hu := x.u64 entry (mem_of_getElem? h.entry_eq)
  rw [LogicalExtents.lookup, h.findIdx_eq]
  rw [if_neg hk.ne, x.entryLogicalRange_ok pr h.entry_eq, ok_bind, index_ok h.entry_eq, ok_bind,
    checkedSub_ok hb, ok_bind, checkedAdd_ok (by dsimp only; omega), ok_bind,
    checkedAdd_ok (by omega), ok_bind, checkedSub_ok (by dsimp only; omega), ok_bind,
    Nat.add_sub_cancel' hb]
  rfl

def physicalBegin (x : LogicalExtents) (q : Nat) : Nat :=
  let k := x.extents.findIdx (fun entry => q < entry.2)
  (x.extents.getD k (0, 0)).1 + (q - x.beginAt k)

theorem InExtent.physicalBegin_eq
    (h : InExtent x q k entry) : physicalBegin x q = entry.1 + (q - x.beginAt k) := by
  rw [physicalBegin, h.findIdx_eq, getD_eq_getElem?_getD, h.entry_eq, Option.getD_some]

def extentEnd (x : LogicalExtents) (q : Nat) : Nat :=
  (x.extents.getD (x.extents.findIdx (fun entry => q < entry.2)) (0, 0)).2

theorem InExtent.extentEnd_eq (h : InExtent x q k entry) : extentEnd x q = entry.2 := by
  rw [extentEnd, h.findIdx_eq, getD_eq_getElem?_getD, h.entry_eq, Option.getD_some]

variable {q q' k : Nat}

theorem InExtent.mono
    (h : InExtent x q k entry) (hle : q ≤ q') (hlt : q' < entry.2) : InExtent x q' k entry :=
  ⟨h.entry_eq, le_trans h.b_le hle, hlt⟩

theorem InExtent.physicalBegin_add (h : InExtent x q k entry) (hle : q ≤ q') (hlt : q' < entry.2) :
    physicalBegin x q' = physicalBegin x q + (q' - q) := by
  have hb := h.b_le
  rw [(h.mono hle hlt).physicalBegin_eq, h.physicalBegin_eq]
  omega

theorem allocationBlockCount_lt (x : LogicalExtents) : x.allocationBlockCount < 2 ^ 64 := by
  rw [allocationBlockCount]
  cases hlast : x.extents.getLast? with
  | none => decide
  | some entry => exact (x.u64 entry (mem_of_getLast? hlast)).2

theorem sameExtent_iff (h : InExtent x q k entry) (hle : q ≤ q') :
    SameExtent x q q' ↔ q' < entry.2 := by
  constructor
  · rintro ⟨k', entry', hq, hq'⟩
    obtain ⟨rfl, rfl⟩ := h.unique hq
    exact hq'.lt_e
  · intro hlt
    exact ⟨k, entry, h, h.mono hle hlt⟩

theorem InExtent.le_allocationBlockCount
    (h : InExtent x q k entry) : entry.2 ≤ x.allocationBlockCount := by
  have hk := (List.getElem?_eq_some_iff.mp h.entry_eq).1
  obtain ⟨last, hlast⟩ : ∃ last, x.extents[x.extents.length - 1]? = some last :=
    ⟨_, getElem?_eq_getElem (by omega)⟩
  rw [allocationBlockCount, getLast?_eq_getElem?, hlast]
  rcases lt_or_eq_of_le (le_sub_one_of_lt hk) with hlt | heq
  · have hle := beginAt_mono x hlt h.entry_eq (by omega)
    exact le_trans hle (x.beginAt_lt hlast).le
  · rw [← heq, h.entry_eq] at hlast
    rw [← Option.some.inj hlast]

theorem two_mul_and_add_xor (l u : Nat) : 2 * (l &&& u) + (l ^^^ u) = l + u := by
  induction l using Nat.strongRecOn generalizing u with
  | ind l ih =>
    rcases Nat.eq_zero_or_pos l with rfl | hpos
    · rw [zero_and, Nat.zero_xor, Nat.mul_zero]
    · have hhalf := ih (l / 2) (by omega) (u / 2)
      rw [← and_div_two, ← xor_div_two] at hhalf
      have hand : (l &&& u) % 2 = (l % 2) &&& (u % 2) := and_mod_two_pow (n := 1)
      have hxor : (l ^^^ u) % 2 = (l % 2) ^^^ (u % 2) := xor_mod_two_pow (n := 1)
      rcases mod_two_eq_zero_or_one l with hl | hl <;>
        rcases mod_two_eq_zero_or_one u with hu | hu <;>
        simp only [hl, hu, and_zero, zero_and, Nat.and_self, xor_zero, Nat.zero_xor,
          Nat.xor_self] at hand hxor <;> omega

theorem le_midpoint {l u : Nat} (h : l ≤ u) : l ≤ Extents.midpoint l u ∧ Extents.midpoint l u ≤ u := by
  have hsum := two_mul_and_add_xor l u
  rw [Extents.midpoint, shiftRight_eq_div_pow, Nat.pow_one]
  omega

section Search

variable {x : LogicalExtents} {query : BlockRange} {k m : Nat} {entry last : Nat × Nat}

/-- All the entries before the one sought end at the query's begin at the latest,
the ones after it begin past it. -/
theorem InExtent.entryLogicalRange_eq (pr : Profile) (h : InExtent x query.b k entry) {i : Nat}
    (hi : i < x.extents.length) :
    ∃ r, x.entryLogicalRange pr i = .ok r ∧ r.b < r.e ∧ (i < k → r.e ≤ query.b) ∧
      (i = k → r = ⟨x.beginAt k, entry.2⟩) ∧ (k < i → entry.2 ≤ r.b) := by
  have hk := (List.getElem?_eq_some_iff.mp h.entry_eq).1
  have hget : x.extents[i]? = some x.extents[i] := getElem?_eq_getElem hi
  refine ⟨_, x.entryLogicalRange_ok pr hget, x.beginAt_lt hget, fun hlt => ?_, ?_, fun hlt => ?_⟩
  · exact le_trans (beginAt_mono x hlt hget hk) h.b_le
  · rintro rfl
    rw [h.entry_eq] at hget
    rw [Option.some.inj hget]
  · exact beginAt_mono x hlt h.entry_eq hi

theorem findFirst_of_in (pr : Profile) (h : InExtent x query.b k entry) (fuel l u uIndexLast : Nat)
    (hfuel : u - l < fuel) (hl : l ≤ k) (hu : k ≤ u) (hlen : u < x.extents.length)
    (hle : k ≤ uIndexLast) (hlast : uIndexLast < x.extents.length) :
    ∃ v, k ≤ v ∧ v < x.extents.length ∧
      x.findFirst pr query fuel l u uIndexLast = .ok (some (k, v)) := by
  induction fuel generalizing l u uIndexLast with
  | zero => omega
  | succ fuel ih =>
    obtain ⟨hlow, hhigh⟩ := le_midpoint (le_trans hl hu)
    obtain ⟨r, hr, hproper, hbefore, hhere, hafter⟩ :=
      h.entryLogicalRange_eq pr (i := Extents.midpoint l u) (by omega)
    have hb := h.b_le
    have he := h.lt_e
    rw [findFirst]
    rw [hr, ok_bind]
    rcases lt_trichotomy (Extents.midpoint l u) k with hlt | heq | hgt
    · have hre := hbefore hlt
      rw [if_neg (by omega), if_pos hre, if_neg (by omega)]
      exact ih _ _ _ (by omega) hlt hu hlen hle hlast
    · have hrange := hhere heq
      rw [hrange, if_neg (by dsimp only; omega), if_neg (by dsimp only; omega), heq]
      exact ⟨uIndexLast, hle, hlast, rfl⟩
    · rw [if_pos (by omega), if_neg (by omega)]
      refine ih _ _ _ (by omega) hl (by omega) (by omega) ?_ ?_
      · split <;> omega
      · split <;> omega

/-- The search for the begin does not exclude the entry that the query ends in. -/
theorem findFirst_bound (pr : Profile) (hq : query.b < query.e)
    (hend : InExtent x (query.e - 1) m last) {fuel l u v i w : Nat}
    (hu : u < x.extents.length) (hl : l ≤ u) (hm : m ≤ v)
    (h : x.findFirst pr query fuel l u v = .ok (some (i, w))) : m ≤ w := by
  induction fuel generalizing l u v with
  | zero => cases h
  | succ fuel ih =>
    obtain ⟨hlow, hhigh⟩ := le_midpoint hl
    have hget : x.extents[Extents.midpoint l u]? = some x.extents[Extents.midpoint l u] :=
      getElem?_eq_getElem (by omega)
    rw [findFirst] at h
    dsimp only at h
    rw [x.entryLogicalRange_ok pr hget, ok_bind] at h
    split at h
    · have hm' : m ≤ if query.e ≤ x.beginAt (Extents.midpoint l u) then
          Extents.midpoint l u - 1 else v := by
        split
        · rename_i hbefore
          have hk := (List.getElem?_eq_some_iff.mp hend.entry_eq).1
          by_contra hlt
          have hle := hend.b_le
          rcases Nat.lt_or_ge (Extents.midpoint l u) m with hgt | hge
          · have := beginAt_mono x hgt hget hk
            have := x.beginAt_lt hget
            omega
          · obtain heq : m = Extents.midpoint l u := by omega
            rw [heq] at hle
            omega
        · exact hm
      split at h
      · cases h
      · exact ih (by omega) (by omega) hm' h
    · split at h
      · split at h
        · cases h
        · exact ih hu (by omega) hm h
      · obtain ⟨-, rfl⟩ := Prod.mk.inj (Option.some.inj (Except.ok.inj h))
        exact hm

theorem findLast_of_end (pr : Profile) (h : InExtent x (query.e - 1) m last)
    (hq : query.b < query.e) (fuel l u : Nat) (hfuel : u - l < fuel) (hl : l ≤ m) (hu : m ≤ u)
    (hlen : u < x.extents.length) : x.findLast pr query fuel l u = .ok (some m) := by
  induction fuel generalizing l u with
  | zero => omega
  | succ fuel ih =>
    obtain ⟨hlow, hhigh⟩ := le_midpoint (le_trans hl hu)
    obtain ⟨r, hr, hproper, hbefore, hhere, hafter⟩ :=
      InExtent.entryLogicalRange_eq pr
        (show InExtent x (BlockRange.mk (query.e - 1) query.e).b m last from h)
        (i := Extents.midpoint l u) (by omega)
    have hb := h.b_le
    have he := h.lt_e
    dsimp only at hbefore
    rw [findLast, hr, ok_bind]
    rcases Nat.lt_trichotomy (Extents.midpoint l u) m with hlt | heq | hgt
    · rw [if_neg (by omega), if_pos (by omega), if_neg (by omega)]
      exact ih _ _ (by omega) hlt hu hlen
    · have hrange := hhere heq
      rw [hrange, if_neg (by dsimp only; omega), if_neg (by dsimp only; omega), heq]
      rfl
    · rw [if_pos (by omega), if_neg (by omega)]
      exact ih _ _ (by omega) hl (by omega) (by omega)

theorem index_le_of_in {q q' : Nat} (hk : InExtent x q k entry) (hm : InExtent x q' m last)
    (hle : q ≤ q') : k ≤ m := by
  by_contra hlt
  have hlen := (List.getElem?_eq_some_iff.mp hk.entry_eq).1
  have hmono := beginAt_mono x (Nat.lt_of_not_le hlt) hm.entry_eq hlen
  have hb := hk.b_le
  have he := hm.lt_e
  omega

theorem lookupRange_ok (pr : Profile) (hk : InExtent x query.b k entry)
    (hm : InExtent x (query.e - 1) m last) (hq : query.b < query.e) :
    x.lookupRange pr query =
      .ok (some ⟨k, m, query.b - x.beginAt k, query.e - x.beginAt m⟩) := by
  have hmlen := (List.getElem?_eq_some_iff.mp hm.entry_eq).1
  have hkm := index_le_of_in hk hm (by omega)
  have hmb := hm.b_le
  have hme := hm.lt_e
  have hend : query.e ≤ x.allocationBlockCount := by
    have := hm.le_allocationBlockCount
    omega
  obtain ⟨v, hkv, hv, hfirst⟩ := findFirst_of_in pr hk x.extents.length 0 (x.extents.length - 1)
    (x.extents.length - 1) (by omega) (Nat.zero_le k) (by omega) (by omega) (by omega) (by omega)
  have hmv := findFirst_bound pr hq hm (by omega) (Nat.zero_le _) (by omega) hfirst
  have hlast := findLast_of_end pr hm hq x.extents.length k v (by omega) hkm hmv hv
  rw [lookupRange, debugAssert_ok pr hq, ok_bind,
    debugAssert_ok pr (ne_nil_of_length_pos (by omega)), ok_bind,
    debugAssert_ok pr hend, ok_bind]
  dsimp only
  rw [hfirst, ok_bind]
  dsimp only
  rw [hlast, ok_bind]
  dsimp only
  rw [x.entryLogicalRange_ok pr hk.entry_eq, ok_bind, x.entryLogicalRange_ok pr hm.entry_eq,
    ok_bind, checkedSub_ok hk.b_le, ok_bind, checkedSub_ok (by dsimp only; omega)]
  rfl

theorem item_of_in (pr : Profile) (h : InExtent x query.b k entry) (hq : query.b < query.e)
    (hend : query.e ≤ entry.2) (hword : entry.1 + (entry.2 - x.beginAt k) < 2 ^ 64) :
    LogicalExtentsRange.item pr x ⟨k, k, query.b - x.beginAt k, query.e - x.beginAt k⟩ k =
      .ok ⟨query.b, physicalBegin x query.b, query.e - query.b⟩ := by
  have hb := h.b_le
  have hu := x.u64 entry (mem_of_getElem? h.entry_eq)
  rw [LogicalExtentsRange.item, x.entryLogicalRange_ok pr h.entry_eq, ok_bind,
    index_ok h.entry_eq, ok_bind]
  dsimp only
  rw [if_pos rfl, checkedAdd_ok (by omega), ok_bind, checkedAdd_ok (by omega), ok_bind,
    LogicalExtentsRange.logicalEnd, if_neg (by simp)]
  dsimp only
  rw [checkedAdd_ok (by omega), ok_bind, Nat.add_sub_cancel' hb, checkedSub_ok (by omega),
    ok_bind, h.physicalBegin_eq, Nat.add_sub_cancel' (by omega)]
  rfl

end Search

end CocoonFs.ExtentsLookup
