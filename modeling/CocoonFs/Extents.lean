import CocoonFs.Checked
import Mathlib.Data.List.Basic
import Mathlib.Data.List.Pairwise

namespace CocoonFs.Extents

open Checked List

structure BlockRange where
  b : Nat
  e : Nat
  deriving DecidableEq, Repr

def BlockRange.new (pr : Profile) (b e : Nat) : Comp BlockRange := do
  debugAssert pr (b < e)
  pure ⟨b, e⟩

def BlockRange.blockCount (r : BlockRange) : Comp Nat := checkedSub r.e r.b

def BlockRange.Disjoint (r s : BlockRange) : Prop := r.e ≤ s.b ∨ s.e ≤ r.b

instance (r s : BlockRange) : Decidable (r.Disjoint s) :=
  inferInstanceAs (Decidable (r.e ≤ s.b ∨ s.e ≤ r.b))

/-- Extents as pairs of their physical begin and their block count. Empty
extents never get inserted. -/
structure PhysicalExtents where
  extents : List (Nat × Nat)
  count_pos : ∀ x ∈ extents, 0 < x.2

@[ext] theorem PhysicalExtents.ext {x y : PhysicalExtents} (h : x.extents = y.extents) :
    x = y := by
  cases x
  cases y
  simpa using h

def PhysicalExtents.unpackEntry (entry : Nat × Nat) : Comp BlockRange := do
  let e ← checkedAdd entry.1 entry.2
  pure ⟨entry.1, e⟩

def PhysicalExtents.iter (x : PhysicalExtents) : Comp (List BlockRange) :=
  x.extents.mapM unpackEntry

def BlockRange.overlapsWith (r s : BlockRange) : Bool := decide (r.e > s.b) && decide (r.b < s.e)

def anyOverlaps (range : BlockRange) : List (Nat × Nat) → Comp Bool
  | [] => .ok false
  | entry :: extents => do
    let r ← PhysicalExtents.unpackEntry entry
    if r.overlapsWith range then .ok true else anyOverlaps range extents

/-- The extent is merged with its neighbours if it's adjacent to them. -/
def mergeExtent (pr : Profile) (extents : List (Nat × Nat)) (pos : Nat) (range : BlockRange)
    (count : Nat) : Comp (Option (List (Nat × Nat))) := do
  let prev ← match pos with
    | 0 => pure none
    | pos + 1 => do
      let entry ← index extents pos
      let r ← PhysicalExtents.unpackEntry entry
      pure (if r.e = range.b then some entry else none)
  let next ← match extents[pos]? with
    | none => pure none
    | some entry => do
      let r ← PhysicalExtents.unpackEntry entry
      pure (some (entry, r))
  match prev with
  | some entry => do
    let merged ← addU64 pr entry.2 count
    let extents := extents.set (pos - 1) (entry.1, merged)
    let r ← PhysicalExtents.unpackEntry (entry.1, merged)
    match next with
    | some (next, nextRange) =>
      if r.e = nextRange.b then do
        let merged ← addU64 pr merged next.2
        pure (some ((extents.set (pos - 1) (entry.1, merged)).eraseIdx pos))
      else
        pure (some extents)
    | none => pure (some extents)
  | none =>
    match next with
    | some (next, nextRange) =>
      if range.e = nextRange.b then do
        let merged ← addU64 pr next.2 count
        pure (some (extents.set pos (range.b, merged)))
      else
        pure none
    | none => pure none

/-- PhysicalExtents::insert_extent, on the entries -/
def insertExtent (pr : Profile) (extents : List (Nat × Nat)) (pos : Nat) (range : BlockRange)
    (noMerge : Bool) : Comp (List (Nat × Nat)) := do
  debugAssert pr (pos ≤ extents.length)
  let count ← range.blockCount
  if count = 0 then
    pure extents
  else
    match pr with
    | .debug => do
      let overlaps ← anyOverlaps range extents
      debugAssert pr (overlaps = false)
    | .release => pure ()
    let merged ← if noMerge then pure none else mergeExtent pr extents pos range count
    match merged with
    | some extents => pure extents
    | none =>
      if pos ≤ extents.length then pure (extents.insertIdx pos (range.b, count))
      else panic .indexOutOfBounds

def pushExtent (pr : Profile) (extents : List (Nat × Nat)) (range : BlockRange) (noMerge : Bool) :
    Comp (List (Nat × Nat)) :=
  insertExtent pr extents extents.length range noMerge

/-- Extents as pairs of their physical begin and their logical end. The logical
begin is the previous entry's logical end, if any, zero otherwise. -/
structure LogicalExtents where
  extents : List (Nat × Nat)
  ascending : (0 :: extents.map Prod.snd).Pairwise (· < ·)
  u64 : ∀ x ∈ extents, x.1 < 2 ^ 64 ∧ x.2 < 2 ^ 64

@[ext] theorem LogicalExtents.ext {x y : LogicalExtents} (h : x.extents = y.extents) : x = y := by
  cases x
  cases y
  simpa using h

def LogicalExtents.allocationBlockCount (x : LogicalExtents) : Nat :=
  match x.extents.getLast? with
  | some entry => entry.2
  | none => 0

def LogicalExtents.logicalBegin (x : LogicalExtents) (i : Nat) : Comp Nat :=
  match i with
  | 0 => .ok 0
  | i + 1 => do
    let entry ← index x.extents i
    pure entry.2

def LogicalExtents.entryLogicalRange (pr : Profile) (x : LogicalExtents) (i : Nat) :
    Comp BlockRange := do
  let b ← x.logicalBegin i
  let entry ← index x.extents i
  BlockRange.new pr b entry.2

structure LogicalExtentsRange where
  indexFirst : Nat
  indexLast : Nat
  offsetInFirst : Nat
  endInLast : Nat
  deriving DecidableEq, Repr

structure LogicalExtent where
  logicalBegin : Nat
  physicalBegin : Nat
  allocationBlockCount : Nat
  deriving DecidableEq, Repr

def LogicalExtent.physicalRange (pr : Profile) (x : LogicalExtent) : Comp BlockRange := do
  let physicalEnd ← checkedAdd x.physicalBegin x.allocationBlockCount
  BlockRange.new pr x.physicalBegin physicalEnd

structure LogicalExtentsRangeIterator where
  extents : LogicalExtents
  range : Option LogicalExtentsRange
  index : Nat

/-- The iterator over a query range starts out at the very first entry. -/
def LogicalExtentsRangeIterator.new (x : LogicalExtents) (range : LogicalExtentsRange) :
    LogicalExtentsRangeIterator :=
  ⟨x, some range, 0⟩

def LogicalExtentsRange.logicalEnd (range : LogicalExtentsRange) (logicalRange : BlockRange)
    (i : Nat) : Comp Nat :=
  if i ≠ range.indexLast then .ok logicalRange.e else checkedAdd logicalRange.b range.endInLast

def LogicalExtentsRange.item (pr : Profile) (x : LogicalExtents) (range : LogicalExtentsRange)
    (i : Nat) : Comp LogicalExtent := do
  let logicalRange ← x.entryLogicalRange pr i
  let entry ← index x.extents i
  let offset := if i = range.indexFirst then range.offsetInFirst else 0
  let logicalBegin ← checkedAdd logicalRange.b offset
  let physicalBegin ← checkedAdd entry.1 offset
  let logicalEnd ← range.logicalEnd logicalRange i
  let count ← checkedSub logicalEnd logicalBegin
  pure ⟨logicalBegin, physicalBegin, count⟩

def LogicalExtentsRangeIterator.next (pr : Profile) (it : LogicalExtentsRangeIterator) :
    Comp (Option LogicalExtent × LogicalExtentsRangeIterator) :=
  match it.range with
  | none => .ok (none, it)
  | some range =>
    if it.index = range.indexLast + 1 then .ok (none, it)
    else do
      let item ← range.item pr it.extents it.index
      pure (some item, ⟨it.extents, it.range, it.index + 1⟩)

def LogicalExtentsRangeIterator.collect (pr : Profile) :
    Nat → LogicalExtentsRangeIterator → Comp (List LogicalExtent)
  | 0, _ => .ok []
  | fuel + 1, it => do
    match ← it.next pr with
    | (none, _) => pure []
    | (some item, rest) =>
      let items ← collect pr fuel rest
      pure (item :: items)

def LogicalExtents.iter (pr : Profile) (x : LogicalExtents) : Comp LogicalExtentsRangeIterator :=
  if x.extents = [] then .ok ⟨x, none, 0⟩
  else do
    let indexLast := x.extents.length - 1
    let last ← x.entryLogicalRange pr indexLast
    let endInLast ← last.blockCount
    pure ⟨x, some ⟨0, indexLast, 0, endInLast⟩, 0⟩

/-- The physical ranges of all the extents, as callers map the iterator. -/
def LogicalExtents.physicalRanges (pr : Profile) (x : LogicalExtents) : Comp (List BlockRange) := do
  let it ← x.iter pr
  let items ← it.collect pr (x.extents.length + 1)
  items.mapM (LogicalExtent.physicalRange pr)

def midpoint (l u : Nat) : Nat := (l &&& u) + (l ^^^ u) >>> 1

/-- The search for the entry a query begins in, along with an upper bound on the
entry it ends in. The interval has at most as many entries as there is fuel. -/
def LogicalExtents.findFirst (pr : Profile) (x : LogicalExtents) (query : BlockRange) :
    Nat → Nat → Nat → Nat → Comp (Option (Nat × Nat))
  | 0, _, _, _ => .ok none
  | fuel + 1, l, u, uIndexLast => do
    let i := midpoint l u
    let entryRange ← x.entryLogicalRange pr i
    if query.b < entryRange.b then
      let uIndexLast := if query.e ≤ entryRange.b then i - 1 else uIndexLast
      if i - 1 < l then pure none else findFirst pr x query fuel l (i - 1) uIndexLast
    else if entryRange.e ≤ query.b then
      if u < i + 1 then pure none else findFirst pr x query fuel (i + 1) u uIndexLast
    else pure (some (i, uIndexLast))

def LogicalExtents.findLast (pr : Profile) (x : LogicalExtents) (query : BlockRange) :
    Nat → Nat → Nat → Comp (Option Nat)
  | 0, _, _ => .ok none
  | fuel + 1, l, u => do
    let i := midpoint l u
    let entryRange ← x.entryLogicalRange pr i
    if query.e ≤ entryRange.b then
      if i - 1 < l then pure none else findLast pr x query fuel l (i - 1)
    else if entryRange.e < query.e then
      if u < i + 1 then pure none else findLast pr x query fuel (i + 1) u
    else pure (some i)

def LogicalExtents.lookupRange (pr : Profile) (x : LogicalExtents) (query : BlockRange) :
    Comp (Option LogicalExtentsRange) := do
  debugAssert pr (query.b < query.e)
  debugAssert pr (x.extents ≠ [])
  debugAssert pr (query.e ≤ x.allocationBlockCount)
  let indexEnd := x.extents.length - 1
  match ← x.findFirst pr query x.extents.length 0 indexEnd indexEnd with
  | none => pure none
  | some (indexFirst, uIndexLast) =>
    match ← x.findLast pr query x.extents.length indexFirst uIndexLast with
    | none => pure none
    | some indexLast => do
      let first ← x.entryLogicalRange pr indexFirst
      let last ← x.entryLogicalRange pr indexLast
      let offsetInFirst ← checkedSub query.b first.b
      let endInLast ← checkedSub query.e last.b
      pure (some ⟨indexFirst, indexLast, offsetInFirst, endInLast⟩)

def LogicalExtents.iterRange (pr : Profile) (x : LogicalExtents) (query : BlockRange) :
    Comp (Option LogicalExtentsRangeIterator) := do
  match ← x.lookupRange pr query with
  | none => pure none
  | some range => pure (some (LogicalExtentsRangeIterator.new x range))

def LogicalExtents.beginAt (x : LogicalExtents) (i : Nat) : Nat :=
  (0 :: x.extents.map Prod.snd).getD i 0

theorem LogicalExtents.logicalBegin_ok (x : LogicalExtents) (i : Nat)
    (hi : i < x.extents.length) : x.logicalBegin i = .ok (x.beginAt i) := by
  cases i with
  | zero => rfl
  | succ i =>
    have hget : x.extents[i]? = some x.extents[i] := getElem?_eq_getElem (by omega)
    simp [LogicalExtents.logicalBegin, index_ok hget, LogicalExtents.beginAt, hget]

theorem LogicalExtents.beginAt_lt (x : LogicalExtents) {i : Nat} {entry : Nat × Nat}
    (h : x.extents[i]? = some entry) : x.beginAt i < entry.2 := by
  obtain ⟨hi, hentry⟩ := List.getElem?_eq_some_iff.mp h
  have hlen : i < (0 :: x.extents.map Prod.snd).length := by
    rw [length_cons, length_map]
    omega
  have hlt := pairwise_iff_getElem.mp x.ascending i (i + 1) hlen (by simpa using hi) (by omega)
  have hb : x.beginAt i = (0 :: x.extents.map Prod.snd)[i] := by
    rw [LogicalExtents.beginAt, getD_eq_getElem?_getD, getElem?_eq_getElem hlen, Option.getD_some]
  rw [hb, ← hentry]
  simpa using hlt

theorem LogicalExtents.entryLogicalRange_ok (pr : Profile) (x : LogicalExtents) {i : Nat}
    {entry : Nat × Nat} (h : x.extents[i]? = some entry) :
    x.entryLogicalRange pr i = .ok ⟨x.beginAt i, entry.2⟩ := by
  obtain ⟨hi, -⟩ := List.getElem?_eq_some_iff.mp h
  simp [LogicalExtents.entryLogicalRange, x.logicalBegin_ok i hi, index_ok h, BlockRange.new,
    debugAssert_ok pr (x.beginAt_lt h)]

def itemsFrom : Nat → List (Nat × Nat) → List LogicalExtent
  | _, [] => []
  | b, (p, e) :: xs => ⟨b, p, e - b⟩ :: itemsFrom e xs

def rangesFrom : Nat → List (Nat × Nat) → List BlockRange
  | _, [] => []
  | b, (p, e) :: xs => ⟨p, p + (e - b)⟩ :: rangesFrom e xs

def LogicalExtents.ranges (x : LogicalExtents) : List BlockRange := rangesFrom 0 x.extents

theorem LogicalExtents.beginAt_append (x : LogicalExtents) {pre xs : List (Nat × Nat)}
    {entry : Nat × Nat} (h : x.extents = pre ++ entry :: xs) :
    x.beginAt (pre.length + 1) = entry.2 := by
  simp [LogicalExtents.beginAt, h, getD_eq_getElem?_getD]

section

variable (pr : Profile)
include pr

theorem LogicalExtentsRange.item_full (x : LogicalExtents) {i : Nat}
    {entry : Nat × Nat} (h : x.extents[i]? = some entry) (endInLast : Nat)
    (hlast : i = x.extents.length - 1 → endInLast = entry.2 - x.beginAt i) :
    LogicalExtentsRange.item pr x ⟨0, x.extents.length - 1, 0, endInLast⟩ i =
      .ok ⟨x.beginAt i, entry.1, entry.2 - x.beginAt i⟩ := by
  have hlt := x.beginAt_lt h
  have hu := x.u64 entry (mem_of_getElem? h)
  have hoffset : (if i = 0 then 0 else 0) = 0 := ite_self 0
  have hend : LogicalExtentsRange.logicalEnd ⟨0, x.extents.length - 1, 0, endInLast⟩
      ⟨x.beginAt i, entry.2⟩ i = .ok entry.2 := by
    by_cases hi : i = x.extents.length - 1
    · have hadd : x.beginAt i + (entry.2 - x.beginAt i) < 2 ^ 64 := by omega
      simp only [LogicalExtentsRange.logicalEnd, hlast hi, ne_eq, if_neg (not_not_intro hi),
        checkedAdd_ok hadd, Nat.add_sub_cancel' hlt.le]
    · exact if_pos hi
  simp only [LogicalExtentsRange.item, x.entryLogicalRange_ok pr h, index_ok h, hoffset, hend,
    checkedAdd_ok (show x.beginAt i + 0 < 2 ^ 64 by omega), checkedAdd_ok (show entry.1 + 0 < _ from hu.1),
    ok_bind, Nat.add_zero, checkedSub_ok hlt.le, pure_eq_ok]

theorem LogicalExtentsRangeIterator.collect_full (x : LogicalExtents)
    (endInLast : Nat) (hlast : ∀ i entry, x.extents[i]? = some entry →
      i = x.extents.length - 1 → endInLast = entry.2 - x.beginAt i) (xs : List (Nat × Nat)) :
    ∀ pre, x.extents = pre ++ xs → x.extents ≠ [] →
    collect pr (xs.length + 1) ⟨x, some ⟨0, x.extents.length - 1, 0, endInLast⟩, pre.length⟩ =
      .ok (itemsFrom (x.beginAt pre.length) xs) := by
  induction xs with
  | nil =>
    intro pre hx hne
    have hlen : pre.length = x.extents.length - 1 + 1 := by
      have hpos := length_pos_of_ne_nil hne
      have := congrArg List.length hx
      rw [List.append_nil] at this
      omega
    simp [collect, next, hlen, itemsFrom]
  | cons entry xs ih =>
    intro pre hx hne
    have hget : x.extents[pre.length]? = some entry := by simp [hx]
    have hlen : pre.length ≠ x.extents.length - 1 + 1 := by
      have := congrArg List.length hx
      simp only [length_append, length_cons] at this
      omega
    have hrest := ih (pre ++ [entry]) (by simpa using hx) hne
    have hbegin := x.beginAt_append hx
    simp only [length_append, length_singleton, hbegin] at hrest
    have hitem := LogicalExtentsRange.item_full pr x hget endInLast (hlast _ _ hget)
    rw [length_cons, collect, next]
    simp only [if_neg hlen, hitem, ok_bind, pure_eq_ok, hrest, itemsFrom]

theorem mapM_physicalRange (xs : List (Nat × Nat)) (b : Nat)
    (hasc : (b :: xs.map Prod.snd).Pairwise (· < ·)) (hlt : ∀ r ∈ rangesFrom b xs, r.e < 2 ^ 64) :
    (itemsFrom b xs).mapM (LogicalExtent.physicalRange pr) = .ok (rangesFrom b xs) := by
  induction xs generalizing b with
  | nil => rfl
  | cons entry xs ih =>
    obtain ⟨p, e⟩ := entry
    obtain ⟨hall, htail⟩ := pairwise_cons.mp hasc
    have hbe : b < e := hall e (by simp)
    have hadd : p + (e - b) < 2 ^ 64 := hlt ⟨p, p + (e - b)⟩ (by simp [rangesFrom])
    have hrest := ih e htail (fun r hr => hlt r (by simp [rangesFrom, hr]))
    simp only [itemsFrom, rangesFrom, mapM_cons, LogicalExtent.physicalRange,
      checkedAdd_ok hadd, BlockRange.new, debugAssert_ok pr (show p < p + (e - b) by omega), hrest,
      ok_bind, pure_eq_ok]

theorem LogicalExtents.physicalRanges_eq (x : LogicalExtents) :
    x.physicalRanges pr = (itemsFrom 0 x.extents).mapM (LogicalExtent.physicalRange pr) := by
  by_cases hne : x.extents = []
  · simp [LogicalExtents.physicalRanges, LogicalExtents.iter, hne, itemsFrom,
      LogicalExtentsRangeIterator.collect, LogicalExtentsRangeIterator.next]
  · have hpos := length_pos_of_ne_nil hne
    obtain ⟨last, hlast⟩ : ∃ last, x.extents[x.extents.length - 1]? = some last :=
      ⟨_, getElem?_eq_getElem (by omega)⟩
    have hcount : BlockRange.blockCount ⟨x.beginAt (x.extents.length - 1), last.2⟩ =
        .ok (last.2 - x.beginAt (x.extents.length - 1)) := checkedSub_ok (x.beginAt_lt hlast).le
    have hcollect := LogicalExtentsRangeIterator.collect_full pr x
      (last.2 - x.beginAt (x.extents.length - 1)) (by
        intro i entry hentry hi
        subst hi
        rw [hlast, Option.some.injEq] at hentry
        rw [hentry]) x.extents [] (by simp) hne
    have hzero : x.beginAt 0 = 0 := rfl
    rw [length_nil, hzero] at hcollect
    simp [LogicalExtents.physicalRanges, LogicalExtents.iter, hne,
      x.entryLogicalRange_ok pr hlast, hcount, hcollect]

theorem LogicalExtents.physicalRanges_ok (x : LogicalExtents)
    (hlt : ∀ r ∈ x.ranges, r.e < 2 ^ 64) : x.physicalRanges pr = .ok x.ranges := by
  rw [x.physicalRanges_eq]
  exact mapM_physicalRange pr x.extents 0 x.ascending hlt

variable {ranges : List BlockRange}

theorem lt_of_mapM_physicalRange (xs : List (Nat × Nat)) (b : Nat)
    (h : (itemsFrom b xs).mapM (LogicalExtent.physicalRange pr) = .ok ranges) (r : BlockRange)
    (hr : r ∈ rangesFrom b xs) : r.e < 2 ^ 64 := by
  induction xs generalizing b ranges with
  | nil => simp [rangesFrom] at hr
  | cons entry xs ih =>
    obtain ⟨p, e⟩ := entry
    rw [itemsFrom, mapM_cons] at h
    obtain ⟨first, hfirst, htail⟩ := bind_eq_ok h
    obtain ⟨rest, hrest, -⟩ := bind_eq_ok htail
    rcases mem_cons.mp hr with rfl | hr
    · obtain ⟨physicalEnd, hend, -⟩ := bind_eq_ok hfirst
      rw [checkedAdd] at hend
      split at hend
      · assumption
      · cases hend
    · exact ih e hrest hr

theorem LogicalExtents.lt_of_physicalRanges (x : LogicalExtents)
    (h : x.physicalRanges pr = .ok ranges) (r : BlockRange) (hr : r ∈ x.ranges) : r.e < 2 ^ 64 := by
  rw [x.physicalRanges_eq] at h
  exact lt_of_mapM_physicalRange pr x.extents 0 h r hr

end

theorem rangesFrom_injective (xs ys : List (Nat × Nat)) (b : Nat)
    (hxs : (b :: xs.map Prod.snd).Pairwise (· < ·)) (hys : (b :: ys.map Prod.snd).Pairwise (· < ·))
    (h : rangesFrom b xs = rangesFrom b ys) : xs = ys := by
  induction xs generalizing b ys with
  | nil =>
    cases ys with
    | nil => rfl
    | cons y ys => simp [rangesFrom] at h
  | cons x xs ih =>
    cases ys with
    | nil => simp [rangesFrom] at h
    | cons y ys =>
      obtain ⟨p, e⟩ := x
      obtain ⟨q, f⟩ := y
      obtain ⟨hxe, hxt⟩ := pairwise_cons.mp hxs
      obtain ⟨hyf, hyt⟩ := pairwise_cons.mp hys
      have hbe : b < e := hxe e (by simp)
      simp only [rangesFrom, List.cons.injEq, BlockRange.mk.injEq] at h
      obtain ⟨⟨rfl, hcount⟩, htail⟩ := h
      obtain rfl : e = f := by omega
      rw [ih ys e hxt hyt htail]

theorem LogicalExtents.ranges_injective : Function.Injective LogicalExtents.ranges :=
  fun x y h => LogicalExtents.ext (rangesFrom_injective _ _ 0 x.ascending y.ascending h)

def PhysicalExtents.ranges (x : PhysicalExtents) : List BlockRange :=
  x.extents.map (fun entry => ⟨entry.1, entry.1 + entry.2⟩)

theorem PhysicalExtents.iter_ok (x : PhysicalExtents) (hlt : ∀ r ∈ x.ranges, r.e < 2 ^ 64) :
    x.iter = .ok x.ranges := by
  rw [PhysicalExtents.iter, PhysicalExtents.ranges] at *
  generalize x.extents = xs at hlt
  induction xs with
  | nil => rfl
  | cons entry xs ih =>
    have hadd : entry.1 + entry.2 < 2 ^ 64 := hlt ⟨entry.1, entry.1 + entry.2⟩ (by simp)
    have hrest := ih (fun r hr => hlt r (by simp only [map_cons, mem_cons, hr, or_true]))
    simp [PhysicalExtents.unpackEntry, checkedAdd_ok hadd, hrest]

theorem PhysicalExtents.lt_of_iter (x : PhysicalExtents) {ranges : List BlockRange}
    (h : x.iter = .ok ranges) : ∀ r ∈ x.ranges, r.e < 2 ^ 64 := by
  rw [PhysicalExtents.iter] at h
  rw [PhysicalExtents.ranges]
  generalize x.extents = xs at *
  induction xs generalizing ranges with
  | nil => simp
  | cons entry xs ih =>
    rw [mapM_cons] at h
    obtain ⟨first, hfirst, htail⟩ := bind_eq_ok h
    obtain ⟨rest, hrest, -⟩ := bind_eq_ok htail
    obtain ⟨e, he, -⟩ := bind_eq_ok hfirst
    rw [map_cons, forall_mem_cons]
    refine ⟨?_, ih hrest⟩
    rw [checkedAdd] at he
    split at he
    · assumption
    · cases he

def BlockRange.entry (r : BlockRange) : Nat × Nat := (r.b, r.e - r.b)

theorem BlockRange.overlapsWith_eq (r s : BlockRange) :
    r.overlapsWith s = !decide (r.Disjoint s) := by
  rw [BlockRange.overlapsWith, ← Bool.decide_and, ← decide_not, decide_eq_decide]
  simp only [BlockRange.Disjoint]
  omega

theorem PhysicalExtents.unpackEntry_entry (r : BlockRange) (hle : r.b ≤ r.e) (hlt : r.e < 2 ^ 64) :
    PhysicalExtents.unpackEntry r.entry = .ok r := by
  have hsum : r.b + (r.e - r.b) = r.e := by omega
  rw [PhysicalExtents.unpackEntry, BlockRange.entry, checkedAdd_ok (by omega), ok_bind]
  rw [hsum]
  rfl

theorem anyOverlaps_entries (range : BlockRange) (rs : List BlockRange)
    (hrs : ∀ r ∈ rs, r.b ≤ r.e ∧ r.e < 2 ^ 64) :
    anyOverlaps range (rs.map BlockRange.entry) =
      .ok (decide (¬∀ r ∈ rs, r.Disjoint range)) := by
  induction rs with
  | nil => simp [anyOverlaps]
  | cons r rs ih =>
    obtain ⟨hle, hlt⟩ := hrs r (by simp)
    rw [map_cons, anyOverlaps, PhysicalExtents.unpackEntry_entry r hle hlt, ok_bind,
      BlockRange.overlapsWith_eq]
    by_cases hd : r.Disjoint range
    · simp [hd, ih (fun s hs => hrs s (by simp [hs]))]
    · simp [hd]

theorem pushExtent_entries (pr : Profile) (rs : List BlockRange) (range : BlockRange)
    (hrs : ∀ r ∈ rs, r.b ≤ r.e ∧ r.e < 2 ^ 64) (hrange : range.b < range.e) :
    pushExtent pr (rs.map BlockRange.entry) range true =
      if pr = .debug ∧ ¬∀ r ∈ rs, r.Disjoint range then panic .debugAssert
      else .ok ((rs ++ [range]).map BlockRange.entry) := by
  have hcount : range.blockCount = .ok (range.e - range.b) := checkedSub_ok hrange.le
  have hins : (rs.map BlockRange.entry).insertIdx (rs.map BlockRange.entry).length
      (range.b, range.e - range.b) = (rs ++ [range]).map BlockRange.entry := by
    rw [insertIdx_length_self, map_append]
    rfl
  rw [pushExtent, insertExtent, debugAssert_ok pr (Nat.le_refl _), ok_bind, hcount, ok_bind,
    if_neg (by omega)]
  simp only [if_true, pure_eq_ok, ok_bind, le_refl, hins]
  cases pr with
  | release => rw [if_neg (fun h => Profile.noConfusion h.1)]
  | debug =>
    rw [anyOverlaps_entries range rs hrs, ok_bind]
    by_cases hd : ∀ r ∈ rs, r.Disjoint range
    · rw [debugAssert_ok _ (by simpa using hd), ok_bind, if_neg (fun h => h.2 hd)]
    · rw [debugAssert, if_neg (by simpa using hd), if_pos ⟨rfl, hd⟩]
      rfl

theorem PhysicalExtents.ranges_injective : Function.Injective PhysicalExtents.ranges := by
  intro x y h
  apply PhysicalExtents.ext
  refine map_injective_iff.mpr ?_ h
  intro v w hvw
  simp only [BlockRange.mk.injEq] at hvw
  exact Prod.ext hvw.1 (by omega)

end CocoonFs.Extents
