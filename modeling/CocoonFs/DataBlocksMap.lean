import CocoonFs.Extents
import Mathlib.Algebra.GroupWithZero.Nat
import Mathlib.Data.Finset.Card
import Mathlib.Data.List.Sort

namespace CocoonFs.DataBlocksMap

open Checked Extents List
open scoped List
open Prod (snd)

/-- The tree's storage extents as pairs of their physical end and the number of
blocks of all extents up to there, in the order of the ends. -/
structure AuthTreeDataAllocationBlocksMap where
  authTreeStoragePhysicalExtents : List (Nat × Nat)
  deriving DecidableEq, Repr

/-- The loop over the sorted extents. The entry last looked at carries the
accumulated count already and is dropped if the next extent adjoins it. -/
def accumulate (pr : Profile) (last : Nat × Nat) : List (Nat × Nat) → Comp (List (Nat × Nat))
  | [] => .ok [last]
  | e :: es => do
    let accumulatedBlockCount ← addU64 pr last.2 e.2
    let curBegin ← subU64 pr e.1 e.2
    let rest ← accumulate pr (e.1, accumulatedBlockCount) es
    if curBegin ≠ last.1 then pure (last :: rest) else pure rest

def sortByEnd (es : List (Nat × Nat)) : List (Nat × Nat) :=
  es.insertionSort (fun e f => e.1 ≤ f.1)

def endAndCount (r : BlockRange) : Nat × Nat := (r.e, r.e - r.b)

def AuthTreeDataAllocationBlocksMap.new (pr : Profile) (extents : LogicalExtents) :
    Comp AuthTreeDataAllocationBlocksMap := do
  let ranges ← extents.physicalRanges pr
  match sortByEnd (ranges.map endAndCount) with
  | [] => pure ⟨[]⟩
  | e :: es =>
    let entries ← accumulate pr e es
    pure ⟨entries⟩

def partitionPoint {α : Type} (p : α → Bool) (xs : List α) : Nat := (xs.takeWhile p).length

variable (m : AuthTreeDataAllocationBlocksMap)

def AuthTreeDataAllocationBlocksMap.accumulatedBefore (i : Nat) : Comp Nat :=
  match i with
  | 0 => .ok 0
  | i + 1 => do
    let e ← index m.authTreeStoragePhysicalExtents i
    pure e.2

/-- A physical range must not intersect with the tree extent next to it. -/
def AuthTreeDataAllocationBlocksMap.assertBeforeNext (pr : Profile) (physicalRange : BlockRange)
    (i accumulated : Nat) : Comp Unit :=
  if i < m.authTreeStoragePhysicalExtents.length then do
    let next ← index m.authTreeStoragePhysicalExtents i
    let count ← subU64 pr next.2 accumulated
    let nextBegin ← subU64 pr next.1 count
    debugAssert pr (physicalRange.e ≤ nextBegin)
  else .ok ()

def AuthTreeDataAllocationBlocksMap.mapPhysicalToDataAllocationBlocks (pr : Profile)
    (physicalRange : BlockRange) : Comp BlockRange := do
  let i := partitionPoint (fun e => e.1 ≤ physicalRange.b) m.authTreeStoragePhysicalExtents
  let accumulated ← m.accumulatedBefore i
  m.assertBeforeNext pr physicalRange i accumulated
  let b ← subU64 pr physicalRange.b accumulated
  let count ← physicalRange.blockCount
  let e ← checkedAdd b count
  pure ⟨b, e⟩

def AuthTreeDataAllocationBlocksMap.mapDataToPhysicalAllocationBlock (pr : Profile) (d : Nat) :
    Comp Nat :=
  let mapIndex := partitionPoint (fun e => e.1 - e.2 ≤ d) m.authTreeStoragePhysicalExtents
  if mapIndex ≠ 0 then do
    let e ← index m.authTreeStoragePhysicalExtents mapIndex
    addU64 pr d e.2
  else .ok d

def AuthTreeDataAllocationBlocksMap.totalAuthTreeExtentsAllocationBlocks : Nat :=
  match m.authTreeStoragePhysicalExtents.getLast? with
  | some e => e.2
  | none => 0

structure AuthTreeDataAllocationBlocksMapIterator where
  map : AuthTreeDataAllocationBlocksMap
  mapIndex : Nat
  nextDataAllocationBlock : Nat
  dataAllocationBlocksEnd : Nat

def AuthTreeDataAllocationBlocksMap.iterDataRangeMapping (pr : Profile) (dataRange : BlockRange) :
    Comp AuthTreeDataAllocationBlocksMapIterator := do
  let maxEnd ← subU64 pr (2 ^ 64 - 1) m.totalAuthTreeExtentsAllocationBlocks
  let b := min dataRange.b maxEnd
  let e := min dataRange.e maxEnd
  let mapIndex := partitionPoint (fun e => e.1 - e.2 ≤ b) m.authTreeStoragePhysicalExtents
  pure ⟨m, mapIndex, b, e⟩

def AuthTreeDataAllocationBlocksMapIterator.accumulated (pr : Profile)
    (it : AuthTreeDataAllocationBlocksMapIterator) : Comp Nat :=
  if 0 < it.mapIndex then do
    let e ← index it.map.authTreeStoragePhysicalExtents (it.mapIndex - 1)
    debugAssert pr (e.1 - e.2 ≤ it.nextDataAllocationBlock)
    pure e.2
  else .ok 0

/-- The end of the piece and the index of the extent that ends it. -/
def AuthTreeDataAllocationBlocksMapIterator.pieceEnd
    (it : AuthTreeDataAllocationBlocksMapIterator) : Nat × Nat :=
  match it.map.authTreeStoragePhysicalExtents[it.mapIndex]? with
  | some e =>
    if e.1 - e.2 < it.dataAllocationBlocksEnd then (e.1 - e.2, it.mapIndex + 1)
    else (it.dataAllocationBlocksEnd, it.mapIndex)
  | none => (it.dataAllocationBlocksEnd, it.mapIndex)

def AuthTreeDataAllocationBlocksMapIterator.next (pr : Profile)
    (it : AuthTreeDataAllocationBlocksMapIterator) :
    Comp (Option (BlockRange × Nat) × AuthTreeDataAllocationBlocksMapIterator) :=
  if it.nextDataAllocationBlock = it.dataAllocationBlocksEnd then .ok (none, it)
  else do
    let b := it.nextDataAllocationBlock
    let accumulated ← it.accumulated pr
    let pieceEnd := it.pieceEnd
    let physicalBegin ← addU64 pr b accumulated
    let dataRange ← BlockRange.new pr b pieceEnd.1
    pure (some (dataRange, physicalBegin),
      ⟨it.map, pieceEnd.2, pieceEnd.1, it.dataAllocationBlocksEnd⟩)

def AuthTreeDataAllocationBlocksMapIterator.collect (pr : Profile) :
    Nat → AuthTreeDataAllocationBlocksMapIterator → Comp (List (BlockRange × Nat))
  | 0, _ => .ok []
  | fuel + 1, it => do
    match ← it.next pr with
    | (none, _) => pure []
    | (some piece, rest) =>
      let pieces ← collect pr fuel rest
      pure (piece :: pieces)

def AuthTreeDataAllocationBlocksMap.dataRangePieces (pr : Profile) (dataRange : BlockRange) :
    Comp (List (BlockRange × Nat)) := do
  let it ← m.iterDataRangeMapping pr dataRange
  it.collect pr (m.authTreeStoragePhysicalExtents.length + 2)

def Free (ranges : List BlockRange) (p : Nat) : Prop := ∀ r ∈ ranges, ¬ (r.b ≤ p ∧ p < r.e)

instance (ranges : List BlockRange) (p : Nat) : Decidable (Free ranges p) :=
  inferInstanceAs (Decidable (∀ r ∈ ranges, ¬ (r.b ≤ p ∧ p < r.e)))

/-- The position of a physical block among those outside the tree. -/
def dataIndex (ranges : List BlockRange) (p : Nat) : Nat :=
  ((Finset.range p).filter (Free ranges)).card

def Tiles : Nat → Nat → List (BlockRange × Nat) → Prop
  | b, e, [] => b = e
  | b, e, (r, _) :: pieces => r.b = b ∧ r.b < r.e ∧ Tiles r.e e pieces

/-- The map is a strictly monotonic bijection from the data indices below a
bound onto the physical blocks outside the tree, and all its functions agree. -/
structure MapsBijectively (pr : Profile) (ranges : List BlockRange) (n : Nat) : Prop where
  inverse : ∀ d < n, ∃ p, m.mapDataToPhysicalAllocationBlock pr d = .ok p ∧ Free ranges p ∧
    m.mapPhysicalToDataAllocationBlocks pr ⟨p, p + 1⟩ = .ok ⟨d, d + 1⟩
  strictMono : ∀ d e p q, d < e → e < n → m.mapDataToPhysicalAllocationBlock pr d = .ok p →
    m.mapDataToPhysicalAllocationBlock pr e = .ok q → p < q
  onto : ∀ p, Free ranges p → dataIndex ranges p < n →
    ∃ d < n, m.mapDataToPhysicalAllocationBlock pr d = .ok p
  pieces : ∀ b e, b < e → e ≤ n → ∃ pieces, m.dataRangePieces pr ⟨b, e⟩ = .ok pieces ∧
    Tiles b e pieces ∧ ∀ piece ∈ pieces,
      m.mapDataToPhysicalAllocationBlock pr piece.1.b = .ok piece.2 ∧
      ∀ q, piece.2 ≤ q → q < piece.2 + (piece.1.e - piece.1.b) → Free ranges q

def treeBlocks (ranges : List BlockRange) : Nat := (ranges.map (fun r => r.e - r.b)).sum

theorem treeBlocks_rangesFrom (xs : List (Nat × Nat)) (b : Nat)
    (hasc : (b :: xs.map snd).Pairwise (· < ·)) :
    b + treeBlocks (rangesFrom b xs) = (xs.getLast?.map snd).getD b := by
  induction xs generalizing b with
  | nil => rfl
  | cons x xs ih =>
    obtain ⟨hall, htail⟩ := pairwise_cons.mp hasc
    have hlt := hall x.2 (by simp)
    have hrest := ih x.2 htail
    have hlast : (((x :: xs).getLast?.map snd).getD b) =
        (xs.getLast?.map snd).getD x.2 := by
      cases xs with
      | nil => rfl
      | cons y ys => simp [getLast?_eq_some_getLast]
    have hsum : treeBlocks (rangesFrom b (x :: xs)) =
        (x.2 - b) + treeBlocks (rangesFrom x.2 xs) := by
      rw [rangesFrom, treeBlocks, map_cons, sum_cons, Nat.add_sub_cancel_left, treeBlocks]
    rw [hlast, ← hrest, hsum]
    omega

theorem treeBlocks_eq (x : LogicalExtents) : treeBlocks x.ranges = x.allocationBlockCount := by
  have h := treeBlocks_rangesFrom x.extents 0 x.ascending
  rw [Nat.zero_add] at h
  rw [LogicalExtents.ranges, h, LogicalExtents.allocationBlockCount]
  cases x.extents.getLast? <;> rfl

def Separate (e f : Nat × Nat) : Prop := e.1 ≤ f.1 - f.2

structure SortedEntries (es : List (Nat × Nat)) : Prop where
  count_pos : ∀ e ∈ es, 0 < e.2
  count_le : ∀ e ∈ es, e.2 ≤ e.1
  lt : ∀ e ∈ es, e.1 < 2 ^ 64
  separate : es.Pairwise Separate

theorem SortedEntries.tail {e : Nat × Nat} {es : List (Nat × Nat)} (h : SortedEntries (e :: es)) :
    SortedEntries es :=
  ⟨fun f hf => h.count_pos f (mem_cons_of_mem _ hf),
    fun f hf => h.count_le f (mem_cons_of_mem _ hf), fun f hf => h.lt f (mem_cons_of_mem _ hf),
    (pairwise_cons.mp h.separate).2⟩

def dataBegin (e : Nat × Nat) : Nat := e.1 - e.2

/-- What the map's entries satisfy, besides the first data index past which
the physical index differs. -/
structure Accumulated (first total : Nat) (entries : List (Nat × Nat)) : Prop where
  head : ∃ e es, entries = e :: es ∧ dataBegin e = first
  ascending : (entries.map dataBegin).Pairwise (· < ·)
  count_ascending : (entries.map snd).Pairwise (· < ·)
  count_le : ∀ e ∈ entries, e.2 ≤ e.1
  lt : ∀ e ∈ entries, e.1 < 2 ^ 64
  last : ∃ e, entries.getLast? = some e ∧ e.2 = total

theorem Accumulated.single {e : Nat × Nat} (hle : e.2 ≤ e.1) (hlt : e.1 < 2 ^ 64) :
    Accumulated (dataBegin e) e.2 [e] where
  head := ⟨e, [], rfl, rfl⟩
  ascending := by simp
  count_ascending := by simp
  count_le := by simpa using hle
  lt := by simpa using hlt
  last := ⟨e, rfl, rfl⟩

variable {total n : Nat} {ranges : List BlockRange}

theorem Accumulated.cons {e : Nat × Nat} {first : Nat} {entries : List (Nat × Nat)}
    (h : Accumulated first total entries) (hle : e.2 ≤ e.1) (hlt : e.1 < 2 ^ 64)
    (hfirst : dataBegin e < first) (hcount : ∀ f ∈ entries, e.2 < f.2) :
    Accumulated (dataBegin e) total (e :: entries) := by
  obtain ⟨f, fs, rfl, hf⟩ := h.head
  refine ⟨⟨e, f :: fs, rfl, rfl⟩, ?_, ?_, ?_, ?_, ?_⟩
  · refine pairwise_cons.mpr ⟨?_, h.ascending⟩
    intro g hg
    rcases mem_cons.mp hg with rfl | hg
    · omega
    · have := (pairwise_cons.mp h.ascending).1 g hg
      omega
  · refine pairwise_cons.mpr ⟨?_, h.count_ascending⟩
    intro c hc
    obtain ⟨g, hg, rfl⟩ := mem_map.mp hc
    exact hcount g hg
  · intro g hg
    rcases mem_cons.mp hg with rfl | hg
    · exact hle
    · exact h.count_le g hg
  · intro g hg
    rcases mem_cons.mp hg with rfl | hg
    · exact hlt
    · exact h.lt g hg
  · obtain ⟨g, hg, hgt⟩ := h.last
    exact ⟨g, by rwa [getLast?_cons_cons], hgt⟩

theorem accumulate_ok (pr : Profile) (es : List (Nat × Nat)) (last : Nat × Nat)
    (hle : last.2 ≤ last.1) (hlt : last.1 < 2 ^ 64) (hes : SortedEntries es)
    (hsep : ∀ e ∈ es, Separate last e) :
    ∃ entries, accumulate pr last es = .ok entries ∧
      Accumulated (dataBegin last) (last.2 + (es.map snd).sum) entries ∧
      ∀ f ∈ entries, last.2 ≤ f.2 := by
  induction es generalizing last with
  | nil => exact ⟨[last], rfl, by simpa using Accumulated.single hle hlt, by simp⟩
  | cons e es ih =>
    have hpos := hes.count_pos e (by simp)
    have hcount := hes.count_le e (by simp)
    have hend := hes.lt e (by simp)
    have hnext : last.1 ≤ e.1 - e.2 := hsep e (by simp)
    obtain ⟨hsepe, -⟩ := pairwise_cons.mp hes.separate
    obtain ⟨entries, hok, hacc, hge⟩ := ih (e.1, last.2 + e.2) (by dsimp only; omega) hend hes.tail
      (fun f hf => hsepe f hf)
    have hbegin : dataBegin (e.1, last.2 + e.2) = e.1 - e.2 - last.2 := by
      rw [dataBegin]
      omega
    have htotal : last.2 + ((e :: es).map snd).sum = last.2 + e.2 + (es.map snd).sum := by
      simp only [map_cons, sum_cons]
      omega
    rw [htotal]
    have hadd : addU64 pr last.2 e.2 = .ok (last.2 + e.2) := addU64_ok pr (by omega)
    have hsub : subU64 pr e.1 e.2 = .ok (e.1 - e.2) := subU64_ok pr hcount
    by_cases hadj : e.1 - e.2 = last.1
    · refine ⟨entries, ?_, ?_, fun f hf => ?_⟩
      · simp only [accumulate, hadd, hsub, hok, ok_bind, ne_eq, hadj, not_true, if_false, pure_eq_ok]
      · rwa [show dataBegin last = dataBegin (e.1, last.2 + e.2) by rw [hbegin, dataBegin]; omega]
      · exact le_trans (by dsimp only; omega) (hge f hf)
    · refine ⟨last :: entries, ?_, ?_, ?_⟩
      · simp only [accumulate, hadd, hsub, hok, ok_bind, ne_eq, hadj, not_false_eq_true, if_true,
          pure_eq_ok]
      · refine hacc.cons hle hlt ?_ ?_
        · rw [hbegin, dataBegin]
          omega
        · intro f hf
          have := hge f hf
          omega
      · intro f hf
        rcases mem_cons.mp hf with rfl | hf
        · exact le_refl _
        · exact le_trans (by dsimp only; omega) (hge f hf)

/-- The extents as the map gets built from: disjoint and within the numeric
range of block indices. -/
structure TreeRanges (ranges : List BlockRange) : Prop where
  nonempty : ∀ r ∈ ranges, r.b < r.e
  lt : ∀ r ∈ ranges, r.e < 2 ^ 64
  disjoint : ranges.Pairwise BlockRange.Disjoint

theorem sortByEnd_sorted (h : TreeRanges ranges) :
    SortedEntries (sortByEnd (ranges.map endAndCount)) := by
  have hperm : sortByEnd (ranges.map endAndCount) ~ ranges.map endAndCount :=
    perm_insertionSort _ _
  have hmem (e : Nat × Nat) (he : e ∈ sortByEnd (ranges.map endAndCount)) :
      ∃ r ∈ ranges, endAndCount r = e := mem_map.mp (hperm.mem_iff.mp he)
  refine ⟨fun e he => ?_, fun e he => ?_, fun e he => ?_, ?_⟩
  · obtain ⟨r, hr, rfl⟩ := hmem e he
    have := h.nonempty r hr
    simp only [endAndCount]
    omega
  · obtain ⟨r, hr, rfl⟩ := hmem e he
    exact Nat.sub_le _ _
  · obtain ⟨r, hr, rfl⟩ := hmem e he
    exact h.lt r hr
  · -- Pairs keep their disjointness under the permutation, and the order of the
    -- ends then tells which of the two comes first.
    let D : Nat × Nat → Nat × Nat → Prop := fun e f => e.1 ≤ f.1 - f.2 ∨ f.1 ≤ e.1 - e.2
    have hD : (ranges.map endAndCount).Pairwise D := by
      refine pairwise_map.mpr (h.disjoint.imp_of_mem ?_)
      intro r s hr hs hrs
      have := h.nonempty r hr
      have := h.nonempty s hs
      simp only [D, endAndCount]
      rcases hrs with hrs | hrs <;> omega
    have hDs := (hperm.pairwise_iff (R := D) (fun {e f} hef => Or.symm hef)).mpr hD
    have hsorted : (sortByEnd (ranges.map endAndCount)).Pairwise (fun e f => e.1 ≤ f.1) :=
      pairwise_insertionSort _ _
    refine (hDs.and hsorted).imp_of_mem ?_
    intro e f he hf hef
    obtain ⟨r, hr, rfl⟩ := hmem e he
    obtain ⟨s, hs, rfl⟩ := hmem f hf
    have := h.nonempty r hr
    simp only [D, endAndCount, Separate] at hef ⊢
    omega

theorem rangesFrom_nonempty (xs : List (Nat × Nat)) (b : Nat)
    (hasc : (b :: xs.map snd).Pairwise (· < ·)) (r : BlockRange) (hr : r ∈ rangesFrom b xs) :
    r.b < r.e := by
  induction xs generalizing b with
  | nil => simp [rangesFrom] at hr
  | cons x xs ih =>
    obtain ⟨p, e⟩ := x
    obtain ⟨hall, htail⟩ := pairwise_cons.mp hasc
    have hbe : b < e := hall e (by simp)
    rcases mem_cons.mp hr with rfl | hr
    · dsimp only
      omega
    · exact ih e htail hr

theorem AuthTreeDataAllocationBlocksMap.new_ok (pr : Profile) (x : LogicalExtents)
    (h : TreeRanges x.ranges) (hne : x.ranges ≠ []) :
    ∃ m first, AuthTreeDataAllocationBlocksMap.new pr x = .ok m ∧
      Accumulated first (treeBlocks x.ranges) m.authTreeStoragePhysicalExtents ∧
      (∃ r ∈ x.ranges, r.b = first) ∧ ∀ r ∈ x.ranges, first ≤ r.b := by
  have hranges := x.physicalRanges_ok pr h.lt
  have hsorted := sortByEnd_sorted h
  have hperm : sortByEnd (x.ranges.map endAndCount) ~ x.ranges.map endAndCount :=
    perm_insertionSort _ _
  cases hes : sortByEnd (x.ranges.map endAndCount) with
  | nil =>
    rw [hes] at hperm
    exact absurd (by simpa using hperm.symm.eq_nil) hne
  | cons e es =>
    rw [hes] at hsorted hperm
    obtain ⟨hsep, htail⟩ := pairwise_cons.mp hsorted.separate
    obtain ⟨entries, hok, hacc, -⟩ := accumulate_ok pr es e (hsorted.count_le e (by simp))
      (hsorted.lt e (by simp))
      ⟨fun f hf => hsorted.count_pos f (by simp [hf]), fun f hf => hsorted.count_le f (by simp [hf]),
        fun f hf => hsorted.lt f (by simp [hf]), htail⟩ hsep
    have htotal : e.2 + (es.map snd).sum = treeBlocks x.ranges := by
      have := (hperm.map snd).sum_nat
      simpa [treeBlocks, endAndCount, Function.comp_def] using this
    obtain ⟨r, hr, rfl⟩ := mem_map.mp (hperm.mem_iff.mp (mem_cons_self))
    have hrb := h.nonempty r hr
    have hfirst : dataBegin (endAndCount r) = r.b := by
      simp only [dataBegin, endAndCount]
      omega
    refine ⟨⟨entries⟩, r.b, ?_, ?_, ⟨r, hr, rfl⟩, ?_⟩
    · rw [AuthTreeDataAllocationBlocksMap.new, hranges]
      change (match sortByEnd (x.ranges.map endAndCount) with
        | [] => pure ⟨[]⟩
        | e :: es => do
          let entries ← accumulate pr e es
          pure ⟨entries⟩ : Comp AuthTreeDataAllocationBlocksMap) = _
      rw [hes]
      simp only [hok, ok_bind, pure_eq_ok]
    · rw [← hfirst, ← htotal]
      exact hacc
    · intro s hs
      have hmem : endAndCount s ∈ endAndCount r :: es :=
        hperm.mem_iff.mpr (mem_map_of_mem hs)
      rcases mem_cons.mp hmem with heq | hmem
      · simp only [endAndCount, Prod.mk.injEq] at heq
        omega
      · have := hsep _ hmem
        simp only [Separate, endAndCount] at this
        omega

/-- All the data indices below the bound come before the first tree extent. -/
structure Below (n total : Nat) : Prop where
  head : ∀ e, m.authTreeStoragePhysicalExtents.head? = some e → e.2 ≤ e.1 ∧ n ≤ e.1 - e.2
  total_eq : m.totalAuthTreeExtentsAllocationBlocks = total
  lt : n + total < 2 ^ 64

variable {m}

section

variable (h : Below m n total)
include h

theorem Below.partitionPoint_eq_zero (d : Nat) (hd : d < n)
    (p : Nat × Nat → Bool) (hp : ∀ e, p e = true → e.1 - e.2 ≤ d) :
    partitionPoint p m.authTreeStoragePhysicalExtents = 0 := by
  cases hes : m.authTreeStoragePhysicalExtents with
  | nil => rfl
  | cons e es =>
    have he := h.head e (by rw [hes]; rfl)
    have hpe : p e = false := by
      rw [Bool.eq_false_iff]
      intro hpe
      have := hp e hpe
      omega
    simp [partitionPoint, hpe]

theorem Below.mapData (pr : Profile) (d : Nat) (hd : d < n) :
    m.mapDataToPhysicalAllocationBlock pr d = .ok d := by
  have hzero := h.partitionPoint_eq_zero d hd (fun e => e.1 - e.2 ≤ d)
    (fun e he => of_decide_eq_true he)
  simp only [AuthTreeDataAllocationBlocksMap.mapDataToPhysicalAllocationBlock, hzero, ne_eq,
    not_true, if_false]

theorem Below.assertBeforeNext (pr : Profile)
    (r : BlockRange) (hr : r.e ≤ n) : m.assertBeforeNext pr r 0 0 = .ok () := by
  rw [AuthTreeDataAllocationBlocksMap.assertBeforeNext]
  cases hes : m.authTreeStoragePhysicalExtents with
  | nil => rfl
  | cons e es =>
    obtain ⟨hle, hn⟩ := h.head e (by rw [hes]; rfl)
    have hindex : index (e :: es) 0 = .ok e := rfl
    simp only [length_cons, Nat.zero_lt_succ, if_true, hindex, ok_bind,
      subU64_ok pr (Nat.zero_le e.2), Nat.sub_zero, subU64_ok pr hle,
      debugAssert_ok pr (le_trans hr hn)]

theorem Below.mapPhysical (pr : Profile) (d : Nat) (hd : d < n) :
    m.mapPhysicalToDataAllocationBlocks pr ⟨d, d + 1⟩ = .ok ⟨d, d + 1⟩ := by
  have hlt := h.lt
  have hzero := h.partitionPoint_eq_zero d hd (fun e => e.1 ≤ d) (fun e he => by
    have := of_decide_eq_true he
    omega)
  have hassert := h.assertBeforeNext pr ⟨d, d + 1⟩ hd
  have hcount : BlockRange.blockCount ⟨d, d + 1⟩ = .ok 1 := by
    rw [BlockRange.blockCount, checkedSub_ok (by dsimp only; omega)]
    simp
  simp only [AuthTreeDataAllocationBlocksMap.mapPhysicalToDataAllocationBlocks, hzero,
    AuthTreeDataAllocationBlocksMap.accumulatedBefore, ok_bind, hassert,
    subU64_ok pr (Nat.zero_le d), Nat.sub_zero, hcount, checkedAdd_ok (show d + 1 < 2 ^ 64 by omega),
    pure_eq_ok]

theorem Below.dataRangePieces (pr : Profile) (b e : Nat)
    (hbe : b < e) (he : e ≤ n) : m.dataRangePieces pr ⟨b, e⟩ = .ok [(⟨b, e⟩, b)] := by
  have hlt := h.lt
  have hmax : subU64 pr (2 ^ 64 - 1) m.totalAuthTreeExtentsAllocationBlocks =
      .ok (2 ^ 64 - 1 - total) := by
    rw [h.total_eq]
    exact subU64_ok pr (by omega)
  have hzero := h.partitionPoint_eq_zero b (by omega) (fun e => e.1 - e.2 ≤ b)
    (fun e he => of_decide_eq_true he)
  have hiter : m.iterDataRangeMapping pr ⟨b, e⟩ = .ok ⟨m, 0, b, e⟩ := by
    simp only [AuthTreeDataAllocationBlocksMap.iterDataRangeMapping, hmax, ok_bind,
      Nat.min_eq_left (show b ≤ 2 ^ 64 - 1 - total by omega),
      Nat.min_eq_left (show e ≤ 2 ^ 64 - 1 - total by omega), hzero, pure_eq_ok]
  have hend : AuthTreeDataAllocationBlocksMapIterator.pieceEnd ⟨m, 0, b, e⟩ = (e, 0) := by
    rw [AuthTreeDataAllocationBlocksMapIterator.pieceEnd]
    cases hes : m.authTreeStoragePhysicalExtents with
    | nil => rfl
    | cons f fs =>
      have hf := (h.head f (by rw [hes]; rfl)).2
      simp only [getElem?_cons_zero, if_neg (show ¬ f.1 - f.2 < e by omega)]
  have hacc : AuthTreeDataAllocationBlocksMapIterator.accumulated pr ⟨m, 0, b, e⟩ = .ok 0 := rfl
  have hnext : AuthTreeDataAllocationBlocksMapIterator.next pr ⟨m, 0, b, e⟩ =
      .ok (some (⟨b, e⟩, b), ⟨m, 0, e, e⟩) := by
    simp only [AuthTreeDataAllocationBlocksMapIterator.next, if_neg hbe.ne, hacc, ok_bind,
      addU64_ok pr (show b + 0 < 2 ^ 64 by omega), Nat.add_zero, BlockRange.new, hend,
      debugAssert_ok pr hbe, pure_eq_ok]
  have hstop : AuthTreeDataAllocationBlocksMapIterator.next pr ⟨m, 0, e, e⟩ =
      .ok (none, ⟨m, 0, e, e⟩) := if_pos rfl
  simp only [AuthTreeDataAllocationBlocksMap.dataRangePieces, hiter, ok_bind,
    AuthTreeDataAllocationBlocksMapIterator.collect, hnext, hstop, pure_eq_ok]

end

theorem free_of_lt {p : Nat} (h : ∀ r ∈ ranges, n ≤ r.b) (hp : p < n) :
    Free ranges p := fun r hr hin => by
  have := h r hr
  omega

theorem le_dataIndex {p : Nat} (h : ∀ r ∈ ranges, n ≤ r.b)
    (hp : n ≤ p) : n ≤ dataIndex ranges p := by
  have hsub : Finset.range n ⊆ (Finset.range p).filter (Free ranges) := by
    intro q hq
    have hqn := Finset.mem_range.mp hq
    exact Finset.mem_filter.mpr ⟨Finset.mem_range.mpr (by omega), free_of_lt h hqn⟩
  simpa [dataIndex] using Finset.card_le_card hsub

theorem Below.mapsBijectively (h : Below m n total) (pr : Profile)
    (hn : ∀ r ∈ ranges, n ≤ r.b) : MapsBijectively m pr ranges n where
  inverse d hd := ⟨d, h.mapData pr d hd, free_of_lt hn hd, h.mapPhysical pr d hd⟩
  strictMono d e p q hde he hp hq := by
    rw [h.mapData pr d (by omega)] at hp
    rw [h.mapData pr e he] at hq
    cases hp
    cases hq
    exact hde
  onto p _ hp := by
    by_cases hpn : p < n
    · exact ⟨p, hpn, h.mapData pr p hpn⟩
    · have := le_dataIndex hn (Nat.le_of_not_lt hpn)
      omega
  pieces b e hbe he := by
    refine ⟨_, h.dataRangePieces pr b e hbe he, ⟨rfl, hbe, rfl⟩, ?_⟩
    intro piece hpiece
    obtain rfl := mem_singleton.mp hpiece
    refine ⟨h.mapData pr b (by omega), fun q _ hq => free_of_lt hn ?_⟩
    dsimp only at hq
    omega

theorem partitionPoint_eq_one {α : Type} {p : α → Bool} {x : α} {xs : List α} (hx : p x = true)
    (hxs : ∀ y, xs.head? = some y → p y = false) : partitionPoint p (x :: xs) = 1 := by
  cases xs with
  | nil => simp [partitionPoint, hx]
  | cons y ys => simp [partitionPoint, hx, hxs y rfl]

/-- The first data index behind the first extent takes the count of the second
extent, so that it ends up too far, or there is no second extent. -/
theorem Accumulated.not_inverse {first : Nat}
    (h : Accumulated first total m.authTreeStoragePhysicalExtents) (pr : Profile) (p : Nat)
    (hmap : m.mapDataToPhysicalAllocationBlock pr first = .ok p)
    (hinv : m.mapPhysicalToDataAllocationBlocks pr ⟨p, p + 1⟩ = .ok ⟨first, first + 1⟩) : False := by
  obtain ⟨e, es, hes, hfirst⟩ := h.head
  have hasc := h.ascending
  have hcounts := h.count_ascending
  have hle := h.count_le
  have hlt := h.lt
  rw [hes] at hasc hcounts hle hlt
  rw [dataBegin] at hfirst
  have hone : partitionPoint (fun e => e.1 - e.2 ≤ first) (e :: es) = 1 := by
    refine partitionPoint_eq_one (decide_eq_true hfirst.le) ?_
    intro f hf
    have hmem : dataBegin f ∈ es.map dataBegin := mem_map_of_mem (mem_of_mem_head? hf)
    have hgt := (pairwise_cons.mp hasc).1 _ hmem
    rw [dataBegin, dataBegin] at hgt
    exact decide_eq_false (by omega)
  rw [AuthTreeDataAllocationBlocksMap.mapDataToPhysicalAllocationBlock, hes] at hmap
  simp only [hone, ne_eq, Nat.one_ne_zero, not_false_eq_true, if_true] at hmap
  cases es with
  | nil =>
    cases hmap
  | cons f fs =>
    have hgt := (pairwise_cons.mp hasc).1 (dataBegin f) (by simp)
    have hcount := (pairwise_cons.mp hcounts).1 f.2 (by simp)
    have hflt := hlt f (by simp)
    rw [dataBegin, dataBegin] at hgt
    have hp : p = first + f.2 := by
      rw [show index (e :: f :: fs) 1 = .ok f from rfl, ok_bind,
        addU64_ok pr (by omega)] at hmap
      exact (Except.ok.inj hmap).symm
    have hone' : partitionPoint (fun e => e.1 ≤ p) (e :: f :: fs) = 1 := by
      refine partitionPoint_eq_one (decide_eq_true (by omega)) ?_
      intro g hg
      cases hg
      exact decide_eq_false (by omega)
    rw [AuthTreeDataAllocationBlocksMap.mapPhysicalToDataAllocationBlocks, hes] at hinv
    simp only [hone', AuthTreeDataAllocationBlocksMap.accumulatedBefore, hes,
      show index (e :: f :: fs) 0 = .ok e from rfl, ok_bind, pure_eq_ok] at hinv
    obtain ⟨-, -, h₁⟩ := bind_eq_ok hinv
    obtain ⟨b, hb, h₂⟩ := bind_eq_ok h₁
    obtain ⟨c, -, h₃⟩ := bind_eq_ok h₂
    obtain ⟨d, -, h₄⟩ := bind_eq_ok h₃
    rw [subU64_ok pr (by omega)] at hb
    have hbfirst := congrArg BlockRange.b (Except.ok.inj h₄)
    have hbp := Except.ok.inj hb
    dsimp only at hbfirst
    omega

/-- The accumulated count is read from one entry too far, so the map works only
for data that comes before all of the tree's extents. -/
theorem mapsBijectively_iff (pr : Profile) (x : LogicalExtents)
    (hlt : ∀ r ∈ x.ranges, r.e < 2 ^ 64) (hdisjoint : x.ranges.Pairwise BlockRange.Disjoint)
    (n : Nat) (hn : n + treeBlocks x.ranges < 2 ^ 64) :
    (∃ m, AuthTreeDataAllocationBlocksMap.new pr x = .ok m ∧ MapsBijectively m pr x.ranges n) ↔
      ∀ r ∈ x.ranges, n ≤ r.b := by
  have htree : TreeRanges x.ranges :=
    ⟨rangesFrom_nonempty x.extents 0 x.ascending, hlt, hdisjoint⟩
  by_cases hne : x.ranges = []
  · have hnew : AuthTreeDataAllocationBlocksMap.new pr x = .ok ⟨[]⟩ := by
      rw [AuthTreeDataAllocationBlocksMap.new, x.physicalRanges_ok pr hlt, hne]
      rfl
    have hbelow : Below ⟨[]⟩ n 0 := ⟨by simp, rfl, by omega⟩
    rw [hne]
    exact ⟨fun _ r hr => absurd hr (by simp),
      fun _ => ⟨_, hnew, hbelow.mapsBijectively pr (by simp)⟩⟩
  · obtain ⟨m, first, hnew, hacc, ⟨r, hr, hrb⟩, hmin⟩ :=
      AuthTreeDataAllocationBlocksMap.new_ok pr x htree hne
    constructor
    · rintro ⟨m', hnew', hmaps⟩ s hs
      cases hnew.symm.trans hnew'
      by_contra hlt'
      have hfirst := hmin s hs
      obtain ⟨p, hp, -, hinv⟩ := hmaps.inverse first (by omega)
      exact hacc.not_inverse pr p hp hinv
    · intro hall
      obtain ⟨e, es, hes, hfirst⟩ := hacc.head
      obtain ⟨l, hl, hltotal⟩ := hacc.last
      have hnr := hall r hr
      have hbelow : Below m n (treeBlocks x.ranges) := by
        refine ⟨?_, ?_, hn⟩
        · intro f hf
          rw [hes, head?_cons, Option.some.injEq] at hf
          subst hf
          have hle := hacc.count_le e (by simp [hes])
          rw [dataBegin] at hfirst
          omega
        · rw [AuthTreeDataAllocationBlocksMap.totalAuthTreeExtentsAllocationBlocks, hl]
          exact hltotal
      exact ⟨m, hnew, hbelow.mapsBijectively pr hall⟩

def twoExtents : LogicalExtents := ⟨[(1, 1), (4, 2)], by decide, by decide⟩

theorem twoExtents_not_mapsBijectively :
    twoExtents.ranges = [⟨1, 2⟩, ⟨4, 5⟩] ∧
    ¬ ∃ m, AuthTreeDataAllocationBlocksMap.new .release twoExtents = .ok m ∧
      MapsBijectively m .release twoExtents.ranges 4 := by
  refine ⟨by decide, ?_⟩
  rintro ⟨m, hnew, hmaps⟩
  obtain rfl : (⟨[(2, 1), (5, 2)]⟩ : AuthTreeDataAllocationBlocksMap) = m :=
    Except.ok.inj hnew
  obtain ⟨p, hp, -⟩ := hmaps.inverse 3 (by decide)
  cases hp

theorem mapsBijectively_iff_twoExtents :
    (∀ r ∈ twoExtents.ranges, r.e < 2 ^ 64) ∧
    twoExtents.ranges.Pairwise BlockRange.Disjoint ∧ 1 + treeBlocks twoExtents.ranges < 2 ^ 64 ∧
    ((∃ m, AuthTreeDataAllocationBlocksMap.new .debug twoExtents = .ok m ∧
      MapsBijectively m .debug twoExtents.ranges 1) ↔ ∀ r ∈ twoExtents.ranges, 1 ≤ r.b) :=
  ⟨by decide, by decide, by decide,
    mapsBijectively_iff .debug twoExtents (by decide) (by decide) 1 (by decide)⟩

end CocoonFs.DataBlocksMap
