import CocoonFs.BitmapFileExtents

namespace CocoonFs.ExtentsRangeIteration

open Checked Extents ExtentsLookup BitmapFileExtents List
open LogicalExtentsRangeIterator (new)

/-- The conversion from PhysicalExtents, on the entries: the block counts are
replaced by logical ends. -/
def logicalEntries (pr : Profile) : Nat → List (Nat × Nat) → Comp (List (Nat × Nat))
  | _, [] => .ok []
  | logicalEnd, entry :: entries => do
    let logicalEnd ← addU64 pr logicalEnd entry.2
    let entries ← logicalEntries pr logicalEnd entries
    pure ((entry.1, logicalEnd) :: entries)

inductive Yields (pr : Profile) : LogicalExtentsRangeIterator → List LogicalExtent → Prop
  | done {it rest : LogicalExtentsRangeIterator} :
      it.next pr = .ok (none, rest) → Yields pr it []
  | item {it rest : LogicalExtentsRangeIterator} {item : LogicalExtent}
      {items : List LogicalExtent} :
      it.next pr = .ok (some item, rest) → Yields pr rest items → Yields pr it (item :: items)

def Tiles : Nat → List LogicalExtent → Nat → Prop
  | b, [], e => b = e
  | b, item :: items, e =>
    item.logicalBegin = b ∧ 0 < item.allocationBlockCount ∧
      Tiles (b + item.allocationBlockCount) items e

/-- An item's blocks are stored where looking up any single one of them says. -/
def Stored (pr : Profile) (x : LogicalExtents) (item : LogicalExtent) : Prop :=
  ∀ q, item.logicalBegin ≤ q → q < item.logicalBegin + item.allocationBlockCount →
    ∃ count, LogicalExtents.lookup pr x q =
      .ok (some ⟨q, item.physicalBegin + (q - item.logicalBegin), count⟩)

/-- The iteration over a query range yields just the query range. -/
def IteratesQuery (pr : Profile) (x : LogicalExtents) (query : BlockRange) : Prop :=
  ∃ it items, x.iterRange pr query = .ok (some it) ∧ Yields pr it items ∧
    Tiles query.b items query.e ∧ ∀ item ∈ items, Stored pr x item

theorem rangesFrom_logicalEntries (pr : Profile) (xs : List (Nat × Nat))
    {ys : List (Nat × Nat)} {b : Nat} (hb : b < 2 ^ 64)
    (hword : ∀ entry ∈ xs, entry.1 + entry.2 < 2 ^ 64) (h : logicalEntries pr b xs = .ok ys)
    (hasc : (b :: ys.map Prod.snd).Pairwise (· < ·)) :
    rangesFrom b ys = xs.map (fun entry => ⟨entry.1, entry.1 + entry.2⟩) := by
  induction xs generalizing b ys with
  | nil =>
    cases h
    rfl
  | cons entry xs ih =>
    obtain ⟨e, he, h⟩ := bind_eq_ok h
    obtain ⟨zs, hzs, h⟩ := bind_eq_ok h
    cases h
    obtain ⟨hall, htail⟩ := pairwise_cons.mp hasc
    have hbe : b < e := hall e (by simp)
    have hentry := hword entry (by simp)
    have hsum : e = b + entry.2 ∧ e < 2 ^ 64 := by
      rw [addU64] at he
      split at he
      · cases he
        exact ⟨rfl, by assumption⟩
      · -- A wrapped around end would not be an ascending one.
        cases pr with
        | debug => cases he
        | release =>
          have hmod : (b + entry.2) % 2 ^ 64 = e := Except.ok.inj he
          omega
    rw [rangesFrom, map_cons, ih hsum.2 (fun y hy => hword y (by simp [hy])) hzs htail,
      hsum.1, Nat.add_sub_cancel_left]

section Items

variable {x : LogicalExtents} {query : BlockRange} {m : Nat} {last : Nat × Nat}

/-- Where an item begins, the query beginning in the first extent. -/
def itemBegin (x : LogicalExtents) (query : BlockRange) (i : Nat) : Nat :=
  if i = 0 then query.b else x.beginAt i

/-- Where an item ends, the query ending in the extent at `m`. -/
def itemEnd (query : BlockRange) (m i : Nat) (entry : Nat × Nat) : Nat :=
  if i = m then query.e else entry.2

variable {i : Nat} {first : Nat × Nat} {range : LogicalExtentsRange} {entry : Nat × Nat}

theorem item_bounds (hm : InExtent x (query.e - 1) m last) (hq : query.b < query.e)
    (hfirst : InExtent x query.b 0 first) (hi : x.extents[i]? = some entry) (him : i ≤ m) :
    x.beginAt i ≤ itemBegin x query i ∧ itemBegin x query i < itemEnd query m i entry ∧
      itemEnd query m i entry ≤ entry.2 := by
  have hlt := x.beginAt_lt hi
  have hb := hm.b_le
  have he := hm.lt_e
  have hqb := hfirst.lt_e
  rw [itemBegin, itemEnd]
  by_cases hz : i = 0
  · subst hz
    have hbegin : x.beginAt 0 = 0 := rfl
    obtain rfl : first = entry := Option.some.inj (hfirst.entry_eq.symm.trans hi)
    rw [if_pos rfl]
    split
    · rename_i h0
      subst h0
      obtain rfl : first = last := Option.some.inj (hi.symm.trans hm.entry_eq)
      omega
    · omega
  · rw [if_neg hz]
    split
    · rename_i h0
      subst h0
      obtain rfl : entry = last := Option.some.inj (hi.symm.trans hm.entry_eq)
      omega
    · omega

section

variable (pr : Profile)
include pr

theorem item_ok (hm : InExtent x (query.e - 1) m last) (hq : query.b < query.e)
    (hfirst : InExtent x query.b 0 first) (hi : x.extents[i]? = some entry) (him : i ≤ m)
    (hword : entry.1 + (entry.2 - x.beginAt i) < 2 ^ 64) :
    LogicalExtentsRange.item pr x ⟨0, m, query.b - x.beginAt 0, query.e - x.beginAt m⟩ i =
      .ok ⟨itemBegin x query i, entry.1 + (itemBegin x query i - x.beginAt i),
        itemEnd query m i entry - itemBegin x query i⟩ := by
  obtain ⟨hle, hlt, hend⟩ := item_bounds hm hq hfirst hi him
  have hu := x.u64 entry (mem_of_getElem? hi)
  have hoffset : (if i = 0 then query.b - x.beginAt 0 else 0) =
      itemBegin x query i - x.beginAt i := by
    rw [itemBegin]
    split
    · rename_i hz
      rw [hz]
    · rw [Nat.sub_self]
  have hlogicalEnd : LogicalExtentsRange.logicalEnd
      ⟨0, m, query.b - x.beginAt 0, query.e - x.beginAt m⟩ ⟨x.beginAt i, entry.2⟩ i =
      .ok (itemEnd query m i entry) := by
    have hb := hm.b_le
    rw [LogicalExtentsRange.logicalEnd, itemEnd]
    by_cases heq : i = m
    · subst heq
      rw [itemEnd, if_pos rfl] at hend
      rw [if_neg (not_not.mpr rfl), if_pos rfl]
      dsimp only
      rw [checkedAdd_ok (by omega), Nat.add_sub_cancel' (by omega)]
    · rw [if_pos heq, if_neg heq]
  rw [LogicalExtentsRange.item, x.entryLogicalRange_ok pr hi, ok_bind, index_ok hi, ok_bind]
  dsimp only
  rw [hoffset, checkedAdd_ok (by omega), ok_bind, checkedAdd_ok (by omega), ok_bind, hlogicalEnd,
    ok_bind, Nat.add_sub_cancel' hle, checkedSub_ok hlt.le]
  rfl

theorem stored_item {b e : Nat} (hi : x.extents[i]? = some entry)
    (hle : x.beginAt i ≤ b) (hlt : b < e) (hend : e ≤ entry.2)
    (hword : entry.1 + (entry.2 - x.beginAt i) < 2 ^ 64) :
    Stored pr x ⟨b, entry.1 + (b - x.beginAt i), e - b⟩ := by
  intro q hbq hqe
  dsimp only at hbq hqe ⊢
  have hin : InExtent x q i entry := ⟨hi, by omega, by omega⟩
  refine ⟨entry.2 - q, ?_⟩
  rw [hin.lookup_eq pr hword,
    show entry.1 + (b - x.beginAt i) + (q - b) = entry.1 + (q - x.beginAt i) by omega]

theorem next_ok {item : LogicalExtent}
    (hi : i ≠ range.indexLast + 1) (hitem : LogicalExtentsRange.item pr x range i = .ok item) :
    LogicalExtentsRangeIterator.next pr ⟨x, some range, i⟩ =
      .ok (some item, ⟨x, some range, i + 1⟩) := by
  rw [LogicalExtentsRangeIterator.next]
  dsimp only
  rw [if_neg hi, hitem]
  rfl

theorem yields_from (hm : InExtent x (query.e - 1) m last) (hq : query.b < query.e)
    (hfirst : InExtent x query.b 0 first)
    (hword : ∀ i entry, x.extents[i]? = some entry → entry.1 + (entry.2 - x.beginAt i) < 2 ^ 64)
    (n i : Nat) (hn : i + n = m + 1) :
    ∃ items, Yields pr ⟨x, some ⟨0, m, query.b - x.beginAt 0, query.e - x.beginAt m⟩, i⟩ items ∧
      Tiles (if i = m + 1 then query.e else itemBegin x query i) items query.e ∧
      ∀ item ∈ items, Stored pr x item := by
  have hmlen := (List.getElem?_eq_some_iff.mp hm.entry_eq).1
  induction n generalizing i with
  | zero =>
    obtain rfl : i = m + 1 := hn
    have hnext : LogicalExtentsRangeIterator.next pr
        ⟨x, some ⟨0, m, query.b - x.beginAt 0, query.e - x.beginAt m⟩, m + 1⟩ = .ok (none, _) :=
      if_pos rfl
    refine ⟨[], .done hnext, ?_, by simp⟩
    rw [if_pos rfl]
    rfl
  | succ n ih =>
    have hi : x.extents[i]? = some x.extents[i] := getElem?_eq_getElem (by omega)
    have him : i ≤ m := by omega
    obtain ⟨hle, hlt, hend⟩ := item_bounds hm hq hfirst hi him
    obtain ⟨items, hyields, htiles, hstored⟩ := ih (i + 1) (by omega)
    have hitem := item_ok pr hm hq hfirst hi him (hword i _ hi)
    refine ⟨_, .item (next_ok pr (by dsimp only; omega) hitem) hyields, ?_,
      forall_mem_cons.mpr ⟨stored_item pr hi hle hlt hend (hword i _ hi), hstored⟩⟩
    rw [if_neg (show i ≠ m + 1 by omega)]
    refine ⟨rfl, by dsimp only; omega, ?_⟩
    rw [Nat.add_sub_cancel' hlt.le]
    -- An item ends where the next one begins.
    convert htiles using 1
    rw [itemEnd, itemBegin, if_neg (Nat.succ_ne_zero i)]
    by_cases heq : i = m
    · rw [if_pos heq, if_pos (by omega)]
    · rw [if_neg heq, if_neg (by omega)]
      simp [LogicalExtents.beginAt, hi]

theorem item_zero_begin (hk : range.indexFirst ≠ 0)
    {item : LogicalExtent} (h : LogicalExtentsRange.item pr x range 0 = .ok item) :
    item.logicalBegin = 0 := by
  obtain ⟨r, hr, h⟩ := bind_eq_ok h
  obtain ⟨entry, hentry, h⟩ := bind_eq_ok h
  rw [if_neg hk.symm] at h
  obtain ⟨logicalBegin, hbegin, h⟩ := bind_eq_ok h
  obtain ⟨physicalBegin, -, h⟩ := bind_eq_ok h
  obtain ⟨logicalEnd, -, h⟩ := bind_eq_ok h
  obtain ⟨count, -, h⟩ := bind_eq_ok h
  cases h
  have hget : x.extents[0]? = some entry := by
    rw [index] at hentry
    split at hentry
    · rename_i hsome
      rw [hsome, Except.ok.inj hentry]
    · cases hentry
  rw [x.entryLogicalRange_ok pr hget] at hr
  cases hr
  exact (Except.ok.inj hbegin).symm

theorem begin_of_yields (hk : range.indexFirst ≠ 0) {items : List LogicalExtent}
    (h : Yields pr (new x range) items) :
    ∃ item rest, items = item :: rest ∧ item.logicalBegin = 0 := by
  have hnext {r : Option LogicalExtent × LogicalExtentsRangeIterator}
      (h : (new x range).next pr = .ok r) :
      ∃ item, r.1 = some item ∧ item.logicalBegin = 0 := by
    obtain ⟨item, hitem, h⟩ := bind_eq_ok h
    cases h
    exact ⟨item, rfl, item_zero_begin pr hk hitem⟩
  cases h with
  | done h =>
    obtain ⟨item, hitem, -⟩ := hnext h
    cases hitem
  | item h hrest =>
    obtain ⟨item, hitem, hzero⟩ := hnext h
    cases hitem
    exact ⟨_, _, rfl, hzero⟩

end

end Items

/-- The first extent starts at logical block zero, and it has all its blocks. -/
theorem head_of_ranges {p : PhysicalExtents} {x : LogicalExtents} (h : x.ranges = p.ranges)
    {first : Nat × Nat} (hfirst : x.extents[0]? = some first) : p.extents.head? = some first := by
  rw [LogicalExtents.ranges, PhysicalExtents.ranges] at h
  cases hx : x.extents with
  | nil =>
    rw [hx] at hfirst
    cases hfirst
  | cons e xs =>
    obtain rfl : e = first := by
      rw [hx] at hfirst
      exact Option.some.inj hfirst
    cases hp : p.extents with
    | nil =>
      rw [hx, hp, rangesFrom] at h
      cases h
    | cons f fs =>
      rw [hx, hp, rangesFrom, map_cons] at h
      obtain ⟨hb, he⟩ := BlockRange.mk.inj (List.cons.inj h).1
      rw [head?_cons, Option.some.injEq]
      exact Prod.ext hb.symm (by omega)

/-- A query is iterated over correctly just if it begins within the first extent. -/
theorem iterRange_iff (pr : Profile) (p : PhysicalExtents) (x : LogicalExtents)
    (hx : logicalEntries pr 0 p.extents = .ok x.extents) (hp : ∀ r ∈ p.ranges, r.e < 2 ^ 64)
    (query : BlockRange) (hq : query.b < query.e) (he : query.e ≤ x.allocationBlockCount) :
    IteratesQuery pr x query ↔ ∃ first, p.extents.head? = some first ∧ query.b < first.2 := by
  have hpword : ∀ entry ∈ p.extents, entry.1 + entry.2 < 2 ^ 64 := fun entry hentry =>
    hp ⟨entry.1, entry.1 + entry.2⟩ (mem_map_of_mem hentry)
  have hranges : x.ranges = p.ranges :=
    rangesFrom_logicalEntries pr p.extents (by decide) hpword hx x.ascending
  have hword : ∀ i entry, x.extents[i]? = some entry →
      entry.1 + (entry.2 - x.beginAt i) < 2 ^ 64 := by
    intro i entry h
    have hmem : (⟨entry.1, entry.1 + (entry.2 - x.beginAt i)⟩ : BlockRange) ∈ x.ranges :=
      rangesFrom_getElem? x.extents 0 i h
    exact hp _ (hranges ▸ hmem)
  obtain ⟨k, entry, hk⟩ := exists_inExtent x (show query.b < x.allocationBlockCount by omega)
  obtain ⟨m, last, hm⟩ := exists_inExtent x (show query.e - 1 < x.allocationBlockCount by omega)
  have hlookup := lookupRange_ok pr hk hm hq
  have hklen := (List.getElem?_eq_some_iff.mp hk.entry_eq).1
  obtain ⟨first, hfirst⟩ : ∃ first, x.extents[0]? = some first :=
    ⟨_, getElem?_eq_getElem (by omega)⟩
  constructor
  · rintro ⟨it, items, hit, hyields, htiles, -⟩
    rw [LogicalExtents.iterRange, hlookup] at hit
    cases Except.ok.inj hit
    refine ⟨first, head_of_ranges hranges hfirst, ?_⟩
    by_contra hlt
    have hne : k ≠ 0 := by
      rintro rfl
      obtain rfl : entry = first := Option.some.inj (hk.entry_eq.symm.trans hfirst)
      exact hlt hk.lt_e
    obtain ⟨item, rest, rfl, hzero⟩ := begin_of_yields pr hne hyields
    have hpos := x.beginAt_lt hfirst
    obtain ⟨hbegin, -⟩ := htiles
    omega
  · rintro ⟨first', hhead, hlt⟩
    obtain rfl : first = first' :=
      Option.some.inj ((head_of_ranges hranges hfirst).symm.trans hhead)
    obtain ⟨rfl, rfl⟩ := hk.unique ⟨hfirst, Nat.zero_le _, hlt⟩
    obtain ⟨items, hyields, htiles, hstored⟩ := yields_from pr hm hq hk hword (m + 1) 0 (by omega)
    refine ⟨_, items, ?_, hyields, ?_, hstored⟩
    · rw [LogicalExtents.iterRange, hlookup]
      rfl
    · rwa [if_neg (Nat.succ_ne_zero m).symm] at htiles

def twoExtents : PhysicalExtents := ⟨[(8, 2), (16, 2)], by decide⟩

def twoLogicalExtents : LogicalExtents := ⟨[(8, 2), (16, 4)], by decide, by decide⟩

theorem iterRange_iff_firstExtent : IteratesQuery .debug twoLogicalExtents ⟨1, 4⟩ :=
  (iterRange_iff .debug twoExtents twoLogicalExtents rfl (by decide) ⟨1, 4⟩ (by decide)
    (by decide)).mpr ⟨(8, 2), rfl, by decide⟩

/-- A query in the second extent starts at the first one's begin. -/
theorem iterRange_secondExtent : ¬ ∀ (pr : Profile) (p : PhysicalExtents) (x : LogicalExtents)
    (query : BlockRange), logicalEntries pr 0 p.extents = .ok x.extents →
    (∀ r ∈ p.ranges, r.e < 2 ^ 64) → query.b < query.e → query.e ≤ x.allocationBlockCount →
    IteratesQuery pr x query := by
  intro h
  obtain ⟨it, items, hit, hyields, htiles, -⟩ :=
    h .debug twoExtents twoLogicalExtents ⟨2, 4⟩ rfl (by decide) (by decide) (by decide)
  have hrange : twoLogicalExtents.iterRange .debug ⟨2, 4⟩ =
      .ok (some (new twoLogicalExtents ⟨1, 1, 0, 2⟩)) := rfl
  cases Except.ok.inj (hrange.symm.trans hit)
  have hnext : (new twoLogicalExtents ⟨1, 1, 0, 2⟩).next .debug =
      .ok (some ⟨0, 8, 2⟩, ⟨twoLogicalExtents, some ⟨1, 1, 0, 2⟩, 1⟩) := rfl
  cases hyields with
  | done hdone => cases hnext.symm.trans hdone
  | item hitem hrest =>
    cases hnext.symm.trans hitem
    exact absurd htiles.1 (by decide)

end CocoonFs.ExtentsRangeIteration
