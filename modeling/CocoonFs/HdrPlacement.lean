import CocoonFs.AllocationProgress
import CocoonFs.ExtentsSort

namespace CocoonFs.HdrPlacement

open Checked ExtentsLayouts ExtentsReallocation ExtentsCountFilter AllocationProgress List

def swapExtents (extents : List (Nat × Nat)) (i j : Nat) : Comp (List (Nat × Nat)) := do
  let x ← index extents i
  let y ← index extents j
  pure ((extents.set i y).set j x)

def shrinkExtentBy (pr : Profile) (extents : List (Nat × Nat)) (i allocationBlocks : Nat) :
    Comp (Bool × List (Nat × Nat)) := do
  let entry ← index extents i
  debugAssert pr (allocationBlocks ≤ entry.2)
  if allocationBlocks = entry.2 then pure (true, extents.eraseIdx i)
  else do
    let count ← subU64 pr entry.2 allocationBlocks
    pure (false, extents.set i (entry.1, count))

/-- Shorter extents come first, then the ones at increasing positions. No range of an
extent in an image overflows. -/
def shorter (x y : Nat × Nat) : Bool := decide (x.2 < y.2 ∨ x.2 = y.2 ∧ y.1 < x.1)

def findShortestFrom : Nat → List (Nat × Nat) → Nat × (Nat × Nat) → Nat × (Nat × Nat)
  | _, [], shortestExtent => shortestExtent
  | i, entry :: entries, shortestExtent =>
    findShortestFrom (i + 1) entries
      (if shorter entry shortestExtent.2 then (i, entry) else shortestExtent)

def findShortestExtent : List (Nat × Nat) → Option Nat
  | [] => none
  | entry :: entries => some (findShortestFrom 1 entries (0, entry)).1

/-- An extent among the others, and the cost of having the extents header there. -/
structure Placement where
  index : Nat
  extent : Nat × Nat
  cost : Nat

/-- Lower costs come first, then shorter extents, then the ones at smaller positions. -/
def Placement.preferred (x y : Placement) : Bool :=
  decide (x.cost < y.cost ∨ x.cost = y.cost ∧
    (x.extent.2 < y.extent.2 ∨ x.extent.2 = y.extent.2 ∧ x.extent.1 < y.extent.1))

def findPlacementFrom (pr : Profile) (l : ExtentsLayout) (headExtentMinAllocationBlocks : Nat) :
    Nat → List (Nat × Nat) → Placement → Comp Placement
  | _, [], best => pure best
  | i, entry :: entries, best =>
    if entry.2 < headExtentMinAllocationBlocks then
      findPlacementFrom pr l headExtentMinAllocationBlocks (i + 1) entries best
    else do
      let cost ← extentsHdrPlacementCost pr l entry.2
      findPlacementFrom pr l headExtentMinAllocationBlocks (i + 1) entries
        (if Placement.preferred ⟨i, entry, cost⟩ best then ⟨i, entry, cost⟩ else best)

/-- What the extents header's move to a better placement has come to. -/
structure HdrMove where
  progress : ExtentsAllocationRequestProgress
  extents : List (Nat × Nat)
  prevContainingExtentIndex : Nat
  bestCost : Nat
  /-- Provided by the extents, but not accounted for yet. -/
  gainedLen : Nat
  shortestExtent : Option (Nat × (Nat × Nat))
  nExtentsRemoved : Nat

structure PlacementBounds where
  headExtentMinAllocationBlocks : Nat
  maxFinalRemainingLen : Nat
  minExtentAlignmentLog2 : Nat

section HdrPlacement

variable (pr : Profile) (bounds : PlacementBounds)

/-- The extents header moves on to the shrunken extent if that's better still. -/
def HdrMove.moveToShortest (m : HdrMove) (i blocks : Nat) : Comp (HdrMove × Nat) :=
  if bounds.headExtentMinAllocationBlocks ≤ blocks then do
    let cost ← extentsHdrPlacementCost pr m.progress.request.layout blocks
    if cost ≤ m.bestCost then do
      let extents ← swapExtents m.extents 0 i
      let progress ← accountGain pr m.progress (m.bestCost - cost)
      pure ({ m with progress, extents, bestCost := cost }, 0)
    else pure (m, i)
  else pure (m, i)

/-- The shortest extent is shrunken, or removed, by what has been gained. -/
def HdrMove.shrinkShortest (m : HdrMove) : Comp HdrMove :=
  match m.shortestExtent with
  | none => pure m
  | some (i, extent) =>
    if m.gainedLen ≠ 0 ∧ i ≠ 0 ∧ i ≠ m.prevContainingExtentIndex then do
      let len ← m.progress.request.layout.extentEffectivePayloadLen pr extent.2 false
      let x := min len m.gainedLen
      debugAssert pr (len - x = 0 ∨ m.gainedLen - x = 0)
      let (progress, blocks) ← fitAllocatedExtentToEffectivePayloadLen pr m.progress (len - x)
        false bounds.maxFinalRemainingLen bounds.minExtentAlignmentLog2
      let m := { m with progress, gainedLen := m.gainedLen - x }
      if blocks ≠ 0 then do
        debugAssert pr (len - x ≠ 0)
        debugAssert pr (m.gainedLen = 0)
        if blocks < extent.2 then do
          let (removed, extents) ← shrinkExtentBy pr m.extents i (extent.2 - blocks)
          debugAssert pr (removed = false)
          let (m, i) ← { m with extents }.moveToShortest pr bounds i blocks
          let extent ← index m.extents i
          pure { m with shortestExtent := some (i, extent) }
        else pure m
      else do
        let last := m.extents.length - 1
        let extents ← swapExtents m.extents i last
        pure { m with
          extents := extents.dropLast
          prevContainingExtentIndex :=
            if m.prevContainingExtentIndex = last then i else m.prevContainingExtentIndex
          shortestExtent := none
          nExtentsRemoved := m.nExtentsRemoved + 1 }
    else pure m

/-- The extents header moves back to where it had been if that's better now. -/
def HdrMove.moveBack (m : HdrMove) (blocks : Nat) : Comp HdrMove :=
  if bounds.headExtentMinAllocationBlocks ≤ blocks then do
    let cost ← extentsHdrPlacementCost pr m.progress.request.layout blocks
    let best ← index m.extents 0
    let prev ← index m.extents m.prevContainingExtentIndex
    if cost < m.bestCost ∨ cost = m.bestCost ∧
        (blocks < best.2 ∨ blocks = best.2 ∧ prev.1 < best.1) then do
      let extents ← swapExtents m.extents 0 m.prevContainingExtentIndex
      debugAssert pr (∀ s ∈ m.shortestExtent, s.1 ≠ 0 →
        s.1 ≠ m.prevContainingExtentIndex ∨ blocks < s.2.2)
      let progress ← accountGain pr m.progress (m.bestCost - cost)
      pure { m with
        progress
        extents
        prevContainingExtentIndex := 0
        shortestExtent := m.shortestExtent.map (fun s =>
          (if s.1 = 0 then m.prevContainingExtentIndex else s.1, s.2)) }
    else pure m
  else pure m

/-- The extent that the extents header had been in is shrunken, or removed, by what's
left of the gain. -/
def HdrMove.shrinkPrevContaining (m : HdrMove) (originalBlocks : Nat) :
    Comp (HdrMove × Option Nat) :=
  if m.gainedLen ≠ 0 then do
    let maxLen ← m.progress.request.layout.extentEffectivePayloadLen pr originalBlocks false
    debugAssert pr (m.gainedLen ≤ maxLen)
    let usedLen ← subU64 pr maxLen m.gainedLen
    let (progress, blocks) ← fitAllocatedExtentToEffectivePayloadLen pr m.progress usedLen
      false bounds.maxFinalRemainingLen bounds.minExtentAlignmentLog2
    let m := { m with progress }
    if blocks ≠ 0 then
      if blocks < originalBlocks then do
        let (removed, extents) ← shrinkExtentBy pr m.extents m.prevContainingExtentIndex
          (originalBlocks - blocks)
        debugAssert pr (removed = false)
        let m ← { m with extents }.moveBack pr bounds blocks
        let prev ← index m.extents m.prevContainingExtentIndex
        pure (m, m.shortestExtent.map (fun s =>
          if blocks < s.2.2 ∨ s.2.2 = blocks ∧ prev.1 < s.2.1 then m.prevContainingExtentIndex
          else s.1))
      else pure (m, m.shortestExtent.map Prod.fst)
    else do
      let extents ← swapExtents m.extents m.prevContainingExtentIndex (m.extents.length - 1)
      pure ({ m with extents := extents.dropLast, nExtentsRemoved := m.nExtentsRemoved + 1 },
        (m.shortestExtent.map Prod.fst).filter (· ≠ m.prevContainingExtentIndex))
  else pure (m, m.shortestExtent.map Prod.fst)

/-- Up to where what remains would be as little as it may be, the gain goes to it. -/
def allocateGain (p : ExtentsAllocationRequestProgress) (gainedLen : Nat) :
    Comp (ExtentsAllocationRequestProgress × Nat) := do
  let remaining ← remainingEffectivePayloadLen pr p
  if bounds.maxFinalRemainingLen < remaining then do
    let x := min gainedLen (remaining - bounds.maxFinalRemainingLen)
    let allocated ← addU64 pr p.allocatedEffectivePayloadLen x
    pure ({ p with allocatedEffectivePayloadLen := allocated }, gainedLen - x)
  else pure (p, gainedLen)

/-- The result also tells how many extents have been removed, and the index of the
shortest one if known. -/
def optimizeExtentsHdrPlacement (isInvariant : Bool) (p : ExtentsAllocationRequestProgress)
    (extents : List (Nat × Nat)) (shortestExtentHint : Option Nat) :
    Comp (ExtentsAllocationRequestProgress × List (Nat × Nat) × Nat × Option Nat) :=
  let l := p.request.layout
  if extents.length ≤ 1 ∨ l.extentsHdrLen = 0 then
    pure (p, extents, 0, if extents.length = 1 then some 0 else none)
  else if isInvariant then pure (p, extents, 0, shortestExtentHint)
  else do
    let first ← index extents 0
    let cost ← extentsHdrPlacementCost pr l first.2
    let best ← findPlacementFrom pr l bounds.headExtentMinAllocationBlocks 1 extents.tail
      ⟨0, first, cost⟩
    let (shortestIndex, shortest) := findShortestFrom 1 extents.tail (0, first)
    let extents ← swapExtents extents 0 best.index
    let shortestIndex :=
      if shortestIndex = 0 then best.index else if shortestIndex = best.index then 0
      else shortestIndex
    let gainedLen ← subU64 pr cost best.cost
    debugAssert pr (gainedLen < l.extentPayloadLenAlignment)
    let (progress, gainedLen) ← allocateGain pr bounds p gainedLen
    let m : HdrMove := ⟨progress, extents, best.index, best.cost, gainedLen,
      some (shortestIndex, shortest), 0⟩
    let m ← m.shrinkShortest pr bounds
    let (m, shortestIndex) ← m.shrinkPrevContaining pr bounds first.2
    pure (m.progress, m.extents, m.nExtentsRemoved, shortestIndex)

end HdrPlacement

structure WholeWords (l : ExtentsLayout) (Free : Nat → Prop) (e : Nat × Nat) : Prop where
  begin_dvd : 64 ∣ e.1
  count_dvd : 64 ∣ e.2
  count_pos : 0 < e.2
  le_max : e.2 ≤ l.maxExtentAllocationBlocks
  free : ∀ block, e.1 ≤ block → block < e.1 + e.2 → Free block

def Apart (x y : Nat × Nat) : Prop := x.1 + x.2 ≤ y.1 ∨ y.1 + y.2 ≤ x.1

/-- What holds of the extents in any order. They have been found in the first blocks. -/
structure Chosen (l : ExtentsLayout) (Free : Nat → Prop) (limit : Nat) (xs : List (Nat × Nat)) :
    Prop where
  whole : ∀ e ∈ xs, WholeWords l Free e
  apart : xs.Pairwise Apart
  sum_le : (xs.map Prod.snd).sum ≤ limit

/-- What the extents would provide if none of them stored the extents header. -/
def tailLen (l : ExtentsLayout) (xs : List (Nat × Nat)) : Nat :=
  (xs.map (fun e => l.providedLen e.2 false)).sum

section Entries

variable {l : ExtentsLayout} {Free : Nat → Prop} {limit : Nat} {xs ys rest : List (Nat × Nat)}
  {i j : Nat} {x y : Nat × Nat}

theorem Apart.symm (h : Apart x y) : Apart y x := Or.symm h

theorem exists_perm_set (h : xs[i]? = some x) :
    ∃ rest, xs.Perm (x :: rest) ∧ ∀ y, (xs.set i y).Perm (y :: rest) := by
  obtain ⟨hi, rfl⟩ := List.getElem?_eq_some_iff.mp h
  exact ⟨xs.eraseIdx i, (getElem_cons_eraseIdx_perm hi).symm, fun y => set_perm_cons_eraseIdx hi y⟩

theorem getElem?_of_index {α : Type} {xs : List α} {i : Nat} {x : α} (h : index xs i = .ok x) :
    xs[i]? = some x := by
  rw [index] at h
  split at h
  · rename_i heq
    rw [heq, Except.ok.inj h]
  · cases h

theorem swapExtents_of_ok (h : swapExtents xs i j = .ok ys) :
    ∃ x y, xs[i]? = some x ∧ xs[j]? = some y ∧ ys = (xs.set i y).set j x := by
  obtain ⟨x, hx, h⟩ := bind_eq_ok h
  obtain ⟨y, hy, h⟩ := bind_eq_ok h
  exact ⟨x, y, getElem?_of_index hx, getElem?_of_index hy, (Except.ok.inj h).symm⟩

theorem swap_perm (hx : xs[i]? = some x) (hy : xs[j]? = some y) :
    ((xs.set i y).set j x).Perm xs := by
  have hset : (xs.set i y)[j]? = some y := by
    rw [getElem?_set]
    split
    · rename_i heq
      rw [if_pos (List.getElem?_eq_some_iff.mp hx).1]
    · exact hy
  obtain ⟨rest, hxs, hrest⟩ := exists_perm_set hx
  obtain ⟨rest', hset', hrest'⟩ := exists_perm_set hset
  have hcons : (y :: rest').Perm (y :: rest) := hset'.symm.trans (hrest y)
  exact ((hrest' x).trans ((List.Perm.cons_inv hcons).cons x)).trans hxs.symm

theorem removed_perm (hx : xs[i]? = some x)
    (h : swapExtents xs i (xs.length - 1) = .ok ys) : xs.Perm (x :: ys.dropLast) := by
  obtain ⟨x', y, hx', hy, rfl⟩ := swapExtents_of_ok h
  cases hx.symm.trans hx'
  have hlast : ((xs.set i y).set (xs.length - 1) x).getLast? = some x := by
    have hlt := (List.getElem?_eq_some_iff.mp hy).1
    rw [getLast?_eq_getElem?, length_set, length_set,
      getElem?_set_self (by rwa [length_set])]
  obtain ⟨init, hinit⟩ := getLast?_eq_some_iff.mp hlast
  have hperm := swap_perm hx hy
  rw [hinit] at hperm ⊢
  rw [dropLast_concat]
  exact hperm.symm.trans (perm_append_singleton x init)

theorem tailLen_perm (h : xs.Perm ys) : tailLen l xs = tailLen l ys := (h.map _).sum_nat

theorem tailLen_cons (l : ExtentsLayout) (x : Nat × Nat) (xs : List (Nat × Nat)) :
    tailLen l (x :: xs) = l.providedLen x.2 false + tailLen l xs := by
  rw [tailLen, map_cons, sum_cons, tailLen]

theorem tailLen_append_singleton (l : ExtentsLayout) (xs : List (Nat × Nat)) (x : Nat × Nat) :
    tailLen l (xs ++ [x]) = tailLen l xs + l.providedLen x.2 false := by
  rw [tailLen, map_append, sum_append, tailLen]
  simp

theorem tailLen_le (l : ExtentsLayout) (xs : List (Nat × Nat)) :
    tailLen l xs ≤ (xs.map Prod.snd).sum * 2 ^ l.blockLenLog2 := by
  induction xs with
  | nil => exact Nat.zero_le _
  | cons x xs ih =>
    have hle := providedLen_le l x.2 false
    rw [tailLen_cons, map_cons, sum_cons, add_mul]
    omega

theorem tailLen_set (hx : xs[i]? = some x) (y : Nat × Nat) :
    tailLen l (xs.set i y) + l.providedLen x.2 false = tailLen l xs + l.providedLen y.2 false := by
  obtain ⟨rest, hxs, hrest⟩ := exists_perm_set hx
  rw [tailLen_perm hxs, tailLen_perm (hrest y), tailLen_cons, tailLen_cons]
  omega

theorem le_tailLen (hx : xs[i]? = some x) : l.providedLen x.2 false ≤ tailLen l xs := by
  obtain ⟨rest, hxs, -⟩ := exists_perm_set hx
  rw [tailLen_perm hxs, tailLen_cons]
  exact Nat.le_add_right _ _

theorem add_le_tailLen (hx : xs[i]? = some x) (hy : xs[0]? = some y) (hi : i ≠ 0) :
    l.providedLen y.2 false + l.providedLen x.2 false ≤ tailLen l xs := by
  cases xs with
  | nil => cases hy
  | cons x' xs =>
    cases hy
    obtain ⟨k, rfl⟩ := Nat.exists_eq_succ_of_ne_zero hi
    rw [getElem?_cons_succ] at hx
    rw [tailLen_cons]
    exact Nat.add_le_add_left (le_tailLen hx) _

theorem Chosen.perm (h : Chosen l Free limit xs) (hperm : xs.Perm ys) : Chosen l Free limit ys :=
  ⟨fun e he => h.whole e (hperm.symm.subset he),
    (hperm.pairwise_iff Apart.symm).mp h.apart, (hperm.map Prod.snd).sum_nat ▸ h.sum_le⟩

theorem Chosen.mono {Free' : Nat → Prop} {limit' : Nat} (h : Chosen l Free limit xs)
    (hfree : ∀ block, Free block → Free' block) (hle : limit ≤ limit') :
    Chosen l Free' limit' xs := by
  refine ⟨fun e he => ?_, h.apart, le_trans h.sum_le hle⟩
  have hwhole := h.whole e he
  exact { hwhole with free := fun block hge hlt => hfree block (hwhole.free block hge hlt) }

theorem Chosen.drop (h : Chosen l Free limit (x :: rest)) : Chosen l Free limit rest := by
  refine ⟨fun e he => h.whole e (mem_cons_of_mem _ he), (pairwise_cons.mp h.apart).2, ?_⟩
  have hle := h.sum_le
  rw [map_cons, sum_cons] at hle
  omega

theorem Chosen.trim (h : Chosen l Free limit (x :: rest)) {n : Nat} (hdvd : 64 ∣ n) (hpos : 0 < n)
    (hle : n ≤ x.2) : Chosen l Free limit ((x.1, n) :: rest) := by
  have hx := h.whole x (mem_cons_self ..)
  obtain ⟨hhead, htail⟩ := pairwise_cons.mp h.apart
  refine ⟨fun e he => ?_, pairwise_cons.mpr ⟨fun e he => ?_, htail⟩, ?_⟩
  · rcases mem_cons.mp he with rfl | he
    · exact ⟨hx.begin_dvd, hdvd, hpos, le_trans hle hx.le_max,
        fun block hge hlt => hx.free block hge (by dsimp only at hlt; omega)⟩
    · exact h.whole e (mem_cons_of_mem _ he)
  · rcases hhead e he with hlt | hlt
    · exact .inl (le_trans (Nat.add_le_add_left hle _) hlt)
    · exact .inr hlt
  · have hsum := h.sum_le
    rw [map_cons, sum_cons] at hsum ⊢
    omega

theorem Chosen.set (h : Chosen l Free limit xs) (hx : xs[i]? = some x) {n : Nat} (hdvd : 64 ∣ n)
    (hpos : 0 < n) (hle : n ≤ x.2) : Chosen l Free limit (xs.set i (x.1, n)) := by
  obtain ⟨rest, hxs, hrest⟩ := exists_perm_set hx
  exact ((h.perm hxs).trim hdvd hpos hle).perm (hrest _).symm

theorem Chosen.tailLen_lt (h : Chosen l Free limit xs)
    (hlt : limit * 2 ^ l.blockLenLog2 < 2 ^ 64) : tailLen l xs < 2 ^ 64 :=
  lt_of_le_of_lt (le_trans (tailLen_le l xs) (Nat.mul_le_mul_right _ h.sum_le)) hlt

theorem Chosen.at (h : Chosen l Free limit xs) (hx : xs[i]? = some x) : WholeWords l Free x :=
  h.whole x (mem_of_getElem? hx)

end Entries

def firstCost (l : ExtentsLayout) : List (Nat × Nat) → Nat
  | [] => 0
  | e :: _ => hdrCost l e.2

/-- What the extents provide is accounted for, but for what's pending. -/
structure Accounts (request : ExtentsAllocationRequest) (Free : Nat → Prop) (limit : Nat)
    (p : ExtentsAllocationRequestProgress) (xs : List (Nat × Nat)) (pendingLen : Nat) : Prop where
  request_eq : p.request = request
  balanced : Balanced p
  chosen : Chosen request.layout Free limit xs
  sum : accountedLen p + pendingLen + firstCost request.layout xs = tailLen request.layout xs

section Placement

variable {request : ExtentsAllocationRequest} {Free : Nat → Prop} {limit : Nat}
  {p p' : ExtentsAllocationRequestProgress} {xs ys : List (Nat × Nat)} {i j n pendingLen : Nat}
  {x y : Nat × Nat} {pr : Profile} {l : ExtentsLayout}

theorem firstCost_of_getElem? (h : xs[0]? = some x) :
    firstCost l xs = hdrCost l x.2 := by
  cases xs with
  | nil => cases h
  | cons x' xs =>
    cases h
    rfl

theorem firstCost_congr (h : ys[0]? = xs[0]?) :
    firstCost l ys = firstCost l xs := by
  cases xs <;> cases ys <;> simp_all [firstCost]

theorem swap_getElem?_zero (hx : xs[0]? = some x) (hy : xs[i]? = some y) :
    ((xs.set 0 y).set i x)[0]? = some y := by
  have hlt := (List.getElem?_eq_some_iff.mp hx).1
  rw [getElem?_set]
  split
  · rename_i hzero
    rw [length_set, hzero, if_pos hlt]
    rw [hzero, hx] at hy
    exact hy
  · rw [getElem?_set_self hlt]

/-- All but the extent at the index and the last one remain in their places, and the last one
takes that of the former. -/
theorem removed_getElem? (h : swapExtents xs i (xs.length - 1) = .ok ys) (hj : j < xs.length)
    (hne : j ≠ i) :
    ys.dropLast[if j = xs.length - 1 then i else j]? = xs[j]? := by
  obtain ⟨x, y, hx, hy, rfl⟩ := swapExtents_of_ok h
  have hlt := (List.getElem?_eq_some_iff.mp hx).1
  rw [getElem?_dropLast, length_set, length_set]
  split
  · rename_i hlast
    rw [if_pos (by omega), getElem?_set_ne (by omega), getElem?_set_self hlt, hlast, hy]
  · rename_i hnotLast
    rw [if_pos (by omega), getElem?_set_ne (by omega), getElem?_set_ne (by omega)]

theorem removed_ne_nil (hi : i ≠ 0) (hlt : i < xs.length)
    (h : swapExtents xs i (xs.length - 1) = .ok ys) : ys.dropLast ≠ [] := by
  intro hnil
  have hzero := removed_getElem? h (j := 0) (by omega) (Ne.symm hi)
  rw [if_neg (by omega), hnil, getElem?_nil] at hzero
  have hle := List.getElem?_eq_none_iff.mp hzero.symm
  omega

variable (hw : WordExtents request.layout)
  (hlimit : limit * 2 ^ request.layout.blockLenLog2 < 2 ^ 64)

theorem Accounts.swap (h : Accounts request Free limit p xs pendingLen) (hx : xs[i]? = some x)
    (hle : hdrCost request.layout x.2 ≤ firstCost request.layout xs)
    (hswap : swapExtents xs 0 i = .ok ys) :
    Accounts request Free limit p ys
        (pendingLen + (firstCost request.layout xs - hdrCost request.layout x.2)) ∧
      firstCost request.layout ys = hdrCost request.layout x.2 ∧ ys.length = xs.length := by
  obtain ⟨x₀, x', hx₀, hx', rfl⟩ := swapExtents_of_ok hswap
  cases hx.symm.trans hx'
  have hfirst := firstCost_of_getElem? (l := request.layout) (swap_getElem?_zero hx₀ hx)
  have hperm := swap_perm hx₀ hx
  have hsum := h.sum
  refine ⟨⟨h.request_eq, h.balanced, h.chosen.perm hperm.symm, ?_⟩, hfirst, hperm.length_eq⟩
  rw [hfirst, tailLen_perm hperm]
  omega

include hlimit in
theorem Accounts.gain (h : Accounts request Free limit p xs pendingLen) {gainedLen : Nat}
    (hle : gainedLen ≤ pendingLen) (hgain : accountGain pr p gainedLen = .ok p') :
    Accounts request Free limit p' xs (pendingLen - gainedLen) := by
  have hsum := h.sum
  have hlt := h.chosen.tailLen_lt hlimit
  obtain ⟨p₁, hp₁, hrequest, hbalanced, haccounted⟩ :=
    h.balanced.accountGain_ok pr (show accountedLen p + gainedLen < 2 ^ 64 by omega)
  cases hp₁.symm.trans hgain
  exact ⟨hrequest.trans h.request_eq, hbalanced, h.chosen, by omega⟩

include hw hlimit

/-- An extent is refitted, and removed if nothing is left of it. Some of what's pending has
been deducted from what it was accounted for with. -/
theorem Accounts.refit (h : Accounts request Free limit p xs pendingLen) (hx : xs[i]? = some x)
    (hi : i ≠ 0) {len maxFinalRemainingLen : Nat}
    (hlen : len = min (request.layout.providedLen x.2 false) pendingLen)
    (hfit : fitAllocatedExtentToEffectivePayloadLen pr p
      (request.layout.providedLen x.2 false - len) false maxFinalRemainingLen 6 = .ok (p', n)) :
    n ≤ x.2 ∧ (request.layout.providedLen x.2 false - len = 0 → n = 0) ∧
      (n ≠ 0 → Accounts request Free limit p' (xs.set i (x.1, n)) (pendingLen - len)) ∧
      (n = 0 → ∀ ys, swapExtents xs i (xs.length - 1) = .ok ys →
        Accounts request Free limit p' ys.dropLast (pendingLen - len)) := by
  have hwhole := h.chosen.at hx
  have hsum := h.sum
  have hlt := h.chosen.tailLen_lt hlimit
  have hilt := (List.getElem?_eq_some_iff.mp hx).1
  obtain ⟨x₀, hx₀⟩ : ∃ x₀, xs[0]? = some x₀ := ⟨_, getElem?_eq_getElem (by omega)⟩
  have hcost : firstCost request.layout xs ≤ request.layout.providedLen x₀.2 false := by
    rw [firstCost_of_getElem? hx₀]
    exact Nat.sub_le _ _
  have htwo := add_le_tailLen (l := request.layout) hx hx₀ hi
  obtain ⟨hrequest, hbalanced, hdvd, hn, haccounted, -, hnone⟩ :=
    hw.fitAllocatedExtent_of_ok pr (by rw [h.request_eq]) h.balanced hwhole.count_dvd
      hwhole.count_pos hwhole.le_max (Nat.sub_le _ _) (by omega) (by omega) hfit
  refine ⟨hn, hnone rfl, fun hne => ?_, fun hzero ys hys => ?_⟩
  · have hset := tailLen_set (l := request.layout) hx (x.1, n)
    have hfirst : firstCost request.layout (xs.set i (x.1, n)) = firstCost request.layout xs :=
      firstCost_congr (getElem?_set_ne hi)
    refine ⟨hrequest.trans h.request_eq, hbalanced,
      h.chosen.set hx hdvd (pos_of_ne_zero hne) hn, ?_⟩
    rw [hfirst]
    dsimp only at hset
    omega
  · have hperm := removed_perm hx hys
    have htail := tailLen_perm (l := request.layout) hperm
    have hfirst : firstCost request.layout ys.dropLast = firstCost request.layout xs := by
      apply firstCost_congr
      have hzero := removed_getElem? hys (j := 0) (by omega) (Ne.symm hi)
      rwa [if_neg (by omega)] at hzero
    refine ⟨hrequest.trans h.request_eq, hbalanced, (h.chosen.perm hperm).drop, ?_⟩
    rw [hzero, providedLen_zero] at haccounted
    rw [tailLen_cons] at htail
    omega

omit hw hlimit in
theorem shrinkExtentBy_of_ok {removed : Bool} (hx : xs[i]? = some x) (hn : n ≠ 0) (hlt : n < x.2)
    (h : shrinkExtentBy pr xs i (x.2 - n) = .ok (removed, ys)) : ys = xs.set i (x.1, n) := by
  rw [shrinkExtentBy, index_ok hx, ok_bind, debugAssert_ok pr (Nat.sub_le _ _), ok_bind,
    if_neg (by omega), subU64_ok pr (Nat.sub_le _ _), ok_bind, Nat.sub_sub_self hlt.le] at h
  exact (Prod.mk.inj (Except.ok.inj h)).2.symm

omit hw hlimit in
theorem set_eq_self (hx : xs[i]? = some x) : xs.set i (x.1, x.2) = xs := by
  obtain ⟨hi, rfl⟩ := List.getElem?_eq_some_iff.mp hx
  exact set_getElem_self hi

/-- The gain left is no more than what the extent that had stored the extents header provides. -/
structure HdrMove.Ok (request : ExtentsAllocationRequest) (Free : Nat → Prop)
    (limit originalBlocks : Nat) (m : HdrMove) : Prop where
  accounts : Accounts request Free limit m.progress m.extents m.gainedLen
  ne : m.extents ≠ []
  best : firstCost request.layout m.extents = m.bestCost
  prev : m.gainedLen ≠ 0 → m.prevContainingExtentIndex ≠ 0 ∧
    m.gainedLen ≤ request.layout.providedLen originalBlocks false ∧
    ∃ e, m.extents[m.prevContainingExtentIndex]? = some e ∧ e.2 = originalBlocks

variable {bounds : PlacementBounds} {m m' : HdrMove} {originalBlocks : Nat}

theorem moveToShortest_of_ok (ha : Accounts request Free limit m.progress m.extents 0)
    (hbest : firstCost request.layout m.extents = m.bestCost) (hx : m.extents[i]? = some x)
    (h : m.moveToShortest pr bounds i x.2 = .ok (m', j)) :
    Accounts request Free limit m'.progress m'.extents 0 ∧
      firstCost request.layout m'.extents = m'.bestCost ∧
      m'.extents.length = m.extents.length ∧ m'.gainedLen = m.gainedLen := by
  have hwhole := ha.chosen.at hx
  rw [HdrMove.moveToShortest, ha.request_eq] at h
  split at h
  · rw [extentsHdrPlacementCost_ok pr hw.bounded hwhole.le_max hwhole.count_pos.ne'
      (hw.fits hwhole.count_dvd hwhole.count_pos true), ok_bind] at h
    split at h
    · rename_i hle
      obtain ⟨ys, hys, h⟩ := bind_eq_ok h
      obtain ⟨p', hp', h⟩ := bind_eq_ok h
      cases Except.ok.inj h
      rw [← hbest] at hle hp'
      obtain ⟨hswap, hfirst, hlength⟩ := ha.swap hx hle hys
      have hgain := hswap.gain hlimit (le_of_eq (zero_add _).symm) hp'
      rw [zero_add, Nat.sub_self] at hgain
      exact ⟨hgain, hfirst, hlength, rfl⟩
    · cases Except.ok.inj h
      exact ⟨ha, hbest, rfl, rfl⟩
  · cases Except.ok.inj h
    exact ⟨ha, hbest, rfl, rfl⟩

theorem shrinkShortest_of_ok (hm : m.Ok request Free limit originalBlocks)
    (hshortest : ∀ s ∈ m.shortestExtent, m.extents[s.1]? = some s.2)
    (hlog2 : bounds.minExtentAlignmentLog2 = 6) (h : m.shrinkShortest pr bounds = .ok m') :
    m'.Ok request Free limit originalBlocks := by
  have ha := hm.accounts
  rw [HdrMove.shrinkShortest] at h
  split at h
  · cases h
    exact hm
  · rename_i i x hs
    have hx : m.extents[i]? = some x := hshortest _ hs
    have hwhole := ha.chosen.at hx
    have hilt := (List.getElem?_eq_some_iff.mp hx).1
    split at h
    · rename_i hgain
      obtain ⟨hgain, hi, hprev⟩ := hgain
      rw [ha.request_eq, hw.providedLen_ok pr hwhole.count_dvd hwhole.count_pos hwhole.le_max false,
        ok_bind] at h
      dsimp only at h
      obtain ⟨⟨⟩, -, h⟩ := bind_eq_ok h
      obtain ⟨⟨p', n⟩, hfit, h⟩ := bind_eq_ok h
      rw [hlog2] at hfit
      obtain ⟨hn, hnone, hset, hremoved⟩ := ha.refit hw hlimit hx hi rfl hfit
      split at h
      · rename_i hn0
        have hzero : m.gainedLen - min (request.layout.providedLen x.2 false) m.gainedLen = 0 := by
          omega
        specialize hset hn0
        rw [hzero] at hset
        obtain ⟨⟨⟩, -, h⟩ := bind_eq_ok h
        obtain ⟨⟨⟩, -, h⟩ := bind_eq_ok h
        split at h
        · rename_i hlt
          obtain ⟨⟨removed, ys⟩, hys, h⟩ := bind_eq_ok h
          obtain rfl := shrinkExtentBy_of_ok hx hn0 hlt hys
          obtain ⟨⟨⟩, -, h⟩ := bind_eq_ok h
          obtain ⟨⟨m₁, i'⟩, hmove, h⟩ := bind_eq_ok h
          obtain ⟨e, he, h⟩ := bind_eq_ok h
          cases h
          obtain ⟨haccounts, hbest, hlength, hgained⟩ :=
            moveToShortest_of_ok hw hlimit (x := (x.1, n)) hset
              ((firstCost_congr (getElem?_set_ne hi)).trans hm.best)
              (getElem?_set_self hilt) hmove
          rw [hzero] at hgained
          refine ⟨?_, ?_, hbest, fun hne => absurd hgained hne⟩
          · rwa [hgained]
          · intro hnil
            rw [hnil, length_set] at hlength
            exact absurd hlength.symm (ne_of_gt (Nat.zero_lt_of_lt hilt))
        · rename_i hge
          cases h
          obtain rfl : n = x.2 := by omega
          rw [set_eq_self hx] at hset
          refine ⟨?_, hm.ne, hm.best, fun hne => absurd hzero hne⟩
          rwa [hzero]
      · rename_i hn0
        obtain ⟨ys, hys, h⟩ := bind_eq_ok h
        cases h
        have hzero := removed_getElem? hys (j := 0) (by omega) (Ne.symm hi)
        rw [if_neg (by omega)] at hzero
        refine ⟨hremoved (not_not.mp hn0) ys hys, removed_ne_nil hi hilt hys,
          (firstCost_congr hzero).trans hm.best, fun hne => ?_⟩
        · dsimp only at hne ⊢
          obtain ⟨hprev0, hgained, e, he, hcount⟩ := hm.prev (by omega)
          have hplt := (List.getElem?_eq_some_iff.mp he).1
          refine ⟨by split <;> assumption, by omega, e, ?_, hcount⟩
          rw [removed_getElem? hys hplt (Ne.symm hprev), he]
    · cases h
      exact hm

theorem moveBack_of_ok (ha : Accounts request Free limit m.progress m.extents 0)
    (hbest : firstCost request.layout m.extents = m.bestCost)
    (hx : m.extents[m.prevContainingExtentIndex]? = some x)
    (h : m.moveBack pr bounds x.2 = .ok m') :
    Accounts request Free limit m'.progress m'.extents 0 ∧
      m'.extents.length = m.extents.length := by
  have hwhole := ha.chosen.at hx
  rw [HdrMove.moveBack, ha.request_eq] at h
  split at h
  · rw [extentsHdrPlacementCost_ok pr hw.bounded hwhole.le_max hwhole.count_pos.ne'
      (hw.fits hwhole.count_dvd hwhole.count_pos true), ok_bind] at h
    obtain ⟨best, -, h⟩ := bind_eq_ok h
    obtain ⟨prev, -, h⟩ := bind_eq_ok h
    split at h
    · rename_i hless
      have hle : hdrCost request.layout x.2 ≤ firstCost request.layout m.extents := by omega
      obtain ⟨ys, hys, h⟩ := bind_eq_ok h
      obtain ⟨⟨⟩, -, h⟩ := bind_eq_ok h
      obtain ⟨p', hp', h⟩ := bind_eq_ok h
      cases h
      obtain ⟨hswap, -, hlength⟩ := ha.swap hx hle hys
      rw [← hbest] at hp'
      have hgain := hswap.gain hlimit (le_of_eq (zero_add _).symm) hp'
      rw [zero_add, Nat.sub_self] at hgain
      exact ⟨hgain, hlength⟩
    · cases h
      exact ⟨ha, rfl⟩
  · cases h
    exact ⟨ha, rfl⟩

theorem shrinkPrevContaining_of_ok {shortestExtentIndex : Option Nat}
    (hm : m.Ok request Free limit originalBlocks) (hlog2 : bounds.minExtentAlignmentLog2 = 6)
    (h : m.shrinkPrevContaining pr bounds originalBlocks = .ok (m', shortestExtentIndex)) :
    Accounts request Free limit m'.progress m'.extents 0 ∧ m'.extents ≠ [] := by
  have ha := hm.accounts
  rw [HdrMove.shrinkPrevContaining] at h
  split at h
  · rename_i hgain
    obtain ⟨hi, hle, x, hx, rfl⟩ := hm.prev hgain
    have hwhole := ha.chosen.at hx
    have hilt := (List.getElem?_eq_some_iff.mp hx).1
    rw [ha.request_eq, hw.providedLen_ok pr hwhole.count_dvd hwhole.count_pos hwhole.le_max false,
      ok_bind] at h
    obtain ⟨⟨⟩, -, h⟩ := bind_eq_ok h
    rw [subU64_ok pr hle, ok_bind] at h
    obtain ⟨⟨p', n⟩, hfit, h⟩ := bind_eq_ok h
    rw [hlog2] at hfit
    obtain ⟨hn, -, hset, hremoved⟩ := ha.refit hw hlimit hx hi (min_eq_right hle).symm hfit
    rw [Nat.sub_self] at hset hremoved
    dsimp only at h
    split at h
    · rename_i hn0
      specialize hset hn0
      split at h
      · rename_i hlt
        obtain ⟨⟨removed, ys⟩, hys, h⟩ := bind_eq_ok h
        obtain rfl := shrinkExtentBy_of_ok hx hn0 hlt hys
        obtain ⟨⟨⟩, -, h⟩ := bind_eq_ok h
        obtain ⟨m₁, hmove, h⟩ := bind_eq_ok h
        obtain ⟨prev, -, h⟩ := bind_eq_ok h
        obtain ⟨rfl, -⟩ := Prod.mk.inj (Except.ok.inj h)
        obtain ⟨haccounts, hlength⟩ := moveBack_of_ok hw hlimit (x := (x.1, n)) hset
          ((firstCost_congr (getElem?_set_ne hi)).trans hm.best)
          (getElem?_set_self hilt) hmove
        refine ⟨haccounts, fun hnil => ?_⟩
        rw [hnil, length_set] at hlength
        exact absurd hlength.symm (ne_of_gt (Nat.zero_lt_of_lt hilt))
      · obtain ⟨rfl, -⟩ := Prod.mk.inj (Except.ok.inj h)
        obtain rfl : n = x.2 := by omega
        rw [set_eq_self hx] at hset
        exact ⟨hset, hm.ne⟩
    · rename_i hn0
      obtain ⟨ys, hys, h⟩ := bind_eq_ok h
      obtain ⟨rfl, -⟩ := Prod.mk.inj (Except.ok.inj h)
      refine ⟨hremoved (not_not.mp hn0) ys hys, removed_ne_nil hi hilt hys⟩
  · rename_i hgain
    obtain ⟨rfl, -⟩ := Prod.mk.inj (Except.ok.inj h)
    rw [not_not.mp hgain] at ha
    exact ⟨ha, hm.ne⟩

omit hw hlimit in
theorem findShortestFrom_spec {l : List (Nat × Nat)} (s : Nat × (Nat × Nat))
    (hl : ∀ k, l[k]? = xs[i + k]?) (hs : xs[s.1]? = some s.2) :
    xs[(findShortestFrom i l s).1]? = some (findShortestFrom i l s).2 := by
  induction l generalizing i s with
  | nil => exact hs
  | cons entry l ih =>
    rw [findShortestFrom]
    apply ih
    · intro k
      rw [show i + 1 + k = i + (k + 1) by omega, ← hl (k + 1), getElem?_cons_succ]
    · split
      · exact (hl 0).symm
      · exact hs

structure Placement.Ok (l : ExtentsLayout) (xs : List (Nat × Nat)) (q : Placement) : Prop where
  extent : xs[q.index]? = some q.extent
  cost : q.cost = hdrCost l q.extent.2

omit hlimit in
theorem findPlacementFrom_of_ok {headMin : Nat} (hchosen : Chosen request.layout Free limit xs)
    {l : List (Nat × Nat)} (hl : ∀ k, l[k]? = xs[i + k]?) {best found : Placement}
    (hbest : best.Ok request.layout xs)
    (h : findPlacementFrom pr request.layout headMin i l best = .ok found) :
    found.Ok request.layout xs ∧ found.cost ≤ best.cost := by
  induction l generalizing i best with
  | nil =>
    cases h
    exact ⟨hbest, le_refl _⟩
  | cons entry l ih =>
    have hl' (k : Nat) : l[k]? = xs[i + 1 + k]? := by
      rw [show i + 1 + k = i + (k + 1) by omega, ← hl (k + 1), getElem?_cons_succ]
    have hx : xs[i]? = some entry := (hl 0).symm
    have hwhole := hchosen.at hx
    rw [findPlacementFrom] at h
    split at h
    · exact ih hl' hbest h
    · rw [extentsHdrPlacementCost_ok pr hw.bounded hwhole.le_max hwhole.count_pos.ne'
        (hw.fits hwhole.count_dvd hwhole.count_pos true), ok_bind] at h
      split at h
      · rename_i hpreferred
        have hless := of_decide_eq_true hpreferred
        dsimp only at hless
        obtain ⟨hfound, hle⟩ := ih hl' ⟨hx, rfl⟩ h
        dsimp only at hle
        exact ⟨hfound, by omega⟩
      · exact ih hl' hbest h

omit hw hlimit in
theorem allocateGain_of_ok {gainedLen gainedLen' : Nat}
    (h : Accounts request Free limit p xs gainedLen)
    (hgain : allocateGain pr bounds p gainedLen = .ok (p', gainedLen')) :
    Accounts request Free limit p' xs gainedLen' ∧ gainedLen' ≤ gainedLen := by
  have hsum := h.sum
  have htotal := h.balanced.total_lt
  have hexcess := h.balanced.excess
  rw [allocateGain, h.balanced.remaining_ok pr, ok_bind] at hgain
  split at hgain
  · dsimp only at hgain
    rw [addU64_ok pr (by omega), ok_bind] at hgain
    cases Except.ok.inj hgain
    refine ⟨⟨h.request_eq, ⟨htotal, ?_, ?_⟩, h.chosen, ?_⟩, Nat.sub_le _ _⟩
    · dsimp only
      omega
    · dsimp only
      omega
    · rw [accountedLen] at hsum ⊢
      dsimp only
      omega
  · cases Except.ok.inj hgain
    exact ⟨h, le_refl _⟩

/-- With the extents header in the best extent, all that the extents provide is accounted
for again. -/
theorem optimizeExtentsHdrPlacement_of_ok {isInvariant : Bool}
    {hint shortestExtentIndex : Option Nat} {nExtentsRemoved : Nat}
    (h : Accounts request Free limit p xs 0) (hne : xs ≠ [])
    (hlog2 : bounds.minExtentAlignmentLog2 = 6)
    (hoptimize : optimizeExtentsHdrPlacement pr bounds isInvariant p xs hint =
      .ok (p', ys, nExtentsRemoved, shortestExtentIndex)) :
    Accounts request Free limit p' ys 0 ∧ ys ≠ [] := by
  rw [optimizeExtentsHdrPlacement] at hoptimize
  split at hoptimize
  · obtain ⟨rfl, hrest⟩ := Prod.mk.inj (Except.ok.inj hoptimize)
    obtain ⟨rfl, -⟩ := Prod.mk.inj hrest
    exact ⟨h, hne⟩
  split at hoptimize
  · obtain ⟨rfl, hrest⟩ := Prod.mk.inj (Except.ok.inj hoptimize)
    obtain ⟨rfl, -⟩ := Prod.mk.inj hrest
    exact ⟨h, hne⟩
  obtain ⟨x, xs, rfl⟩ := exists_cons_of_ne_nil hne
  have hwhole := h.chosen.whole x (mem_cons_self ..)
  have htail (k : Nat) : xs[k]? = (x :: xs)[1 + k]? := by
    rw [add_comm, getElem?_cons_succ]
  rw [h.request_eq] at hoptimize
  rw [index_ok (getElem?_cons_zero ..), ok_bind,
    extentsHdrPlacementCost_ok pr hw.bounded hwhole.le_max hwhole.count_pos.ne'
      (hw.fits hwhole.count_dvd hwhole.count_pos true), ok_bind, tail_cons] at hoptimize
  obtain ⟨best, hbest, hoptimize⟩ := bind_eq_ok hoptimize
  obtain ⟨hfound, hcost⟩ := findPlacementFrom_of_ok hw h.chosen htail ⟨rfl, rfl⟩ hbest
  have hshortest := findShortestFrom_spec (0, x) htail (getElem?_cons_zero ..)
  generalize findShortestFrom 1 xs (0, x) = s at hoptimize hshortest
  obtain ⟨zs, hzs, hoptimize⟩ := bind_eq_ok hoptimize
  rw [hfound.cost] at hcost
  obtain ⟨hswap, hfirst, hlength⟩ := h.swap hfound.extent hcost hzs
  obtain ⟨x₀, y, hx₀, hy, rfl⟩ := swapExtents_of_ok hzs
  cases hx₀
  cases hfound.extent.symm.trans hy
  rw [hfound.cost, subU64_ok pr hcost, ok_bind] at hoptimize
  rw [zero_add] at hswap
  obtain ⟨⟨⟩, -, hoptimize⟩ := bind_eq_ok hoptimize
  obtain ⟨⟨p₁, gainedLen⟩, hgain, hoptimize⟩ := bind_eq_ok hoptimize
  obtain ⟨haccounts, hle⟩ := allocateGain_of_ok hswap hgain
  obtain ⟨m₁, hm₁, hoptimize⟩ := bind_eq_ok hoptimize
  obtain ⟨⟨m₂, shortestIndex'⟩, hm₂, hoptimize⟩ := bind_eq_ok hoptimize
  obtain ⟨rfl, hrest⟩ := Prod.mk.inj (Except.ok.inj hoptimize)
  obtain ⟨rfl, -⟩ := Prod.mk.inj hrest
  have hset : best.index < ((x :: xs).set 0 best.extent).length := by
    rw [length_set]
    exact (List.getElem?_eq_some_iff.mp hfound.extent).1
  have hok : m₁.Ok request Free limit x.2 := by
    refine shrinkShortest_of_ok hw hlimit ⟨haccounts, ?_, hfirst, ?_⟩ ?_
      hlog2 hm₁
    · exact ne_nil_of_length_pos (by rw [hlength]; exact Nat.succ_pos _)
    · dsimp only
      intro hgained
      refine ⟨fun hzero => hgained ?_, ?_, x, getElem?_set_self hset, rfl⟩
      · have hx := hfound.extent
        rw [hzero] at hx
        rw [firstCost_of_getElem? hx, Nat.sub_self] at hle
        exact Nat.le_zero.mp hle
      · exact le_trans (le_trans hle (Nat.sub_le _ _)) (Nat.sub_le _ _)
    · intro s hs
      obtain rfl := Option.mem_some_iff.mp hs
      split
      · rename_i hzero
        rw [hzero] at hshortest
        rw [getElem?_set_self hset]
        exact hshortest
      · rename_i hne'
        split
        · rename_i heq
          rw [heq, hfound.extent] at hshortest
          rw [swap_getElem?_zero (getElem?_cons_zero ..) hfound.extent]
          exact hshortest
        · rename_i hne''
          rw [getElem?_set_ne (Ne.symm hne''), getElem?_set_ne (Ne.symm hne')]
          exact hshortest
  exact shrinkPrevContaining_of_ok hw hlimit hok hlog2 hm₂

end Placement

end CocoonFs.HdrPlacement
