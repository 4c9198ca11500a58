import CocoonFs.HdrPlacement
import CocoonFs.FreeChunks

namespace CocoonFs.FullwordChunkSearch

open Checked Extents ExtentsLayouts ExtentsReallocation ExtentsCountFilter ExtentsSort List
  AllocationProgress HdrPlacement Bitmap BitmapWordIters FreeChunks

/-- The upper bound on the length of the next extent, and whether it exhausts the request. -/
def remainingMaxExtentAllocationBlocks (pr : Profile) (request : ExtentsAllocationRequest)
    (allocatedEffectivePayloadLen : Nat) : Comp (Nat × Bool) := do
  debugAssert pr (allocatedEffectivePayloadLen ≤ request.totalEffectivePayloadLen)
  if allocatedEffectivePayloadLen = request.totalEffectivePayloadLen then pure (0, true)
  else do
    let remaining ← subU64 pr request.totalEffectivePayloadLen allocatedEffectivePayloadLen
    request.layout.extentPayloadLenToAllocationBlocks pr remaining
      (decide (allocatedEffectivePayloadLen = 0))

inductive CandidateFilter where
  | unconstrained
  | constrainExtentsCount (f : ConstrainExtentsCount)

namespace CandidateFilter

def accountExtentAdded : CandidateFilter → CandidateFilter
  | unconstrained => unconstrained
  | constrainExtentsCount f => constrainExtentsCount (ExtentsCountFilter.accountExtentAdded f)

def accountExtentsDropped (pr : Profile) (nExtentsDropped : Nat) :
    CandidateFilter → Comp CandidateFilter
  | unconstrained => pure unconstrained
  | constrainExtentsCount f => do
    let f ← ExtentsCountFilter.accountExtentsDropped pr f nExtentsDropped
    pure (constrainExtentsCount f)

def updateFilterState (pr : Profile) (progress : ExtentsAllocationRequestProgress)
    (maxSubwordExtentEffectivePayloadLen : Nat) : CandidateFilter → Comp CandidateFilter
  | unconstrained => pure unconstrained
  | constrainExtentsCount f => do
    let f ← ExtentsCountFilter.updateFilterState pr f progress maxSubwordExtentEffectivePayloadLen
    pure (constrainExtentsCount f)

def extentCandidateAcceptable (candidateExtentAllocationBlocks : Nat) : CandidateFilter → Bool
  | unconstrained => true
  | constrainExtentsCount f =>
    ExtentsCountFilter.extentCandidateAcceptable f candidateExtentAllocationBlocks

end CandidateFilter

/-- The last one of the free words at the front, out of so many at most, and what is left.
The first word that isn't free is consumed as well. -/
def takeFreeWords : Nat → List (Nat × BitmapWord) → Option Nat × List (Nat × BitmapWord)
  | 0, items => (none, items)
  | _ + 1, [] => (none, [])
  | count + 1, (i, w) :: items =>
    if w = 0 then
      let (last, rest) := takeFreeWords count items
      (some (last.getD i), rest)
    else (none, items)

def freeRuns (maxExtentFullwordBlocks : Nat) :
    Nat → List (Nat × BitmapWord) → List (Nat × Nat)
  | 0, _ => []
  | _ + 1, [] => []
  | fuel + 1, (i, w) :: items =>
    if w = 0 then
      let (last, rest) := takeFreeWords (maxExtentFullwordBlocks - 1) items
      (i, last.getD i + 1) :: freeRuns maxExtentFullwordBlocks fuel rest
    else freeRuns maxExtentFullwordBlocks fuel items

structure ChunkBounds where
  headExtentMinAllocationBlocks : Nat
  tailExtentMinAllocationBlocks : Nat
  maxSubwordExtentEffectivePayloadLen : Nat
  maxAllocatedEffectivePayloadExcessLen : Nat
  placementCostIsInvariant : Bool

def ChunkBounds.placement (bounds : ChunkBounds) : PlacementBounds :=
  ⟨bounds.headExtentMinAllocationBlocks, bounds.maxSubwordExtentEffectivePayloadLen, 6⟩

structure ChunkSearch where
  progress : ExtentsAllocationRequestProgress
  extents : List (Nat × Nat)
  shortestExtent : Option (Nat × Nat)
  filter : CandidateFilter

/-- The current extent, not among the others yet, absorbs shorter ones. -/
structure Absorption where
  search : ChunkSearch
  maxEffectivePayloadLen : Nat
  usedEffectivePayloadLen : Nat
  extentsHdrTransferred : Bool

section Search

variable (pr : Profile) (bounds : ChunkBounds)

def assertExcess (p : ExtentsAllocationRequestProgress) : Comp Unit :=
  match pr with
  | .debug => do
    if p.allocatedExcessEffectivePayloadLen = 0 then pure ()
    else do
      let remaining ← remainingEffectivePayloadLen pr p
      debugAssert pr (remaining = 0)
    debugAssert pr
      (p.allocatedExcessEffectivePayloadLen ≤ bounds.maxAllocatedEffectivePayloadExcessLen)
  | .release => pure ()

/-- What the shortest extent is used for goes to the current one, as far as there is room. -/
def Absorption.absorb (a : Absorption) (i blocks : Nat) (storesExtentsHdr : Bool) :
    Comp Absorption := do
  let s := a.search
  let len ← s.progress.request.layout.extentEffectivePayloadLen pr blocks storesExtentsHdr
  let excess := s.progress.allocatedExcessEffectivePayloadLen
  let x :=
    if excess < len then
      min (len - excess) (a.maxEffectivePayloadLen - a.usedEffectivePayloadLen)
    else 0
  -- Both of the excess and what's left of the shortest extent's payload saturate.
  let (progress, updatedBlocks) ← fitAllocatedExtentToEffectivePayloadLen pr
    { s.progress with allocatedExcessEffectivePayloadLen := excess - len } (len - excess - x) false
    bounds.maxSubwordExtentEffectivePayloadLen 6
  let a := { a with usedEffectivePayloadLen := a.usedEffectivePayloadLen + x }
  if updatedBlocks < blocks then
    if updatedBlocks = 0 then do
      let extents ← swapExtents s.extents i (s.extents.length - 1)
      let filter ← s.filter.accountExtentsDropped pr 1
      assertExcess pr bounds progress
      pure { a with search := ⟨progress, extents.dropLast, none, filter⟩ }
    else do
      let (removed, extents) ← shrinkExtentBy pr s.extents i (blocks - updatedBlocks)
      debugAssert pr (removed = false)
      assertExcess pr bounds progress
      pure { a with
        search := { s with progress, extents, shortestExtent := some (i, updatedBlocks) } }
  else do
    assertExcess pr bounds progress
    pure { a with search := { s with progress } }

def withLength (extents : List (Nat × Nat)) : Option Nat → Comp (Option (Nat × Nat))
  | none => pure none
  | some i => do
    let entry ← index extents i
    pure (some (i, entry.2))

def ChunkSearch.findShortest (s : ChunkSearch) : Comp (Option (Nat × Nat)) :=
  match s.shortestExtent with
  | some shortest => pure (some shortest)
  | none => withLength s.extents (findShortestExtent s.extents)

def Absorption.step (maxBlocks : Nat) (a : Absorption) : Comp (Absorption × Bool) := do
  assertExcess pr bounds a.search.progress
  let shortestExtent ← a.search.findShortest
  let a := { a with search := { a.search with shortestExtent } }
  match shortestExtent with
  | none => pure (a, false)
  | some (i, blocks) =>
    -- It wouldn't make sense to shovel blocks over from a longer extent, or to replace a
    -- single one.
    if maxBlocks ≤ blocks ∨ a.usedEffectivePayloadLen = 0 ∧
        (a.search.extents.filter (fun e => decide (e.2 < maxBlocks))).length < 2 then
      pure (a, false)
    else do
      let l := a.search.progress.request.layout
      let storesExtentsHdr := !a.extentsHdrTransferred && decide (l.extentsHdrLen ≠ 0 ∧ i = 0)
      if storesExtentsHdr = true ∧ bounds.headExtentMinAllocationBlocks ≤ maxBlocks then do
        let maxLen ← l.extentEffectivePayloadLen pr maxBlocks true
        let a := { a with maxEffectivePayloadLen := maxLen }
        if maxLen < a.usedEffectivePayloadLen then pure (a, false)
        else do
          let a ← { a with extentsHdrTransferred := true }.absorb pr bounds i blocks
            storesExtentsHdr
          pure (a, true)
      else do
        let a ← a.absorb pr bounds i blocks storesExtentsHdr
        pure (a, true)

def Absorption.loop (maxBlocks : Nat) : Nat → Absorption → Comp Absorption
  | 0, _ => panic .outOfFuel
  | fuel + 1, a =>
    if a.search.extents ≠ [] ∧ a.usedEffectivePayloadLen < a.maxEffectivePayloadLen then do
      let (a, more) ← a.step pr bounds maxBlocks
      if more then Absorption.loop maxBlocks fuel a else pure a
    else pure a

/-- The current extent's length is fitted to what it is used for. -/
def Absorption.fitCurrent (maxBlocks : Nat) (a : Absorption) :
    Comp (ExtentsAllocationRequestProgress × Nat) :=
  if a.usedEffectivePayloadLen = a.maxEffectivePayloadLen then
    pure (a.search.progress, maxBlocks)
  else do
    debugAssert pr (a.usedEffectivePayloadLen = 0 ∨
      a.search.progress.allocatedExcessEffectivePayloadLen = 0)
    fitAllocatedExtentToEffectivePayloadLen pr a.search.progress a.usedEffectivePayloadLen
      (a.search.extents.isEmpty || a.extentsHdrTransferred)
      bounds.maxSubwordExtentEffectivePayloadLen 6

/-- If the current extent is a shortest one, then it's the one at the largest position. -/
def updateShortest (extents : List (Nat × Nat)) (currentIndex extentBegin blocks : Nat) :
    Option (Nat × Nat) → Comp (Option (Nat × Nat))
  | none => pure none
  | some (i, n) =>
    if blocks ≤ n then do
      debugAssert pr (∃ entry ∈ extents[i]?, entry.1 < extentBegin)
      pure (some (currentIndex, blocks))
    else pure (some (i, n))

/-- The current extent goes to the front if it stores the extents header. -/
def ChunkSearch.insertCurrent (s : ChunkSearch) (extentBegin blocks : Nat)
    (extentsHdrTransferred : Bool) : Comp ChunkSearch := do
  let extentEnd ← checkedAdd extentBegin blocks
  let extents ← pushExtent pr s.extents ⟨extentBegin, extentEnd⟩ true
  let last := extents.length - 1
  if extentsHdrTransferred then do
    let extents ← swapExtents extents 0 last
    let shortestExtent ← updateShortest pr extents 0 extentBegin blocks
      (s.shortestExtent.map (fun (i, n) => (if i = 0 then last else i, n)))
    pure { s with extents, shortestExtent }
  else do
    let shortestExtent ← updateShortest pr extents last extentBegin blocks s.shortestExtent
    pure { s with extents, shortestExtent }

def ChunkSearch.placeCurrent (s : ChunkSearch) (extentBegin blocks : Nat)
    (extentsHdrTransferred : Bool) : Comp (ChunkSearch × Bool) := do
  let s ← s.insertCurrent pr extentBegin blocks extentsHdrTransferred
  let (progress, extents, nExtentsRemoved, shortestIndex) ←
    optimizeExtentsHdrPlacement pr bounds.placement bounds.placementCostIsInvariant s.progress
      s.extents (s.shortestExtent.map Prod.fst)
  let shortestExtent ← withLength extents shortestIndex
  let filter ← s.filter.accountExtentsDropped pr nExtentsRemoved
  let filter := filter.accountExtentAdded
  let remaining ← remainingEffectivePayloadLen pr progress
  if bounds.maxSubwordExtentEffectivePayloadLen < remaining then do
    let filter ← filter.updateFilterState pr progress bounds.maxSubwordExtentEffectivePayloadLen
    pure (⟨progress, extents, shortestExtent, filter⟩, true)
  else
    -- No further improvement is possible once all extents but one are of maximum length.
    let maxWords := progress.request.layout.maxExtentAllocationBlocks / 2 ^ 6
    pure (⟨progress, extents, shortestExtent, filter⟩,
      decide ((extents.filter (fun e => decide (e.2 / 2 ^ 6 < maxWords))).length ≠ 1))

def ChunkSearch.placeCurrentIfAny (s : ChunkSearch) (extentBegin blocks : Nat)
    (extentsHdrTransferred : Bool) : Comp (ChunkSearch × Bool) :=
  if blocks ≠ 0 then s.placeCurrent pr bounds extentBegin blocks extentsHdrTransferred
  else do
    debugAssert pr (extentsHdrTransferred = false)
    pure (s, true)

/-- A free run of words is made use of. The bool tells if the search is to go on. -/
def ChunkSearch.examineRun (s : ChunkSearch) (runBegin runEnd : Nat) :
    Comp (ChunkSearch × Bool) := do
  let l := s.progress.request.layout
  let maxBlocks := (runEnd - runBegin) * 2 ^ 6
  debugAssert pr (maxBlocks / 2 ^ l.extentAlignmentAllocationBlocksLog2 *
    2 ^ l.extentAlignmentAllocationBlocksLog2 = maxBlocks)
  if maxBlocks < (if s.extents.isEmpty then bounds.headExtentMinAllocationBlocks
      else bounds.tailExtentMinAllocationBlocks) then
    pure (s, true)
  else do
    let maxLen ← l.extentEffectivePayloadLen pr maxBlocks s.extents.isEmpty
    let remaining ← remainingEffectivePayloadLen pr s.progress
    let usedLen :=
      if (s.extents.isEmpty = true ∨ bounds.maxSubwordExtentEffectivePayloadLen < remaining) ∧
          s.filter.extentCandidateAcceptable maxBlocks = true then min maxLen remaining
      else 0
    let allocated ← addU64 pr s.progress.allocatedEffectivePayloadLen usedLen
    let a : Absorption := ⟨{ s with
      progress := { s.progress with allocatedEffectivePayloadLen := allocated } },
      maxLen, usedLen, false⟩
    let a ← a.loop pr bounds maxBlocks (s.extents.length + 1)
    let (progress, blocks) ← a.fitCurrent pr bounds maxBlocks
    assertExcess pr bounds progress
    let (s, goOn) ← { a.search with progress }.placeCurrentIfAny pr bounds (runBegin * 2 ^ 6)
      blocks a.extentsHdrTransferred
    if goOn = true ∧ s.extents.length = 1 then do
      let remaining ← remainingEffectivePayloadLen pr s.progress
      pure (s, decide (bounds.maxSubwordExtentEffectivePayloadLen < remaining))
    else pure (s, goOn)

def ChunkSearch.examineRuns : List (Nat × Nat) → ChunkSearch → Comp ChunkSearch
  | [], s => pure s
  | (runBegin, runEnd) :: runs, s => do
    let (s, goOn) ← s.examineRun pr bounds runBegin runEnd
    if goOn then ChunkSearch.examineRuns runs s else pure s

end Search

/-- Shorter extents first, so that truncation frees up the larger ones. -/
def compareExtents (x y : BlockRange) : Comp Ordering := do
  let n ← x.blockCount
  let m ← y.blockCount
  pure ((compare n m).then (compare x.b y.b))

/-- PhysicalExtents::sort_extents_by, for the extents from an index on, without merging -/
def sortExtentsFrom (i : Nat) (extents : List (Nat × Nat)) : Comp (List (Nat × Nat)) :=
  if i ≤ extents.length then do
    let sorted ← sortBy compareExtents (extents.drop i)
    pure (extents.take i ++ sorted)
  else panic .indexOutOfBounds

/-- The payload that an extent shorter than a bitmap word provides, and how much excess
there may be. -/
def subwordLimits (pr : Profile) (l : ExtentsLayout) (tailExtentMinAllocationBlocks : Nat) :
    Comp (Nat × Nat) := do
  debugAssert pr (tailExtentMinAllocationBlocks / 2 ^ l.extentAlignmentAllocationBlocksLog2 *
    2 ^ l.extentAlignmentAllocationBlocksLog2 = tailExtentMinAllocationBlocks)
  if tailExtentMinAllocationBlocks < 64 then do
    let subwordBlocks ← subU64 pr 64 (2 ^ l.extentAlignmentAllocationBlocksLog2)
    let maxSubwordLen ← l.extentEffectivePayloadLen pr subwordBlocks false
    let fullwordBlockLen ← shlU64 pr 64 l.blockLenLog2
    let words ← shrU64 pr fullwordBlockLen l.blockLenLog2
    debugAssert pr (words = 64)
    let len ← subU64 pr fullwordBlockLen maxSubwordLen
    let maxExcessLen ← subU64 pr len 1
    pure (maxSubwordLen, maxExcessLen)
  else do
    let len ← l.extentEffectivePayloadLen pr tailExtentMinAllocationBlocks false
    let maxExcessLen ← subU64 pr len 1
    pure (0, maxExcessLen)

/-- AllocBitmap::_find_free_fullword_chunks -/
def searchFullwordChunks (pr : Profile) (b : SearchedBitmap) (request : ExtentsAllocationRequest)
    (filter : CandidateFilter) (headExtentMinAllocationBlocks tailExtentMinAllocationBlocks : Nat) :
    Comp (Option (ExtentsAllocationRequestProgress × List (Nat × Nat))) := do
  let l := request.layout
  debugAssert pr (l.extentAlignmentAllocationBlocksLog2 ≤ 6)
  let placementCostIsInvariant ← extentsHdrPlacementCostIsInvariant pr l
  let (maxBlocks, _) ← remainingMaxExtentAllocationBlocks pr request 0
  if maxBlocks < 64 then pure (some (⟨request, 0, 0⟩, []))
  else do
    debugAssert pr (64 ≤ l.maxExtentAllocationBlocks)
    let (maxSubwordLen, maxExcessLen) ← subwordLimits pr l tailExtentMinAllocationBlocks
    let bounds : ChunkBounds := ⟨headExtentMinAllocationBlocks, tailExtentMinAllocationBlocks,
      maxSubwordLen, maxExcessLen, placementCostIsInvariant⟩
    let items := WordIter.take (b.imageSize / 2 ^ 6) (b.wordIterAt 0)
    let runs := freeRuns (l.maxExtentAllocationBlocks / 2 ^ 6) items.length items
    let s ← ChunkSearch.examineRuns pr bounds runs ⟨⟨request, 0, 0⟩, [], none, filter⟩
    let remaining ← remainingEffectivePayloadLen pr s.progress
    if remaining ≤ maxSubwordLen then do
      let extents ← sortExtentsFrom (if placementCostIsInvariant then 0 else 1) s.extents
      pure (some (s.progress, extents))
    else pure none

/-- Without success, the number of extents isn't constrained any more. -/
def findFreeFullwordChunks (pr : Profile) (b : SearchedBitmap) (request : ExtentsAllocationRequest)
    (headExtentMinAllocationBlocks tailExtentMinAllocationBlocks : Nat) :
    Comp (Option (ExtentsAllocationRequestProgress × List (Nat × Nat))) := do
  let filter ← ExtentsCountFilter.new pr request
  let found ← searchFullwordChunks pr b request (.constrainExtentsCount filter)
    headExtentMinAllocationBlocks tailExtentMinAllocationBlocks
  match found with
  | some result => pure (some result)
  | none =>
    searchFullwordChunks pr b request .unconstrained headExtentMinAllocationBlocks
      tailExtentMinAllocationBlocks

section Runs

variable {b : SearchedBitmap}

def wordItems (b : SearchedBitmap) (n count : Nat) : List (Nat × BitmapWord) :=
  (List.range' n count).map (fun i => (i, b.word i))

theorem wordItems_succ (b : SearchedBitmap) (n count : Nat) :
    wordItems b n (count + 1) = (n, b.word n) :: wordItems b (n + 1) count := by
  rw [wordItems, range'_succ, map_cons, wordItems]

/-- A run of free words, not before some word and no longer than an extent may be. -/
structure FreeRun (b : SearchedBitmap) (maxWords n runBegin runEnd : Nat) : Prop where
  begin_ge : n ≤ runBegin
  lt : runBegin < runEnd
  le_max : runEnd ≤ runBegin + maxWords
  end_le : runEnd ≤ b.imageSize / 64
  free : ∀ i, runBegin ≤ i → i < runEnd → b.word i = 0

inductive FreeRuns (b : SearchedBitmap) (maxWords : Nat) : Nat → List (Nat × Nat) → Prop
  | nil (n : Nat) : FreeRuns b maxWords n []
  | cons {n runBegin runEnd : Nat} {runs : List (Nat × Nat)}
      (run : FreeRun b maxWords n runBegin runEnd) (rest : FreeRuns b maxWords runEnd runs) :
      FreeRuns b maxWords n ((runBegin, runEnd) :: runs)

theorem FreeRuns.mono {maxWords n n' : Nat} {runs : List (Nat × Nat)}
    (h : FreeRuns b maxWords n runs) (hle : n' ≤ n) : FreeRuns b maxWords n' runs := by
  cases h with
  | nil => exact .nil n'
  | cons run rest => exact .cons { run with begin_ge := le_trans hle run.begin_ge } rest

theorem takeFreeWords_spec (b : SearchedBitmap) (limit n count : Nat) :
    ∃ runEnd n' count', n ≤ runEnd ∧ runEnd ≤ n + limit ∧ runEnd ≤ n' ∧ n' + count' = n + count ∧
      (∀ i, n ≤ i → i < runEnd → b.word i = 0) ∧
      (takeFreeWords limit (wordItems b n count)).2 = wordItems b n' count' ∧
      (takeFreeWords limit (wordItems b n count)).1 =
        if runEnd = n then none else some (runEnd - 1) := by
  induction limit generalizing n count with
  | zero =>
    refine ⟨n, n, count, le_rfl, Nat.le_add_right _ _, le_rfl, rfl, ?_, rfl, (if_pos rfl).symm⟩
    intro i hge hlt
    omega
  | succ limit ih =>
    cases count with
    | zero =>
      refine ⟨n, n, 0, le_rfl, Nat.le_add_right _ _, le_rfl, rfl, ?_, rfl, (if_pos rfl).symm⟩
      intro i hge hlt
      omega
    | succ count =>
      rw [wordItems_succ, takeFreeWords]
      split
      · rename_i hzero
        obtain ⟨runEnd, n', count', hge, hle, hle', hcount, hfree, hrest, hlast⟩ :=
          ih (n + 1) count
        refine ⟨runEnd, n', count', by omega, by omega, hle', by omega, ?_, hrest, ?_⟩
        · intro i hi hlt
          rcases eq_or_lt_of_le hi with rfl | hi
          · exact hzero
          · exact hfree i hi hlt
        · dsimp only
          rw [hlast, if_neg (show runEnd ≠ n by omega)]
          split
          · rename_i heq
            rw [heq]
            rfl
          · rfl
      · refine ⟨n, n + 1, count, le_rfl, by omega, by omega, by omega, ?_, rfl,
          (if_pos rfl).symm⟩
        intro i hge hlt
        omega

theorem freeRuns_spec (maxWords fuel : Nat) (hmax : 0 < maxWords) (n count : Nat)
    (hfuel : count ≤ fuel) (hend : n + count = b.imageSize / 64) :
    FreeRuns b maxWords n (freeRuns maxWords fuel (wordItems b n count)) ∧
      (freeRuns maxWords fuel (wordItems b n count) = [] →
        ∀ i, n ≤ i → i < n + count → b.word i ≠ 0) := by
  induction fuel generalizing n count with
  | zero =>
    obtain rfl := Nat.le_zero.mp hfuel
    refine ⟨.nil n, fun _ i hge hlt => ?_⟩
    omega
  | succ fuel ih =>
    cases count with
    | zero =>
      refine ⟨.nil n, fun _ i hge hlt => ?_⟩
      omega
    | succ count =>
      rw [wordItems_succ, freeRuns]
      split
      · rename_i hzero
        obtain ⟨runEnd, n', count', hge, hle, hle', hcount, hfree, hrest, hlast⟩ :=
          takeFreeWords_spec b (maxWords - 1) (n + 1) count
        obtain ⟨hruns, -⟩ := ih n' count' (by omega) (by omega)
        have hrunEnd : (takeFreeWords (maxWords - 1) (wordItems b (n + 1) count)).1.getD n + 1 =
            runEnd := by
          rw [hlast]
          split
          · rename_i heq
            exact heq.symm
          · exact Nat.sub_add_cancel (by omega)
        dsimp only
        rw [hrunEnd, hrest]
        refine ⟨.cons ⟨le_rfl, hge, by omega, by omega, fun i hi hlt => ?_⟩ (hruns.mono hle'),
          fun hnil => by cases hnil⟩
        rcases eq_or_lt_of_le hi with rfl | hi
        · exact hzero
        · exact hfree i hi hlt
      · rename_i hne
        obtain ⟨hruns, hnone⟩ := ih (n + 1) count (by omega) (by omega)
        refine ⟨hruns.mono (Nat.le_succ n), fun hnil i hge hlt => ?_⟩
        rcases eq_or_lt_of_le hge with rfl | hge
        · exact hne
        · exact hnone hnil i hge (by omega)

end Runs

def Cached (xs : List (Nat × Nat)) (shortestExtent : Option (Nat × Nat)) : Prop :=
  ∀ q ∈ shortestExtent, ∃ x, xs[q.1]? = some x ∧ x.2 = q.2

/-- An extent has been trimmed or, up to the order of the others, removed. -/
inductive Reduced (xs : List (Nat × Nat)) (i : Nat) (x : Nat × Nat) : List (Nat × Nat) → Prop
  | trimmed (n : Nat) : Reduced xs i x (xs.set i (x.1, n))
  | removed (ys : List (Nat × Nat)) (h : swapExtents xs i (xs.length - 1) = .ok ys) :
      Reduced xs i x ys.dropLast

variable {shortestExtent : Option (Nat × Nat)} {l : ExtentsLayout}

section Absorption

variable {request : ExtentsAllocationRequest} {Free : Nat → Prop} {limit : Nat} {pr : Profile}
  {bounds : ChunkBounds} {xs ys : List (Nat × Nat)} {i : Nat} {x : Nat × Nat}

theorem Reduced.first (h : Reduced xs i x ys) (hi : i ≠ 0) (hlt : i < xs.length) :
    ys[0]? = xs[0]? := by
  cases h with
  | trimmed n => exact getElem?_set_ne hi
  | removed ys hys =>
    have hzero := removed_getElem? hys (j := 0) (by omega) (Ne.symm hi)
    rwa [if_neg (by omega)] at hzero

theorem Reduced.ne_nil (h : Reduced xs i x ys) (hi : i ≠ 0) (hlt : i < xs.length) : ys ≠ [] := by
  intro hnil
  have hfirst := h.first hi hlt
  rw [hnil, getElem?_nil] at hfirst
  have hle := List.getElem?_eq_none_iff.mp hfirst.symm
  omega

variable {a a' : Absorption}

/-- What the shortest extent is accounted for with is split between what it provides then
and what the current extent is used for. -/
theorem absorb_of_ok (hw : WordExtents request.layout) {storesExtentsHdr : Bool} {cost : Nat}
    (h : a.absorb pr bounds i x.2 storesExtentsHdr = .ok a')
    (hrequest : a.search.progress.request = request) (hbalanced : Balanced a.search.progress)
    (hchosen : Chosen request.layout Free limit a.search.extents)
    (hcached : Cached a.search.extents a.search.shortestExtent)
    (hused : a.usedEffectivePayloadLen ≤ a.maxEffectivePayloadLen)
    (hlt : tailLen request.layout a.search.extents + a.maxEffectivePayloadLen < 2 ^ 64)
    (hx : a.search.extents[i]? = some x)
    (hcost : cost + request.layout.providedLen x.2 false ≤
      tailLen request.layout a.search.extents)
    (hsum : accountedLen a.search.progress +
        ((if storesExtentsHdr then hdrCost request.layout x.2 else 0) + cost) =
      tailLen request.layout a.search.extents + a.usedEffectivePayloadLen) :
    a'.search.progress.request = request ∧ Balanced a'.search.progress ∧
      Chosen request.layout Free limit a'.search.extents ∧
      Cached a'.search.extents a'.search.shortestExtent ∧
      Reduced a.search.extents i x a'.search.extents ∧
      a'.usedEffectivePayloadLen ≤ a.maxEffectivePayloadLen ∧
      a'.maxEffectivePayloadLen = a.maxEffectivePayloadLen ∧
      a'.extentsHdrTransferred = a.extentsHdrTransferred ∧
      accountedLen a'.search.progress + cost =
        tailLen request.layout a'.search.extents + a'.usedEffectivePayloadLen := by
  have hwhole := hchosen.at hx
  have hexcess := hbalanced.excess
  have hsplit : request.layout.providedLen x.2 storesExtentsHdr +
      (if storesExtentsHdr then hdrCost request.layout x.2 else 0) =
        request.layout.providedLen x.2 false := by
    cases storesExtentsHdr with
    | true =>
      exact providedLen_add_hdrCost hw.bounded (hw.fits hwhole.count_dvd hwhole.count_pos true)
    | false => rfl
  rw [Absorption.absorb, hrequest, hw.providedLen_ok pr hwhole.count_dvd hwhole.count_pos
    hwhole.le_max storesExtentsHdr, ok_bind] at h
  generalize request.layout.providedLen x.2 storesExtentsHdr = len at h hsplit
  generalize (if storesExtentsHdr then hdrCost request.layout x.2 else 0) = hdrLen at hsum hsplit
  generalize hmove : (if a.search.progress.allocatedExcessEffectivePayloadLen < len then
    min (len - a.search.progress.allocatedExcessEffectivePayloadLen)
      (a.maxEffectivePayloadLen - a.usedEffectivePayloadLen) else 0) = moved at h
  obtain ⟨⟨p', n⟩, hfit, h⟩ := bind_eq_ok h
  rw [accountedLen] at hsum
  have hmoved : moved ≤ len - a.search.progress.allocatedExcessEffectivePayloadLen ∧
      moved ≤ a.maxEffectivePayloadLen - a.usedEffectivePayloadLen := by
    rw [← hmove]
    split <;> omega
  have hp : Balanced { a.search.progress with
      allocatedExcessEffectivePayloadLen :=
        a.search.progress.allocatedExcessEffectivePayloadLen - len } := by
    refine ⟨hbalanced.total_lt, hbalanced.allocated_le, ?_⟩
    dsimp only
    omega
  obtain ⟨hrequest', hbalanced', hdvd, hle, hfitted, -, hnone⟩ :=
    hw.fitAllocatedExtent_of_ok pr (m := x.2) (by rw [hrequest]) hp hwhole.count_dvd
      hwhole.count_pos hwhole.le_max (by omega) (by rw [accountedLen]; dsimp only; omega)
      (by rw [accountedLen]; dsimp only; omega) hfit
  rw [accountedLen, accountedLen] at hfitted
  dsimp only at hfitted h
  replace hrequest' := hrequest'.trans hrequest
  split at h
  · rename_i hless
    split at h
    · rename_i hzero
      obtain ⟨ys, hys, h⟩ := bind_eq_ok h
      obtain ⟨filter, -, h⟩ := bind_eq_ok h
      obtain ⟨⟨⟩, -, h⟩ := bind_eq_ok h
      cases h
      have hperm := removed_perm hx hys
      have htail := tailLen_perm (l := request.layout) hperm
      rw [tailLen_cons] at htail
      rw [hzero, providedLen_zero] at hfitted
      refine ⟨hrequest', hbalanced', (hchosen.perm hperm).drop, fun q hq => (by cases hq),
        .removed ys hys, ?_, rfl, rfl, ?_⟩
      · dsimp only
        omega
      · rw [accountedLen]
        dsimp only
        omega
    · rename_i hne
      obtain ⟨⟨removed, ys⟩, hys, h⟩ := bind_eq_ok h
      obtain rfl := shrinkExtentBy_of_ok hx hne hless hys
      obtain ⟨⟨⟩, -, h⟩ := bind_eq_ok h
      obtain ⟨⟨⟩, -, h⟩ := bind_eq_ok h
      cases h
      have htail := tailLen_set (l := request.layout) hx (x.1, n)
      have hilt := (List.getElem?_eq_some_iff.mp hx).1
      refine ⟨hrequest', hbalanced', hchosen.set hx hdvd (pos_of_ne_zero hne) hle, ?_,
        .trimmed n, ?_, rfl, rfl, ?_⟩
      · intro q hq
        obtain rfl := Option.mem_some_iff.mp hq
        exact ⟨(x.1, n), getElem?_set_self hilt, rfl⟩
      · dsimp only
        omega
      · rw [accountedLen]
        dsimp only at htail ⊢
        omega
  · rename_i hge
    obtain rfl : n = x.2 := by omega
    obtain ⟨⟨⟩, -, h⟩ := bind_eq_ok h
    cases h
    refine ⟨hrequest', hbalanced', hchosen, hcached, ?_, ?_, rfl, rfl, ?_⟩
    · have htrimmed : Reduced a.search.extents i x (a.search.extents.set i (x.1, x.2)) :=
        .trimmed x.2
      rwa [set_eq_self hx] at htrimmed
    · dsimp only
      omega
    · rw [accountedLen]
      dsimp only
      omega

theorem withLength_cached {shortestIndex : Option Nat}
    (h : withLength xs shortestIndex = .ok shortestExtent) : Cached xs shortestExtent := by
  intro q hq
  cases shortestIndex with
  | none =>
    cases h
    cases hq
  | some i =>
    obtain ⟨x, hx, h⟩ := bind_eq_ok h
    cases h
    obtain rfl := Option.mem_some_iff.mp hq
    exact ⟨x, getElem?_of_index hx, rfl⟩

theorem findShortest_cached {s : ChunkSearch}
    (hcached : Cached s.extents s.shortestExtent) (h : s.findShortest = .ok shortestExtent) :
    Cached s.extents shortestExtent := by
  rw [ChunkSearch.findShortest] at h
  split at h
  · rename_i hsome
    cases h
    rwa [hsome] at hcached
  · exact withLength_cached h

theorem firstCost_eq_zero (h : l.extentsHdrLen = 0) (xs : List (Nat × Nat)) :
    firstCost l xs = 0 := by
  cases xs with
  | nil => rfl
  | cons x xs => exact hdrCost_eq_zero h

/-- What the current extent is used for is accounted for as well. Once the extents header is
to be stored there, it isn't in the first extent any more. -/
structure Absorbed (request : ExtentsAllocationRequest) (Free : Nat → Prop) (limit maxBlocks : Nat)
    (isFirst : Bool) (a : Absorption) : Prop where
  request_eq : a.search.progress.request = request
  balanced : Balanced a.search.progress
  chosen : Chosen request.layout Free limit a.search.extents
  cached : Cached a.search.extents a.search.shortestExtent
  sum : accountedLen a.search.progress +
      (if a.extentsHdrTransferred then 0 else firstCost request.layout a.search.extents) =
    tailLen request.layout a.search.extents + a.usedEffectivePayloadLen
  used_le : a.usedEffectivePayloadLen ≤
    request.layout.providedLen maxBlocks (isFirst || a.extentsHdrTransferred)
  full : a.usedEffectivePayloadLen = a.maxEffectivePayloadLen →
    a.usedEffectivePayloadLen =
      request.layout.providedLen maxBlocks (isFirst || a.extentsHdrTransferred)
  hdr : a.extentsHdrTransferred = true → request.layout.extentsHdrLen ≠ 0
  first : isFirst = true → a.search.extents = [] ∧ a.extentsHdrTransferred = false
  ne : request.layout.extentsHdrLen ≠ 0 → isFirst = false → a.extentsHdrTransferred = false →
    a.search.extents ≠ []

structure Absorbing (request : ExtentsAllocationRequest) (Free : Nat → Prop) (limit maxBlocks : Nat)
    (isFirst : Bool) (a : Absorption) : Prop
    extends Absorbed request Free limit maxBlocks isFirst a where
  maxLen_eq : a.maxEffectivePayloadLen =
    request.layout.providedLen maxBlocks (isFirst || a.extentsHdrTransferred)

variable {maxBlocks : Nat} {isFirst : Bool} (hw : WordExtents request.layout)
  (hlimit : (limit + maxBlocks) * 2 ^ request.layout.blockLenLog2 < 2 ^ 64)
  (hdvd : 64 ∣ maxBlocks) (hpos : 0 < maxBlocks)
  (hmax : maxBlocks ≤ request.layout.maxExtentAllocationBlocks)
  (hhead : bounds.headExtentMinAllocationBlocks ≤ 64)
include hw hlimit hdvd hpos hmax hhead

omit hw hdvd hpos hmax hhead in
theorem chosen_sum_lt (hchosen : Chosen request.layout Free limit xs) (first : Bool) :
    tailLen request.layout xs + request.layout.providedLen maxBlocks first < 2 ^ 64 := by
  have htail := tailLen_le request.layout xs
  have hsumLe := Nat.mul_le_mul_right (2 ^ request.layout.blockLenLog2) hchosen.sum_le
  have hprovided := providedLen_le request.layout maxBlocks first
  rw [add_mul] at hlimit
  omega

omit hdvd hpos hmax hhead in
/-- The extents header had been in the shortest extent, and is to be in the current one. -/
theorem Absorbing.absorb_transferred (ha : Absorbing request Free limit maxBlocks isFirst a)
    (hisFirst : isFirst = false) (htransferred : a.extentsHdrTransferred = false)
    (hhdr : request.layout.extentsHdrLen ≠ 0) (hx : a.search.extents[0]? = some x)
    (hfits : a.usedEffectivePayloadLen ≤ request.layout.providedLen maxBlocks true)
    (h : Absorption.absorb pr bounds
      { a with
        maxEffectivePayloadLen := request.layout.providedLen maxBlocks true
        extentsHdrTransferred := true } 0 x.2 true = .ok a') :
    Absorbing request Free limit maxBlocks isFirst a' := by
  have hsum := ha.sum
  rw [htransferred, if_neg Bool.false_ne_true, firstCost_of_getElem? hx] at hsum
  obtain ⟨hrequest, hbalanced, hchosen, hcached, -, hused, hmaxLen, hhdr', hsum'⟩ :=
    absorb_of_ok hw h ha.request_eq ha.balanced ha.chosen ha.cached hfits
      (chosen_sum_lt hlimit ha.chosen true)
      hx ((zero_add _).le.trans (le_tailLen hx)) hsum
  refine ⟨⟨hrequest, hbalanced, hchosen, hcached, ?_, ?_, ?_, fun _ => hhdr, ?_, ?_⟩, ?_⟩
  · rw [hhdr', if_pos rfl]
    exact hsum'
  · rw [hhdr', Bool.or_true]
    exact hused
  · rw [hhdr', Bool.or_true, hmaxLen]
    exact id
  · exact fun htrue => absurd (hisFirst.symm.trans htrue) Bool.false_ne_true
  · exact fun _ _ hfalse => absurd (hfalse.symm.trans hhdr') Bool.false_ne_true
  · rw [hhdr', Bool.or_true]
    exact hmaxLen

omit hdvd hpos hmax hhead in
theorem Absorbing.absorb_kept (ha : Absorbing request Free limit maxBlocks isFirst a)
    (hisFirst : isFirst = false) (hx : a.search.extents[i]? = some x)
    (hcases : a.extentsHdrTransferred = true ∨ request.layout.extentsHdrLen = 0 ∨ i ≠ 0)
    (hused : a.usedEffectivePayloadLen ≤ a.maxEffectivePayloadLen)
    (h : a.absorb pr bounds i x.2 false = .ok a') :
    Absorbing request Free limit maxBlocks isFirst a' := by
  have hilt := (List.getElem?_eq_some_iff.mp hx).1
  have hle := le_tailLen (l := request.layout) hx
  have hcost : (if a.extentsHdrTransferred then 0
      else firstCost request.layout a.search.extents) + request.layout.providedLen x.2 false ≤
        tailLen request.layout a.search.extents := by
    rcases hcases with htransferred | hzero | hi
    · rw [if_pos htransferred, zero_add]
      exact hle
    · rw [firstCost_eq_zero hzero, ite_self, zero_add]
      exact hle
    · obtain ⟨x₀, hx₀⟩ : ∃ x₀, a.search.extents[0]? = some x₀ :=
        ⟨_, getElem?_eq_getElem (by omega)⟩
      have htwo := add_le_tailLen (l := request.layout) hx hx₀ hi
      rw [firstCost_of_getElem? hx₀, hdrCost]
      split <;> omega
  have hsum := ha.sum
  obtain ⟨hrequest, hbalanced, hchosen, hcached, hreduced, hused', hmaxLen, hhdr', hsum'⟩ :=
    absorb_of_ok hw h ha.request_eq ha.balanced ha.chosen ha.cached hused
      (ha.maxLen_eq ▸ chosen_sum_lt hlimit ha.chosen _) hx hcost
      (by rw [if_neg Bool.false_ne_true, zero_add]; exact hsum)
  refine ⟨⟨hrequest, hbalanced, hchosen, hcached, ?_, ?_, ?_, ?_, ?_, ?_⟩, ?_⟩
  · rw [← hsum', hhdr']
    rcases hcases with htransferred | hzero | hi
    · rw [if_pos htransferred, if_pos htransferred]
    · rw [firstCost_eq_zero hzero, firstCost_eq_zero hzero]
    · rw [firstCost_congr (hreduced.first hi hilt)]
  · rw [hhdr', ← ha.maxLen_eq]
    exact hused'
  · rw [hhdr', ← ha.maxLen_eq, hmaxLen]
    exact id
  · rw [hhdr']
    exact ha.hdr
  · exact fun htrue => absurd (hisFirst.symm.trans htrue) Bool.false_ne_true
  · intro hhdr _ hfalse
    rw [hhdr'] at hfalse
    rcases hcases with htransferred | hzero | hi
    · exact absurd (hfalse.symm.trans htransferred) Bool.false_ne_true
    · exact absurd hzero hhdr
    · exact hreduced.ne_nil hi hilt
  · rw [hhdr', ← ha.maxLen_eq]
    exact hmaxLen

theorem absorptionStep_of_ok {more : Bool} (ha : Absorbing request Free limit maxBlocks isFirst a)
    (hne : a.search.extents ≠ []) (hused : a.usedEffectivePayloadLen < a.maxEffectivePayloadLen)
    (h : a.step pr bounds maxBlocks = .ok (a', more)) :
    if more then Absorbing request Free limit maxBlocks isFirst a'
    else Absorbed request Free limit maxBlocks isFirst a' := by
  have hisFirst : isFirst = false := by
    cases isFirst with
    | true => exact absurd (ha.first rfl).1 hne
    | false => rfl
  obtain ⟨⟨⟩, -, h⟩ := bind_eq_ok h
  obtain ⟨shortestExtent, hshortest, h⟩ := bind_eq_ok h
  have hcached := findShortest_cached ha.cached hshortest
  have ha₁ : Absorbing request Free limit maxBlocks isFirst
      { a with search := { a.search with shortestExtent } } := { ha with cached := hcached }
  dsimp only at h
  split at h
  · cases Except.ok.inj h
    exact ha₁.toAbsorbed
  rename_i i blocks
  obtain ⟨x, hx, hblocks⟩ := hcached _ rfl
  obtain rfl : x.2 = blocks := hblocks
  split at h
  · cases Except.ok.inj h
    exact ha₁.toAbsorbed
  rw [ha.request_eq] at h
  split at h
  · rename_i hstores
    have hstores := hstores.1
    simp only [Bool.and_eq_true, Bool.not_eq_true', decide_eq_true_eq] at hstores
    obtain ⟨htransferred, hhdr, rfl⟩ := hstores
    rw [hw.providedLen_ok pr hdvd hpos hmax true, ok_bind] at h
    split at h
    · rename_i hless
      cases Except.ok.inj h
      rw [if_neg Bool.false_ne_true]
      exact { ha₁ with full := fun heq => absurd heq (ne_of_gt hless) }
    · rename_i hfits
      obtain ⟨a₂, h₂, h⟩ := bind_eq_ok h
      cases Except.ok.inj h
      rw [htransferred, decide_eq_true ⟨hhdr, rfl⟩] at h₂
      rw [if_pos rfl]
      exact ha₁.absorb_transferred hw hlimit hisFirst htransferred hhdr hx
        (Nat.le_of_not_lt hfits) h₂
  · rename_i hstores
    have hword := Nat.le_of_dvd hpos hdvd
    have hnot : (!a.extentsHdrTransferred &&
        decide (request.layout.extentsHdrLen ≠ 0 ∧ i = 0)) = false :=
      Bool.eq_false_iff.mpr fun htrue => hstores ⟨htrue, le_trans hhead hword⟩
    have hcases : a.extentsHdrTransferred = true ∨ request.layout.extentsHdrLen = 0 ∨ i ≠ 0 := by
      rw [Bool.and_eq_false_iff, decide_eq_false_iff_not, Bool.not_eq_false'] at hnot
      tauto
    obtain ⟨a₂, h₂, h⟩ := bind_eq_ok h
    cases Except.ok.inj h
    rw [hnot] at h₂
    rw [if_pos rfl]
    exact ha₁.absorb_kept hw hlimit hisFirst hx hcases hused.le h₂

theorem absorptionLoop_of_ok (fuel : Nat) (ha : Absorbing request Free limit maxBlocks isFirst a)
    (h : a.loop pr bounds maxBlocks fuel = .ok a') :
    Absorbed request Free limit maxBlocks isFirst a' := by
  induction fuel generalizing a with
  | zero => cases h
  | succ fuel ih =>
    rw [Absorption.loop] at h
    split at h
    · rename_i hcond
      obtain ⟨⟨a₁, more⟩, hstep, h⟩ := bind_eq_ok h
      have hok := absorptionStep_of_ok hw hlimit hdvd hpos hmax hhead ha hcond.1 hcond.2 hstep
      dsimp only at h
      split at h
      · rename_i hmore
        rw [if_pos hmore] at hok
        exact ih hok h
      · rename_i hmore
        rw [if_neg hmore] at hok
        cases h
        exact hok
    · cases h
      exact ha.toAbsorbed

omit hw hlimit hdvd hpos hmax hhead in
theorem firstCost_le (l : ExtentsLayout) (xs : List (Nat × Nat)) :
    firstCost l xs ≤ tailLen l xs := by
  cases xs with
  | nil => exact le_refl 0
  | cons x xs =>
    rw [tailLen_cons]
    exact le_trans (Nat.sub_le _ _) (Nat.le_add_right _ _)

omit hw hlimit hdvd hpos hmax hhead in
theorem providedLen_of_hdr_zero (h : l.extentsHdrLen = 0) (n : Nat)
    (first first' : Bool) : l.providedLen n first = l.providedLen n first' := by
  have hhdr : l.headersLen true = l.headersLen false := by rw [headersLen_true, h, zero_add]
  cases first <;> cases first' <;> simp only [ExtentsLayout.providedLen, hhdr]

omit hw hlimit hdvd hpos hmax hhead in
/-- If no extents are left, then there is no header but for the first extent. -/
theorem Absorbed.providedLen_eq (ha : Absorbed request Free limit maxBlocks isFirst a) (n : Nat) :
    request.layout.providedLen n (isFirst || a.extentsHdrTransferred) =
      request.layout.providedLen n (a.search.extents.isEmpty || a.extentsHdrTransferred) := by
  cases isFirst with
  | true =>
    rw [(ha.first rfl).1]
    rfl
  | false =>
    cases htransferred : a.extentsHdrTransferred with
    | true => rw [Bool.or_true, Bool.or_true]
    | false =>
      rw [Bool.or_false, Bool.or_false]
      by_cases hzero : request.layout.extentsHdrLen = 0
      · exact providedLen_of_hdr_zero hzero n _ _
      · rw [isEmpty_eq_false_iff.mpr (ha.ne hzero rfl htransferred)]

omit hhead in
/-- The current extent provides what there is in addition to what the others provide. -/
theorem fitCurrent_of_ok {p : ExtentsAllocationRequestProgress} {n : Nat}
    (ha : Absorbed request Free limit maxBlocks isFirst a)
    (h : a.fitCurrent pr bounds maxBlocks = .ok (p, n)) :
    p.request = request ∧ Balanced p ∧ 64 ∣ n ∧ n ≤ maxBlocks ∧
      accountedLen p +
          (if a.extentsHdrTransferred then 0 else firstCost request.layout a.search.extents) =
        tailLen request.layout a.search.extents + request.layout.providedLen n
          (a.search.extents.isEmpty || a.extentsHdrTransferred) ∧
      (n = 0 → a.extentsHdrTransferred = false ∧
        (request.layout.extentsHdrLen ≠ 0 → a.search.extents ≠ [])) := by
  have hsum := ha.sum
  have hused := ha.used_le
  rw [ha.providedLen_eq] at hused
  rw [Absorption.fitCurrent] at h
  split at h
  · rename_i hfull
    cases Except.ok.inj h
    refine ⟨ha.request_eq, ha.balanced, hdvd, le_refl _, ?_, fun hzero => absurd hzero hpos.ne'⟩
    rw [← ha.providedLen_eq, ← ha.full hfull]
    exact hsum
  · obtain ⟨⟨⟩, -, h⟩ := bind_eq_ok h
    have hcost : (if a.extentsHdrTransferred then 0
        else firstCost request.layout a.search.extents) ≤
          tailLen request.layout a.search.extents := by
      split
      · exact Nat.zero_le _
      · exact firstCost_le _ _
    have hlt := chosen_sum_lt hlimit ha.chosen
      (a.search.extents.isEmpty || a.extentsHdrTransferred)
    generalize (if a.extentsHdrTransferred then 0
        else firstCost request.layout a.search.extents) = cost at hsum hcost ⊢
    obtain ⟨hrequest, hbalanced, hndvd, hle, hfitted, hzero, -⟩ :=
      hw.fitAllocatedExtent_of_ok pr (m := maxBlocks) (by rw [ha.request_eq]) ha.balanced hdvd hpos
        hmax hused (by omega) (by omega) h
    refine ⟨hrequest.trans ha.request_eq, hbalanced, hndvd, hle, by omega, fun hn => ?_⟩
    rcases hzero hn with hfirst | hhdr
    · rw [Bool.or_eq_false_iff, isEmpty_eq_false_iff] at hfirst
      exact ⟨hfirst.2, fun _ => hfirst.1⟩
    · refine ⟨?_, fun hne => absurd hhdr hne⟩
      cases htransferred : a.extentsHdrTransferred with
      | true => exact absurd hhdr (ha.hdr htransferred)
      | false => rfl

end Absorption

end CocoonFs.FullwordChunkSearch
