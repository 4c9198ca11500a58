import CocoonFs.ExtentsAdjoint
import CocoonFs.FullwordChunkSearch

namespace CocoonFs.FullwordChunkRuns

open Checked Extents ExtentsLayouts ExtentsAdjoint ExtentsReallocation ExtentsCountFilter List
  ExtentsSort AllocationProgress HdrPlacement Bitmap BitmapWordIters FreeChunks FullwordChunkSearch
open Nat (sub_zero two_pow_pos zero_le)

def FreeBelow (b : SearchedBitmap) (n block : Nat) : Prop := b.IsFree block ∧ block < 64 * n

variable {l : ExtentsLayout}

section Place

variable {b : SearchedBitmap} {request : ExtentsAllocationRequest} {xs ys : List (Nat × Nat)}
  {maxWords n runBegin runEnd blocks : Nat} {pr : Profile} {bounds : ChunkBounds}

theorem pushExtent_of_ok {b e : Nat} (hlt : b < e)
    (h : pushExtent pr xs ⟨b, e⟩ true = .ok ys) : ys = xs ++ [(b, e - b)] := by
  rw [pushExtent, insertExtent, debugAssert_ok pr (le_refl _), ok_bind, BlockRange.blockCount,
    checkedSub_ok hlt.le, ok_bind, if_neg (Nat.sub_ne_zero_of_lt hlt)] at h
  rw [if_pos (le_refl _), insertIdx_length_self] at h
  cases pr with
  | release => exact (Except.ok.inj h).symm
  | debug =>
    obtain ⟨overlaps, -, h⟩ := bind_eq_ok h
    obtain ⟨⟨⟩, -, h⟩ := bind_eq_ok h
    exact (Except.ok.inj h).symm

theorem freeBelow_mono {n' : Nat} (hle : n ≤ n') {block : Nat} (h : FreeBelow b n block) :
    FreeBelow b n' block :=
  ⟨h.1, lt_of_lt_of_le h.2 (Nat.mul_le_mul_left 64 hle)⟩

theorem chosen_append (run : FreeRun b maxWords n runBegin runEnd)
    (h : Chosen l (FreeBelow b n) (64 * n) xs) (hdvd : 64 ∣ blocks) (hpos : 0 < blocks)
    (hle : blocks ≤ (runEnd - runBegin) * 64) (hmax : blocks ≤ l.maxExtentAllocationBlocks) :
    Chosen l (FreeBelow b runEnd) (64 * runEnd) (xs ++ [(runBegin * 64, blocks)]) := by
  have hge := run.begin_ge
  have hlt := run.lt
  have hend := run.end_le
  have hbelow := h.mono (fun block => freeBelow_mono (show n ≤ runEnd by omega))
    (Nat.mul_le_mul_left 64 (show n ≤ runEnd by omega))
  have hnew : WholeWords l (FreeBelow b runEnd) (runBegin * 64, blocks) := by
    refine ⟨dvd_mul_left _ _, hdvd, hpos, hmax, fun block hblock hblockLt => ?_⟩
    have hword := run.free (block / 64) (by omega) (by omega)
    refine ⟨⟨by omega, ?_⟩, by omega⟩
    rw [hword]
    exact BitVec.getLsbD_zero
  refine ⟨fun e he => ?_, pairwise_append.mpr ⟨h.apart, pairwise_singleton _ _, ?_⟩, ?_⟩
  · rcases mem_append.mp he with he | he
    · exact hbelow.whole e he
    · obtain rfl := mem_singleton.mp he
      exact hnew
  · intro x hx y hy
    obtain rfl := mem_singleton.mp hy
    have hwhole := h.whole x hx
    have hlast := hwhole.free (x.1 + x.2 - 1) (by have := hwhole.count_pos; omega)
      (by have := hwhole.count_pos; omega)
    have hlt := hlast.2
    refine .inl ?_
    omega
  · have hsum := h.sum_le
    rw [map_append, sum_append, map_singleton, sum_singleton]
    omega

/-- All but what's pending is accounted for, and the shortest extent is known or to be found. -/
structure SearchOk (b : SearchedBitmap) (request : ExtentsAllocationRequest) (n : Nat)
    (s : ChunkSearch) : Prop where
  accounts : Accounts request (FreeBelow b n) (64 * n) s.progress s.extents 0
  cached : Cached s.extents s.shortestExtent

variable {s s' : ChunkSearch} {p : ExtentsAllocationRequestProgress} {transferred goOn : Bool}
  (hw : WordExtents request.layout)

theorem insertCurrent_of_ok (hpos : 0 < blocks)
    (h : s.insertCurrent pr runBegin blocks transferred = .ok s') :
    s'.progress = s.progress ∧
      if transferred then swapExtents (s.extents ++ [(runBegin, blocks)]) 0 s.extents.length =
        .ok s'.extents
      else s'.extents = s.extents ++ [(runBegin, blocks)] := by
  obtain ⟨e, he, h⟩ := bind_eq_ok h
  obtain ⟨ys, hys, h⟩ := bind_eq_ok h
  have heq : e = runBegin + blocks := by
    rw [checkedAdd] at he
    split at he
    · exact (Except.ok.inj he).symm
    · cases he
  obtain rfl := pushExtent_of_ok (by omega) hys
  rw [show e - runBegin = blocks by omega, length_append, length_singleton,
    Nat.add_sub_cancel] at h
  split at h
  · rename_i htransferred
    obtain ⟨zs, hzs, h⟩ := bind_eq_ok h
    obtain ⟨shortestExtent, -, h⟩ := bind_eq_ok h
    cases h
    exact ⟨rfl, by rw [if_pos htransferred]; exact hzs⟩
  · rename_i htransferred
    obtain ⟨shortestExtent, -, h⟩ := bind_eq_ok h
    cases h
    exact ⟨rfl, by rw [if_neg htransferred]⟩

variable (himage : b.imageSize * 2 ^ request.layout.blockLenLog2 < 2 ^ 64)

include himage in
theorem words_lt (run : FreeRun b maxWords n runBegin runEnd) :
    64 * runEnd * 2 ^ request.layout.blockLenLog2 < 2 ^ 64 := by
  have hend := run.end_le
  have hle := Nat.mul_le_mul_right (2 ^ request.layout.blockLenLog2)
    (show 64 * runEnd ≤ b.imageSize by omega)
  omega

section Placing

variable (run : FreeRun b maxWords n runBegin runEnd)
  (hchosen : Chosen request.layout (FreeBelow b n) (64 * n) s.extents)
  (hrequest : s.progress.request = request) (hbalanced : Balanced s.progress)
  (hdvd : 64 ∣ blocks) (hle : blocks ≤ (runEnd - runBegin) * 64)
  (hmax : blocks ≤ request.layout.maxExtentAllocationBlocks)
  (hsum : accountedLen s.progress +
      (if transferred then 0 else firstCost request.layout s.extents) =
    tailLen request.layout s.extents +
      request.layout.providedLen blocks (s.extents.isEmpty || transferred))
include hw run hchosen hrequest hbalanced hdvd hle hmax hsum

/-- The current extent joins the others, in front of them if it's to store the extents header. -/
theorem insertCurrent_accounts (hpos : 0 < blocks)
    (h : s.insertCurrent pr (runBegin * 64) blocks transferred = .ok s') :
    Accounts request (FreeBelow b runEnd) (64 * runEnd) s'.progress s'.extents 0 ∧
      s'.extents ≠ [] := by
  have happend := chosen_append run hchosen hdvd hpos hle hmax
  have hcost := providedLen_add_hdrCost hw.bounded (hw.fits hdvd hpos true)
  obtain ⟨hprogress, hextents⟩ := insertCurrent_of_ok hpos h
  rw [hprogress]
  cases transferred with
  | true =>
    have hlast : (s.extents ++ [(runBegin * 64, blocks)])[s.extents.length]? =
        some (runBegin * 64, blocks) := getElem?_concat_length
    obtain ⟨x, y, hx, hy, heq⟩ := swapExtents_of_ok hextents
    cases hlast.symm.trans hy
    have hperm := swap_perm hx hy
    have hfirst := firstCost_of_getElem? (l := request.layout) (swap_getElem?_zero hx hy)
    rw [← heq] at hperm hfirst
    rw [if_pos rfl, Bool.or_true] at hsum
    refine ⟨⟨hrequest, hbalanced, happend.perm hperm.symm, ?_⟩, fun hnil => ?_⟩
    · rw [hfirst, tailLen_perm hperm, tailLen_append_singleton]
      dsimp only
      omega
    · rw [hnil] at hperm
      exact absurd hperm.symm.eq_nil (by simp)
  | false =>
    rw [if_neg Bool.false_ne_true] at hextents hsum
    rw [Bool.or_false] at hsum
    rw [hextents]
    refine ⟨⟨hrequest, hbalanced, happend, ?_⟩, by simp⟩
    rw [tailLen_append_singleton]
    cases hxs : s.extents with
    | nil =>
      rw [hxs, firstCost, isEmpty_nil] at hsum
      rw [List.nil_append, firstCost]
      dsimp only
      omega
    | cons x xs =>
      rw [hxs, firstCost, isEmpty_cons] at hsum
      rw [List.cons_append, firstCost]
      omega

include himage

theorem placeCurrent_of_ok (hpos : 0 < blocks)
    (h : s.placeCurrent pr bounds (runBegin * 64) blocks transferred = .ok (s', goOn)) :
    SearchOk b request runEnd s' ∧ s'.extents ≠ [] := by
  obtain ⟨s₁, hinsert, h⟩ := bind_eq_ok h
  obtain ⟨haccounts, hne⟩ := insertCurrent_accounts hw run hchosen hrequest hbalanced hdvd hle
    hmax hsum hpos hinsert
  obtain ⟨⟨p', ys, nExtentsRemoved, shortestIndex⟩, hoptimize, h⟩ := bind_eq_ok h
  obtain ⟨haccounts', hne'⟩ := optimizeExtentsHdrPlacement_of_ok hw (words_lt himage run) haccounts
    hne rfl hoptimize
  obtain ⟨shortestExtent, hshortest, h⟩ := bind_eq_ok h
  have hcached := withLength_cached hshortest
  obtain ⟨filter, -, h⟩ := bind_eq_ok h
  obtain ⟨remaining, -, h⟩ := bind_eq_ok h
  split at h
  · obtain ⟨filter', -, h⟩ := bind_eq_ok h
    obtain ⟨rfl, -⟩ := Prod.mk.inj (Except.ok.inj h)
    exact ⟨⟨haccounts', hcached⟩, hne'⟩
  · obtain ⟨rfl, -⟩ := Prod.mk.inj (Except.ok.inj h)
    exact ⟨⟨haccounts', hcached⟩, hne'⟩

theorem placeCurrentIfAny_of_ok (hcached : Cached s.extents s.shortestExtent)
    (hnone : blocks = 0 → transferred = false ∧
      (request.layout.extentsHdrLen ≠ 0 → s.extents ≠ []))
    (h : s.placeCurrentIfAny pr bounds (runBegin * 64) blocks transferred = .ok (s', goOn)) :
    SearchOk b request runEnd s' ∧ (request.layout.extentsHdrLen ≠ 0 → s'.extents ≠ []) := by
  have hge := run.begin_ge
  have hlt := run.lt
  rw [ChunkSearch.placeCurrentIfAny] at h
  split at h
  · rename_i hne
    obtain ⟨hok, hne'⟩ := placeCurrent_of_ok hw himage run hchosen hrequest hbalanced hdvd
      hle hmax hsum (pos_of_ne_zero hne) h
    exact ⟨hok, fun _ => hne'⟩
  · rename_i hzero
    obtain rfl := not_not.mp hzero
    obtain ⟨rfl, hne⟩ := hnone rfl
    obtain ⟨⟨⟩, -, h⟩ := bind_eq_ok h
    obtain ⟨rfl, -⟩ := Prod.mk.inj (Except.ok.inj h)
    rw [if_neg Bool.false_ne_true, providedLen_zero] at hsum
    exact ⟨⟨⟨hrequest, hbalanced,
      hchosen.mono (fun block => freeBelow_mono (by omega)) (Nat.mul_le_mul_left 64 (by omega)),
      hsum⟩, hcached⟩, hne⟩

end Placing

theorem absorbing_of_searchOk {maxBlocks usedLen : Nat} (hs : SearchOk b request n s)
    (hused : usedLen ≤ request.layout.providedLen maxBlocks s.extents.isEmpty)
    (hremaining : usedLen ≤
      request.totalEffectivePayloadLen - s.progress.allocatedEffectivePayloadLen) :
    Absorbing request (FreeBelow b n) (64 * n) maxBlocks s.extents.isEmpty
      ⟨{ s with progress := ⟨request, s.progress.allocatedEffectivePayloadLen + usedLen,
        s.progress.allocatedExcessEffectivePayloadLen⟩ },
      request.layout.providedLen maxBlocks s.extents.isEmpty, usedLen, false⟩ := by
  have hrequest := hs.accounts.request_eq
  have hbalanced := hs.accounts.balanced
  have hallocated := hbalanced.allocated_le
  have hexcess := hbalanced.excess
  have htotal := hbalanced.total_lt
  have hsum := hs.accounts.sum
  rw [hrequest] at hallocated hexcess htotal
  refine ⟨⟨rfl, ⟨htotal, ?_, ?_⟩, hs.accounts.chosen, hs.cached, ?_, ?_, ?_, ?_, ?_, ?_⟩, ?_⟩
  · dsimp only
    omega
  · dsimp only
    omega
  · rw [if_neg Bool.false_ne_true, accountedLen]
    rw [accountedLen] at hsum
    dsimp only
    omega
  · rw [Bool.or_false]
    exact hused
  · rw [Bool.or_false]
    exact id
  · exact fun h => absurd h Bool.false_ne_true
  · exact fun h => ⟨List.isEmpty_iff.mp h, rfl⟩
  · exact fun _ h _ => isEmpty_eq_false_iff.mp h
  · rw [Bool.or_false]

variable (hhead : bounds.headExtentMinAllocationBlocks ≤ 64)
  (htail : bounds.tailExtentMinAllocationBlocks ≤ 64)
  (hmaxWords : maxWords * 64 ≤ request.layout.maxExtentAllocationBlocks)
include hw himage hhead htail hmaxWords

theorem examineRun_of_ok (run : FreeRun b maxWords n runBegin runEnd) (hs : SearchOk b request n s)
    (h : s.examineRun pr bounds runBegin runEnd = .ok (s', goOn)) :
    SearchOk b request runEnd s' ∧ (request.layout.extentsHdrLen ≠ 0 → s'.extents ≠ []) := by
  have hrequest := hs.accounts.request_eq
  have hbalanced := hs.accounts.balanced
  have hallocated := hbalanced.allocated_le
  have htotal := hbalanced.total_lt
  have hge := run.begin_ge
  have hlt := run.lt
  have hleMax := run.le_max
  have hwords := words_lt himage run
  rw [hrequest] at hallocated htotal
  rw [ChunkSearch.examineRun] at h
  dsimp only at h
  obtain ⟨⟨⟩, -, h⟩ := bind_eq_ok h
  rw [hrequest, show (2 : Nat) ^ 6 = 64 from rfl] at h
  have hmax : (runEnd - runBegin) * 64 ≤ request.layout.maxExtentAllocationBlocks :=
    le_trans (Nat.mul_le_mul_right 64 (by omega)) hmaxWords
  have hdvd : 64 ∣ (runEnd - runBegin) * 64 := dvd_mul_left _ _
  have hpos : 0 < (runEnd - runBegin) * 64 := mul_pos (Nat.sub_pos_of_lt hlt) (by decide)
  rw [if_neg (by split <;> omega), hw.providedLen_ok pr hdvd hpos hmax, ok_bind,
    hbalanced.remaining_ok pr, ok_bind, hrequest] at h
  generalize husedLen : (if (s.extents.isEmpty = true ∨ bounds.maxSubwordExtentEffectivePayloadLen <
      request.totalEffectivePayloadLen - s.progress.allocatedEffectivePayloadLen) ∧
      s.filter.extentCandidateAcceptable ((runEnd - runBegin) * 64) = true then
    min (request.layout.providedLen ((runEnd - runBegin) * 64) s.extents.isEmpty)
      (request.totalEffectivePayloadLen - s.progress.allocatedEffectivePayloadLen) else 0) =
        usedLen at h
  have hused : usedLen ≤ request.layout.providedLen ((runEnd - runBegin) * 64) s.extents.isEmpty ∧
      usedLen ≤ request.totalEffectivePayloadLen - s.progress.allocatedEffectivePayloadLen := by
    rw [← husedLen]
    split <;> omega
  have habsorbing := absorbing_of_searchOk hs hused.1 hused.2
  rw [addU64_ok pr (by omega), ok_bind] at h
  obtain ⟨a, ha, h⟩ := bind_eq_ok h
  have hlimit : (64 * n + (runEnd - runBegin) * 64) * 2 ^ request.layout.blockLenLog2 < 2 ^ 64 :=
    lt_of_le_of_lt (Nat.mul_le_mul_right _ (by omega)) hwords
  have habsorbed := absorptionLoop_of_ok hw hlimit hdvd hpos hmax hhead _ habsorbing ha
  obtain ⟨⟨p, k⟩, hfit, h⟩ := bind_eq_ok h
  obtain ⟨hp, hpBalanced, hkDvd, hkLe, hsum, hnone⟩ :=
    fitCurrent_of_ok hw hlimit hdvd hpos hmax habsorbed hfit
  obtain ⟨⟨⟩, -, h⟩ := bind_eq_ok h
  obtain ⟨⟨s₁, goOn₁⟩, hplace, h⟩ := bind_eq_ok h
  have hok := placeCurrentIfAny_of_ok (s := { a.search with progress := p }) hw himage run
    habsorbed.chosen hp hpBalanced hkDvd hkLe (le_trans hkLe hmax) hsum habsorbed.cached hnone
    hplace
  split at h
  · obtain ⟨remaining, -, h⟩ := bind_eq_ok h
    obtain ⟨rfl, -⟩ := Prod.mk.inj (Except.ok.inj h)
    exact hok
  · obtain ⟨rfl, -⟩ := Prod.mk.inj (Except.ok.inj h)
    exact hok

/-- If there are any runs, then an extent to store the extents header has been found. -/
theorem examineRuns_of_ok {runs : List (Nat × Nat)} (hruns : FreeRuns b maxWords n runs)
    (hs : SearchOk b request n s) (h : s.examineRuns pr bounds runs = .ok s') :
    ∃ n', SearchOk b request n' s' ∧ (request.layout.extentsHdrLen ≠ 0 → s'.extents = [] →
      s.extents = [] ∧ runs = []) := by
  induction hruns generalizing s with
  | nil n =>
    cases h
    exact ⟨n, hs, fun _ hnil => ⟨hnil, rfl⟩⟩
  | cons run rest ih =>
    obtain ⟨⟨s₁, goOn⟩, hrun, h⟩ := bind_eq_ok h
    obtain ⟨hs₁, hne⟩ := examineRun_of_ok hw himage hhead htail hmaxWords run hs hrun
    dsimp only at h
    split at h
    · obtain ⟨n', hs', hnil⟩ := ih hs₁ h
      exact ⟨n', hs', fun hhdr hextents => absurd (hnil hhdr hextents).1 (hne hhdr)⟩
    · cases h
      exact ⟨_, hs₁, fun hhdr hextents => absurd hextents (hne hhdr)⟩

end Place

/-- What the extents provide, with the extents header in the first one. -/
def effectivePayloadLens (pr : Profile) (l : ExtentsLayout) :
    Bool → List (Nat × Nat) → Comp Nat
  | _, [] => pure 0
  | storesExtentsHdr, e :: entries => do
    let len ← l.extentEffectivePayloadLen pr e.2 storesExtentsHdr
    let others ← effectivePayloadLens pr l false entries
    pure (len + others)

/-- What's promised about the extents found, and about what remains to be found. -/
structure Serves (pr : Profile) (b : SearchedBitmap) (request : ExtentsAllocationRequest)
    (p : ExtentsAllocationRequestProgress) (xs : List (Nat × Nat)) : Prop where
  whole : ∀ e ∈ xs, WholeWords request.layout b.IsFree e
  apart : xs.Pairwise Apart
  sum : effectivePayloadLens pr request.layout true xs =
    .ok (p.allocatedEffectivePayloadLen + p.allocatedExcessEffectivePayloadLen)
  allocated_le : p.allocatedEffectivePayloadLen ≤ request.totalEffectivePayloadLen
  excess : p.allocatedExcessEffectivePayloadLen = 0 ∨
    p.allocatedEffectivePayloadLen = request.totalEffectivePayloadLen
  remainder : p.allocatedEffectivePayloadLen = request.totalEffectivePayloadLen ∨
    ∃ n < 64, 2 ^ request.layout.extentAlignmentAllocationBlocksLog2 ∣ n ∧
      request.layout.Fits n xs.isEmpty
        (request.totalEffectivePayloadLen - p.allocatedEffectivePayloadLen)

/-- There is no free word, and an extent shorter than a word fits all of the payload, but not
together with the extents header. -/
structure HdrUnaccounted (b : SearchedBitmap) (request : ExtentsAllocationRequest) : Prop where
  total_ne : request.totalEffectivePayloadLen ≠ 0
  noneFree : ∀ i < b.imageSize / 64, b.word i ≠ 0
  fitsTail : request.layout.Fits (64 - 2 ^ request.layout.extentAlignmentAllocationBlocksLog2) false
    request.totalEffectivePayloadLen
  not_fitsHead : ¬request.layout.Fits
    (64 - 2 ^ request.layout.extentAlignmentAllocationBlocksLog2) true
      request.totalEffectivePayloadLen
  invariant : isPow2 request.layout.extentPayloadLenAlignment = true ∨
    request.layout.extentsHdrLen % request.layout.extentPayloadLenAlignment = 0

section Sorted

variable {l : ExtentsLayout} {Free : Nat → Prop} {limit : Nat} {xs ys : List (Nat × Nat)}
  {pr : Profile} {compare : BlockRange → BlockRange → Comp Ordering}

theorem insertBy_perm {entry : Nat × Nat}
    (h : insertBy compare entry xs = .ok ys) : ys.Perm (entry :: xs) := by
  induction xs generalizing ys with
  | nil =>
    cases h
    exact List.Perm.refl _
  | cons x xs ih =>
    obtain ⟨r₀, -, h⟩ := bind_eq_ok h
    obtain ⟨r₁, -, h⟩ := bind_eq_ok h
    obtain ⟨o, -, h⟩ := bind_eq_ok h
    cases o with
    | gt =>
      obtain ⟨rest, hrest, h⟩ := bind_eq_ok h
      cases h
      exact ((ih hrest).cons x).trans (List.Perm.swap entry x xs)
    | lt =>
      cases h
      exact List.Perm.refl _
    | eq =>
      cases h
      exact List.Perm.refl _

theorem sortBy_perm (h : sortBy compare xs = .ok ys) : ys.Perm xs := by
  induction xs generalizing ys with
  | nil =>
    cases h
    exact List.Perm.refl _
  | cons x xs ih =>
    obtain ⟨sorted, hsorted, h⟩ := bind_eq_ok h
    exact (insertBy_perm h).trans ((ih hsorted).cons x)

theorem sortExtentsFrom_of_ok {i : Nat} (h : sortExtentsFrom i xs = .ok ys) :
    ys.Perm xs ∧ i ≤ xs.length ∧ ∀ j < i, ys[j]? = xs[j]? := by
  rw [sortExtentsFrom] at h
  split at h
  · rename_i hle
    obtain ⟨sorted, hsorted, h⟩ := bind_eq_ok h
    cases h
    refine ⟨?_, hle, fun j hj => ?_⟩
    · have hperm := (sortBy_perm hsorted).append_left (xs.take i)
      rwa [take_append_drop] at hperm
    · rw [getElem?_append_left (by rw [length_take]; omega), getElem?_take_of_lt hj]
  · cases h

theorem effectivePayloadLens_ok (hw : WordExtents l) (h : Chosen l Free limit xs) :
    effectivePayloadLens pr l false xs = .ok (tailLen l xs) := by
  induction xs with
  | nil => rfl
  | cons x xs ih =>
    have hwhole := h.whole x (mem_cons_self ..)
    rw [effectivePayloadLens, hw.providedLen_ok pr hwhole.count_dvd hwhole.count_pos
      hwhole.le_max, ok_bind, ih h.drop, ok_bind, tailLen_cons]
    rfl

variable (pr) in
theorem effectivePayloadLens_first (hw : WordExtents l) (h : Chosen l Free limit xs) :
    ∃ n, effectivePayloadLens pr l true xs = .ok n ∧ n + firstCost l xs = tailLen l xs := by
  cases xs with
  | nil => exact ⟨0, rfl, rfl⟩
  | cons x xs =>
    have hwhole := h.whole x (mem_cons_self ..)
    have hcost := providedLen_add_hdrCost hw.bounded
      (hw.fits hwhole.count_dvd hwhole.count_pos true)
    refine ⟨l.providedLen x.2 true + tailLen l xs, ?_, ?_⟩
    · rw [effectivePayloadLens, hw.providedLen_ok pr hwhole.count_dvd hwhole.count_pos
        hwhole.le_max, ok_bind, effectivePayloadLens_ok hw h.drop, ok_bind]
      rfl
    · rw [tailLen_cons, firstCost]
      omega

end Sorted

section Limits

variable {l : ExtentsLayout} {head tail n len : Nat} {pr : Profile}

theorem wordExtents_of_min (hl : l.Valid)
    (hmin : l.minExtentsAllocationBlocks pr = .ok (head, tail)) (hhead : head ≤ 64)
    (htail : tail ≤ 64) : WordExtents l := by
  have h := minExtents_of_ok hl hmin
  have hpos := pos_of_fits hl.toBounded h.tail_fits one_ne_zero
  refine ⟨hl.toBounded, ?_, h.head_fits.mono hhead⟩
  have hle := le_trans (Nat.le_of_dvd hpos h.tail_aligned) htail
  exact (Nat.pow_le_pow_iff_right (show 1 < 2 by decide)).mp hle

theorem le_subword {a : Nat} (ha : a ≤ 6) (hdvd : 2 ^ a ∣ n) (hlt : n < 64) : n ≤ 64 - 2 ^ a := by
  obtain ⟨q, rfl⟩ := hdvd
  obtain ⟨k, hk⟩ : 2 ^ a ∣ 64 := pow_dvd_pow 2 ha
  rw [hk] at hlt ⊢
  have hle := Nat.mul_le_mul_left (2 ^ a) (Nat.succ_le_of_lt (Nat.lt_of_mul_lt_mul_left hlt))
  rw [Nat.mul_succ] at hle
  omega

theorem subword_dvd {a : Nat} (ha : a ≤ 6) : 2 ^ a ∣ 64 - 2 ^ a :=
  Nat.dvd_sub (pow_dvd_pow 2 ha) (dvd_refl _)

variable (pr) in
theorem subwordLimits_ok (hl : l.Bounded)
    (hdvd : 2 ^ l.extentAlignmentAllocationBlocksLog2 ∣ tail) (hlt : tail < 64)
    (hmax : 64 ≤ l.maxExtentAllocationBlocks)
    (hfits : l.Fits (64 - 2 ^ l.extentAlignmentAllocationBlocksLog2) false len) (hlen : len ≠ 0) :
    ∃ maxExcessLen, subwordLimits pr l tail = .ok
      (l.providedLen (64 - 2 ^ l.extentAlignmentAllocationBlocksLog2) false, maxExcessLen) := by
  have hpos := pos_of_fits hl hfits hlen
  have hfits₀ := hfits.of_le hl.payloadAlignment_pos (zero_le _)
  have hprovided := providedLen_le l (64 - 2 ^ l.extentAlignmentAllocationBlocksLog2) false
  have hblock := two_pow_pos l.blockLenLog2
  have hword : 64 * 2 ^ l.blockLenLog2 < 2 ^ 64 :=
    Nat.lt_of_le_of_lt (Nat.mul_le_mul_right _ hmax) hl.maxLen_lt
  have hless : l.providedLen (64 - 2 ^ l.extentAlignmentAllocationBlocksLog2) false <
      64 * 2 ^ l.blockLenLog2 := by
    refine Nat.lt_of_le_of_lt hprovided (Nat.mul_lt_mul_of_pos_right ?_ hblock)
    omega
  refine ⟨64 * 2 ^ l.blockLenLog2 -
    l.providedLen (64 - 2 ^ l.extentAlignmentAllocationBlocksLog2) false - 1, ?_⟩
  rw [subwordLimits, debugAssert_ok pr (Nat.div_mul_cancel hdvd), ok_bind, if_pos hlt,
    subU64_ok pr (by omega), ok_bind, hl.extentEffectivePayloadLen_ok pr (by omega) hpos.ne' hfits₀,
    ok_bind, shlU64_ok pr hl.blockLenLog2_lt hword, ok_bind, shrU64_ok pr hl.blockLenLog2_lt,
    ok_bind, debugAssert_ok pr (Nat.mul_div_cancel _ hblock), ok_bind, subU64_ok pr hless.le, ok_bind,
    subU64_ok pr (by omega), ok_bind]
  rfl

/-- What an extent shorter than a word provides, or nothing if there is no such. -/
theorem subwordLimits_of_ok {maxSubwordLen maxExcessLen : Nat} (hl : l.Valid)
    (hmin : l.minExtentsAllocationBlocks pr = .ok (head, tail)) (hhead : head ≤ 64)
    (htail : tail ≤ 64) (hmax : 64 ≤ l.maxExtentAllocationBlocks)
    (h : subwordLimits pr l tail = .ok (maxSubwordLen, maxExcessLen)) (hle : len ≤ maxSubwordLen)
    (hlen : len ≠ 0) :
    l.Fits (64 - 2 ^ l.extentAlignmentAllocationBlocksLog2) false len := by
  have hw := wordExtents_of_min hl hmin hhead htail
  have hleast := minExtents_of_ok hl hmin
  have hpow := two_pow_pos l.extentAlignmentAllocationBlocksLog2
  obtain ⟨⟨⟩, -, h⟩ := bind_eq_ok h
  split at h
  · rename_i hlt
    have hsubword :=
      hleast.tail_fits.mono (le_subword hw.alignmentLog2_le hleast.tail_aligned hlt)
    have hpos := pos_of_fits hl.toBounded hsubword one_ne_zero
    have hfits₀ := hsubword.of_le hl.payloadAlignment_pos (zero_le _)
    rw [subU64_ok pr (by omega), ok_bind, hl.extentEffectivePayloadLen_ok pr (by omega) hpos.ne'
      hfits₀, ok_bind] at h
    obtain ⟨fullwordBlockLen, -, h⟩ := bind_eq_ok h
    obtain ⟨words, -, h⟩ := bind_eq_ok h
    obtain ⟨⟨⟩, -, h⟩ := bind_eq_ok h
    obtain ⟨len', -, h⟩ := bind_eq_ok h
    obtain ⟨maxExcess, -, h⟩ := bind_eq_ok h
    obtain ⟨rfl, -⟩ := Prod.mk.inj (Except.ok.inj h)
    exact (hl.le_providedLen_iff hfits₀).mp hle
  · obtain ⟨len', -, h⟩ := bind_eq_ok h
    obtain ⟨maxExcess, -, h⟩ := bind_eq_ok h
    obtain ⟨rfl, -⟩ := Prod.mk.inj (Except.ok.inj h)
    exact absurd (Nat.le_zero.mp hle) hlen

end Limits

section Search

variable {b : SearchedBitmap} {request : ExtentsAllocationRequest} {Free : Nat → Prop} {limit : Nat}
  {p : ExtentsAllocationRequestProgress} {xs ys : List (Nat × Nat)} {pr : Profile}
  {head tail : Nat} {filter : CandidateFilter} {isInvariant : Bool}

theorem sorted_accounts (hw : WordExtents request.layout)
    (hinvariant : extentsHdrPlacementCostIsInvariant pr request.layout = .ok isInvariant)
    (hsort : sortExtentsFrom (if isInvariant then 0 else 1) xs = .ok ys)
    (h : Accounts request Free limit p xs 0) : Accounts request Free limit p ys 0 := by
  obtain ⟨hperm, hle, hfirst⟩ := sortExtentsFrom_of_ok hsort
  have hcost : firstCost request.layout ys = firstCost request.layout xs := by
    cases isInvariant with
    | false => exact firstCost_congr (hfirst 0 Nat.zero_lt_one)
    | true =>
      cases xs with
      | nil => rw [hperm.eq_nil]
      | cons x xs =>
        cases ys with
        | nil => exact absurd hperm.symm.eq_nil (by simp)
        | cons y ys =>
          have hx := h.chosen.whole x (mem_cons_self ..)
          have hy := h.chosen.whole y (hperm.subset (mem_cons_self ..))
          exact hdrCost_invariant pr hw.bounded hinvariant hy.le_max hx.le_max
            (hw.fits hy.count_dvd hy.count_pos true) (hw.fits hx.count_dvd hx.count_pos true)
  refine ⟨h.request_eq, h.balanced, h.chosen.perm hperm.symm, ?_⟩
  rw [hcost, tailLen_perm hperm]
  exact h.sum

theorem serves_of_accounts (hw : WordExtents request.layout)
    (hfree : ∀ block, Free block → b.IsFree block) (h : Accounts request Free limit p xs 0)
    (hremainder : p.allocatedEffectivePayloadLen = request.totalEffectivePayloadLen ∨
      ∃ n < 64, 2 ^ request.layout.extentAlignmentAllocationBlocksLog2 ∣ n ∧
        request.layout.Fits n xs.isEmpty
          (request.totalEffectivePayloadLen - p.allocatedEffectivePayloadLen)) :
    Serves pr b request p xs := by
  have hle := h.balanced.allocated_le
  have hexcess := h.balanced.excess
  have hsum := h.sum
  rw [h.request_eq] at hle hexcess
  obtain ⟨n, hn, hlens⟩ := effectivePayloadLens_first pr hw h.chosen
  refine ⟨(h.chosen.mono hfree (le_refl _)).whole, h.chosen.apart, ?_, hle, hexcess, hremainder⟩
  rw [hn]
  rw [accountedLen] at hsum
  congr 1
  omega

theorem isPow2_or_mod_eq_zero (hne : l.extentsHdrLen ≠ 0)
    (h : extentsHdrPlacementCostIsInvariant pr l = .ok true) :
    isPow2 l.extentPayloadLenAlignment = true ∨
      l.extentsHdrLen % l.extentPayloadLenAlignment = 0 := by
  rw [extentsHdrPlacementCostIsInvariant, if_neg hne] at h
  split at h
  · rename_i hpow2
    exact .inl hpow2
  · exact .inr (of_decide_eq_true (Except.ok.inj h))

theorem isInvariant_ok (hv : l.Bounded) (hne : l.extentsHdrLen ≠ 0)
    (h : isPow2 l.extentPayloadLenAlignment = true ∨
      l.extentsHdrLen % l.extentPayloadLenAlignment = 0) :
    extentsHdrPlacementCostIsInvariant pr l = .ok true := by
  by_cases hpow2 : isPow2 l.extentPayloadLenAlignment = true
  · exact isInvariant_of_isPow2 pr hv hpow2 hne
  · rw [extentsHdrPlacementCostIsInvariant, if_neg hne, if_neg hpow2,
      decide_eq_true (h.resolve_left hpow2)]
    rfl

theorem remainingMax_of_ok {n : Nat} {fits : Bool} (hl : request.layout.Valid)
    (h : remainingMaxExtentAllocationBlocks pr request 0 = .ok (n, fits)) :
    (request.totalEffectivePayloadLen = 0 ∧ n = 0) ∨
      request.totalEffectivePayloadLen ≠ 0 ∧
        request.layout.Blocks true request.totalEffectivePayloadLen n fits := by
  obtain ⟨m, fits', hok, hblocks⟩ := hl.exists_blocks pr true request.totalEffectivePayloadLen
  obtain ⟨⟨⟩, -, h⟩ := bind_eq_ok h
  split at h
  · rename_i hzero
    obtain ⟨rfl, -⟩ := Prod.mk.inj (Except.ok.inj h)
    exact .inl ⟨hzero.symm, rfl⟩
  · rename_i hne
    rw [subU64_ok pr (zero_le _), ok_bind, sub_zero, decide_eq_true rfl, hok] at h
    cases Except.ok.inj h
    exact .inr ⟨Ne.symm hne, hblocks⟩

theorem wordItems_eq (hb : b.Valid) :
    WordIter.take (b.imageSize / 2 ^ 6) (b.wordIterAt 0) = wordItems b 0 (b.imageSize / 64) := by
  have hcovered := hb.covered
  rw [SearchedBitmap.wordIterAt, (newAtBitmapWordIndex_at b.bitmap hb.allocs_sorted hb.frees_sorted
    0).take hb.allocs_sorted hb.frees_sorted, min_eq_left (by omega)]
  rfl

/-- Unless the extents header hasn't been stored anywhere yet, any extent fits what remains. -/
theorem serves_or_unaccounted_of_searchOk (hw : WordExtents request.layout)
    (hinvariant : extentsHdrPlacementCostIsInvariant pr request.layout = .ok isInvariant)
    {n : Nat} {s : ChunkSearch} (hok : SearchOk b request n s)
    (hsort : sortExtentsFrom (if isInvariant then 0 else 1) s.extents = .ok ys)
    (hfits : request.totalEffectivePayloadLen - s.progress.allocatedEffectivePayloadLen ≠ 0 →
      request.layout.Fits (64 - 2 ^ request.layout.extentAlignmentAllocationBlocksLog2) false
        (request.totalEffectivePayloadLen - s.progress.allocatedEffectivePayloadLen))
    (hnot : request.totalEffectivePayloadLen ≠ 0 → ¬request.layout.Fits
      (64 - 2 ^ request.layout.extentAlignmentAllocationBlocksLog2) true
        request.totalEffectivePayloadLen)
    (hnil : request.layout.extentsHdrLen ≠ 0 → s.extents = [] →
      ∀ i < b.imageSize / 64, b.word i ≠ 0) :
    Serves pr b request s.progress ys ∨ HdrUnaccounted b request := by
  have hsorted := sorted_accounts hw hinvariant hsort hok.accounts
  obtain ⟨hperm, hindex, -⟩ := sortExtentsFrom_of_ok hsort
  have hallocatedLe := hok.accounts.balanced.allocated_le
  have hpow := two_pow_pos request.layout.extentAlignmentAllocationBlocksLog2
  rw [hok.accounts.request_eq] at hallocatedLe
  by_cases hallocated :
      request.totalEffectivePayloadLen - s.progress.allocatedEffectivePayloadLen = 0
  · exact .inl (serves_of_accounts hw (fun block hblock => hblock.1) hsorted (.inl (by omega)))
  specialize hfits hallocated
  by_cases hhdr : request.layout.extentsHdrLen ≠ 0 ∧ ys = []
  · obtain ⟨hhdr, rfl⟩ := hhdr
    have hextents := hperm.symm.eq_nil
    have haccounted := hok.accounts.sum
    rw [hextents] at haccounted hindex
    obtain ⟨hzero, -⟩ := Nat.add_eq_zero_iff.mp
      (show s.progress.allocatedEffectivePayloadLen +
        s.progress.allocatedExcessEffectivePayloadLen = 0 from haccounted)
    rw [hzero, sub_zero] at hfits hallocated
    refine .inr ⟨hallocated, hnil hhdr hextents, hfits, hnot hallocated, ?_⟩
    cases isInvariant with
    | true => exact isPow2_or_mod_eq_zero hhdr hinvariant
    | false => exact absurd hindex (by decide)
  · refine .inl (serves_of_accounts hw (fun block hblock => hblock.1) hsorted
      (.inr ⟨_, by omega, subword_dvd hw.alignmentLog2_le, ?_⟩))
    cases ys with
    | cons y ys => exact hfits
    | nil =>
      have hzero : request.layout.extentsHdrLen = 0 := by tauto
      exact (fits_true_iff hzero).mpr hfits

variable (hb : b.Valid) (hl : request.layout.Valid)
  (htotal : request.totalEffectivePayloadLen < 2 ^ 64)
  (hmin : request.layout.minExtentsAllocationBlocks pr = .ok (head, tail))
  (hhead : head ≤ 64) (htail : tail ≤ 64)
  (hmax : 64 ≤ request.layout.maxExtentAllocationBlocks)
  (himage : b.imageSize ≤ (2 ^ 64 - 1) / 2 ^ request.layout.blockLenLog2)
include hb hl htotal hmin hhead htail hmax himage

theorem serves_or_unaccounted
    (h : searchFullwordChunks pr b request filter head tail = .ok (some (p, xs))) :
    Serves pr b request p xs ∨ HdrUnaccounted b request := by
  have hw := wordExtents_of_min hl hmin hhead htail
  obtain ⟨⟨⟩, -, h⟩ := bind_eq_ok h
  obtain ⟨isInvariant, hinvariant, h⟩ := bind_eq_ok h
  obtain ⟨⟨maxBlocks, fits⟩, hmaxBlocks, h⟩ := bind_eq_ok h
  have hblocks := remainingMax_of_ok hl hmaxBlocks
  have hempty : Accounts request (FreeBelow b 0) 0 ⟨request, 0, 0⟩ [] 0 :=
    ⟨rfl, ⟨htotal, zero_le _, .inl rfl⟩, ⟨fun e he => (by cases he), .nil, Nat.le_refl _⟩, rfl⟩
  dsimp only at h
  split at h
  · rename_i hlt
    cases Except.ok.inj h
    refine .inl (serves_of_accounts hw (fun block hblock => hblock.1) hempty ?_)
    rcases hblocks with ⟨hzero, -⟩ | ⟨-, hblocks⟩
    · exact .inl hzero.symm
    · refine .inr ⟨maxBlocks, hlt, hblocks.aligned, ?_⟩
      cases fits with
      | true =>
        rcases hblocks.holds rfl with ⟨hfalse, -, -⟩ | hfits
        · exact absurd hfalse.symm Bool.false_ne_true
        · exact hfits
      | false => exact absurd (hblocks.capped rfl).1 (by omega)
  rename_i hge
  obtain ⟨⟨⟩, -, h⟩ := bind_eq_ok h
  obtain ⟨⟨maxSubwordLen, maxExcessLen⟩, hlimits, h⟩ := bind_eq_ok h
  rw [wordItems_eq hb] at h
  obtain ⟨hruns, hnone⟩ := freeRuns_spec (b := b)
    (request.layout.maxExtentAllocationBlocks / 2 ^ 6) (wordItems b 0 (b.imageSize / 64)).length
    (by omega) 0 (b.imageSize / 64)
    (by rw [wordItems, length_map, length_range']) (zero_add _)
  obtain ⟨s, hs, h⟩ := bind_eq_ok h
  have himage' : b.imageSize * 2 ^ request.layout.blockLenLog2 < 2 ^ 64 :=
    lt_of_le_of_lt ((Nat.le_div_iff_mul_le (two_pow_pos _)).mp himage) (by decide)
  obtain ⟨n, hok, hnil⟩ := examineRuns_of_ok hw himage' hhead htail
    (Nat.div_mul_le_self _ _) hruns ⟨hempty, fun q hq => (by cases hq)⟩ hs
  rw [hok.accounts.balanced.remaining_ok pr, ok_bind, hok.accounts.request_eq] at h
  split at h
  · rename_i hle
    obtain ⟨ys, hsort, h⟩ := bind_eq_ok h
    cases Except.ok.inj h
    refine serves_or_unaccounted_of_searchOk hw hinvariant hok hsort (fun hne => ?_) (fun hne => ?_)
      (fun hhdr hextents i hi => ?_)
    · exact subwordLimits_of_ok hl hmin hhead htail hmax hlimits hle hne
    · have hpow := two_pow_pos request.layout.extentAlignmentAllocationBlocksLog2
      rcases hblocks with ⟨hzero, -⟩ | ⟨-, hblocks⟩
      · exact absurd hzero hne
      · exact fun hfits => hblocks.least _ (subword_dvd hw.alignmentLog2_le) (by omega) (.inr hfits)
    · exact hnone (hnil hhdr hextents).2 i (zero_le _) (by omega)
  · cases Except.ok.inj h

omit himage in
/-- Then nothing has been allocated for the extent that is to store the extents header. -/
theorem searchFullwordChunks_of_unaccounted (hu : HdrUnaccounted b request) :
    searchFullwordChunks pr b request filter head tail = .ok (some (⟨request, 0, 0⟩, [])) := by
  have hw := wordExtents_of_min hl hmin hhead htail
  have hsubword := subword_dvd hw.alignmentLog2_le
  have hleast := minExtents_of_ok hl hmin
  have hhdr : request.layout.extentsHdrLen ≠ 0 :=
    fun hzero => hu.not_fitsHead ((fits_true_iff hzero).mpr hu.fitsTail)
  have htailLe := hleast.tail_least _ hsubword
    (hu.fitsTail.of_le hl.payloadAlignment_pos (Nat.pos_of_ne_zero hu.total_ne))
  have hfits₀ := hu.fitsTail.of_le hl.payloadAlignment_pos (zero_le _)
  obtain ⟨maxExcessLen, hlimits⟩ := subwordLimits_ok pr hl.toBounded
    hleast.tail_aligned (by omega) hmax hu.fitsTail hu.total_ne
  obtain ⟨maxBlocks, fits, hmaxBlocks, hge⟩ :
      ∃ maxBlocks fits, remainingMaxExtentAllocationBlocks pr request 0 = .ok (maxBlocks, fits) ∧
        64 ≤ maxBlocks := by
    obtain ⟨n, fits, hok, hblocks⟩ := hl.exists_blocks pr true request.totalEffectivePayloadLen
    refine ⟨n, fits, ?_, ?_⟩
    · rw [remainingMaxExtentAllocationBlocks, debugAssert_ok pr (zero_le _), ok_bind,
        if_neg (Ne.symm hu.total_ne), subU64_ok pr (zero_le _), ok_bind, sub_zero,
        decide_eq_true rfl, hok]
    · cases fits with
      | false => exact (hblocks.capped rfl).1 ▸ hmax
      | true =>
        rcases hblocks.holds rfl with ⟨hfalse, -, -⟩ | hfits
        · exact absurd hfalse.symm Bool.false_ne_true
        · by_contra hlt
          exact hu.not_fitsHead
            (hfits.mono (le_subword hw.alignmentLog2_le hblocks.aligned (by omega)))
  have hruns : freeRuns (request.layout.maxExtentAllocationBlocks / 2 ^ 6)
      (wordItems b 0 (b.imageSize / 64)).length (wordItems b 0 (b.imageSize / 64)) = [] := by
    obtain ⟨hruns, -⟩ := freeRuns_spec (b := b)
      (request.layout.maxExtentAllocationBlocks / 2 ^ 6) (wordItems b 0 (b.imageSize / 64)).length
      (by omega) 0 (b.imageSize / 64)
      (by rw [wordItems, length_map, length_range']) (Nat.zero_add _)
    revert hruns
    generalize freeRuns _ _ _ = runs
    intro hruns
    cases hruns with
    | nil => rfl
    | cons run rest =>
      exact absurd (run.free _ (Nat.le_refl _) run.lt)
        (hu.noneFree _ (Nat.lt_of_lt_of_le run.lt run.end_le))
  have hbalanced : Balanced ⟨request, 0, 0⟩ := ⟨htotal, zero_le _, .inl rfl⟩
  rw [searchFullwordChunks, debugAssert_ok pr hw.alignmentLog2_le, ok_bind,
    isInvariant_ok hl.toBounded hhdr hu.invariant, ok_bind, hmaxBlocks, ok_bind]
  dsimp only
  rw [if_neg (by omega), debugAssert_ok pr hmax, ok_bind, hlimits, ok_bind]
  rw [wordItems_eq hb, hruns, ChunkSearch.examineRuns, pure_eq_ok, ok_bind,
    hbalanced.remaining_ok pr, ok_bind]
  rw [sub_zero, if_pos ((hl.le_providedLen_iff hfits₀).mpr hu.fitsTail)]
  rfl

omit hb htotal hmax himage in
theorem not_serves_of_unaccounted (hu : HdrUnaccounted b request) :
    ¬Serves pr b request ⟨request, 0, 0⟩ [] := by
  have hw := wordExtents_of_min hl hmin hhead htail
  intro hserves
  rcases hserves.remainder with hzero | ⟨n, hn, hdvd, hfits⟩
  · exact hu.total_ne hzero.symm
  · exact hu.not_fitsHead (hfits.mono (le_subword hw.alignmentLog2_le hdvd hn))

/-- Whatever the extents found are, what's promised about them holds unless the extents header
of an extent yet to be found had been missed. -/
theorem searchFullwordChunks_serves_iff (filter : CandidateFilter) :
    (∀ p xs, searchFullwordChunks pr b request filter head tail = .ok (some (p, xs)) →
      Serves pr b request p xs) ↔ ¬HdrUnaccounted b request := by
  constructor
  · intro h hu
    exact not_serves_of_unaccounted hl hmin hhead htail hu
      (h _ _ (searchFullwordChunks_of_unaccounted hb hl htotal hmin hhead htail hmax hu))
  · intro hu p xs h
    exact (serves_or_unaccounted hb hl htotal hmin hhead htail hmax himage h).resolve_right hu

end Search

/-- 63 blocks of 128 bytes fit the payload, but not together with the extents header. -/
def hdrRequest : ExtentsAllocationRequest := ⟨8000, ⟨2 ^ 20, 0, 300, 0, 0, 1, 0⟩⟩

def nearlyFreeBitmap : SearchedBitmap := ⟨⟨[1], by decide⟩, [], [], 64⟩

theorem hdrRequest_valid : hdrRequest.layout.Valid := by
  refine ⟨⟨?_, ?_, ?_, ?_, ?_, ?_, ?_, ?_, ?_⟩, ?_, ?_⟩ <;> decide

theorem nearlyFreeBitmap_valid : nearlyFreeBitmap.Valid :=
  ⟨fun es hes => (by cases hes), fun es hes => (by cases hes), by decide⟩

theorem searchFullwordChunks_serves_iff_hdrRequest :
    (∀ p xs, searchFullwordChunks .debug nearlyFreeBitmap hdrRequest .unconstrained 3 1 =
        .ok (some (p, xs)) → Serves .debug nearlyFreeBitmap hdrRequest p xs) ↔
      ¬HdrUnaccounted nearlyFreeBitmap hdrRequest :=
  searchFullwordChunks_serves_iff nearlyFreeBitmap_valid hdrRequest_valid (by decide) rfl
    (by decide) (by decide) (by decide) (by decide) .unconstrained

theorem searchFullwordChunks_misses_extentsHdr :
    searchFullwordChunks .debug nearlyFreeBitmap hdrRequest .unconstrained 3 1 =
        .ok (some (⟨hdrRequest, 0, 0⟩, [])) ∧
      ¬Serves .debug nearlyFreeBitmap hdrRequest ⟨hdrRequest, 0, 0⟩ [] := by
  refine ⟨by decide, fun h => ?_⟩
  rcases h.remainder with hzero | ⟨n, hn, -, hfits⟩
  · exact absurd hzero (by decide)
  · have hnot : ¬hdrRequest.layout.Fits 63 true 8000 := by decide
    exact hnot (hfits.mono (Nat.le_of_lt_succ hn))

end CocoonFs.FullwordChunkRuns
