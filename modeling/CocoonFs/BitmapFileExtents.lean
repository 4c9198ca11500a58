import CocoonFs.ExtentsLookup
import CocoonFs.ExtentsSort
import CocoonFs.Layout
import Mathlib.Algebra.Order.BigOperators.Group.List
import Mathlib.Data.List.Chain
import Mathlib.Data.List.Nodup
import Mathlib.Tactic.Ring

namespace CocoonFs.BitmapFileExtents

open Checked Extents ExtentsLookup ExtentsSort Layout List
open Nat (succ_mul)
open BlockRange (new)
open List.Forall₂ (cons nil)

/-- The run of file blocks found last, not yet added to the extents. -/
structure BlocksRun where
  extents : List (Nat × Nat)
  b : Nat
  e : Nat
  deriving DecidableEq, Repr

/-- The inner loop consumes the file blocks in the extent found. At a gap, what
has been found so far is added and the next run is begun. -/
def consumeExtent (pr : Profile) (log2 blocks logicalEnd : Nat) :
    Nat → BlocksRun → List Nat → Comp (BlocksRun × List Nat)
  | _, run, [] => .ok (run, [])
  | prev, run, i :: is => do
    let cur ← shlU64 pr i log2
    if logicalEnd ≤ cur then pure (run, i :: is)
    else do
      let left ← checkedSub logicalEnd cur
      if left < blocks then formatErr .unalignedAllocationBitmapFileExtents
      else do
        let next ← addU64 pr prev 1
        let run ← if i ≠ next then do
            let range ← new pr run.b run.e
            let extents ← pushExtent pr run.extents range false
            let distance ← subU64 pr i prev
            let gap ← shlU64 pr distance log2
            let b ← checkedAdd run.e gap
            pure (BlocksRun.mk extents b b)
          else pure run
        let e ← checkedAdd run.e blocks
        consumeExtent pr log2 blocks logicalEnd i { run with e := e } is

/-- The outer loop looks an extent up for the first file block not consumed. -/
def collectExtents (pr : Profile) (log2 blocks : Nat) (x : LogicalExtents) :
    Nat → List (Nat × Nat) → List Nat → Comp (List (Nat × Nat))
  | _, extents, [] => .ok extents
  | 0, _, _ :: _ => panic .outOfFuel
  | fuel + 1, extents, i :: is => do
    let cur ← shlU64 pr i log2
    match ← LogicalExtents.lookup pr x cur with
    | none => err .internal
    | some containing => do
      let logicalRange ← LogicalExtent.logicalRange pr containing
      let count ← logicalRange.blockCount
      if count < blocks then formatErr .unalignedAllocationBitmapFileExtents
      else do
        let physicalRange ← containing.physicalRange pr
        let e ← checkedAdd physicalRange.b blocks
        let (run, is) ← consumeExtent pr log2 blocks logicalRange.e i
          ⟨extents, physicalRange.b, e⟩ is
        let range ← new pr run.b run.e
        let extents ← pushExtent pr run.extents range false
        collectExtents pr log2 blocks x fuel extents is

def compareDisjoint (pr : Profile) (e₀ e₁ : BlockRange) : Comp Ordering :=
  match compare e₀.e e₁.b with
  | .lt => .ok .lt
  | .eq => .ok .lt
  | .gt => do
    -- There are no overlaps.
    debugAssert pr (e₁.e ≤ e₀.b)
    pure .gt

def allocBitmapFileBlockIndicesToPhysicalExtents (pr : Profile) (indices : List Nat)
    (x : LogicalExtents) (l : ImageLayout) : Comp (List (Nat × Nat)) := do
  debugAssert pr (indices.Pairwise (· ≤ ·))
  let log2 := l.allocationBitmapFileBlockAllocationBlocksLog2.toNat
  let blocks ← shlU64 pr 1 log2
  let extents ← collectExtents pr log2 blocks x indices.length [] indices
  sortExtentsBy pr (compareDisjoint pr) extents false

def Occupied (x : LogicalExtents) (blocks i b : Nat) : Prop :=
  ∃ q, i * blocks ≤ q ∧ q < (i + 1) * blocks ∧ AtBlock x q b

/-- Where the file blocks get located after some file block in an extent. Each
gap skipped moves all that follows in the extent. -/
def shiftedBegins (x : LogicalExtents) (blocks : Nat) : Nat → Nat → Nat → List Nat → List Nat
  | _, _, _, [] => []
  | prev, shift, logicalEnd, i :: is =>
    if logicalEnd ≤ i * blocks then
      physicalBegin x (i * blocks) :: shiftedBegins x blocks i 0 (extentEnd x (i * blocks)) is
    else
      let shift := if i = prev + 1 then shift else shift + blocks
      (physicalBegin x (i * blocks) + shift) :: shiftedBegins x blocks i shift logicalEnd is

def foundBegins (x : LogicalExtents) (blocks : Nat) : List Nat → List Nat
  | [] => []
  | i :: is =>
    physicalBegin x (i * blocks) :: shiftedBegins x blocks i 0 (extentEnd x (i * blocks)) is

def fileBlocks (blocks : Nat) (begins : List Nat) : List Nat :=
  begins.flatMap (fun b => List.range' b blocks)

structure FileOk (x : LogicalExtents) (blocks : Nat) : Prop where
  pos : 0 < blocks
  aligned : ∀ k entry, x.extents[k]? = some entry → blocks ∣ x.beginAt k ∧ blocks ∣ entry.2
  word : ∀ k entry, x.extents[k]? = some entry → entry.1 + (entry.2 - x.beginAt k) < 2 ^ 64

variable {x : LogicalExtents} {entry : Nat × Nat} {blocks i k : Nat}

theorem FileOk.le_end
    (h : FileOk x blocks) (hi : InExtent x (i * blocks) k entry) : (i + 1) * blocks ≤ entry.2 := by
  obtain ⟨-, m, hm⟩ := h.aligned k entry hi.entry_eq
  have hlt := hi.lt_e
  rw [hm, mul_comm blocks] at hlt ⊢
  exact Nat.mul_le_mul_right blocks (Nat.lt_of_mul_lt_mul_right hlt)

theorem FileOk.physicalBegin_lt (h : FileOk x blocks) (hi : InExtent x (i * blocks) k entry) :
    physicalBegin x (i * blocks) + blocks < 2 ^ 64 := by
  have hword := h.word k entry hi.entry_eq
  have hle := h.le_end hi
  have hb := hi.b_le
  rw [succ_mul] at hle
  rw [hi.physicalBegin_eq]
  omega

theorem FileOk.occupied_iff {blocks i k b : Nat}
    (h : FileOk x blocks) (hi : InExtent x (i * blocks) k entry) :
    Occupied x blocks i b ↔ b ∈ List.range' (physicalBegin x (i * blocks)) blocks := by
  have hle := h.le_end hi
  have hb := hi.b_le
  rw [succ_mul] at hle
  rw [mem_range'_1, hi.physicalBegin_eq]
  constructor
  · rintro ⟨q, hq, hq', k', entry', hin, rfl⟩
    rw [succ_mul] at hq'
    obtain ⟨rfl, rfl⟩ := (hi.mono hq (by omega)).unique hin
    omega
  · rintro ⟨hlow, hhigh⟩
    refine ⟨b - entry.1 + x.beginAt k, by omega, by rw [succ_mul]; omega, k, entry,
      hi.mono (by omega) (by omega), by omega⟩

theorem checkedAdd_eq_ok {a b c : Nat} (h : checkedAdd a b = .ok c) : c = a + b ∧ c < 2 ^ 64 := by
  rw [checkedAdd] at h
  split at h
  · cases h
    exact ⟨rfl, by assumption⟩
  · cases h

/-- What is known of the run in the making. The blocks of a shifted run have been
found later than they are. -/
structure RunOk (x : LogicalExtents) (blocks prev shift : Nat) (rs : List BlockRange)
    (run : BlocksRun) : Prop where
  extents_eq : run.extents = rs.map BlockRange.entry
  proper : ∀ r ∈ rs, Proper r
  range_ok : Proper ⟨run.b, run.e⟩
  end_eq : run.e = physicalBegin x (prev * blocks) + blocks + shift

/-- The file blocks still to come: strictly increasing and within the file. -/
structure IndicesOk (x : LogicalExtents) (blocks : Nat) (indices : List Nat) : Prop where
  ascending : indices.Pairwise (· < ·)
  within : ∀ i ∈ indices, i * blocks < x.allocationBlockCount

theorem IndicesOk.tail {blocks i : Nat} {is : List Nat}
    (h : IndicesOk x blocks (i :: is)) : IndicesOk x blocks is :=
  ⟨(pairwise_cons.mp h.ascending).2, fun j hj => h.within j (mem_cons_of_mem _ hj)⟩

theorem IndicesOk.skip {blocks i j : Nat} {is : List Nat}
    (h : IndicesOk x blocks (i :: j :: is)) : i < j :=
  (pairwise_cons.mp h.ascending).1 j (mem_cons_self ..)

theorem shlU64_index (pr : Profile) {log2 blocks i : Nat} (hlog : log2 < 64)
    (hblocks : blocks = 2 ^ log2) (hi : i * blocks < x.allocationBlockCount) :
    shlU64 pr i log2 = .ok (i * blocks) := by
  rw [hblocks] at hi ⊢
  exact shlU64_ok pr hlog (lt_trans hi (allocationBlockCount_lt x))

section

variable {x : LogicalExtents} {log2 blocks k prev shift i : Nat} {entry : Nat × Nat}
  {rs : List BlockRange} {run : BlocksRun} {is : List Nat}

theorem consumeExtent_step (pr : Profile) (hfile : FileOk x blocks) (hlog : log2 < 64)
    (hblocks : blocks = 2 ^ log2)
    (hin : InExtent x (prev * blocks) k entry) (hidx : IndicesOk x blocks (prev :: i :: is))
    (hlt : i * blocks < entry.2) (hrun : RunOk x blocks prev shift rs run) :
    consumeExtent pr log2 blocks entry.2 prev run (i :: is) = (do
      if i = prev + 1 then do
        let e ← checkedAdd run.e blocks
        consumeExtent pr log2 blocks entry.2 i { run with e := e } is
      else do
        let extents ← pushExtent pr run.extents ⟨run.b, run.e⟩ false
        let b ← checkedAdd run.e ((i - prev) * blocks)
        let e ← checkedAdd b blocks
        consumeExtent pr log2 blocks entry.2 i ⟨extents, b, e⟩ is) := by
  have hskip := hidx.skip
  have hword := (x.u64 entry (mem_of_getElem? hin.entry_eq)).2
  have hmul : prev * blocks ≤ i * blocks := Nat.mul_le_mul_right _ hskip.le
  have hend := hfile.le_end (hin.mono hmul hlt)
  have hi : i < 2 ^ 64 := lt_of_le_of_lt (Nat.le_mul_of_pos_right i hfile.pos) (lt_trans hlt hword)
  have hdist : (i - prev) * blocks < 2 ^ 64 := by
    have := Nat.mul_le_mul_right blocks (Nat.sub_le i prev)
    omega
  have hshl : shlU64 pr (i - prev) log2 = .ok ((i - prev) * blocks) := by
    rw [hblocks] at hdist ⊢
    exact shlU64_ok pr hlog hdist
  rw [succ_mul] at hend
  rw [consumeExtent, shlU64_index pr hlog hblocks (hidx.within i (by simp)), ok_bind, if_neg (by omega),
    checkedSub_ok hlt.le, ok_bind, if_neg (by omega), addU64_ok pr (by omega), ok_bind]
  by_cases hnext : i = prev + 1
  · simp only [if_neg (not_not_intro hnext), if_pos hnext, pure_eq_ok, ok_bind]
  · rw [if_pos hnext, if_neg hnext, new, debugAssert_ok pr hrun.range_ok.1]
    simp only [pure_eq_ok, ok_bind, subU64_ok pr hskip.le, hshl]

/-- What the inner loop has found, the file blocks left to it included. -/
structure Consumed (x : LogicalExtents) (blocks : Nat) (pr : Profile) (rs : List BlockRange)
    (found : List Nat) (rs' : List BlockRange) (run' : BlocksRun) (rest : List Nat) : Prop where
  extents_eq : run'.extents = rs'.map BlockRange.entry
  proper : ∀ r ∈ rs', Proper r
  range_ok : Proper ⟨run'.b, run'.e⟩
  found_eq : blocksIn rs' ++ List.range' run'.b (run'.e - run'.b) ++
    fileBlocks blocks (foundBegins x blocks rest) = found
  nodup : pr = .debug → (blocksIn rs).Nodup → (blocksIn rs').Nodup

section

variable (pr : Profile) (hfile : FileOk x blocks) (hlog : log2 < 64) (hblocks : blocks = 2 ^ log2)
include pr hfile hlog hblocks

theorem consumeExtent_of_ok
    (hin : InExtent x (prev * blocks) k entry) (hidx : IndicesOk x blocks (prev :: is))
    (hrun : RunOk x blocks prev shift rs run) {run' : BlocksRun} {rest : List Nat}
    (h : consumeExtent pr log2 blocks entry.2 prev run is = .ok (run', rest)) :
    rest <:+ is ∧ ∃ rs', Consumed x blocks pr rs (blocksIn rs ++ List.range' run.b (run.e - run.b) ++
      fileBlocks blocks (shiftedBegins x blocks prev shift entry.2 is)) rs' run' rest := by
  induction is generalizing prev shift rs run with
  | nil =>
    cases Except.ok.inj h
    exact ⟨suffix_refl _, rs, hrun.extents_eq, hrun.proper, hrun.range_ok, rfl, fun _ h => h⟩
  | cons i is ih =>
    by_cases hlt : i * blocks < entry.2
    · have hskip := hidx.skip
      have hmul : prev * blocks ≤ i * blocks := Nat.mul_le_mul_right _ hskip.le
      have hphys := hin.physicalBegin_add hmul hlt
      rw [consumeExtent_step pr hfile hlog hblocks hin hidx hlt hrun] at h
      rw [shiftedBegins, if_neg (Nat.not_le_of_lt hlt)]
      by_cases hnext : i = prev + 1
      · rw [if_pos hnext] at h ⊢
        obtain ⟨e, he, h⟩ := bind_eq_ok h
        obtain ⟨rfl, he64⟩ := checkedAdd_eq_ok he
        have hend := hrun.end_eq
        obtain ⟨hbe, -⟩ := hrun.range_ok
        dsimp only at hbe
        have hstart : run.e = physicalBegin x (i * blocks) + shift := by
          rw [hend, hphys, hnext, succ_mul]
          omega
        have hrun' : RunOk x blocks i shift rs { run with e := run.e + blocks } :=
          ⟨hrun.extents_eq, hrun.proper, ⟨by dsimp only; omega, he64⟩, by dsimp only; omega⟩
        obtain ⟨hsuffix, rs', hconsumed⟩ := ih (hin.mono hmul hlt) hidx.tail hrun' h
        refine ⟨hsuffix.trans (suffix_cons _ _), rs', ?_⟩
        rw [show run.e + blocks - run.b = run.e - run.b + blocks by omega,
          ← range'_append_1, show run.b + (run.e - run.b) = run.e by omega, hstart] at hconsumed
        rw [hstart]
        simpa [fileBlocks] using hconsumed
      · rw [if_neg hnext] at h ⊢
        obtain ⟨extents, hpush, h⟩ := bind_eq_ok h
        obtain ⟨b, hb, h⟩ := bind_eq_ok h
        obtain ⟨rfl, hb64⟩ := checkedAdd_eq_ok hb
        obtain ⟨e, he, h⟩ := bind_eq_ok h
        obtain ⟨rfl, he64⟩ := checkedAdd_eq_ok he
        have hend := hrun.end_eq
        have hpos := hfile.pos
        obtain ⟨rfl, hd⟩ := pushExtent_eq_ok hrun.extents_eq hrun.proper hrun.range_ok hpush
        have hstart : run.e + (i - prev) * blocks =
            physicalBegin x (i * blocks) + (shift + blocks) := by
          rw [hend, hphys, Nat.sub_mul]
          omega
        have hrun' : RunOk x blocks i (shift + blocks) (pushMerged rs ⟨run.b, run.e⟩)
            ⟨(pushMerged rs ⟨run.b, run.e⟩).map BlockRange.entry, run.e + (i - prev) * blocks,
              run.e + (i - prev) * blocks + blocks⟩ :=
          ⟨rfl, proper_pushMerged rs _ hrun.proper hrun.range_ok, ⟨by dsimp only; omega, he64⟩,
            by dsimp only; omega⟩
        obtain ⟨hsuffix, rs', hconsumed⟩ := ih (hin.mono hmul hlt) hidx.tail hrun' h
        refine ⟨hsuffix.trans (suffix_cons _ _), rs', hconsumed.extents_eq, hconsumed.proper,
          hconsumed.range_ok, ?_, fun hpr hnodup => hconsumed.nodup hpr ?_⟩
        · rw [hconsumed.found_eq, blocksIn_pushMerged rs _ hrun.proper hrun.range_ok]
          rw [Nat.add_sub_cancel_left, hstart]
          simp [fileBlocks]
        · rw [blocksIn_pushMerged rs _ hrun.proper hrun.range_ok]
          exact nodup_blocksIn_push hnodup (hd hpr)
    · rw [consumeExtent, shlU64_index pr hlog hblocks (hidx.within i (by simp)), ok_bind,
        if_pos (Nat.le_of_not_lt hlt)] at h
      cases Except.ok.inj h
      rw [shiftedBegins, if_pos (Nat.le_of_not_lt hlt)]
      exact ⟨suffix_refl _, rs, hrun.extents_eq, hrun.proper, hrun.range_ok, rfl, fun _ h => h⟩

theorem collectExtents_step (hin : InExtent x (i * blocks) k entry)
    (hidx : IndicesOk x blocks (i :: is)) (fuel : Nat) (extents : List (Nat × Nat)) :
    collectExtents pr log2 blocks x (fuel + 1) extents (i :: is) = (do
      let (run, is) ← consumeExtent pr log2 blocks entry.2 i ⟨extents, physicalBegin x (i * blocks),
        physicalBegin x (i * blocks) + blocks⟩ is
      let range ← new pr run.b run.e
      let extents ← pushExtent pr run.extents range false
      collectExtents pr log2 blocks x fuel extents is) := by
  have hb := hin.b_le
  have he := hin.lt_e
  have hword := hfile.word k entry hin.entry_eq
  have hu := x.u64 entry (mem_of_getElem? hin.entry_eq)
  have hle := hfile.le_end hin
  rw [succ_mul] at hle
  have hphys := hin.physicalBegin_eq
  have hlogical : LogicalExtent.logicalRange pr
      ⟨i * blocks, physicalBegin x (i * blocks), entry.2 - i * blocks⟩ = .ok ⟨i * blocks, entry.2⟩ := by
    rw [LogicalExtent.logicalRange]
    dsimp only
    rw [checkedAdd_ok (by omega), ok_bind, Nat.add_sub_cancel' he.le, new,
      debugAssert_ok pr he]
    rfl
  have hphysical : LogicalExtent.physicalRange pr
      ⟨i * blocks, physicalBegin x (i * blocks), entry.2 - i * blocks⟩ =
        .ok ⟨physicalBegin x (i * blocks), physicalBegin x (i * blocks) + (entry.2 - i * blocks)⟩ := by
    rw [LogicalExtent.physicalRange]
    dsimp only
    rw [checkedAdd_ok (by omega), ok_bind, new, debugAssert_ok pr (by omega)]
    rfl
  have hcount : BlockRange.blockCount ⟨i * blocks, entry.2⟩ = .ok (entry.2 - i * blocks) :=
    checkedSub_ok he.le
  rw [collectExtents, shlU64_index pr hlog hblocks (hidx.within i (by simp)), ok_bind,
    hin.lookup_eq pr hword, ok_bind, ← hphys]
  dsimp only
  rw [hlogical, ok_bind, hcount, ok_bind, if_neg (by omega), hphysical, ok_bind,
    checkedAdd_ok (by dsimp only; omega), ok_bind]

theorem collectExtents_of_ok (hidx : IndicesOk x blocks is) (fuel : Nat)
    (hrs : ∀ r ∈ rs, Proper r) {extents' : List (Nat × Nat)}
    (h : collectExtents pr log2 blocks x fuel (rs.map BlockRange.entry) is = .ok extents') :
    ∃ rs', extents' = rs'.map BlockRange.entry ∧ (∀ r ∈ rs', Proper r) ∧
      blocksIn rs' = blocksIn rs ++ fileBlocks blocks (foundBegins x blocks is) ∧
      (pr = .debug → (blocksIn rs).Nodup → (blocksIn rs').Nodup) := by
  induction fuel generalizing rs is with
  | zero =>
    cases is with
    | nil =>
      cases h
      exact ⟨rs, rfl, hrs, by simp [fileBlocks, foundBegins], fun _ h => h⟩
    | cons i is => cases h
  | succ fuel ih =>
    cases is with
    | nil =>
      cases h
      exact ⟨rs, rfl, hrs, by simp [fileBlocks, foundBegins], fun _ h => h⟩
    | cons i is =>
      obtain ⟨k, entry, hin⟩ := exists_inExtent x (hidx.within i (by simp))
      have hpos := hfile.pos
      rw [collectExtents_step pr hfile hlog hblocks hin hidx] at h
      obtain ⟨⟨run, rest⟩, hconsume, h⟩ := bind_eq_ok h
      obtain ⟨range, hrange, h⟩ := bind_eq_ok h
      obtain ⟨extents, hpush, h⟩ := bind_eq_ok h
      have hrun : RunOk x blocks i 0 rs ⟨rs.map BlockRange.entry, physicalBegin x (i * blocks),
          physicalBegin x (i * blocks) + blocks⟩ :=
        ⟨rfl, hrs, ⟨by dsimp only; omega, hfile.physicalBegin_lt hin⟩, rfl⟩
      obtain ⟨hsuffix, rs', hconsumed⟩ :=
        consumeExtent_of_ok pr hfile hlog hblocks hin hidx hrun hconsume
      have hproper := hconsumed.range_ok
      rw [new, debugAssert_ok pr hproper.1] at hrange
      cases hrange
      obtain ⟨rfl, hd⟩ := pushExtent_eq_ok hconsumed.extents_eq hconsumed.proper hproper hpush
      have hfound := hconsumed.found_eq
      have hidx' : IndicesOk x blocks rest :=
        ⟨hidx.tail.ascending.sublist hsuffix.sublist,
          fun j hj => hidx.tail.within j (hsuffix.subset hj)⟩
      obtain ⟨rs'', hrs'', hproper'', hblocks'', hnodup''⟩ :=
        ih hidx' (proper_pushMerged rs' _ hconsumed.proper hproper) h
      have hmerged := blocksIn_pushMerged rs' _ hconsumed.proper hproper
      refine ⟨rs'', hrs'', hproper'', ?_, fun hpr hnodup => hnodup'' hpr ?_⟩
      · rw [hblocks'', hmerged, hfound]
        rw [Nat.add_sub_cancel_left, foundBegins, hin.extentEnd_eq]
        simp [fileBlocks]
      · rw [hmerged]
        exact nodup_blocksIn_push (hconsumed.nodup hpr hnodup) (hd hpr)

end

def Contiguous (x : LogicalExtents) (blocks : Nat) (indices : List Nat) : Prop :=
  indices.IsChain (fun i j => SameExtent x (i * blocks) (j * blocks) → j = i + 1)

theorem shiftedBegins_eq_map_iff (hfile : FileOk x blocks) (hin : InExtent x (prev * blocks) k entry)
    (hidx : IndicesOk x blocks (prev :: is)) :
    shiftedBegins x blocks prev 0 entry.2 is = is.map (fun i => physicalBegin x (i * blocks)) ↔
      Contiguous x blocks (prev :: is) := by
  have hpos := hfile.pos
  induction is generalizing prev k entry with
  | nil => simp [shiftedBegins, Contiguous]
  | cons i is ih =>
    have hmul : prev * blocks ≤ i * blocks := Nat.mul_le_mul_right _ hidx.skip.le
    rw [Contiguous, isChain_cons_cons, sameExtent_iff hin hmul, shiftedBegins, map_cons]
    by_cases hlt : i * blocks < entry.2
    · rw [if_neg (Nat.not_le_of_lt hlt), forall_prop_of_true hlt]
      dsimp only
      by_cases hnext : i = prev + 1
      · rw [if_pos hnext, add_zero, cons_inj_right, and_iff_right hnext]
        exact ih (hin.mono hmul hlt) hidx.tail
      · rw [if_neg hnext, List.cons.injEq]
        refine iff_of_false (fun h => ?_) (fun h => hnext h.1)
        omega
    · obtain ⟨k', entry', hin'⟩ := exists_inExtent x (hidx.tail.within i (by simp))
      rw [if_pos (Nat.le_of_not_lt hlt), hin'.extentEnd_eq, cons_inj_right,
        forall_prop_of_false hlt, true_and]
      exact ih hin' hidx.tail

theorem foundBegins_eq_map_iff (hfile : FileOk x blocks) (hidx : IndicesOk x blocks is) :
    foundBegins x blocks is = is.map (fun i => physicalBegin x (i * blocks)) ↔
      Contiguous x blocks is := by
  cases is with
  | nil => simp [foundBegins, Contiguous]
  | cons i is =>
    obtain ⟨k, entry, hin⟩ := exists_inExtent x (hidx.within i (by simp))
    rw [foundBegins, hin.extentEnd_eq, map_cons, cons_inj_right,
      shiftedBegins_eq_map_iff hfile hin hidx]

theorem le_shiftedBegins (x : LogicalExtents) (blocks prev shift logicalEnd : Nat) (is : List Nat) :
    List.Forall₂ (· ≤ ·) (is.map (fun i => physicalBegin x (i * blocks)))
      (shiftedBegins x blocks prev shift logicalEnd is) := by
  induction is generalizing prev shift logicalEnd with
  | nil => exact nil
  | cons i is ih =>
    rw [shiftedBegins, map_cons]
    split
    · exact cons (le_refl _) (ih _ _ _)
    · exact cons (Nat.le_add_right _ _) (ih _ _ _)

theorem le_foundBegins (x : LogicalExtents) (blocks : Nat) (is : List Nat) :
    List.Forall₂ (· ≤ ·) (is.map (fun i => physicalBegin x (i * blocks))) (foundBegins x blocks is) := by
  cases is with
  | nil => exact nil
  | cons i is =>
    rw [foundBegins, map_cons]
    exact cons (le_refl _) (le_shiftedBegins _ _ _ _ _ _)

section

variable (pr : Profile) (hfile : FileOk x blocks) (hlog : log2 < 64) (hblocks : blocks = 2 ^ log2)
include pr hfile hlog hblocks

theorem consumeExtent_ok (hin : InExtent x (prev * blocks) k entry)
    (hidx : IndicesOk x blocks (prev :: is)) (hrun : RunOk x blocks prev 0 rs run)
    (hcont : Contiguous x blocks (prev :: is)) :
    ∃ res, consumeExtent pr log2 blocks entry.2 prev run is = .ok res := by
  induction is generalizing prev run with
  | nil => exact ⟨_, rfl⟩
  | cons i is ih =>
    have hmul : prev * blocks ≤ i * blocks := Nat.mul_le_mul_right _ hidx.skip.le
    rw [Contiguous, isChain_cons_cons, sameExtent_iff hin hmul] at hcont
    by_cases hlt : i * blocks < entry.2
    · have hnext := hcont.1 hlt
      have hin' := hin.mono hmul hlt
      have hword := hfile.physicalBegin_lt hin'
      have hend := hrun.end_eq
      have hphys := hin.physicalBegin_add hmul hlt
      have hstart : run.e = physicalBegin x (i * blocks) := by
        rw [hend, hphys, hnext, succ_mul]
        omega
      obtain ⟨hbe, -⟩ := hrun.range_ok
      dsimp only at hbe
      rw [consumeExtent_step pr hfile hlog hblocks hin hidx hlt hrun, if_pos hnext,
        checkedAdd_ok (by omega), ok_bind]
      exact ih hin' hidx.tail ⟨hrun.extents_eq, hrun.proper, ⟨by dsimp only; omega,
        by dsimp only; omega⟩, by dsimp only; omega⟩ hcont.2
    · rw [consumeExtent, shlU64_index pr hlog hblocks (hidx.within i (by simp)), ok_bind,
        if_pos (Nat.le_of_not_lt hlt)]
      exact ⟨_, rfl⟩

theorem collectExtents_ok (hidx : IndicesOk x blocks is) (hrs : ∀ r ∈ rs, Proper r)
    (hcont : Contiguous x blocks is) (fuel : Nat) (hfuel : is.length ≤ fuel)
    (hnodup : (blocksIn rs ++ fileBlocks blocks (foundBegins x blocks is)).Nodup) :
    ∃ extents', collectExtents pr log2 blocks x fuel (rs.map BlockRange.entry) is = .ok extents' := by
  induction fuel generalizing rs is with
  | zero =>
    obtain rfl := length_eq_zero_iff.mp (Nat.le_zero.mp hfuel)
    exact ⟨_, rfl⟩
  | succ fuel ih =>
    cases is with
    | nil => exact ⟨_, rfl⟩
    | cons i is =>
      obtain ⟨k, entry, hin⟩ := exists_inExtent x (hidx.within i (by simp))
      have hpos := hfile.pos
      have hrun : RunOk x blocks i 0 rs ⟨rs.map BlockRange.entry, physicalBegin x (i * blocks),
          physicalBegin x (i * blocks) + blocks⟩ :=
        ⟨rfl, hrs, ⟨by dsimp only; omega, hfile.physicalBegin_lt hin⟩, rfl⟩
      obtain ⟨⟨run, rest⟩, hconsume⟩ := consumeExtent_ok pr hfile hlog hblocks hin hidx hrun hcont
      obtain ⟨hsuffix, rs', hconsumed⟩ :=
        consumeExtent_of_ok pr hfile hlog hblocks hin hidx hrun hconsume
      have hproper := hconsumed.range_ok
      have hmerged := blocksIn_pushMerged rs' _ hconsumed.proper hproper
      have hfound := hconsumed.found_eq
      rw [Nat.add_sub_cancel_left, ← hin.extentEnd_eq] at hfound
      have hnodup' : (blocksIn (pushMerged rs' ⟨run.b, run.e⟩) ++
          fileBlocks blocks (foundBegins x blocks rest)).Nodup := by
        rw [hmerged]
        rw [hfound]
        simpa [foundBegins, fileBlocks] using hnodup
      have hd := disjoint_of_nodup hconsumed.proper hproper
        (by rw [← hmerged]; exact (nodup_append.mp hnodup').1)
      have hpush := pushExtent_merge pr rs' _ hconsumed.proper hproper
      rw [if_neg (fun h => h.2 hd)] at hpush
      have hidx' : IndicesOk x blocks rest :=
        ⟨hidx.tail.ascending.sublist hsuffix.sublist,
          fun j hj => hidx.tail.within j (hsuffix.subset hj)⟩
      have hlen := hsuffix.length_le
      rw [length_cons] at hfuel
      rw [collectExtents_step pr hfile hlog hblocks hin hidx, hconsume, ok_bind]
      dsimp only
      rw [new, debugAssert_ok pr hproper.1, ok_bind, pure_eq_ok, ok_bind,
        hconsumed.extents_eq, hpush, ok_bind]
      exact ih hidx' (proper_pushMerged rs' _ hconsumed.proper hproper)
        (List.IsChain.suffix hcont (hsuffix.trans (suffix_cons _ _))) (by omega) hnodup'

end

end

theorem compares_compareDisjoint (pr : Profile) : Compares (compareDisjoint pr) := by
  intro r s hr hs hd
  rw [compareDisjoint]
  rcases lt_trichotomy r.e s.b with hlt | heq | hgt
  · rw [compare_lt_iff_lt.mpr hlt, if_pos hlt.le]
  · rw [compare_eq_iff_eq.mpr heq, if_pos heq.le]
  · rw [compare_gt_iff_gt.mpr hgt, if_neg (Nat.not_le_of_lt hgt)]
    rw [debugAssert_ok pr (hd.resolve_left (Nat.not_le_of_lt hgt))]
    rfl

theorem sum_range' (b n : Nat) : (List.range' b n).sum = n * b + (List.range n).sum := by
  induction n with
  | zero => simp
  | succ n ih =>
    rw [range'_1_concat, range_succ, sum_append, sum_append, ih, succ_mul]
    simp only [sum_singleton]
    omega

theorem sum_fileBlocks (blocks : Nat) (begins : List Nat) :
    (fileBlocks blocks begins).sum =
      blocks * begins.sum + begins.length * (List.range blocks).sum := by
  induction begins with
  | nil => simp [fileBlocks]
  | cons b begins ih =>
    rw [fileBlocks, flatMap_cons, sum_append, sum_range', sum_cons, length_cons]
    rw [fileBlocks] at ih
    rw [ih]
    ring

/-- Distinct blocks found late, all of which are blocks of the list, cannot all be
late. -/
theorem eq_of_fileBlocks_subset {blocks : Nat} {begins found : List Nat} (hpos : 0 < blocks)
    (hle : List.Forall₂ (· ≤ ·) begins found) (hnodup : (fileBlocks blocks found).Nodup)
    (hsub : fileBlocks blocks found ⊆ fileBlocks blocks begins) : found = begins := by
  have hsum : (fileBlocks blocks found).sum ≤ (fileBlocks blocks begins).sum := by
    obtain ⟨ys, hperm, hsublist⟩ := hnodup.subperm hsub
    rw [← hperm.sum_eq]
    exact hsublist.sum_le_sum (fun b _ => Nat.zero_le b)
  rw [sum_fileBlocks, sum_fileBlocks, hle.length_eq, Nat.add_le_add_iff_right,
    Nat.mul_le_mul_left_iff hpos] at hsum
  clear hnodup hsub
  induction hle with
  | nil => rfl
  | cons hab htail ih =>
    have htails := htail.sum_le_sum
    rw [sum_cons, sum_cons] at hsum
    rw [ih (by omega)]
    congr 1
    omega

variable {x : LogicalExtents} {blocks : Nat} {indices : List Nat}

/-- The extents returned: sorted and disjoint, and they cover what they should. -/
structure CoverListed (x : LogicalExtents) (blocks : Nat) (indices : List Nat)
    (extents : List (Nat × Nat)) : Prop where
  sorted : extents.Pairwise (fun e f => e.1 + e.2 ≤ f.1)
  covered : ∀ b, (∃ e ∈ extents, e.1 ≤ b ∧ b < e.1 + e.2) ↔ ∃ i ∈ indices, Occupied x blocks i b

theorem coverListed_iff {rs : List BlockRange} (hrs : ∀ r ∈ rs, Proper r)
    (hsorted : rs.Pairwise Before) (hfile : FileOk x blocks) (hidx : IndicesOk x blocks indices) :
    CoverListed x blocks indices (rs.map BlockRange.entry) ↔ ∀ b, b ∈ blocksIn rs ↔
      b ∈ fileBlocks blocks (indices.map (fun i => physicalBegin x (i * blocks))) := by
  have hleft (b : Nat) : (∃ e ∈ rs.map BlockRange.entry, e.1 ≤ b ∧ b < e.1 + e.2) ↔
      b ∈ blocksIn rs := by
    rw [mem_blocksIn hrs]
    simp only [mem_map, exists_exists_and_eq_and, BlockRange.entry]
    refine exists_congr fun r => and_congr_right fun hr => ?_
    omega
  have hright (b : Nat) : (∃ i ∈ indices, Occupied x blocks i b) ↔
      b ∈ fileBlocks blocks (indices.map (fun i => physicalBegin x (i * blocks))) := by
    simp only [fileBlocks, flatMap_map, mem_flatMap]
    refine exists_congr fun i => and_congr_right fun hi => ?_
    obtain ⟨k, entry, hin⟩ := exists_inExtent x (hidx.within i hi)
    exact hfile.occupied_iff hin
  constructor
  · intro h b
    rw [← hleft, ← hright, h.covered]
  · intro h
    refine ⟨?_, fun b => by rw [hleft, hright, h]⟩
    rw [pairwise_map]
    refine hsorted.imp_of_mem ?_
    intro r s hr _ hbefore
    have := (hrs r hr).1
    rw [Before] at hbefore
    simp only [BlockRange.entry]
    omega

def ListedDisjoint (x : LogicalExtents) (blocks : Nat) (indices : List Nat) : Prop :=
  indices.Pairwise (fun i j => ∀ b, ¬ (Occupied x blocks i b ∧ Occupied x blocks j b))

theorem listedDisjoint_iff (hfile : FileOk x blocks) (hidx : IndicesOk x blocks indices) :
    ListedDisjoint x blocks indices ↔
      (fileBlocks blocks (indices.map (fun i => physicalBegin x (i * blocks)))).Nodup := by
  have hmap : fileBlocks blocks (indices.map (fun i => physicalBegin x (i * blocks))) =
      indices.flatMap (fun i => List.range' (physicalBegin x (i * blocks)) blocks) := by
    simp [fileBlocks, flatMap_map]
  rw [hmap, nodup_flatMap, and_iff_right (fun i _ => nodup_range'), ListedDisjoint]
  refine List.Pairwise.iff_of_mem fun {i j} hi hj => ?_
  obtain ⟨k, entry, hin⟩ := exists_inExtent x (hidx.within i hi)
  obtain ⟨k', entry', hin'⟩ := exists_inExtent x (hidx.within j hj)
  simp only [hfile.occupied_iff hin, hfile.occupied_iff hin', Function.onFun, List.Disjoint]
  exact ⟨fun h b hb hb' => h b ⟨hb, hb'⟩, fun h b hb => h hb.1 hb.2⟩

theorem rangesFrom_getElem? (xs : List (Nat × Nat)) (b k : Nat) (h : xs[k]? = some entry) :
    (⟨entry.1, entry.1 + (entry.2 - (b :: xs.map Prod.snd).getD k 0)⟩ : BlockRange) ∈
      rangesFrom b xs := by
  induction xs generalizing b k with
  | nil => cases h
  | cons first xs ih =>
    obtain ⟨p, e⟩ := first
    rw [rangesFrom]
    cases k with
    | zero =>
      cases h
      exact mem_cons_self ..
    | succ k =>
      exact mem_cons_of_mem _ (ih e k h)

theorem fileOk_of_ranges {blocks : Nat} (x : LogicalExtents) (hpos : 0 < blocks)
    (halign : ∀ r ∈ x.ranges, blocks ∣ r.e - r.b) (hword : ∀ r ∈ x.ranges, r.e < 2 ^ 64) :
    FileOk x blocks := by
  have hmem {k : Nat} {entry : Nat × Nat} (h : x.extents[k]? = some entry) :
      (⟨entry.1, entry.1 + (entry.2 - x.beginAt k)⟩ : BlockRange) ∈ x.ranges :=
    rangesFrom_getElem? x.extents 0 k h
  have hbegin (k : Nat) : ∀ entry, x.extents[k]? = some entry → blocks ∣ x.beginAt k := by
    induction k with
    | zero =>
      intro entry _
      exact dvd_zero blocks
    | succ k ih =>
      intro entry h
      have hk := (List.getElem?_eq_some_iff.mp h).1
      have hprev : x.extents[k]? = some x.extents[k] := getElem?_eq_getElem (by omega)
      have hlen := halign _ (hmem hprev)
      rw [Nat.add_sub_cancel_left] at hlen
      have hend := (Nat.dvd_sub_iff_left (x.beginAt_lt hprev).le (ih _ hprev)).mp hlen
      have hsucc : x.beginAt (k + 1) = x.extents[k].2 := by
        simp [LogicalExtents.beginAt, hprev]
      rwa [hsucc]
  refine ⟨hpos, fun k entry h => ⟨hbegin k entry h, ?_⟩, fun k entry h => hword _ (hmem h)⟩
  have hlen := halign _ (hmem h)
  rw [Nat.add_sub_cancel_left] at hlen
  exact (Nat.dvd_sub_iff_left (x.beginAt_lt h).le (hbegin k entry h)).mp hlen

/-- The blocks found are the right ones as long as there is no gap within an
extent. -/
theorem coverListed_iff_contiguous (l : ImageLayout) (x : LogicalExtents) (indices : List Nat)
    (hlog : l.allocationBitmapFileBlockAllocationBlocksLog2.toNat < 64)
    (halign : ∀ r ∈ x.ranges, 2 ^ l.allocationBitmapFileBlockAllocationBlocksLog2.toNat ∣ r.e - r.b)
    (hword : ∀ r ∈ x.ranges, r.e < 2 ^ 64) (hasc : indices.Pairwise (· < ·))
    (hwithin : ∀ i ∈ indices, i * 2 ^ l.allocationBitmapFileBlockAllocationBlocksLog2.toNat <
      x.allocationBlockCount) :
    (∀ pr, ∃ extents, allocBitmapFileBlockIndicesToPhysicalExtents pr indices x l = .ok extents ∧
      CoverListed x (2 ^ l.allocationBitmapFileBlockAllocationBlocksLog2.toNat) indices extents) ↔
    Contiguous x (2 ^ l.allocationBitmapFileBlockAllocationBlocksLog2.toNat) indices ∧
      ListedDisjoint x (2 ^ l.allocationBitmapFileBlockAllocationBlocksLog2.toNat) indices := by
  generalize hlog2 : l.allocationBitmapFileBlockAllocationBlocksLog2.toNat = log2 at *
  generalize hblocks : 2 ^ log2 = blocks at *
  have hpos : 0 < blocks := hblocks ▸ Nat.pow_pos (by decide)
  have hfile := fileOk_of_ranges x hpos halign hword
  have hidx : IndicesOk x blocks indices := ⟨hasc, hwithin⟩
  have hshl (pr : Profile) : shlU64 pr 1 log2 = .ok blocks := by
    rw [← hblocks, shlU64_ok pr hlog (by
      rw [one_mul]
      exact Nat.pow_lt_pow_right (by decide) hlog), one_mul]
  have hfn (pr : Profile) : allocBitmapFileBlockIndicesToPhysicalExtents pr indices x l = (do
      let extents ← collectExtents pr log2 blocks x indices.length [] indices
      sortExtentsBy pr (compareDisjoint pr) extents false) := by
    rw [allocBitmapFileBlockIndicesToPhysicalExtents, debugAssert_ok pr (hasc.imp le_of_lt),
      ok_bind, hlog2]
    dsimp only
    rw [hshl, ok_bind]
  have hnil : ∀ r ∈ ([] : List BlockRange), Proper r := by simp
  rw [listedDisjoint_iff hfile hidx, ← foundBegins_eq_map_iff hfile hidx]
  constructor
  · intro hall
    obtain ⟨extents, hok, hcover⟩ := hall .debug
    rw [hfn] at hok
    obtain ⟨collected, hcollect, hsort⟩ := bind_eq_ok hok
    obtain ⟨rs, rfl, hrs, hfound, hnodup⟩ := collectExtents_of_ok .debug hfile hlog
      hblocks.symm hidx indices.length hnil hcollect
    have hnodup := hnodup rfl nodup_nil
    obtain ⟨rs', hsort', hrs', hsorted, hperm⟩ :=
      sortExtentsBy_ok .debug (compares_compareDisjoint .debug) rs hrs hnodup
    cases hsort'.symm.trans hsort
    rw [coverListed_iff hrs' hsorted hfile hidx] at hcover
    have hfound' : blocksIn rs = fileBlocks blocks (foundBegins x blocks indices) := hfound
    rw [hfound'] at hnodup hperm
    have heq := eq_of_fileBlocks_subset hpos (le_foundBegins x blocks indices) hnodup
      (fun b hb => (hcover b).mp (hperm.symm.subset hb))
    exact ⟨heq, heq ▸ hnodup⟩
  · rintro ⟨heq, hnodup⟩ pr
    rw [hfn]
    have hnodup' : (blocksIn [] ++ fileBlocks blocks (foundBegins x blocks indices)).Nodup := by
      rw [heq]
      exact hnodup
    obtain ⟨collected, hcollect⟩ := collectExtents_ok pr hfile hlog hblocks.symm hidx hnil
      ((foundBegins_eq_map_iff hfile hidx).mp heq) indices.length (le_refl _) hnodup'
    have hcollect' : collectExtents pr log2 blocks x indices.length [] indices = .ok collected :=
      hcollect
    obtain ⟨rs, rfl, hrs, hfound, -⟩ := collectExtents_of_ok pr hfile hlog
      hblocks.symm hidx indices.length hnil hcollect
    have hfound' : blocksIn rs =
        fileBlocks blocks (indices.map (fun i => physicalBegin x (i * blocks))) := by
      rw [hfound, heq]
      rfl
    obtain ⟨rs', hsort, hrs', hsorted, hperm⟩ :=
      sortExtentsBy_ok pr (compares_compareDisjoint pr) rs hrs (hfound' ▸ hnodup)
    rw [hcollect', ok_bind, hsort]
    refine ⟨_, rfl, (coverListed_iff hrs' hsorted hfile hidx).mpr fun b => ?_⟩
    rw [hperm.mem_iff, hfound']

def smallLayout : ImageLayout :=
  ⟨0, 0, 0, 0, 0, 2, 2, .sha256, .sha256, .sha256, .sha256, .sha256, .aes128⟩

def scatteredExtents : LogicalExtents := ⟨[(8, 2), (4, 5)], by decide, by decide⟩

theorem coverListed_iff_contiguous_scattered :
    (∀ pr, ∃ extents, allocBitmapFileBlockIndicesToPhysicalExtents pr [1, 2, 3] scatteredExtents
      smallLayout = .ok extents ∧ CoverListed scatteredExtents 1 [1, 2, 3] extents) ↔
    Contiguous scatteredExtents 1 [1, 2, 3] ∧ ListedDisjoint scatteredExtents 1 [1, 2, 3] :=
  coverListed_iff_contiguous smallLayout scatteredExtents [1, 2, 3] (by decide) (by decide)
    (by decide) (by decide) (by decide)

def singleExtent : LogicalExtents := ⟨[(0, 3)], by decide, by decide⟩

/-- The third file block is taken to be after the end of the file. -/
theorem gap_counted_twice : ¬ ∀ (l : ImageLayout) (x : LogicalExtents) (indices : List Nat),
    l.allocationBitmapFileBlockAllocationBlocksLog2.toNat < 64 →
    (∀ r ∈ x.ranges, 2 ^ l.allocationBitmapFileBlockAllocationBlocksLog2.toNat ∣ r.e - r.b) →
    (∀ r ∈ x.ranges, r.e < 2 ^ 64) → x.ranges.Pairwise BlockRange.Disjoint →
    indices.Pairwise (· < ·) →
    (∀ i ∈ indices, i * 2 ^ l.allocationBitmapFileBlockAllocationBlocksLog2.toNat <
      x.allocationBlockCount) →
    ∀ pr, ∃ extents, allocBitmapFileBlockIndicesToPhysicalExtents pr indices x l = .ok extents ∧
      CoverListed x (2 ^ l.allocationBitmapFileBlockAllocationBlocksLog2.toNat) indices extents := by
  intro hall
  obtain ⟨extents, hok, hcover⟩ := hall smallLayout singleExtent [0, 2] (by decide) (by decide)
    (by decide) (by decide) (by decide) (by decide) .debug
  have hextents : allocBitmapFileBlockIndicesToPhysicalExtents .debug [0, 2] singleExtent smallLayout =
      .ok [(0, 1), (3, 1)] := by decide
  cases hextents.symm.trans hok
  obtain ⟨i, -, q, -, -, k, entry, hin, hq⟩ := (hcover.covered 3).mp ⟨(3, 1), by decide, by decide⟩
  have hentry := hin.entry_eq
  have hlt := hin.lt_e
  match k with
  | 0 =>
    obtain rfl : (0, 3) = entry := Option.some.inj hentry
    omega
  | k + 1 => cases hentry

end CocoonFs.BitmapFileExtents
