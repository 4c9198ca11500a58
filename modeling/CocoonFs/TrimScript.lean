import CocoonFs.Bitmap
import CocoonFs.Extents

namespace CocoonFs.TrimScript

open Checked Bitmap Extents BlockRuns List
open Run (blocks stop)

/-- TransactionJournalTrimsScriptIterator. The pending free to get examined next
heads those the block iterator has got yet to yield. -/
structure TrimsScriptIterator where
  allocBitmap : AllocBitmap
  pendingFrees : List (Nat × BitmapWord)
  ioBlockAllocationBlocksLog2 : Nat

def TrimsScriptIterator.new (allocBitmap : AllocBitmap) (pendingFrees : List Entry)
    (ioBlockAllocationBlocksLog2 : Nat) : TrimsScriptIterator :=
  { allocBitmap := allocBitmap
    pendingFrees := blockIter ioBlockAllocationBlocksLog2 pendingFrees
    ioBlockAllocationBlocksLog2 := ioBlockAllocationBlocksLog2 }

/-- The next IO Block becoming fully free, with the chunks and the pending frees
beyond it. -/
def nextFreed (allocBitmap : AllocBitmap) (n : Nat) : List (Nat × BitmapWord) →
    Option (Nat × ChunkedIter × List (Nat × BitmapWord))
  | [] => none
  | free :: frees =>
    let (chunk, it) := (allocBitmap.iterChunkedAtAllocationBlock free.1 n).next
    if chunk.getD 0 &&& ~~~free.2 = 0 then
      some (free.1, it, frees)
    else
      nextFreed allocBitmap n frees

def extendRegion (pr : Profile) (n : Nat) : ChunkedIter → Nat → Nat → List (Nat × BitmapWord) →
    Comp (Nat × List (Nat × BitmapWord))
  | _, _, region, [] => .ok (region, [])
  | it, last, region, free :: frees => do
    let d ← checkedSub free.1 last
    if d ≠ n then
      pure (region, free :: frees)
    else
      let (chunk, it) := it.next
      if chunk.getD 0 &&& ~~~free.2 ≠ 0 then
        -- The current pending free won't get examined again.
        pure (region, frees)
      else do
        let region ← addU64 pr region n
        extendRegion pr n it free.1 region frees

def TrimsScriptIterator.next (pr : Profile) (it : TrimsScriptIterator) :
    Comp (Option BlockRange × TrimsScriptIterator) :=
  let n := 2 ^ it.ioBlockAllocationBlocksLog2
  match nextFreed it.allocBitmap n it.pendingFrees with
  | none => .ok (none, { it with pendingFrees := [] })
  | some (b, chunks, frees) => do
    let (region, frees) ← extendRegion pr n chunks b n frees
    let e ← checkedAdd b region
    pure (some ⟨b, e⟩, { it with pendingFrees := frees })

/-- The entries from some number of calls, less if there are no more. -/
def TrimsScriptIterator.entries (pr : Profile) : Nat → TrimsScriptIterator → Comp (List BlockRange)
  | 0, _ => .ok []
  | calls + 1, it => do
    match ← it.next pr with
    | (none, _) => pure []
    | (some range, it) => do
      let ranges ← it.entries pr calls
      pure (range :: ranges)

/-- Whether all that's been allocated in an IO Block before gets freed. -/
def freed (a : AllocBitmap) (n : Nat) (free : Nat × BitmapWord) : Bool :=
  decide (a.chunk n free.1 &&& ~~~free.2 = 0)

def range (n : Nat) (r : Run) : BlockRange := ⟨r.b, r.stop n⟩

/-- What the pending frees' block iterator yields: disjoint aligned blocks within
the image. -/
structure Blocks (log2 : Nat) (items : List (Nat × BitmapWord)) : Prop where
  ascending : items.Pairwise (fun x y => x.1 + 2 ^ log2 ≤ y.1)
  aligned : ∀ x ∈ items, 2 ^ log2 ∣ x.1
  in_image : ∀ x ∈ items, x.1 + 2 ^ log2 < 2 ^ 64

variable {items : List (Nat × BitmapWord)} {x : Nat × BitmapWord} {n : Nat}

theorem Blocks.tail {log2 : Nat} (h : Blocks log2 (x :: items)) : Blocks log2 items where
  ascending := (pairwise_cons.mp h.ascending).2
  aligned := fun y hy => h.aligned y (mem_cons_of_mem _ hy)
  in_image := fun y hy => h.in_image y (mem_cons_of_mem _ hy)

def freedBlocks (a : AllocBitmap) (n : Nat) (items : List (Nat × BitmapWord)) : List Nat :=
  (items.filter (freed a n)).map Prod.fst

variable {a : AllocBitmap}

theorem freedBlocks_cons_of_freed (h : freed a n x = true) :
    freedBlocks a n (x :: items) = x.1 :: freedBlocks a n items := by
  rw [freedBlocks, filter_cons_of_pos h, map_cons]
  rfl

theorem freedBlocks_cons_of_not_freed (h : ¬freed a n x = true) :
    freedBlocks a n (x :: items) = freedBlocks a n items := by
  rw [freedBlocks, filter_cons_of_neg h]
  rfl

section Iterator

variable {a : AllocBitmap} {log2 : Nat} (hlog2 : log2 ≤ 6)
include hlog2

variable {items : List (Nat × BitmapWord)}

theorem nextFreed_spec (h : Blocks log2 items) :
    (nextFreed a (2 ^ log2) items = none ∧ freedBlocks a (2 ^ log2) items = []) ∨
      ∃ b it rest w, nextFreed a (2 ^ log2) items = some (b, it, rest) ∧
        (b, w) :: rest <:+ items ∧ it.At a (2 ^ log2) (b + 2 ^ log2) ∧
        freedBlocks a (2 ^ log2) items = b :: freedBlocks a (2 ^ log2) rest := by
  induction items with
  | nil => exact Or.inl ⟨rfl, rfl⟩
  | cons x items ih =>
    have hat := a.at_iterChunkedAtAllocationBlock (2 ^ log2) x.1
    obtain ⟨hchunk, hat⟩ :=
      ChunkedIter.next_spec hlog2 (h.aligned x (mem_cons_self ..)) hat
    by_cases hx : freed a (2 ^ log2) x = true
    · right
      refine ⟨x.1, _, items, x.2, ?_, suffix_refl _, hat, freedBlocks_cons_of_freed hx⟩
      rw [nextFreed]
      dsimp only
      rw [hchunk, if_pos (of_decide_eq_true hx)]
    · have hnext : nextFreed a (2 ^ log2) (x :: items) = nextFreed a (2 ^ log2) items := by
        rw [nextFreed]
        dsimp only
        rw [hchunk, if_neg (fun hz => hx (decide_eq_true hz))]
      rw [hnext, freedBlocks_cons_of_not_freed hx]
      obtain ⟨hnone, hnil⟩ | ⟨b, it, rest, w, hsome, hsuffix, hat, hblocks⟩ := ih h.tail
      · exact Or.inl ⟨hnone, hnil⟩
      · exact Or.inr ⟨b, it, rest, w, hsome, hsuffix.trans (suffix_cons _ _), hat, hblocks⟩

/-- A region is extended by freed blocks only, and the freed blocks it isn't
extended by are all left for later. -/
theorem extendRegion_spec (pr : Profile) (h : Blocks log2 items)
    (r : Run) (last : Nat) (hstop : r.stop (2 ^ log2) = last + 2 ^ log2)
    (hlast : ∀ x ∈ items, last + 2 ^ log2 ≤ x.1) {it : ChunkedIter}
    (hat : it.At a (2 ^ log2) (last + 2 ^ log2)) :
    ∃ count rest, extendRegion pr (2 ^ log2) it last (r.count * 2 ^ log2) items =
        .ok (count * 2 ^ log2, rest) ∧
      rest <:+ items ∧ r.count ≤ count ∧
      (r.stop (2 ^ log2) < 2 ^ 64 → stop (2 ^ log2) ⟨r.b, count⟩ < 2 ^ 64) ∧
      blocks (2 ^ log2) ⟨r.b, count⟩ ++ freedBlocks a (2 ^ log2) rest =
        r.blocks (2 ^ log2) ++ freedBlocks a (2 ^ log2) items := by
  have hn := Nat.two_pow_pos log2
  induction items generalizing r last it with
  | nil => exact ⟨r.count, [], rfl, suffix_refl _, le_refl _, id, rfl⟩
  | cons x items ih =>
    have hle := hlast x (mem_cons_self ..)
    have hx64 := h.in_image x (mem_cons_self ..)
    rw [extendRegion, checkedSub_ok (by omega), ok_bind]
    by_cases hgap : x.1 - last ≠ 2 ^ log2
    · rw [if_pos hgap]
      exact ⟨r.count, x :: items, rfl, suffix_refl _, le_refl _, id, rfl⟩
    · have hx : x.1 = last + 2 ^ log2 := by omega
      have hal := h.aligned x (mem_cons_self ..)
      obtain ⟨hchunk, hat⟩ := ChunkedIter.next_spec hlog2 (hx ▸ hal) hat
      rw [if_neg hgap]
      dsimp only
      rw [hchunk, ← hx]
      by_cases hfreed : freed a (2 ^ log2) x = true
      · have hz := of_decide_eq_true hfreed
        have hmul : (r.count + 1) * 2 ^ log2 = r.count * 2 ^ log2 + 2 ^ log2 :=
          Nat.succ_mul _ _
        have hstop' : stop (2 ^ log2) ⟨r.b, r.count + 1⟩ = x.1 + 2 ^ log2 := by
          rw [stop] at hstop ⊢
          dsimp only
          omega
        have hsum : r.count * 2 ^ log2 + 2 ^ log2 < 2 ^ 64 := by
          rw [stop] at hstop
          omega
        rw [if_neg (fun hne => hne hz), addU64_ok pr hsum, ok_bind, ← hmul]
        obtain ⟨count, rest, hext, hsuffix, hcount, hbound, hblocks⟩ :=
          ih h.tail ⟨r.b, r.count + 1⟩ x.1 hstop'
            (fun y hy => (pairwise_cons.mp h.ascending).1 y hy) (hx ▸ hat)
        refine ⟨count, rest, hext, hsuffix.trans (suffix_cons _ _), by
          dsimp only at hcount
          omega, fun _ => hbound (hstop' ▸ hx64), ?_⟩
        rw [freedBlocks_cons_of_freed hfreed, hblocks, Run.blocks_succ, hstop, ← hx,
          append_assoc, singleton_append]
      · rw [if_pos (fun hz => hfreed (decide_eq_true hz))]
        refine ⟨r.count, items, rfl, suffix_cons _ _, le_refl _, id, ?_⟩
        rw [freedBlocks_cons_of_not_freed hfreed]

omit hlog2 in
theorem Blocks.of_suffix {rest : List (Nat × BitmapWord)} (h : Blocks log2 items)
    (hsuffix : rest <:+ items) : Blocks log2 rest where
  ascending := h.ascending.sublist hsuffix.sublist
  aligned := fun x hx => h.aligned x (hsuffix.subset hx)
  in_image := fun x hx => h.in_image x (hsuffix.subset hx)

theorem next_spec (pr : Profile) (h : Blocks log2 items) :
    (∃ it, TrimsScriptIterator.next pr ⟨a, items, log2⟩ = .ok (none, it) ∧
        freedBlocks a (2 ^ log2) items = []) ∨
      ∃ r rest, TrimsScriptIterator.next pr ⟨a, items, log2⟩ =
          .ok (some (range (2 ^ log2) r), ⟨a, rest, log2⟩) ∧
        rest <:+ items ∧ rest.length < items.length ∧ 0 < r.count ∧
        freedBlocks a (2 ^ log2) items = r.blocks (2 ^ log2) ++ freedBlocks a (2 ^ log2) rest := by
  rw [TrimsScriptIterator.next]
  obtain ⟨hnone, hnil⟩ | ⟨b, it, rest, w, hsome, hsuffix, hat, hblocks⟩ := nextFreed_spec hlog2 (a := a) h
  · left
    rw [hnone]
    exact ⟨_, rfl, hnil⟩
  · right
    have hb := h.of_suffix hsuffix
    have hb64 := hb.in_image _ (mem_cons_self ..)
    have hone : stop (2 ^ log2) ⟨b, 1⟩ = b + 2 ^ log2 := by simp [stop]
    obtain ⟨count, rest', hext, hsuffix', hcount, hbound, hrest⟩ := extendRegion_spec hlog2 pr
      hb.tail ⟨b, 1⟩ b hone (fun x hx => (pairwise_cons.mp hb.ascending).1 x hx) hat
    have hstop : b + count * 2 ^ log2 < 2 ^ 64 := hbound (hone ▸ hb64)
    refine ⟨⟨b, count⟩, rest', ?_, (hsuffix'.trans (suffix_cons _ _)).trans hsuffix, ?_, hcount, ?_⟩
    · rw [one_mul] at hext
      rw [hsome]
      dsimp only
      rw [hext, ok_bind]
      rw [checkedAdd_ok hstop]
      rfl
    · have hle := hsuffix.length_le
      have hle' := hsuffix'.length_le
      rw [length_cons] at hle
      omega
    · rw [hblocks, hrest, Run.blocks_one, singleton_append]

theorem entries_spec (pr : Profile) (h : Blocks log2 items) :
    ∃ rs : List Run, (∀ calls, items.length < calls →
        TrimsScriptIterator.entries pr calls ⟨a, items, log2⟩ = .ok (rs.map (range (2 ^ log2)))) ∧
      (∀ r ∈ rs, 0 < r.count) ∧
      rs.flatMap (blocks (2 ^ log2)) = freedBlocks a (2 ^ log2) items := by
  induction hlen : items.length using Nat.strong_induction_on generalizing items with
  | h len ih =>
    obtain ⟨it, hnext, hnil⟩ | ⟨r, rest, hnext, hsuffix, hlt, hcount, hblocks⟩ :=
      next_spec hlog2 (a := a) pr h
    · refine ⟨[], ?_, by simp, by rw [hnil]; rfl⟩
      intro calls hcalls
      obtain ⟨calls, rfl⟩ : ∃ c, calls = c + 1 := ⟨calls - 1, by omega⟩
      rw [TrimsScriptIterator.entries, hnext, ok_bind]
      rfl
    · obtain ⟨rs, hrs, hpos, hflat⟩ := ih rest.length (hlen ▸ hlt) (h.of_suffix hsuffix) rfl
      refine ⟨r :: rs, ?_, ?_, ?_⟩
      · intro calls hcalls
        obtain ⟨calls, rfl⟩ : ∃ c, calls = c + 1 := ⟨calls - 1, by omega⟩
        rw [TrimsScriptIterator.entries, hnext, ok_bind]
        dsimp only
        rw [hrs calls (by omega), ok_bind]
        rfl
      · intro s hs
        rcases mem_cons.mp hs with rfl | hs
        · exact hcount
        · exact hpos s hs
      · rw [flatMap_cons, hflat, hblocks]

end Iterator

/-- Whether a block is allocated in the state after the transaction. -/
def AllocatedAfter (a : AllocBitmap) (allocs frees : List Entry) (p : Nat) : Prop :=
  (a.allocated p = true ∨ tracked allocs p = true) ∧ ¬tracked frees p = true

structure Pending (a : AllocBitmap) (allocs frees : List Entry) : Prop where
  sorted_allocs : Sorted allocs
  sorted_frees : Sorted frees
  frees_allocated : ∀ p, tracked frees p = true → a.allocated p = true
  allocs_unallocated : ∀ p, tracked allocs p = true → a.allocated p = false

/-- The transaction frees all of what's been allocated in an IO Block before. -/
def Emptied (a : AllocBitmap) (frees : List Entry) (n b : Nat) : Prop :=
  n ∣ b ∧ (∃ p, b ≤ p ∧ p < b + n ∧ tracked frees p = true) ∧
    ∀ p, b ≤ p → p < b + n → a.allocated p = true → tracked frees p = true

structure Trims (a : AllocBitmap) (allocs frees : List Entry) (n : Nat) (ranges : List BlockRange) :
    Prop where
  aligned : ∀ r ∈ ranges, n ∣ r.b ∧ n ∣ r.e
  ascending : ranges.Pairwise (fun r s => r.e ≤ s.b)
  unallocated : ∀ r ∈ ranges, ∀ p, r.b ≤ p → p < r.e → ¬AllocatedAfter a allocs frees p
  covers : ∀ b, n ∣ b → (∃ p, b ≤ p ∧ p < b + n ∧ a.allocated p = true) →
    (∀ p, b ≤ p → p < b + n → ¬AllocatedAfter a allocs frees p) →
    ∃ r ∈ ranges, r.b ≤ b ∧ b + n ≤ r.e

section Claims

variable {a : AllocBitmap} {allocs frees : List Entry} {log2 : Nat} (hlog2 : log2 ≤ 6)
  (h : Pending a allocs frees)
include hlog2 h

theorem blocks_blockIter : Blocks log2 (blockIter log2 frees) where
  ascending := pairwise_blockIter hlog2 h.sorted_frees
  aligned := fun x hx => blockIter_aligned hlog2 hx
  in_image := by
    intro x hx
    obtain ⟨j, hj, htracked⟩ := exists_tracked hlog2 h.sorted_frees hx
    have hlt := AllocBitmap.lt_of_allocated (h.frees_allocated _ htracked)
    have hle := block_le_word hlog2
    omega

theorem freed_iff {x : Nat × BitmapWord} (hx : x ∈ blockIter log2 frees) :
    freed a (2 ^ log2) x = true ↔
      ∀ p, x.1 ≤ p → p < x.1 + 2 ^ log2 → a.allocated p = true → tracked frees p = true := by
  rw [freed, decide_eq_true_eq]
  have hbit (j : Nat) : (a.chunk (2 ^ log2) x.1 &&& ~~~x.2).getLsbD j = true ↔
      j < 2 ^ log2 ∧ a.allocated (x.1 + j) = true ∧ ¬tracked frees (x.1 + j) = true := by
    have hle := block_le_word hlog2
    rw [BitVec.getLsbD_and, BitVec.getLsbD_not, blockIter_bits hlog2 h.sorted_frees hx,
      a.getLsbD_chunk hlog2 (blockIter_aligned hlog2 hx)]
    by_cases hj : j < 2 ^ log2
    · simp [hj, show j < 64 by omega]
    · simp [hj]
  constructor
  · intro hzero p hle hlt halloc
    by_contra hfree
    have hset := (hbit (p - x.1)).mpr ⟨by omega, by rwa [Nat.add_sub_cancel' hle],
      by rwa [Nat.add_sub_cancel' hle]⟩
    rw [hzero] at hset
    simp at hset
  · intro hall
    apply BitVec.eq_of_getLsbD_eq
    intro j _
    refine Eq.trans ?_ BitVec.getLsbD_zero.symm
    rw [← Bool.not_eq_true, hbit]
    rintro ⟨hj, halloc, hfree⟩
    exact hfree (hall _ (Nat.le_add_right _ _) (by omega) halloc)

variable {b : Nat}

theorem mem_freedBlocks :
    b ∈ freedBlocks a (2 ^ log2) (blockIter log2 frees) ↔ Emptied a frees (2 ^ log2) b := by
  rw [freedBlocks, mem_map, Emptied, ← and_assoc, ← mem_blockIter_iff hlog2 h.sorted_frees, mem_map]
  constructor
  · rintro ⟨x, hx, rfl⟩
    obtain ⟨hx, hfreed⟩ := mem_filter.mp hx
    exact ⟨⟨x, hx, rfl⟩, (freed_iff hlog2 h hx).mp hfreed⟩
  · rintro ⟨⟨x, hx, rfl⟩, hall⟩
    exact ⟨x, mem_filter.mpr ⟨hx, (freed_iff hlog2 h hx).mpr hall⟩, rfl⟩

omit hlog2 in
theorem not_allocatedAfter_of_emptied {p : Nat} (hb : Emptied a frees (2 ^ log2) b) (hle : b ≤ p)
    (hlt : p < b + 2 ^ log2) : ¬AllocatedAfter a allocs frees p ↔ ¬tracked allocs p = true := by
  constructor
  · intro hafter halloc
    refine hafter ⟨Or.inr halloc, fun hfree => ?_⟩
    have hset := h.frees_allocated p hfree
    rw [h.allocs_unallocated p halloc] at hset
    cases hset
  · rintro halloc ⟨hbase | hnew, hfree⟩
    · exact hfree (hb.2.2 p hle hlt hbase)
    · exact halloc hnew

omit hlog2 h in
theorem emptied_of_not_allocatedAfter (hb : 2 ^ log2 ∣ b)
    (hbefore : ∃ p, b ≤ p ∧ p < b + 2 ^ log2 ∧ a.allocated p = true)
    (hafter : ∀ p, b ≤ p → p < b + 2 ^ log2 → ¬AllocatedAfter a allocs frees p) :
    Emptied a frees (2 ^ log2) b := by
  have hall : ∀ p, b ≤ p → p < b + 2 ^ log2 → a.allocated p = true → tracked frees p = true := by
    intro p hle hlt halloc
    by_contra hfree
    exact hafter p hle hlt ⟨Or.inl halloc, hfree⟩
  obtain ⟨p, hle, hlt, halloc⟩ := hbefore
  exact ⟨hb, ⟨p, hle, hlt, hall p hle hlt halloc⟩, hall⟩

theorem entries_cover (pr : Profile) :
    ∃ rs : List Run, (∀ calls, (blockIter log2 frees).length < calls →
        (TrimsScriptIterator.new a frees log2).entries pr calls = .ok (rs.map (range (2 ^ log2)))) ∧
      (∀ r ∈ rs, 0 < r.count) ∧
      (rs.flatMap (blocks (2 ^ log2))).Pairwise (fun x y => x + 2 ^ log2 ≤ y) ∧
      ∀ b, b ∈ rs.flatMap (blocks (2 ^ log2)) ↔ Emptied a frees (2 ^ log2) b := by
  have hblocks := blocks_blockIter hlog2 h
  obtain ⟨rs, hrun, hpos, hflat⟩ := entries_spec hlog2 (a := a) pr hblocks
  refine ⟨rs, hrun, hpos, ?_, fun b => ?_⟩
  · rw [hflat, freedBlocks, pairwise_map]
    exact hblocks.ascending.sublist filter_sublist
  · rw [hflat]
    exact mem_freedBlocks hlog2 h

end Claims

theorem trims_of_emptied {allocs frees : List Entry} {rs : List Run} (hpos : ∀ r ∈ rs, 0 < r.count)
    (hasc : (rs.flatMap (blocks n)).Pairwise (fun x y => x + n ≤ y))
    (haligned : ∀ b ∈ rs.flatMap (blocks n), n ∣ b)
    (hafter : ∀ b ∈ rs.flatMap (blocks n), ∀ p, b ≤ p → p < b + n →
      ¬AllocatedAfter a allocs frees p)
    (hcovers : ∀ b, n ∣ b → (∃ p, b ≤ p ∧ p < b + n ∧ a.allocated p = true) →
      (∀ p, b ≤ p → p < b + n → ¬AllocatedAfter a allocs frees p) →
      b ∈ rs.flatMap (blocks n)) :
    Trims a allocs frees n (rs.map (range n)) where
  aligned := by
    intro range hrange
    obtain ⟨r, hr, rfl⟩ := mem_map.mp hrange
    have hb := haligned r.b (first_mem_blocks hr (hpos r hr))
    exact ⟨hb, Nat.dvd_add hb (dvd_mul_left _ _)⟩
  ascending := by
    rw [pairwise_map]
    exact pairwise_of_blocks hpos hasc
  unallocated := by
    intro range hrange p hle hlt
    obtain ⟨r, hr, rfl⟩ := mem_map.mp hrange
    obtain ⟨b, hb, hble, hblt⟩ := covers_flatMap_iff.mp ⟨r, hr, hle, hlt⟩
    exact hafter b hb p hble hblt
  covers := by
    intro b hb hbefore hfree
    obtain ⟨r, hr, hmem⟩ := mem_flatMap.mp (hcovers b hb hbefore hfree)
    exact ⟨_, mem_map_of_mem hr, Run.block_within hmem⟩

/-- The trims are good for the state after the transaction exactly if nothing is
allocated in any of the IO Blocks emptied. The pending allocations aren't examined. -/
theorem trims_iff (pr : Profile) {a : AllocBitmap} {allocs frees : List Entry} {log2 : Nat}
    (hlog2 : log2 ≤ 6) (h : Pending a allocs frees) :
    (∃ ranges, (∀ calls, (blockIter log2 frees).length < calls →
        (TrimsScriptIterator.new a frees log2).entries pr calls = .ok ranges) ∧
      Trims a allocs frees (2 ^ log2) ranges) ↔
    ∀ b p, Emptied a frees (2 ^ log2) b → b ≤ p → p < b + 2 ^ log2 → ¬tracked allocs p = true := by
  obtain ⟨rs, hrun, hpos, hasc, hmem⟩ := entries_cover hlog2 h pr
  constructor
  · rintro ⟨ranges, hranges, htrims⟩ b p hb hle hlt
    obtain rfl : rs.map (range (2 ^ log2)) = ranges :=
      Except.ok.inj ((hrun _ (Nat.lt_succ_self _)).symm.trans (hranges _ (Nat.lt_succ_self _)))
    obtain ⟨r, hr, hrle, hrlt⟩ := covers_flatMap_iff.mpr ⟨b, (hmem b).mpr hb, hle, hlt⟩
    rw [← not_allocatedAfter_of_emptied h hb hle hlt]
    exact htrims.unallocated _ (mem_map_of_mem hr) p hrle hrlt
  · intro hnone
    refine ⟨_, hrun, trims_of_emptied hpos hasc ?_ ?_ ?_⟩
    · exact fun b hb => ((hmem b).mp hb).1
    · intro b hb p hle hlt
      have hb := (hmem b).mp hb
      exact (not_allocatedAfter_of_emptied h hb hle hlt).mpr (hnone b p hb hle hlt)
    · exact fun b hb hbefore hafter => (hmem b).mpr (emptied_of_not_allocatedAfter hb hbefore hafter)

theorem pending_oneWord {w allocs frees : BitmapWord} (hfrees : frees &&& ~~~w = 0)
    (hallocs : allocs &&& w = 0) : Pending (oneWord w) [⟨0, allocs⟩] [⟨0, frees⟩] where
  sorted_allocs := pairwise_singleton _ _
  sorted_frees := pairwise_singleton _ _
  frees_allocated := allocated_oneWord_of_and hfrees
  allocs_unallocated := by
    intro p hp
    obtain ⟨hbit, hword⟩ := allocated_oneWord (w := w) hp
    have hand := congrArg (fun x : BitmapWord => x.getLsbD (p % 64)) hallocs
    simp only [BitVec.getLsbD_and, hbit] at hand
    simpa [hword] using hand

/-- The block freed and the one allocated are in different IO Blocks. -/
theorem trims_iff_next_block :
    ∃ ranges, (∀ calls, (blockIter 1 [⟨0, 1⟩]).length < calls →
        (TrimsScriptIterator.new (oneWord 1) [⟨0, 1⟩] 1).entries .debug calls = .ok ranges) ∧
      Trims (oneWord 1) [⟨0, 4⟩] [⟨0, 1⟩] (2 ^ 1) ranges := by
  refine (trims_iff .debug (by decide) (pending_oneWord (by decide) (by decide))).mpr ?_
  rintro b p ⟨-, ⟨q, hbq, hqb, hq⟩, -⟩ hle hlt hp
  obtain ⟨e, he, hqidx, hqbit⟩ := tracked_iff.mp hq
  obtain rfl := mem_singleton.mp he
  obtain ⟨f, hf, hpidx, hpbit⟩ := tracked_iff.mp hp
  obtain rfl := mem_singleton.mp hf
  have hq0 : q % 64 = 0 := by
    have hall : ∀ i : Fin 64, (1#64).getLsbD i = true → i.val = 0 := by decide
    exact hall ⟨q % 64, Nat.mod_lt _ (by decide)⟩ hqbit
  have hp2 : p % 64 = 2 := by
    have hall : ∀ i : Fin 64, (4#64).getLsbD i = true → i.val = 2 := by decide
    exact hall ⟨p % 64, Nat.mod_lt _ (by decide)⟩ hpbit
  omega

/-- The only block allocated in an IO Block is freed and the other one allocated:
the latter is trimmed. -/
theorem trims_newly_allocated :
    Pending (oneWord 1) [⟨0, 2⟩] [⟨0, 1⟩] ∧
      (TrimsScriptIterator.new (oneWord 1) [⟨0, 1⟩] 1).entries .release 2 = .ok [⟨0, 2⟩] ∧
      AllocatedAfter (oneWord 1) [⟨0, 2⟩] [⟨0, 1⟩] 1 ∧
      ¬∃ ranges, (∀ calls, (blockIter 1 [⟨0, 1⟩]).length < calls →
          (TrimsScriptIterator.new (oneWord 1) [⟨0, 1⟩] 1).entries .release calls = .ok ranges) ∧
        Trims (oneWord 1) [⟨0, 2⟩] [⟨0, 1⟩] (2 ^ 1) ranges := by
  have hentries : (TrimsScriptIterator.new (oneWord 1) [⟨0, 1⟩] 1).entries .release 2 =
      .ok [⟨0, 2⟩] := by
    decide
  have hafter : AllocatedAfter (oneWord 1) [⟨0, 2⟩] [⟨0, 1⟩] 1 := ⟨by decide, by decide⟩
  refine ⟨pending_oneWord (by decide) (by decide), hentries, hafter, ?_⟩
  rintro ⟨ranges, hranges, htrims⟩
  obtain rfl := Except.ok.inj (hentries.symm.trans (hranges 2 (by decide)))
  exact htrims.unallocated _ (mem_singleton_self _) 1 (by decide) (by decide) hafter

end CocoonFs.TrimScript
