import CocoonFs.FindFreeBlock

namespace CocoonFs.BlockSearchCompleteness

open Bitmap BitmapWordIters BitmapWords Checked Extents FindFreeBlock FreeChunks List Nat
open SearchedBitmap (imageBitmapWords imageWord word wordIterAt)
open BlockSearch (select wrap)

theorem aligned_end_le {log2 p : Nat} (hlog2 : log2 ≤ 6) (hp : p < 64) (hmod : p % 2 ^ log2 = 0) :
    p + 2 ^ log2 ≤ 64 := by
  obtain ⟨mask, -, hmask⟩ := getBlocksLsbsMask_ok hlog2
  obtain ⟨k, hk, rfl⟩ := hmask.exists_block hp hmod
  exact hmask.block_le hk

/-- A free block, apart from the ones that are to be considered allocated. -/
structure Eligible (b : SearchedBitmap) (req : BlockRequest) (s : Nat) : Prop where
  aligned : s % 2 ^ req.blockAllocationBlocksLog2 = 0
  in_image : s + 2 ^ req.blockAllocationBlocksLog2 ≤ b.imageSize
  free : ∀ j < 2 ^ req.blockAllocationBlocksLog2, b.IsFree (s + j)
  apart : ∀ block ∈ req.allocatedBlocks, s + 2 ^ req.blockAllocationBlocksLog2 ≤ block ∨
    block + 2 ^ req.blockAllocationBlocksLog2 ≤ s

/-- The requests considered. The listed blocks are aligned to their size, as any block found
is, so that none reaches beyond a bitmap word. -/
structure Searchable (b : SearchedBitmap) (req : BlockRequest) : Prop where
  log2_le : req.blockAllocationBlocksLog2 ≤ 6
  chunks : req.allocatedFullwordChunks = none
  sorted : req.allocatedBlocks.Pairwise (· ≤ ·)
  one_word : ∀ block ∈ req.allocatedBlocks, block % 64 + 2 ^ req.blockAllocationBlocksLog2 ≤ 64
  begin_lt : ∀ block ∈ req.searchAllocationBlocksBegin, block < b.imageSize

def blocksFrom (i : Nat) (blocks : List Nat) : List Nat :=
  blocks.dropWhile (fun block => decide (block / 64 < i))

section Blocks

variable {blocks : List Nat} {i : Nat}

variable {block : Nat}

theorem blocksFrom_cons_of_lt (h : block / 64 < i) (blocks : List Nat) :
    blocksFrom i (block :: blocks) = blocksFrom i blocks :=
  dropWhile_cons_of_pos (p := fun block => decide (block / 64 < i)) (decide_eq_true h)

theorem blocksFrom_cons_of_ge (h : i ≤ block / 64) (blocks : List Nat) :
    blocksFrom i (block :: blocks) = block :: blocks :=
  dropWhile_cons_of_neg (p := fun block => decide (block / 64 < i)) (by simpa using h)

theorem blocksFrom_zero (blocks : List Nat) : blocksFrom 0 blocks = blocks := by
  cases blocks with
  | nil => rfl
  | cons block blocks => exact blocksFrom_cons_of_ge (zero_le _) blocks

theorem blocksFrom_succ (i : Nat) (blocks : List Nat) :
    blocksFrom (i + 1) (blocksFrom i blocks) = blocksFrom (i + 1) blocks := by
  induction blocks with
  | nil => rfl
  | cons block blocks ih =>
    rcases lt_or_ge (block / 64) i with hlt | hge
    · rw [blocksFrom_cons_of_lt hlt, blocksFrom_cons_of_lt (lt_succ_of_lt hlt), ih]
    · rw [blocksFrom_cons_of_ge hge]

theorem blocksFrom_sublist (i : Nat) (blocks : List Nat) : (blocksFrom i blocks).Sublist blocks :=
  dropWhile_sublist _

theorem mem_blocksFrom_of_ge (hmem : block ∈ blocks) (hge : i ≤ block / 64) :
    block ∈ blocksFrom i blocks := by
  induction blocks with
  | nil => cases hmem
  | cons head blocks ih =>
    rcases lt_or_ge (head / 64) i with hlt | hge'
    · rw [blocksFrom_cons_of_lt hlt]
      rcases mem_cons.mp hmem with rfl | hmem
      · omega
      · exact ih hmem
    · rwa [blocksFrom_cons_of_ge hge']

theorem ge_of_mem_blocksFrom (hsorted : blocks.Pairwise (· ≤ ·))
    (hmem : block ∈ blocksFrom i blocks) : i ≤ block / 64 := by
  induction blocks with
  | nil => cases hmem
  | cons head blocks ih =>
    obtain ⟨hhead, hsorted⟩ := pairwise_cons.mp hsorted
    rcases lt_or_ge (head / 64) i with hlt | hge
    · rw [blocksFrom_cons_of_lt hlt] at hmem
      exact ih hsorted hmem
    · rw [blocksFrom_cons_of_ge hge] at hmem
      have hle : head ≤ block := by
        rcases mem_cons.mp hmem with rfl | hmem
        · exact le_refl _
        · exact hhead block hmem
      omega

/-- The bits of the blocks in the word are set, and the ones beyond the word remain. -/
theorem markAllocatedBlocks_spec {log2 : Nat} (hlog2 : log2 ≤ 6) (hsorted : blocks.Pairwise (· ≤ ·))
    (hge : ∀ block ∈ blocks, i ≤ block / 64) (w : BitmapWord) :
    (markAllocatedBlocks log2 i blocks w).1 = blocksFrom (i + 1) blocks ∧
      ∀ p < 64, (markAllocatedBlocks log2 i blocks w).2.getLsbD p = true ↔ w.getLsbD p = true ∨
        ∃ block ∈ blocks, block / 64 = i ∧ block % 64 ≤ p ∧ p < block % 64 + 2 ^ log2 := by
  induction blocks generalizing w with
  | nil =>
    refine ⟨rfl, fun p _ => ?_⟩
    rw [markAllocatedBlocks]
    simp
  | cons block blocks ih =>
    obtain ⟨hhead, hsorted⟩ := pairwise_cons.mp hsorted
    rw [markAllocatedBlocks]
    have hpow : 2 ^ log2 ≤ 2 ^ 6 := Nat.pow_le_pow_right (by omega) hlog2
    split
    · rename_i heq
      rw [blocksFrom_cons_of_lt (by omega)]
      obtain ⟨hrest, hbits⟩ := ih hsorted (fun x hx => hge x (mem_cons_of_mem _ hx))
        (w ||| trailingBitsMask (2 ^ log2) <<< (block % 64))
      refine ⟨hrest, fun p hp => ?_⟩
      have hmask : (trailingBitsMask (2 ^ log2) <<< (block % 64)).getLsbD p = true ↔
          block % 64 ≤ p ∧ p < block % 64 + 2 ^ log2 := by
        rw [BitVec.getLsbD_shiftLeft, getLsbD_trailingBitsMask (by omega), decide_eq_true hp,
          Bool.true_and, Bool.and_eq_true, Bool.not_eq_true', decide_eq_false_iff_not,
          decide_eq_true_eq]
        omega
      rw [hbits p hp, BitVec.getLsbD_or, Bool.or_eq_true, hmask]
      simp only [mem_cons, exists_eq_or_imp, heq, true_and]
      exact or_assoc
    · rename_i hne
      have hgt := hge block (mem_cons_self ..)
      rw [blocksFrom_cons_of_ge (by omega)]
      refine ⟨rfl, fun p _ => ⟨.inl, ?_⟩⟩
      rintro (hbit | ⟨x, hx, heq, -⟩)
      · exact hbit
      · rcases mem_cons.mp hx with rfl | hx
        · exact absurd heq hne
        · have hle := hhead x hx
          omega

end Blocks

section Words

variable {b : SearchedBitmap} {req : BlockRequest} {i : Nat}

def markedWord (b : SearchedBitmap) (req : BlockRequest) (i : Nat) : BitmapWord :=
  b.imageWord i (markAllocatedBlocks req.blockAllocationBlocksLog2 i
    (blocksFrom i req.allocatedBlocks) (b.word i)).2

variable {p : Nat}

theorem getLsbD_imageWord (hvalid : b.Valid) (hi : i < b.imageBitmapWords) (w : BitmapWord)
    (hp : p < 64) :
    (b.imageWord i w).getLsbD p = (w.getLsbD p || decide (b.imageSize ≤ 64 * i + p)) := by
  have hlen := b.bitmap.length_le
  have hcovered := hvalid.covered
  have hpos : 0 < b.imageSize := by
    rw [imageBitmapWords] at hi
    omega
  rw [imageWord]
  split
  · rename_i hlast
    rw [BitVec.getLsbD_or, getLsbD_excessBitsMask (by omega) hpos hp, ← hlast, Nat.add_sub_cancel]
  · rename_i hlast
    rw [imageBitmapWords] at hi hlast
    rw [decide_eq_false (show ¬ b.imageSize ≤ 64 * i + p by omega), Bool.or_false]

variable (hvalid : b.Valid) (hreq : Searchable b req) (hi : i < b.imageBitmapWords)
include hvalid hreq hi

theorem markedWord_clear_iff (hp : p < 64) :
    (markedWord b req i).getLsbD p = false ↔ b.IsFree (64 * i + p) ∧
      ∀ block ∈ req.allocatedBlocks,
        ¬ (block ≤ 64 * i + p ∧ 64 * i + p < block + 2 ^ req.blockAllocationBlocksLog2) := by
  have hge (block : Nat) (hmem : block ∈ blocksFrom i req.allocatedBlocks) : i ≤ block / 64 :=
    ge_of_mem_blocksFrom hreq.sorted hmem
  have hmark := (markAllocatedBlocks_spec hreq.log2_le
    (hreq.sorted.sublist (blocksFrom_sublist _ _)) hge (b.word i)).2 p hp
  rw [markedWord, getLsbD_imageWord hvalid hi _ hp, Bool.or_eq_false_iff, ← Bool.not_eq_true, hmark,
    decide_eq_false_iff_not, not_or, SearchedBitmap.IsFree, show (64 * i + p) / 64 = i by omega,
    show (64 * i + p) % 64 = p by omega]
  constructor
  · rintro ⟨⟨hclear, hlisted⟩, hlt⟩
    refine ⟨⟨by omega, Bool.eq_false_iff.mpr hclear⟩, fun block hmem hcovers => hlisted ?_⟩
    have hone := hreq.one_word block hmem
    exact ⟨block, mem_blocksFrom_of_ge hmem (by omega), by omega, by omega, by omega⟩
  · rintro ⟨⟨hlt, hclear⟩, hlisted⟩
    refine ⟨⟨Bool.eq_false_iff.mp hclear, ?_⟩, by omega⟩
    rintro ⟨block, hmem, hword, hle, hend⟩
    exact hlisted block ((blocksFrom_sublist _ _).subset hmem) ⟨by omega, by omega⟩

/-- The blocks of a word that may be found are the ones with all of their bits clear. -/
theorem eligible_iff (hp : p < 64) (hmod : p % 2 ^ req.blockAllocationBlocksLog2 = 0) :
    Eligible b req (64 * i + p) ↔
      ∀ j < 2 ^ req.blockAllocationBlocksLog2, (markedWord b req i).getLsbD (p + j) = false := by
  have hend := aligned_end_le hreq.log2_le hp hmod
  constructor
  · intro h j hj
    rw [markedWord_clear_iff hvalid hreq hi (by omega), ← add_assoc]
    refine ⟨h.free j hj, fun block hmem hcovers => ?_⟩
    rcases h.apart block hmem with hle | hle <;> omega
  · intro h
    have hclear (j : Nat) (hj : j < 2 ^ req.blockAllocationBlocksLog2) :=
      (markedWord_clear_iff hvalid hreq hi (show p + j < 64 by omega)).mp (h j hj)
    have hfree (j : Nat) (hj : j < 2 ^ req.blockAllocationBlocksLog2) : b.IsFree (64 * i + p + j) := by
      rw [add_assoc]
      exact (hclear j hj).1
    refine ⟨?_, ?_, hfree, fun block hmem => ?_⟩
    · have hdvd : 2 ^ req.blockAllocationBlocksLog2 ∣ 64 := pow_dvd_pow 2 hreq.log2_le
      exact mod_eq_zero_of_dvd
        (Nat.dvd_add (Dvd.dvd.mul_right hdvd i) (dvd_of_mod_eq_zero hmod))
    · have hlast := (hfree (2 ^ req.blockAllocationBlocksLog2 - 1) (by omega)).1
      omega
    · -- The first block that is in both of them.
      by_contra hover
      have hcovered := (hclear (max (64 * i + p) block - (64 * i + p)) (by omega)).2 block hmem
      omega

theorem not_eligible_of_clear (h : ∀ p < 64, p % 2 ^ req.blockAllocationBlocksLog2 = 0 →
    ¬ ∀ j < 2 ^ req.blockAllocationBlocksLog2, (markedWord b req i).getLsbD (p + j) = false)
    {s : Nat} (hs : s / 64 = i) : ¬ Eligible b req s := by
  intro heligible
  have hdvd : 2 ^ req.blockAllocationBlocksLog2 ∣ 64 := pow_dvd_pow 2 hreq.log2_le
  have hmod : s % 64 % 2 ^ req.blockAllocationBlocksLog2 = 0 := by
    rw [mod_mod_of_dvd s hdvd]
    exact heligible.aligned
  refine h (s % 64) (mod_lt s (by omega)) hmod ?_
  rw [← eligible_iff hvalid hreq hi (mod_lt s (by omega)) hmod]
  rwa [show 64 * i + s % 64 = s by omega]

end Words

theorem Eligible.word_lt {b : SearchedBitmap} {req : BlockRequest} {s : Nat} (h : Eligible b req s) :
    s / 64 < b.imageBitmapWords := by
  have hpos := Nat.two_pow_pos req.blockAllocationBlocksLog2
  have hle := h.in_image
  rw [imageBitmapWords]
  omega

/-- How far the search has got, before the next word is examined. -/
structure Position where
  word : Nat
  wrapped : Bool

namespace Position

def limit (b : SearchedBitmap) (req : BlockRequest) (pos : Position) : Nat :=
  if pos.wrapped then req.searchBeginBitmapWordIndex else b.imageBitmapWords

def Visited (b : SearchedBitmap) (req : BlockRequest) (pos : Position) (i : Nat) : Prop :=
  if pos.wrapped then i < pos.word ∨ req.searchBeginBitmapWordIndex ≤ i ∧ i < b.imageBitmapWords
  else req.searchBeginBitmapWordIndex ≤ i ∧ i < pos.word

def visitedWords (b : SearchedBitmap) (req : BlockRequest) (pos : Position) : Nat :=
  if pos.wrapped then pos.word + (b.imageBitmapWords - req.searchBeginBitmapWordIndex)
  else pos.word - req.searchBeginBitmapWordIndex

/-- The search does not get to the end without having wrapped around, unless it had begun
with the first word. -/
def Valid (b : SearchedBitmap) (req : BlockRequest) (pos : Position) : Prop :=
  if pos.wrapped then
    pos.word ≤ req.searchBeginBitmapWordIndex ∧ req.searchBeginBitmapWordIndex < b.imageBitmapWords
  else req.searchBeginBitmapWordIndex ≤ pos.word ∧ (pos.word < b.imageBitmapWords ∨
    req.searchBeginBitmapWordIndex = 0 ∧ pos.word = b.imageBitmapWords)

def advance (b : SearchedBitmap) (req : BlockRequest) (pos : Position) : Position :=
  if pos.word + 1 = b.imageBitmapWords ∧ req.searchBeginBitmapWordIndex ≠ 0 then ⟨0, true⟩
  else ⟨pos.word + 1, pos.wrapped⟩

variable {b : SearchedBitmap} {req : BlockRequest} {pos : Position}

section

variable (h : pos.Valid b req)
include h

theorem Valid.word_lt (hlt : pos.word < pos.limit b req) :
    pos.word < b.imageBitmapWords := by
  rw [Valid] at h
  rw [limit] at hlt
  split at h
  · rename_i hwrapped
    omega
  · rename_i hwrapped
    rwa [if_neg hwrapped] at hlt

theorem Valid.visitedWords_le : pos.visitedWords b req ≤ b.imageBitmapWords := by
  rw [Valid] at h
  rw [visitedWords]
  split at h <;> rename_i hwrapped
  · rw [if_pos hwrapped]
    omega
  · rw [if_neg hwrapped]
    omega

/-- The next word gets visited, whether the search wraps around behind it or not. -/
theorem Valid.advance (hlt : pos.word < pos.limit b req) :
    (pos.advance b req).Valid b req ∧
      (pos.advance b req).visitedWords b req = pos.visitedWords b req + 1 ∧
      ∀ i, (pos.advance b req).Visited b req i ↔ pos.Visited b req i ∨ i = pos.word := by
  obtain ⟨word, wrapped⟩ := pos
  cases wrapped with
  | false =>
    simp only [Valid, limit, Bool.false_eq_true, if_false] at h hlt
    rw [Position.advance]
    split
    · simp only [Valid, visitedWords, Visited, if_true, Bool.false_eq_true, if_false] at *
      refine ⟨by omega, by omega, fun i => ?_⟩
      omega
    · simp only [Valid, visitedWords, Visited, Bool.false_eq_true, if_false] at *
      refine ⟨by omega, by omega, fun i => ?_⟩
      omega
  | true =>
    simp only [Valid, limit, if_true] at h hlt
    rw [Position.advance, if_neg (by dsimp only; omega)]
    simp only [Valid, visitedWords, Visited, if_true] at *
    refine ⟨by omega, by omega, fun i => ?_⟩
    omega

theorem Valid.visited_of_end (hend : pos.word = pos.limit b req) {i : Nat}
    (hi : i < b.imageBitmapWords) : pos.Visited b req i := by
  obtain ⟨word, wrapped⟩ := pos
  cases wrapped with
  | false =>
    simp only [Valid, limit, Visited, Bool.false_eq_true, if_false] at *
    omega
  | true =>
    simp only [Valid, limit, Visited, if_true] at *
    omega

end

end Position

structure CandidateFits (b : SearchedBitmap) (req : BlockRequest) (c : Candidate) : Prop where
  index_lt : c.bitmapWordIndex < b.imageBitmapWords
  word : c.bitmapWord = markedWord b req c.bitmapWordIndex
  splittable : Splittable c.bitmapWord c.splitLog2
  gt : req.blockAllocationBlocksLog2 < c.splitLog2
  le : c.splitLog2 ≤ 6
  split : c.splitLog2 = 6 ∨ c.bitmapWord ≠ 0

structure Placed (b : SearchedBitmap) (req : BlockRequest) (pos : Position) (s : BlockSearch) :
    Prop where
  iter_at : s.bitmapWordsIter.At b.bitmap b.pendingAllocs b.pendingFrees pos.word
  count : pos.word + s.count = pos.limit b req
  blocks : s.allocatedBlocks = blocksFrom pos.word req.allocatedBlocks
  next : s.nextAllocatedFullwordChunk = none
  best : ∀ c ∈ s.best, CandidateFits b req c
  optimized : s.best ≠ none → req.optimizePlacement = true
  distance_pos : 0 < s.remainingDistance
  distance : s.best = none → b.imageBitmapWords < s.remainingDistance + pos.visitedWords b req

/-- As long as there is no candidate, there is no block to be found in the words visited. -/
structure Searching (b : SearchedBitmap) (req : BlockRequest) (pos : Position) (s : BlockSearch) :
    Prop extends Placed b req pos s where
  none : s.best = none → ∀ block, pos.Visited b req (block / 64) → ¬ Eligible b req block

def StepFits (b : SearchedBitmap) (req : BlockRequest) (pos : Position) : Outcome BlockSearch → Prop
  | .found block => Eligible b req block
  | .stop s => s.best ≠ none ∧ ∀ c ∈ s.best, CandidateFits b req c
  | .next s => Searching b req pos s

def SearchFits (b : SearchedBitmap) (req : BlockRequest) : Outcome BlockSearch → Prop
  | .found block => Eligible b req block
  | .stop s | .next s => (∀ c ∈ s.best, CandidateFits b req c) ∧
      (s.best = none → ∀ block, ¬ Eligible b req block)

def Answers (b : SearchedBitmap) (req : BlockRequest) : Option Nat → Prop
  | some s => Eligible b req s
  | none => ∀ s, ¬ Eligible b req s

section Search

variable {pr : Profile} {b : SearchedBitmap} {req : BlockRequest} {s : BlockSearch} {pos : Position}
  {i : Nat} (hvalid : b.Valid) (hreq : Searchable b req)
include hvalid hreq

theorem CandidateFits.selected (pr : Profile) {c : Candidate} (h : CandidateFits b req c) :
    ∃ block, selectSplitBlock pr c.bitmapWordIndex c.bitmapWord c.splitLog2 = .ok block ∧
      Eligible b req block := by
  obtain ⟨block, hblock⟩ := selectSplitBlock_ok pr (i := c.bitmapWordIndex) h.splittable h.le h.split
  obtain ⟨p, hp, rfl, hmod, hclear⟩ := selectSplitBlock_of_ok h.splittable hblock
  refine ⟨_, hblock, ?_⟩
  have hpow : 2 ^ req.blockAllocationBlocksLog2 ≤ 2 ^ c.splitLog2 :=
    Nat.pow_le_pow_right (by omega) h.gt.le
  have hmod' : p % 2 ^ req.blockAllocationBlocksLog2 = 0 := mod_eq_zero_of_dvd
    (dvd_trans (pow_dvd_pow 2 h.gt.le) (dvd_of_mod_eq_zero hmod))
  rw [mul_comm, eligible_iff hvalid hreq h.index_lt hp hmod', ← h.word]
  exact fun j hj => hclear j (by omega)

section Examine

variable (hlt : req.blockAllocationBlocksLog2 < 6) (hi : i < b.imageBitmapWords)
  (hs : Placed b req pos s)
include hlt hi hs

theorem examineFreeWord_ok (hw : markedWord b req i = 0) :
    ∃ outcome, examineFreeWord req i s = .ok outcome ∧ StepFits b req pos outcome := by
  rw [examineFreeWord]
  split
  · rename_i hbest
    refine ⟨_, rfl, { hs with none := fun hnone => ?_ }⟩
    rw [hnone] at hbest
    cases hbest
  · have hnext : nextFullwordChunk req.allocatedFullwordChunks s.nextAllocatedFullwordChunk i =
        .ok none := by
      rw [hreq.chunks, hs.next]
      rfl
    rw [hnext, ok_bind]
    rw [if_neg (by rw [inFullwordChunk]; exact Bool.false_ne_true)]
    have hclear (j : Nat) : (markedWord b req i).getLsbD j = false := by
      rw [hw]
      exact BitVec.getLsbD_zero
    split
    · rename_i hopt
      refine ⟨_, rfl, { hs with
        next := rfl, best := ?_, optimized := fun _ => hopt, distance_pos := ?_, distance := ?_,
        none := ?_ }⟩
      · rintro c hc
        obtain rfl := Option.mem_some_iff.mp hc
        exact ⟨hi, hw.symm, splittable_zero, hlt, le_refl 6, .inl rfl⟩
      · exact succ_pos 15
      · exact fun hnone => (by cases hnone)
      · exact fun hnone => (by cases hnone)
    · refine ⟨_, rfl, ?_⟩
      have hfirst := (eligible_iff hvalid hreq hi (p := 0) (by omega) (zero_mod _)).mpr
        (fun j _ => hclear _)
      rwa [add_zero, mul_comm] at hfirst

theorem examineWord_ok {lsbsMask : BitmapWord}
    (hmask : IsLsbsMask req.blockAllocationBlocksLog2 lsbsMask) (hw : markedWord b req i ≠ 0)
    (hnone : (∀ block, block / 64 = i → ¬ Eligible b req block) → Searching b req pos s) :
    ∃ outcome, examineWord pr req lsbsMask i (markedWord b req i) s = .ok outcome ∧
      StepFits b req pos outcome := by
  obtain ⟨freeLsbs, hfree, hbits⟩ := freeBlocksLsbs_ok pr hmask (markedWord b req i)
  have hfound (p : Nat) (hp : freeLsbs.getLsbD p = true) : Eligible b req (i * 64 + p) := by
    obtain ⟨hp64, hmod, hclear⟩ := (hbits p).mp hp
    rw [mul_comm]
    exact (eligible_iff hvalid hreq hi hp64 hmod).mpr hclear
  rw [examineWord, hfree, ok_bind]
  split
  · rename_i hzero
    refine ⟨_, rfl, hnone fun block hblock => ?_⟩
    refine not_eligible_of_clear hvalid hreq hi (fun p hp hmod hclear => ?_) hblock
    have hbit := (hbits p).mpr ⟨hp, hmod, hclear⟩
    rw [hzero, show (0 : BitmapWord).getLsbD p = false from BitVec.getLsbD_zero] at hbit
    cases hbit
  · rename_i hne
    split
    · rename_i hopt
      obtain ⟨splitLog2, hsplit⟩ := blockAllocSplitBlockSizeLog2_ok pr
        (s.best.map Candidate.splitLog2) hmask hlt hbits hne hw
      have hsize := blockAllocSplitBlockSizeLog2_of_ok hbits hne hsplit
      rw [debugAssert_ok pr (fun c hc => (hs.best c hc).gt), ok_bind, hsplit, ok_bind]
      split
      · rename_i heq
        have hsplittable : Splittable (markedWord b req i) req.blockAllocationBlocksLog2 := by
          rw [← heq]
          apply splittable_of_splitSize hsize
          rintro split hbest
          obtain ⟨c, hc, rfl⟩ := Option.map_eq_some_iff.mp hbest
          rw [heq]
          exact (hs.best c hc).gt
        obtain ⟨g, hg, hunpaired⟩ := hsplittable
        obtain rfl := hg.unique hbits
        obtain ⟨pos', hpos'⟩ :=
          blockAllocSelectBlock_ok pr hmask hreq.log2_le hbits (fun _ => id) hunpaired (.inr hw)
        rw [hpos', ok_bind]
        exact ⟨_, rfl, hfound _ (blockAllocSelectBlock_of_ok hbits (fun _ => id) hunpaired hpos')⟩
      · rename_i hne'
        split
        · rename_i hless
          refine ⟨_, rfl, { hs with
            best := ?_, optimized := fun _ => hopt, distance_pos := ?_, distance := ?_, none := ?_ }⟩
          · rintro c hc
            obtain rfl := Option.mem_some_iff.mp hc
            have hmax := maxSplitLog2_le (s.best.map Candidate.splitLog2)
            refine ⟨hi, rfl, splittable_of_splitSize hsize ?_, ?_, ?_, .inr hw⟩
            · rintro split hbest
              obtain ⟨c, hc, rfl⟩ := Option.map_eq_some_iff.mp hbest
              exact hless c hc
            · exact lt_of_le_of_ne hsize.ge (Ne.symm hne')
            · rcases hsize.le with heq | hle
              · exact absurd heq hne'
              · exact le_trans hle (le_trans hmax (le_succ 5))
          · split
            · exact succ_pos 15
            · exact hs.distance_pos
          · exact fun hnone => (by cases hnone)
          · exact fun hnone => (by cases hnone)
        · rename_i hless
          refine ⟨_, rfl, { hs with none := fun hbest => ?_ }⟩
          rw [hbest] at hless
          exact absurd (fun c hc => by cases hc) hless
    · exact ⟨_, rfl, hfound _ (BitVec.getLsbD_true_ctz_of_ne_zero hne)⟩

end Examine

omit hreq in
theorem wrap_placed (hpos : pos.Valid b req) (hlt : pos.word < pos.limit b req)
    (hs : Searching b req pos s) {it : WordIter}
    (hit : it.At b.bitmap b.pendingAllocs b.pendingFrees (pos.word + 1))
    (hne : s.remainingDistance - 1 ≠ 0) :
    Placed b req (pos.advance b req) (wrap b req pos.word
      { s with
        bitmapWordsIter := it
        count := s.count - 1
        remainingDistance := s.remainingDistance - 1
        allocatedBlocks := blocksFrom (pos.word + 1) s.allocatedBlocks }) := by
  obtain ⟨-, hvisited, -⟩ := hpos.advance hlt
  have hcount := hs.count
  have hdistance (hbest : s.best = none) :
      b.imageBitmapWords < s.remainingDistance - 1 + (pos.advance b req).visitedWords b req := by
    have hdist := hs.distance hbest
    omega
  rw [wrap, Position.advance] at *
  split
  · rename_i hwrap
    rw [if_pos hwrap] at hdistance
    refine ⟨?_, ?_, ?_, hs.next, hs.best, hs.optimized, pos_of_ne_zero hne, hdistance⟩
    · exact newAtBitmapWordIndex_at b.bitmap hvalid.allocs_sorted hvalid.frees_sorted 0
    · exact zero_add _
    · exact (blocksFrom_zero _).symm
  · rename_i hwrap
    rw [if_neg hwrap] at hdistance
    refine ⟨hit, ?_, ?_, hs.next, hs.best, hs.optimized, pos_of_ne_zero hne, hdistance⟩
    · rw [show Position.limit b req ⟨pos.word + 1, pos.wrapped⟩ = pos.limit b req from rfl]
      dsimp only
      omega
    · rw [hs.blocks, blocksFrom_succ]

omit hvalid hreq in
theorem wrap_best (b : SearchedBitmap) (req : BlockRequest) (i : Nat) (s : BlockSearch) : (wrap b req i s).best = s.best := by
  rw [wrap]
  split <;> rfl

variable (hlt : req.blockAllocationBlocksLog2 < 6) {lsbsMask : BitmapWord}
  (hmask : IsLsbsMask req.blockAllocationBlocksLog2 lsbsMask)
include hlt hmask

variable (pr) in
theorem blockSearchStep_ok (hpos : pos.Valid b req) (hword : pos.word < pos.limit b req)
    (hs : Searching b req pos s) {it : WordIter}
    (hit : it.At b.bitmap b.pendingAllocs b.pendingFrees (pos.word + 1)) :
    ∃ outcome, blockSearchStep pr b req lsbsMask pos.word (b.word pos.word)
      { s with bitmapWordsIter := it, count := s.count - 1 } = .ok outcome ∧
        StepFits b req (pos.advance b req) outcome := by
  have hi := hpos.word_lt hword
  obtain ⟨hpos', hvisited, hvisits⟩ := hpos.advance hword
  rw [blockSearchStep, subU64_ok pr (succ_le_of_lt hs.distance_pos), ok_bind]
  dsimp only
  split
  · rename_i hzero
    have hbest : s.best ≠ none := by
      intro hnone
      have hdist := hs.distance hnone
      have hle := hpos'.visitedWords_le
      omega
    rw [debugAssert_ok pr ⟨hs.optimized hbest, Option.isSome_iff_ne_none.mpr hbest⟩, ok_bind]
    exact ⟨_, rfl, hbest, hs.best⟩
  · rename_i hne
    have hmark := (markAllocatedBlocks_spec hreq.log2_le
      (hreq.sorted.sublist (blocksFrom_sublist pos.word _))
      (fun block hmem => ge_of_mem_blocksFrom hreq.sorted hmem) (b.word pos.word)).1
    have hplaced := wrap_placed hvalid hpos hword hs hit hne
    have hsame := wrap_best b req pos.word
      { s with
        bitmapWordsIter := it
        count := s.count - 1
        remainingDistance := s.remainingDistance - 1
        allocatedBlocks := blocksFrom (pos.word + 1) s.allocatedBlocks }
    rw [hs.blocks] at hplaced hsame ⊢
    rw [hmark]
    generalize wrap b req pos.word _ = s' at hplaced hsame ⊢
    have hmarked : b.imageWord pos.word (markAllocatedBlocks req.blockAllocationBlocksLog2 pos.word
        (blocksFrom pos.word req.allocatedBlocks) (b.word pos.word)).2 = markedWord b req pos.word := rfl
    have hnone (hno : ∀ block, block / 64 = pos.word → ¬ Eligible b req block) :
        Searching b req (pos.advance b req) s' := by
      refine { hplaced with none := fun hbest block hvisit => ?_ }
      rw [hsame] at hbest
      rcases (hvisits _).mp hvisit with hvisit | heq
      · exact hs.none hbest block hvisit
      · exact hno block heq
    rw [hmarked]
    split
    · rename_i hfull
      refine ⟨_, rfl, hnone fun block => ?_⟩
      refine not_eligible_of_clear hvalid hreq hi fun p hp _ hclear => ?_
      have hbit := hclear 0 (Nat.two_pow_pos _)
      rw [hfull, BitVec.getLsbD_not, show (0 : BitmapWord).getLsbD (p + 0) = false from
        BitVec.getLsbD_zero, decide_eq_true (show p + 0 < 64 from hp)] at hbit
      cases hbit
    · split
      · rename_i hzero
        exact examineFreeWord_ok hvalid hreq hlt hi hplaced hzero
      · rename_i hne'
        exact examineWord_ok hvalid hreq hlt hi hplaced hmask hne' hnone

variable (pr) in
theorem blockSearchLoop_ok (fuel : Nat) (hpos : pos.Valid b req) (hs : Searching b req pos s)
    (hfuel : b.imageBitmapWords < pos.visitedWords b req + fuel) :
    ∃ outcome, blockSearchLoop pr b req lsbsMask fuel s = .ok outcome ∧ SearchFits b req outcome := by
  induction fuel generalizing pos s with
  | zero =>
    have hle := hpos.visitedWords_le
    omega
  | succ fuel ih =>
    have hcount := hs.count
    rw [blockSearchLoop]
    split
    · rename_i hzero
      refine ⟨_, rfl, hs.best, fun hbest block heligible => ?_⟩
      exact hs.none hbest block (hpos.visited_of_end (by omega) heligible.word_lt) heligible
    · rename_i hne
      have hword : pos.word < pos.limit b req := by omega
      have hcovered := hvalid.covered
      have hi := hpos.word_lt hword
      rw [imageBitmapWords] at hi
      have hyield := hs.iter_at.next hvalid.allocs_sorted hvalid.frees_sorted
      rw [if_pos (by omega)] at hyield
      obtain ⟨it, hnext, hit⟩ := hyield
      rw [hnext]
      dsimp only
      obtain ⟨outcome, hstep, hok⟩ :=
        blockSearchStep_ok pr hvalid hreq hlt hmask hpos hword hs hit
      rw [word] at hstep
      rw [hstep, ok_bind]
      obtain ⟨hpos', hvisited, -⟩ := hpos.advance hword
      cases outcome with
      | next s' => exact ih hpos' hok (by omega)
      | found block => exact ⟨_, rfl, hok⟩
      | stop s' => exact ⟨_, rfl, hok.2, fun hnone => absurd hnone hok.1⟩

omit hmask in
theorem findFreeBlock_ok_of_lt (hassert : debugAssert pr
    (req.searchBeginBitmapWordIndex < b.imageBitmapWords) = .ok ()) :
    ∃ r, findFreeBlock pr b req = .ok r ∧ Answers b req r := by
  have hpow : 2 ^ req.blockAllocationBlocksLog2 < 2 ^ 6 := Nat.pow_lt_pow_right (by omega) hlt
  have hbegin : req.searchBeginBitmapWordIndex ≤ b.imageBitmapWords := by
    rw [BlockRequest.searchBeginBitmapWordIndex]
    split
    · exact zero_le _
    · rename_i block hblock
      have hin := hreq.begin_lt block hblock
      rw [imageBitmapWords]
      split <;> omega
  have hbegin' : req.searchBeginBitmapWordIndex < b.imageBitmapWords ∨
      req.searchBeginBitmapWordIndex = 0 ∧ req.searchBeginBitmapWordIndex = b.imageBitmapWords := by
    rw [BlockRequest.searchBeginBitmapWordIndex] at *
    split
    · omega
    · rename_i block hblock
      have hin := hreq.begin_lt block hblock
      rw [imageBitmapWords]
      left
      split <;> omega
  obtain ⟨lsbsMask, hlsbs, hmask⟩ := getBlocksLsbsMask_ok hreq.log2_le
  have hs : Searching b req ⟨req.searchBeginBitmapWordIndex, false⟩
      ⟨b.wordIterAt req.searchBeginBitmapWordIndex,
        b.imageBitmapWords - req.searchBeginBitmapWordIndex,
        blocksFrom req.searchBeginBitmapWordIndex req.allocatedBlocks, none, none,
        b.imageBitmapWords + 1⟩ := by
    refine ⟨⟨?_, ?_, rfl, rfl, fun c hc => (by cases hc), fun hbest => absurd rfl hbest,
      succ_pos _, fun _ => ?_⟩, fun _ block hvisit => ?_⟩
    · exact newAtBitmapWordIndex_at b.bitmap hvalid.allocs_sorted hvalid.frees_sorted _
    · exact Nat.add_sub_cancel' hbegin
    · exact lt_of_lt_of_le (lt_succ_self _) (Nat.le_add_right _ _)
    · simp only [Position.Visited, Bool.false_eq_true, if_false] at hvisit
      omega
  have hcovered := hvalid.covered
  have hpos : Position.Valid b req ⟨req.searchBeginBitmapWordIndex, false⟩ := by
    simpa only [Position.Valid, Bool.false_eq_true, if_false, le_refl, true_and] using hbegin'
  obtain ⟨outcome, hloop, hok⟩ := blockSearchLoop_ok pr hvalid hreq hlt hmask
    (2 * b.bitmap.bitmap.length + 2) hpos hs
    (by rw [imageBitmapWords]; omega)
  rw [findFreeBlock, debugAssert_ok pr (by omega), ok_bind, if_neg (by omega)]
  dsimp only
  rw [hassert, ok_bind, hlsbs, ok_bind, subU64_ok pr hbegin, ok_bind, debugAssert_ok pr hreq.sorted,
    ok_bind]
  rw [blocksFrom] at hloop
  rw [hloop, ok_bind]
  have hselect (s : BlockSearch) (hs : (∀ c ∈ s.best, CandidateFits b req c) ∧
      (s.best = none → ∀ block, ¬ Eligible b req block)) :
      ∃ r, s.select pr = .ok r ∧ Answers b req r := by
    rw [select]
    split
    · rename_i hbest
      exact ⟨none, rfl, hs.2 hbest⟩
    · rename_i c hc
      obtain ⟨block, hblock, heligible⟩ := (hs.1 c hc).selected hvalid hreq pr
      rw [hblock, ok_bind]
      exact ⟨_, rfl, heligible⟩
  cases outcome with
  | found block => exact ⟨_, rfl, hok⟩
  | stop s => exact hselect s hok
  | next s => exact hselect s hok

end Search

/-- What is passed are the blocks of the words before, and one of the word's own. -/
theorem passAllocatedBlocks_spec (i : Nat) {blocks : List Nat} (hsorted : blocks.Pairwise (· ≤ ·)) :
    ((passAllocatedBlocks i blocks).1 = true ↔ ∃ block ∈ blocks, block / 64 = i) ∧
      (passAllocatedBlocks i blocks).2.Sublist blocks ∧
        ∀ block ∈ blocks, i < block / 64 → block ∈ (passAllocatedBlocks i blocks).2 := by
  induction blocks with
  | nil =>
    rw [passAllocatedBlocks]
    simp
  | cons head blocks ih =>
    obtain ⟨hhead, hsorted⟩ := pairwise_cons.mp hsorted
    obtain ⟨hany, hsub, hrest⟩ := ih hsorted
    rw [passAllocatedBlocks]
    split
    · rename_i hlt
      rw [Nat.compare_eq_lt] at hlt
      refine ⟨?_, hsub.cons _, fun block hmem hbeyond => ?_⟩
      · rw [hany, exists_mem_cons_iff, or_iff_right (by omega)]
      · rcases mem_cons.mp hmem with rfl | hmem
        · omega
        · exact hrest block hmem hbeyond
    · rename_i heq
      rw [Nat.compare_eq_eq] at heq
      refine ⟨⟨fun _ => ⟨head, mem_cons_self .., heq⟩, fun _ => rfl⟩,
        sublist_cons_self _ _, fun block hmem hbeyond => ?_⟩
      rcases mem_cons.mp hmem with rfl | hmem
      · omega
      · exact hmem
    · rename_i hgt
      rw [Nat.compare_eq_gt] at hgt
      refine ⟨⟨fun hfalse => (by cases hfalse), ?_⟩, List.Sublist.refl _, fun block hmem _ => hmem⟩
      rintro ⟨block, hmem, heq⟩
      rcases mem_cons.mp hmem with rfl | hmem
      · omega
      · have hle := hhead block hmem
        omega

section FullwordBlocks

variable {b : SearchedBitmap} {req : BlockRequest} (hvalid : b.Valid) (hreq : Searchable b req)
  (hlog2 : req.blockAllocationBlocksLog2 = 6)
include hreq hlog2

theorem eligible_word_iff {i : Nat} (hi : 64 * (i + 1) ≤ b.imageSize) :
    Eligible b req (i * 64) ↔ b.word i = 0 ∧ ∀ block ∈ req.allocatedBlocks, block / 64 ≠ i := by
  constructor
  · rintro ⟨-, -, hfree, hapart⟩
    rw [hlog2] at hfree hapart
    refine ⟨?_, fun block hmem heq => ?_⟩
    · apply BitVec.eq_of_getLsbD_eq
      intro p hp
      have hbit := (hfree p hp).2
      rw [show (i * 64 + p) / 64 = i by omega, show (i * 64 + p) % 64 = p by omega] at hbit
      rw [hbit, show (0 : BitmapWord).getLsbD p = false from BitVec.getLsbD_zero]
    · rcases hapart block hmem with hle | hle <;> omega
  · rintro ⟨hzero, hlisted⟩
    refine ⟨?_, ?_, fun j hj => ⟨?_, ?_⟩, fun block hmem => ?_⟩
    · rw [hlog2]
      exact mul_mod_left i 64
    · rw [hlog2]
      omega
    · rw [hlog2] at hj
      omega
    · rw [hlog2] at hj
      rw [show (i * 64 + j) / 64 = i by omega, hzero]
      exact BitVec.getLsbD_zero
    · have hne := hlisted block hmem
      have hone := hreq.one_word block hmem
      rw [hlog2] at hone ⊢
      omega

theorem fullwordBlockLoop_ok {items : List (Nat × BitmapWord)} {n : Nat} {blocks : List Nat}
    (hitems : items = (List.range' n items.length).map (fun i => (i, b.word i)))
    (hlen : n + items.length = b.imageSize / 64) (hsub : blocks.Sublist req.allocatedBlocks)
    (hblocks : ∀ block ∈ req.allocatedBlocks, n ≤ block / 64 → block ∈ blocks)
    (hnone : ∀ i < n, ¬ Eligible b req (i * 64)) :
    ∃ r, fullwordBlockLoop none items blocks none = .ok r ∧ Answers b req r := by
  induction items generalizing n blocks with
  | nil =>
    refine ⟨none, rfl, fun s heligible => ?_⟩
    have haligned := heligible.aligned
    have himage := heligible.in_image
    rw [hlog2] at haligned himage
    rw [length_nil] at hlen
    refine hnone (s / 64) (by omega) ?_
    rwa [show s / 64 * 64 = s by omega]
  | cons item items ih =>
    obtain ⟨i, w⟩ := item
    rw [length_cons, range'_succ, map_cons, List.cons.injEq] at hitems
    obtain ⟨hitem, hitems⟩ := hitems
    obtain ⟨rfl, rfl⟩ := Prod.mk.inj hitem
    rw [length_cons] at hlen
    have heligible := eligible_word_iff hreq hlog2 (show 64 * (i + 1) ≤ b.imageSize by omega)
    have hnone' (hno : ¬ Eligible b req (i * 64)) (j : Nat) (hj : j < i + 1) :
        ¬ Eligible b req (j * 64) := by
      rcases lt_or_eq_of_le (le_of_lt_succ hj) with hlt | rfl
      · exact hnone j hlt
      · exact hno
    rw [fullwordBlockLoop]
    split
    · rename_i hzero
      obtain ⟨hany, hsub', hrest⟩ := passAllocatedBlocks_spec i (hreq.sorted.sublist hsub)
      have hblocks' (block : Nat) (hmem : block ∈ req.allocatedBlocks) (hge : i + 1 ≤ block / 64) :=
        hrest block (hblocks block hmem (by omega)) hge
      dsimp only
      split
      · rename_i hpassed
        obtain ⟨block, hmem, heq⟩ := hany.mp hpassed
        refine ih hitems (by omega) (hsub'.trans hsub) hblocks' (hnone' fun hel => ?_)
        exact (heligible.mp hel).2 block (hsub.subset hmem) heq
      · rename_i hpassed
        have hnext : nextFullwordChunk none none i = .ok none := rfl
        rw [hnext, ok_bind, if_neg (by rw [inFullwordChunk]; exact Bool.false_ne_true)]
        refine ⟨_, rfl, heligible.mpr ⟨hzero, fun block hmem heq => hpassed ?_⟩⟩
        exact hany.mpr ⟨block, hblocks block hmem (by omega), heq⟩
    · rename_i hne
      exact ih hitems (by omega) hsub (fun block hmem hge => hblocks block hmem (by omega))
        (hnone' fun hel => hne (heligible.mp hel).1)

include hvalid in
theorem findFreeFullwordBlock_ok :
    ∃ r, findFreeFullwordBlock b req.allocatedBlocks none = .ok r ∧ Answers b req r := by
  have hcovered := hvalid.covered
  have hat := newAtBitmapWordIndex_at b.bitmap hvalid.allocs_sorted hvalid.frees_sorted 0
  have htake := hat.take hvalid.allocs_sorted hvalid.frees_sorted (b.imageSize / 64)
  rw [Nat.sub_zero, min_eq_left (by omega)] at htake
  have hlen := congrArg List.length htake
  rw [length_map, length_range'] at hlen
  rw [findFreeFullwordBlock, wordIterAt]
  refine fullwordBlockLoop_ok hreq hlog2 (n := 0) ?_ ?_ (List.Sublist.refl _) (fun _ hmem _ => hmem)
    fun i hi => (by omega)
  · rw [hlen, htake]
    rfl
  · rw [hlen, zero_add]

end FullwordBlocks

/-- A block found is a free one apart from the listed ones, and if none is found, there is
none. In an image of any blocks, the search comes to an end. -/
theorem findFreeBlock_answers (pr : Profile) {b : SearchedBitmap} {req : BlockRequest}
    (hvalid : b.Valid) (hreq : Searchable b req) :
    (∀ r, findFreeBlock pr b req = .ok r → Answers b req r) ∧
      (0 < b.imageSize → ∃ r, findFreeBlock pr b req = .ok r ∧ Answers b req r) := by
  rcases lt_or_eq_of_le hreq.log2_le with hlt | heq
  · refine ⟨fun r hr => ?_, fun hpos => ?_⟩
    · obtain ⟨-, -, h⟩ := bind_eq_ok hr
      have hpow : 2 ^ req.blockAllocationBlocksLog2 < 2 ^ 6 := Nat.pow_lt_pow_right (by omega) hlt
      rw [if_neg (by omega)] at h
      obtain ⟨⟨⟩, hassert, -⟩ := bind_eq_ok h
      obtain ⟨r', hr', hanswers⟩ := findFreeBlock_ok_of_lt hvalid hreq hlt hassert
      cases hr'.symm.trans hr
      exact hanswers
    · refine findFreeBlock_ok_of_lt hvalid hreq hlt (debugAssert_ok pr ?_)
      rw [BlockRequest.searchBeginBitmapWordIndex, imageBitmapWords]
      split
      · omega
      · rename_i block hblock
        have hin := hreq.begin_lt block hblock
        split <;> omega
  · have hok : ∃ r, findFreeBlock pr b req = .ok r ∧ Answers b req r := by
      rw [findFreeBlock, debugAssert_ok pr (by rw [heq]; decide), ok_bind, if_pos (by rw [heq]; rfl),
        hreq.chunks]
      exact findFreeFullwordBlock_ok hvalid hreq heq
    obtain ⟨r, hr, hanswers⟩ := hok
    refine ⟨fun r' hr' => ?_, fun _ => ⟨r, hr, hanswers⟩⟩
    cases hr.symm.trans hr'
    exact hanswers

/-- The blocks 4 to 7 are free, and all of the second word. The search begins with the latter. -/
def wrapBitmap : SearchedBitmap := ⟨⟨[~~~0xF0#64, 0], by decide⟩, [], [], 128⟩

def wrapRequest : BlockRequest := ⟨2, [64, 68], none, some 70, true⟩

theorem wrapBitmap_valid : wrapBitmap.Valid :=
  ⟨fun es hes => (by cases hes), fun es hes => (by cases hes), by decide⟩

theorem wrapRequest_searchable : Searchable wrapBitmap wrapRequest := by
  refine ⟨by decide, rfl, by decide, fun block hmem => ?_, fun block hmem => ?_⟩
  · have haligned : ∀ block ∈ wrapRequest.allocatedBlocks, block % 64 % 2 ^ 2 = 0 := by decide
    exact aligned_end_le (by decide) (mod_lt _ (by decide)) (haligned block hmem)
  · obtain rfl := Option.mem_some_iff.mp hmem
    decide

theorem findFreeBlock_answers_wrap :
    (∀ r, findFreeBlock .debug wrapBitmap wrapRequest = .ok r → Answers wrapBitmap wrapRequest r) ∧
      (0 < wrapBitmap.imageSize → ∃ r, findFreeBlock .debug wrapBitmap wrapRequest = .ok r ∧
        Answers wrapBitmap wrapRequest r) :=
  findFreeBlock_answers .debug wrapBitmap_valid wrapRequest_searchable

end CocoonFs.BlockSearchCompleteness
