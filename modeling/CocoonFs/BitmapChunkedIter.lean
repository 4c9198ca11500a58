import CocoonFs.BitmapWordIters

namespace CocoonFs.BitmapChunkedIter

open Bitmap BitmapWordIters SparseBitmap SparseEntries List BitVec

def lookupEntries (bitmapWordIndex : Nat) (es : List Entry) : List Entry :=
  match findEntryPosition es bitmapWordIndex with
  | .ok i => es.drop i
  | .error i => es.drop i

/-- SparseAllocBitmapUnionWordIterator::goto_bitmap_word_index, on a single one of the
bitmaps and the entries it has left: the trivial cases are handled without a lookup. -/
def gotoEntries (bitmapWordIndex : Nat) (es left : List Entry) : List Entry :=
  match left with
  | [] => lookupEntries bitmapWordIndex es
  | e :: rest =>
    if e.bitmapWordIndex = bitmapWordIndex then e :: rest
    else if e.bitmapWordIndex + 1 = bitmapWordIndex then rest
    else lookupEntries bitmapWordIndex es

def unionGoto (bitmaps its : List (List Entry)) (bitmapWordIndex : Nat) : List (List Entry) :=
  List.zipWith (gotoEntries bitmapWordIndex) bitmaps its

/-- AllocBitmapWordIterator::goto_bitmap_word_index -/
def gotoWord (pendingAllocs pendingFrees : List (List Entry)) (bitmapWordIndex : Nat)
    (it : WordIter) : WordIter :=
  if it.nextBitmapWordIndex = bitmapWordIndex then it
  else
    let (nextAlloc, allocs) := unionNext (unionGoto pendingAllocs it.pendingAllocsIter bitmapWordIndex)
    let (nextFree, frees) := unionNext (unionGoto pendingFrees it.pendingFreesIter bitmapWordIndex)
    ⟨it.bitmap, allocs, nextAlloc, frees, nextFree, bitmapWordIndex⟩

/-- AllocBitmapChunkedIterator, with the unions of bitmaps its word iterator refers to. -/
structure ChunkedIterator where
  pendingAllocs : List (List Entry)
  pendingFrees : List (List Entry)
  bitmapWordIter : WordIter
  curBitmapWord : Option BitmapWord
  nextPosInCurBitmapWord : Nat
  chunkAllocationBlocks : Nat

namespace ChunkedIterator

def newAt (a : AllocBitmap) (pendingAllocs pendingFrees : List (List Entry))
    (first chunkAllocationBlocks : Nat) : ChunkedIterator :=
  let (item, it) := (WordIter.newAtBitmapWordIndex a pendingAllocs pendingFrees (first / 64)).next
  ⟨pendingAllocs, pendingFrees, it, item.map Prod.snd, first % 64, chunkAllocationBlocks⟩

def goto (it : ChunkedIterator) (block : Nat) : ChunkedIterator :=
  let (item, words) :=
    (gotoWord it.pendingAllocs it.pendingFrees (block / 64) it.bitmapWordIter).next
  { it with
    bitmapWordIter := words
    curBitmapWord := item.map Prod.snd
    nextPosInCurBitmapWord := block % 64 }

def next (it : ChunkedIterator) : Option BitmapWord × ChunkedIterator :=
  match it.curBitmapWord with
  | none => (none, it)
  | some cur =>
    let chunk := cur >>> it.nextPosInCurBitmapWord
    let pos := it.nextPosInCurBitmapWord + it.chunkAllocationBlocks
    let mask := trailingBitsMask it.chunkAllocationBlocks
    if pos ≥ 64 then
      let (item, words) := it.bitmapWordIter.next
      let cur := item.map Prod.snd
      let chunk := if pos - 64 > 0 then
          chunk ||| cur.getD 0 <<< (it.chunkAllocationBlocks - (pos - 64))
        else
          chunk
      (some (chunk &&& mask),
        { it with
          bitmapWordIter := words
          curBitmapWord := cur
          nextPosInCurBitmapWord := pos - 64 })
    else
      (some (chunk &&& mask), { it with nextPosInCurBitmapWord := pos })

end ChunkedIterator

/-- Whether a block is allocated once what is pending has been applied. There are no
blocks past the bitmap. -/
def pendingAllocated (a : AllocBitmap) (allocs frees : List (List Entry)) (p : Nat) : Bool :=
  decide (p < a.bitmap.length * 64) && ((a.allocated p || allocs.any (fun es => tracked es p)) &&
    !frees.any (fun es => tracked es p))

/-- The iterators there are after some calls, along with their positions. -/
inductive Reached (a : AllocBitmap) (allocs frees : List (List Entry)) (first chunk : Nat) :
    ChunkedIterator → Nat → Prop
  | newAt : Reached a allocs frees first chunk (.newAt a allocs frees first chunk) first
  | next {it : ChunkedIterator} {q : Nat} (h : Reached a allocs frees first chunk it q)
      {w : BitmapWord} (hw : it.next.1 = some w) :
      Reached a allocs frees first chunk it.next.2 (q + chunk)
  | exhausted {it : ChunkedIterator} {q : Nat} (h : Reached a allocs frees first chunk it q)
      (hnone : it.next.1 = none) : Reached a allocs frees first chunk it.next.2 q
  | goto {it : ChunkedIterator} {q : Nat} (h : Reached a allocs frees first chunk it q)
      (block : Nat) : Reached a allocs frees first chunk (it.goto block) block

theorem lookupEntries_eq {es : List Entry} (h : Sorted es) (n : Nat) :
    lookupEntries n es = entriesFrom n es := by
  have hunion : unionIterAt [es] n = [es].map (entriesFrom n) := unionIterAt_eq (by simpa using h) n
  exact head_eq_of_cons_eq hunion

theorem gotoEntries_eq {es : List Entry} (h : Sorted es) (n k : Nat) :
    gotoEntries n es (entriesFrom k es) = entriesFrom n es := by
  have hsorted := sorted_entriesFrom h k
  rw [gotoEntries.eq_def]
  cases hleft : entriesFrom k es with
  | nil => exact lookupEntries_eq h n
  | cons e rest =>
    rw [hleft] at hsorted
    obtain ⟨hhead, -⟩ := pairwise_cons.mp hsorted
    have hke : k ≤ e.bitmapWordIndex :=
      (mem_entriesFrom.mp (hleft ▸ mem_cons_self ..)).2
    dsimp only
    by_cases hat : e.bitmapWordIndex = n
    · rw [if_pos hat, ← hleft]
      refine entriesFrom_eq (hat ▸ hke) (fun f hf hkf => ?_)
      have hmem := mem_entriesFrom.mpr ⟨hf, hkf⟩
      rw [hleft] at hmem
      rcases mem_cons.mp hmem with rfl | hmem
      · exact hat.ge
      · exact hat ▸ (hhead f hmem).le
    · rw [if_neg hat]
      by_cases hbefore : e.bitmapWordIndex + 1 = n
      · rw [if_pos hbefore, ← entriesFrom_entriesFrom es (show k ≤ n by omega), hleft, entriesFrom,
          filter_cons_of_neg (by simp; omega), filter_eq_self.mpr]
        intro f hf
        have := hhead f hf
        exact decide_eq_true (by omega)
      · rw [if_neg hbefore]
        exact lookupEntries_eq h n

section Union

variable {bitmaps : List (List Entry)} (h : ∀ es ∈ bitmaps, Sorted es)
include h

theorem unionGoto_eq (n k : Nat) :
    unionGoto bitmaps (bitmaps.map (entriesFrom k)) n = bitmaps.map (entriesFrom n) := by
  rw [unionGoto]
  induction bitmaps with
  | nil => rfl
  | cons es bitmaps ih =>
    obtain ⟨hes, hrest⟩ := forall_mem_cons.mp h
    rw [map_cons, zipWith_cons_cons, gotoEntries_eq hes, ih hrest, map_cons]

theorem exists_left {n : Nat} {next : Option Entry} {its : List (List Entry)}
    (hpending : Pending bitmaps n next its) : ∃ k, its = bitmaps.map (entriesFrom k) := by
  rcases unionNext_entriesFrom h n with ⟨-, hnone⟩ | ⟨m, -, -, hsome⟩
  · exact ⟨n, (Prod.mk.inj (hpending.symm.trans hnone)).2⟩
  · exact ⟨m + 1, (Prod.mk.inj (hpending.symm.trans hsome)).2⟩

theorem unionWord_bit (p : Nat) : (unionWord bitmaps (p / 64)).getLsbD (p % 64) =
    bitmaps.any (fun es => tracked es p) := by
  induction bitmaps with
  | nil => exact getLsbD_zero
  | cons es bitmaps ih =>
    obtain ⟨hes, hrest⟩ := forall_mem_cons.mp h
    rw [unionWord, getLsbD_or, ih hrest, any_cons, tracked_eq hes]

end Union

section Iterator

variable {a : AllocBitmap} {allocs frees : List (List Entry)} {first c q : Nat}
  {it : ChunkedIterator} (ha : ∀ es ∈ allocs, Sorted es) (hf : ∀ es ∈ frees, Sorted es)
include ha hf

theorem gotoWord_at {it : WordIter} {n : Nat} (h : it.At a allocs frees n) (m : Nat) :
    (gotoWord allocs frees m it).At a allocs frees m := by
  rw [gotoWord]
  split
  next heq =>
    rw [h.index_eq] at heq
    rwa [← heq]
  · obtain ⟨k, hk⟩ := exists_left ha h.allocs_pending
    obtain ⟨l, hl⟩ := exists_left hf h.frees_pending
    rw [hk, hl, unionGoto_eq ha, unionGoto_eq hf]
    exact ⟨h.bitmap_eq, rfl, rfl, rfl⟩

theorem combinedWord_bit {p : Nat} (hp : p / 64 < a.bitmap.length) :
    (combinedWord a allocs frees (p / 64)).getLsbD (p % 64) = pendingAllocated a allocs frees p := by
  have hmod : p % 64 < 64 := Nat.mod_lt p (by decide)
  rw [combinedWord, getLsbD_and, getLsbD_or, BitVec.getLsbD_not, unionWord_bit ha,
    unionWord_bit hf, pendingAllocated, decide_eq_true hmod, decide_eq_true (by omega), Bool.true_and,
    Bool.true_and, AllocBitmap.allocated]

omit ha hf in
theorem pendingAllocated_of_le {p : Nat} (hp : a.bitmap.length ≤ p / 64) :
    pendingAllocated a allocs frees p = false := by
  rw [pendingAllocated, decide_eq_false (by omega), Bool.false_and]


def wordAt? (a : AllocBitmap) (allocs frees : List (List Entry)) (n : Nat) : Option BitmapWord :=
  if n < a.bitmap.length then some (combinedWord a allocs frees n) else none

/-- An iterator at some block: it has fetched the block's word already. -/
structure ChunkedIterator.At (it : ChunkedIterator) (a : AllocBitmap)
    (allocs frees : List (List Entry)) (c q : Nat) : Prop where
  allocs_eq : it.pendingAllocs = allocs
  frees_eq : it.pendingFrees = frees
  chunk_eq : it.chunkAllocationBlocks = c
  pos_eq : it.nextPosInCurBitmapWord = q % 64
  cur_eq : it.curBitmapWord = wordAt? a allocs frees (q / 64)
  words_at : ∃ n, it.bitmapWordIter.At a allocs frees n ∧
    (q / 64 < a.bitmap.length → n = q / 64 + 1)

theorem fetch_ok {it : WordIter} {n : Nat} (h : it.At a allocs frees n) :
    it.next.1.map Prod.snd = wordAt? a allocs frees n ∧
      ∃ m, it.next.2.At a allocs frees m ∧ (n < a.bitmap.length → m = n + 1) := by
  have hnext := h.next ha hf
  rw [wordAt?]
  split at hnext
  next hlt =>
    obtain ⟨it', hit, hat⟩ := hnext
    rw [hit, if_pos hlt]
    exact ⟨rfl, n + 1, hat, fun _ => rfl⟩
  next hge =>
    rw [hnext, if_neg hge]
    exact ⟨rfl, n, h, fun hlt => absurd hlt hge⟩

theorem newAt_at (first c : Nat) :
    (ChunkedIterator.newAt a allocs frees first c).At a allocs frees c first := by
  obtain ⟨hcur, hwords⟩ := fetch_ok ha hf (newAtBitmapWordIndex_at a ha hf (first / 64))
  exact ⟨rfl, rfl, rfl, rfl, hcur, hwords⟩

theorem ChunkedIterator.At.goto (h : it.At a allocs frees c q) (block : Nat) :
    (it.goto block).At a allocs frees c block := by
  obtain ⟨n, hat, -⟩ := h.words_at
  obtain ⟨hcur, hwords⟩ := fetch_ok ha hf (gotoWord_at ha hf hat (block / 64))
  rw [ChunkedIterator.goto, h.allocs_eq, h.frees_eq]
  exact ⟨rfl, rfl, h.chunk_eq, rfl, hcur, hwords⟩

theorem chunk_bit {i : Nat} (hi : q % 64 + i < 64) (hq : q / 64 < a.bitmap.length) :
    (combinedWord a allocs frees (q / 64)).getLsbD (q % 64 + i) =
      pendingAllocated a allocs frees (q + i) := by
  have hdiv : (q + i) / 64 = q / 64 := by omega
  have hmod : (q + i) % 64 = q % 64 + i := by omega
  have hbit := combinedWord_bit (a := a) ha hf (p := q + i) (by omega)
  rwa [hdiv, hmod] at hbit

theorem nextChunk_bit {i : Nat} (hi : 64 ≤ q % 64 + i) (hi' : i < 64) :
    ((wordAt? a allocs frees (q / 64 + 1)).getD 0).getLsbD (q % 64 + i - 64) =
      pendingAllocated a allocs frees (q + i) := by
  have hdiv : (q + i) / 64 = q / 64 + 1 := by omega
  have hmod : (q + i) % 64 = q % 64 + i - 64 := by omega
  rw [wordAt?]
  split
  next hlt =>
    have hbit := combinedWord_bit (a := a) ha hf (p := q + i) (by omega)
    rwa [hdiv, hmod] at hbit
  next hge =>
    rw [pendingAllocated_of_le (by omega)]
    exact getLsbD_zero

theorem ChunkedIterator.At.next (h : it.At a allocs frees c q) (hc : c ≤ 64)
    (hq : q / 64 < a.bitmap.length) :
    ∃ w, it.next.1 = some w ∧ it.next.2.At a allocs frees c (q + c) ∧
      ∀ i, w.getLsbD i = (decide (i < c) && pendingAllocated a allocs frees (q + i)) := by
  obtain ⟨n, hat, hn⟩ := h.words_at
  obtain rfl := hn hq
  have hcur : it.curBitmapWord = some (combinedWord a allocs frees (q / 64)) := by
    rw [h.cur_eq, wordAt?, if_pos hq]
  rw [ChunkedIterator.next, hcur]
  dsimp only
  rw [h.pos_eq, h.chunk_eq]
  by_cases hcross : q % 64 + c ≥ 64
  · rw [if_pos hcross]
    obtain ⟨hfetched, m, hat', hm⟩ := fetch_ok ha hf hat
    have hpos : (q + c) % 64 = q % 64 + c - 64 := by omega
    have hword : (q + c) / 64 = q / 64 + 1 := by omega
    refine ⟨_, rfl, ⟨h.allocs_eq, h.frees_eq, rfl, hpos.symm, ?_, m, hat', ?_⟩, fun i => ?_⟩
    · rw [hword]
      exact hfetched
    · rw [hword]
      exact hm
    · rw [getLsbD_and, getLsbD_trailingBitsMask hc, Bool.and_comm]
      by_cases hi : i < c
      · rw [decide_eq_true hi, Bool.true_and, Bool.true_and, hfetched]
        rcases lt_or_ge (q % 64 + i) 64 with hlt | hge
        · have hlow : (combinedWord a allocs frees (q / 64) >>> (q % 64)).getLsbD i =
              pendingAllocated a allocs frees (q + i) := by
            rw [getLsbD_ushiftRight, chunk_bit ha hf hlt hq]
          split
          · have hshift : i < c - (q % 64 + c - 64) := by omega
            rw [getLsbD_or, getLsbD_shiftLeft, decide_eq_true hshift, Bool.not_true,
              Bool.and_false, Bool.false_and, Bool.or_false, hlow]
          · exact hlow
        · have hshift : ¬i < c - (q % 64 + c - 64) := by omega
          have hindex : i - (c - (q % 64 + c - 64)) = q % 64 + i - 64 := by omega
          rw [if_pos (by omega), getLsbD_or, getLsbD_shiftLeft, decide_eq_false hshift,
            decide_eq_true (by omega), Bool.not_false, Bool.true_and, Bool.true_and, hindex,
            nextChunk_bit ha hf hge (by omega), getLsbD_ushiftRight,
            getLsbD_of_ge _ _ hge, Bool.false_or]
      · rw [decide_eq_false hi, Bool.false_and, Bool.false_and]
  · rw [if_neg hcross]
    have hpos : (q + c) % 64 = q % 64 + c := by omega
    have hword : (q + c) / 64 = q / 64 := by omega
    refine ⟨_, rfl, ⟨h.allocs_eq, h.frees_eq, rfl, hpos.symm, ?_, _, hat, ?_⟩, fun i => ?_⟩
    · rw [hword]
      exact hcur.symm.trans h.cur_eq
    · rw [hword]
      exact fun _ => rfl
    · rw [getLsbD_masked hc]
      by_cases hi : i < c
      · rw [chunk_bit ha hf (by omega) hq]
      · rw [decide_eq_false hi, Bool.false_and, Bool.false_and]

omit ha hf in
theorem ChunkedIterator.At.exhausted (h : it.At a allocs frees c q)
    (hq : a.bitmap.length ≤ q / 64) : it.next = (none, it) := by
  have hcur : it.curBitmapWord = none := by
    rw [h.cur_eq, wordAt?, if_neg (not_lt.mpr hq)]
  rw [ChunkedIterator.next, hcur]

theorem Reached.at (hc : c ≤ 64) (h : Reached a allocs frees first c it q) :
    it.At a allocs frees c q := by
  induction h with
  | newAt => exact newAt_at ha hf first c
  | @next it q _ w hw ih =>
    rcases lt_or_ge (q / 64) a.bitmap.length with hq | hq
    · obtain ⟨-, -, hat, -⟩ := ih.next ha hf hc hq
      exact hat
    · rw [ih.exhausted hq] at hw
      cases hw
  | @exhausted it q _ hnone ih =>
    rcases lt_or_ge (q / 64) a.bitmap.length with hq | hq
    · obtain ⟨w, hw, -⟩ := ih.next ha hf hc hq
      rw [hnone] at hw
      cases hw
    · rw [ih.exhausted hq]
      exact ih
  | goto _ block ih => exact ih.goto ha hf block

/-- Each call to next yields the bits at the iterator's position, for any calls before,
and there is nothing left only past the bitmap's last word. -/
theorem chunked_next_spec (hc : c ≤ 64) (h : Reached a allocs frees first c it q) :
    (∀ w, it.next.1 = some w → ∀ i, w.getLsbD i =
      (decide (i < c) && pendingAllocated a allocs frees (q + i))) ∧
    (it.next.1 = none ↔ a.bitmap.length ≤ q / 64) := by
  have hat := h.at ha hf hc
  rcases lt_or_ge (q / 64) a.bitmap.length with hq | hq
  · obtain ⟨w, hw, -, hbits⟩ := hat.next ha hf hc hq
    rw [hw]
    refine ⟨fun w' hw' => ?_, iff_of_false (Option.some_ne_none w) (not_le.mpr hq)⟩
    cases hw'
    exact hbits
  · rw [hat.exhausted hq]
    exact ⟨fun w hw => (by cases hw), iff_of_true rfl hq⟩

end Iterator

/-- A jump back across an entry, after the one for the last word has been consumed. -/
theorem chunked_next_spec_jump :
    let a : AllocBitmap := ⟨[0, 0], by decide⟩
    let allocs : List (List Entry) := [[⟨0, 1#64⟩, ⟨1, 6#64⟩]]
    let it := ((ChunkedIterator.newAt a allocs [] 60 10).next.2.goto 62)
    (∀ w, it.next.1 = some w → ∀ i, w.getLsbD i =
      (decide (i < 10) && pendingAllocated a allocs [] (62 + i))) ∧
    (it.next.1 = none ↔ 2 ≤ 62 / 64) := by
  have hsorted : ∀ es ∈ [[(⟨0, 1#64⟩ : Entry), ⟨1, 6#64⟩]], Sorted es := by decide
  exact chunked_next_spec hsorted (fun es hes => by cases hes) (by decide)
    (.goto (.next .newAt rfl) 62)

end CocoonFs.BitmapChunkedIter
