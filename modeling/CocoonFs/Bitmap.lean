import CocoonFs.BlockRuns
import CocoonFs.Checked
import Mathlib.Data.Nat.Bitwise

namespace CocoonFs.Bitmap

open BlockRuns List Nat

abbrev BitmapWord := BitVec 64

/-- BitManip::trailing_bits_mask -/
def trailingBitsMask (count : Nat) : BitmapWord :=
  (1#64 <<< (count % 64) - 1#64) - BitVec.ofNat 64 (count / 64)

structure AllocBitmap where
  bitmap : List BitmapWord
  length_le : bitmap.length ≤ 2 ^ 51

namespace AllocBitmap

def word (a : AllocBitmap) (i : Nat) : BitmapWord := a.bitmap[i]?.getD 0

def allocated (a : AllocBitmap) (block : Nat) : Bool := (a.word (block / 64)).getLsbD (block % 64)

end AllocBitmap

/-- SparseAllocBitmapEntry -/
structure Entry where
  bitmapWordIndex : Nat
  bitmapWord : BitmapWord
  deriving DecidableEq, Repr

def Sorted (entries : List Entry) : Prop :=
  entries.Pairwise (fun e f => e.bitmapWordIndex < f.bitmapWordIndex)

instance (entries : List Entry) : Decidable (Sorted entries) :=
  inferInstanceAs (Decidable (entries.Pairwise _))

def tracked (entries : List Entry) (block : Nat) : Bool :=
  entries.any (fun e => decide (e.bitmapWordIndex = block / 64) && e.bitmapWord.getLsbD (block % 64))

/-- AllocBitmapChunkedIterator, with nothing pending: the words still to come
after the current one. -/
structure ChunkedIter where
  bitmapWords : List BitmapWord
  curBitmapWord : Option BitmapWord
  nextPosInCurBitmapWord : Nat
  chunkAllocationBlocks : Nat

def nextWord : List BitmapWord → Option BitmapWord × List BitmapWord
  | [] => (none, [])
  | w :: ws => (some w, ws)

def AllocBitmap.iterChunkedAtAllocationBlock (a : AllocBitmap) (first chunkAllocationBlocks : Nat) :
    ChunkedIter :=
  let (cur, ws) := nextWord (a.bitmap.drop (first / 64))
  { bitmapWords := ws
    curBitmapWord := cur
    nextPosInCurBitmapWord := first % 64
    chunkAllocationBlocks := chunkAllocationBlocks }

def ChunkedIter.next (it : ChunkedIter) : Option BitmapWord × ChunkedIter :=
  match it.curBitmapWord with
  | none => (none, it)
  | some cur =>
    let chunk := cur >>> it.nextPosInCurBitmapWord
    let pos := it.nextPosInCurBitmapWord + it.chunkAllocationBlocks
    let mask := trailingBitsMask it.chunkAllocationBlocks
    if pos ≥ 64 then
      let (cur, ws) := nextWord it.bitmapWords
      let chunk := if pos - 64 > 0 then
          chunk ||| cur.getD 0 <<< (it.chunkAllocationBlocks - (pos - 64))
        else
          chunk
      (some (chunk &&& mask),
        { it with bitmapWords := ws, curBitmapWord := cur, nextPosInCurBitmapWord := pos - 64 })
    else
      (some (chunk &&& mask), { it with nextPosInCurBitmapWord := pos })

def wordBlocks (blockLog2 : Nat) (e : Entry) : List (Nat × BitmapWord) :=
  (List.range (2 ^ (6 - blockLog2))).filterMap (fun i =>
    let bits := e.bitmapWord >>> (i * 2 ^ blockLog2) &&& trailingBitsMask (2 ^ blockLog2)
    if bits = 0 then none else some (e.bitmapWordIndex * 64 + i * 2 ^ blockLog2, bits))

/-- SparseAllocBitmapBlockIterator: all that it yields, for blocks not larger than
a word. -/
def blockIter (blockLog2 : Nat) (entries : List Entry) : List (Nat × BitmapWord) :=
  entries.flatMap (wordBlocks blockLog2)

def wordBlocksAt (blockLog2 pos : Nat) (e : Entry) : List (Nat × BitmapWord) :=
  ((List.range (2 ^ (6 - blockLog2))).drop (pos / 2 ^ blockLog2)).filterMap (fun i =>
    let bits := e.bitmapWord >>> (i * 2 ^ blockLog2) &&& trailingBitsMask (2 ^ blockLog2)
    if bits = 0 then none else some (e.bitmapWordIndex * 64 + i * 2 ^ blockLog2, bits))

/-- SparseAllocBitmapBlockIterator::new_at -/
def blockIterAt (blockLog2 first : Nat) (entries : List Entry) : List (Nat × BitmapWord) :=
  match entries.dropWhile (fun e => e.bitmapWordIndex < first / 64) with
  | [] => []
  | e :: entries =>
    let pos := if e.bitmapWordIndex = first / 64 then first % 64 else 0
    wordBlocksAt blockLog2 pos e ++ blockIter blockLog2 entries

variable {count p : Nat} {a : AllocBitmap}

theorem trailingBitsMask_eq (hc : count ≤ 64) :
    trailingBitsMask count = BitVec.ofNat 64 (2 ^ count - 1) := by
  rcases lt_or_eq_of_le hc with hlt | rfl
  · have hpos := Nat.two_pow_pos count
    rw [trailingBitsMask, mod_eq_of_lt hlt, div_eq_of_lt hlt]
    apply BitVec.eq_of_toNat_eq
    rw [BitVec.sub_zero, BitVec.toNat_sub, BitVec.toNat_shiftLeft, shiftLeft_eq,
      BitVec.toNat_ofNat, BitVec.toNat_ofNat]
    omega
  · decide

theorem getLsbD_trailingBitsMask (hc : count ≤ 64) (j : Nat) :
    (trailingBitsMask count).getLsbD j = decide (j < count) := by
  rw [trailingBitsMask_eq hc, BitVec.getLsbD_ofNat, testBit_two_pow_sub_one]
  by_cases hj : j < count
  · simp [hj, show j < 64 by omega]
  · simp [hj]

theorem getLsbD_masked (hc : count ≤ 64) (w : BitmapWord) (pos j : Nat) :
    (w >>> pos &&& trailingBitsMask count).getLsbD j =
      (decide (j < count) && w.getLsbD (pos + j)) := by
  rw [BitVec.getLsbD_and, BitVec.getLsbD_ushiftRight, getLsbD_trailingBitsMask hc, Bool.and_comm]

variable {entries : List Entry} {e : Entry}

section Blocks

variable {blockLog2 : Nat} (hlog2 : blockLog2 ≤ 6)
include hlog2

theorem words_split : 2 ^ (6 - blockLog2) * 2 ^ blockLog2 = 64 := by
  rw [← Nat.pow_add, Nat.sub_add_cancel hlog2]

theorem block_le_word : 2 ^ blockLog2 ≤ 64 := Nat.pow_le_pow_right (by decide) hlog2

theorem block_dvd_word : 2 ^ blockLog2 ∣ 64 :=
  ⟨2 ^ (6 - blockLog2), by rw [mul_comm, words_split hlog2]⟩

theorem mod_add_le_word {p : Nat} (hp : 2 ^ blockLog2 ∣ p) : p % 64 + 2 ^ blockLog2 ≤ 64 := by
  have hdvd := block_dvd_word hlog2
  exact add_le_of_lt_of_dvd ((dvd_mod_iff hdvd).mpr hp) hdvd (mod_lt p (by decide))

theorem block_in_word {i j : Nat} (hi : i < 2 ^ (6 - blockLog2)) (hj : j < 2 ^ blockLog2) :
    i * 2 ^ blockLog2 + j < 64 := by
  have hsplit := words_split hlog2
  have hmul : (i + 1) * 2 ^ blockLog2 ≤ 2 ^ (6 - blockLog2) * 2 ^ blockLog2 :=
    Nat.mul_le_mul_right _ hi
  rw [succ_mul] at hmul
  omega

omit hlog2 in
theorem mem_wordBlocks {x : Nat × BitmapWord} :
    x ∈ wordBlocks blockLog2 e ↔ ∃ i, i < 2 ^ (6 - blockLog2) ∧
      x.1 = e.bitmapWordIndex * 64 + i * 2 ^ blockLog2 ∧
      x.2 = e.bitmapWord >>> (i * 2 ^ blockLog2) &&& trailingBitsMask (2 ^ blockLog2) ∧
      x.2 ≠ 0 := by
  rw [wordBlocks, mem_filterMap]
  constructor
  · rintro ⟨i, hi, h⟩
    rw [mem_range] at hi
    dsimp only at h
    split at h
    · cases h
    · rename_i hne
      cases h
      exact ⟨i, hi, rfl, rfl, hne⟩
  · rintro ⟨i, hi, hpos, hbits, hne⟩
    refine ⟨i, mem_range.mpr hi, ?_⟩
    rw [if_neg (hbits ▸ hne), ← hbits, ← hpos]

omit hlog2 in
theorem pairwise_wordBlocks (e : Entry) :
    (wordBlocks blockLog2 e).Pairwise (fun x y => x.1 + 2 ^ blockLog2 ≤ y.1) := by
  rw [wordBlocks, pairwise_filterMap]
  refine (pairwise_lt_range).imp ?_
  intro i k hik x hx y hy
  dsimp only at hx hy
  split at hx
  · cases hx
  · split at hy
    · cases hy
    · cases hx
      cases hy
      have hmul : (i + 1) * 2 ^ blockLog2 ≤ k * 2 ^ blockLog2 := Nat.mul_le_mul_right _ hik
      rw [succ_mul] at hmul
      omega

theorem pairwise_blockIter (hs : Sorted entries) :
    (blockIter blockLog2 entries).Pairwise (fun x y => x.1 + 2 ^ blockLog2 ≤ y.1) := by
  rw [blockIter, pairwise_flatMap]
  refine ⟨fun e _ => pairwise_wordBlocks e, hs.imp ?_⟩
  intro e f hef x hx y hy
  obtain ⟨i, hi, hx, -⟩ := mem_wordBlocks.mp hx
  obtain ⟨k, -, hy, -⟩ := mem_wordBlocks.mp hy
  have hin := block_in_word hlog2 hi (sub_lt (Nat.two_pow_pos blockLog2) one_pos)
  omega

end Blocks

theorem tracked_iff {block : Nat} :
    tracked entries block = true ↔ ∃ e ∈ entries, e.bitmapWordIndex = block / 64 ∧
      e.bitmapWord.getLsbD (block % 64) = true := by
  simp [tracked]

theorem Sorted.eq_of_index_eq (hs : Sorted entries) {e f : Entry}
    (he : e ∈ entries) (hf : f ∈ entries) (h : e.bitmapWordIndex = f.bitmapWordIndex) : e = f := by
  by_contra hne
  have hsymm : Std.Symm (fun a b : Entry => a.bitmapWordIndex ≠ b.bitmapWordIndex) :=
    ⟨fun _ _ hab => hab.symm⟩
  exact List.Pairwise.forall (hs.imp ne_of_lt) he hf hne h

theorem Sorted.tracked_eq (hs : Sorted entries) (he : e ∈ entries) {k : Nat} (hk : k < 64) :
    tracked entries (e.bitmapWordIndex * 64 + k) = e.bitmapWord.getLsbD k := by
  have hdiv : (e.bitmapWordIndex * 64 + k) / 64 = e.bitmapWordIndex := by omega
  have hmod : (e.bitmapWordIndex * 64 + k) % 64 = k := by omega
  rw [Bool.eq_iff_iff, tracked_iff, hdiv, hmod]
  constructor
  · rintro ⟨f, hf, hidx, hbit⟩
    rwa [← hs.eq_of_index_eq hf he hidx]
  · exact fun hbit => ⟨e, he, rfl, hbit⟩

section BlockIter

variable {blockLog2 : Nat} (hlog2 : blockLog2 ≤ 6) {entries : List Entry}
include hlog2

variable {x : Nat × BitmapWord}

theorem blockIter_bits (hs : Sorted entries) (hx : x ∈ blockIter blockLog2 entries) (j : Nat) :
    x.2.getLsbD j = (decide (j < 2 ^ blockLog2) && tracked entries (x.1 + j)) := by
  obtain ⟨e, he, hx⟩ := mem_flatMap.mp hx
  obtain ⟨i, hi, hpos, hbits, -⟩ := mem_wordBlocks.mp hx
  rw [hbits, getLsbD_masked (block_le_word hlog2)]
  by_cases hj : j < 2 ^ blockLog2
  · rw [hpos, add_assoc, hs.tracked_eq he (block_in_word hlog2 hi hj)]
  · simp [hj]

omit hlog2 in
theorem blockIter_ne_zero (hx : x ∈ blockIter blockLog2 entries) :
    x.2 ≠ 0 := by
  obtain ⟨e, -, hx⟩ := mem_flatMap.mp hx
  exact (mem_wordBlocks.mp hx).choose_spec.2.2.2

theorem blockIter_aligned (hx : x ∈ blockIter blockLog2 entries) :
    2 ^ blockLog2 ∣ x.1 := by
  obtain ⟨e, -, hx⟩ := mem_flatMap.mp hx
  obtain ⟨i, -, hpos, -⟩ := mem_wordBlocks.mp hx
  rw [hpos]
  exact Nat.dvd_add (Dvd.dvd.mul_left (block_dvd_word hlog2) _) (dvd_mul_left _ _)

theorem exists_tracked (hs : Sorted entries) (hx : x ∈ blockIter blockLog2 entries) :
    ∃ j, j < 2 ^ blockLog2 ∧ tracked entries (x.1 + j) = true := by
  by_contra hnone
  apply blockIter_ne_zero hx
  apply BitVec.eq_of_getLsbD_eq
  intro j _
  rw [blockIter_bits hlog2 hs hx]
  by_cases hj : j < 2 ^ blockLog2
  · have hfalse : tracked entries (x.1 + j) = false := by
      rw [← Bool.not_eq_true]
      exact fun h => hnone ⟨j, hj, h⟩
    simp [hfalse]
  · simp [hj]

theorem exists_mem_blockIter {p : Nat} (hp : tracked entries p = true) :
    ∃ x ∈ blockIter blockLog2 entries, x.1 = p / 2 ^ blockLog2 * 2 ^ blockLog2 := by
  obtain ⟨e, he, hidx, hbit⟩ := tracked_iff.mp hp
  have hn := Nat.two_pow_pos blockLog2
  have hsplit := words_split hlog2
  have hi : p % 64 / 2 ^ blockLog2 < 2 ^ (6 - blockLog2) := by
    rw [Nat.div_lt_iff_lt_mul hn, hsplit]
    omega
  have hmod := mod_add_div (p % 64) (2 ^ blockLog2)
  have hlt := mod_lt (p % 64) hn
  refine ⟨(e.bitmapWordIndex * 64 + p % 64 / 2 ^ blockLog2 * 2 ^ blockLog2,
    e.bitmapWord >>> (p % 64 / 2 ^ blockLog2 * 2 ^ blockLog2) &&& trailingBitsMask (2 ^ blockLog2)),
    mem_flatMap.mpr ⟨e, he, mem_wordBlocks.mpr ⟨_, hi, rfl, rfl, ?_⟩⟩, ?_⟩
  · intro hzero
    have hget := congrArg (fun w : BitmapWord => w.getLsbD (p % 64 % 2 ^ blockLog2)) hzero
    simp only [getLsbD_masked (block_le_word hlog2)] at hget
    rw [mul_comm, add_comm, hmod, hbit] at hget
    simp [hlt] at hget
  · have hdiv (q r : Nat) : (64 * q + r) / 2 ^ blockLog2 = q * 2 ^ (6 - blockLog2) + r / 2 ^ blockLog2 := by
      rw [show 64 * q + r = r + 2 ^ blockLog2 * (q * 2 ^ (6 - blockLog2)) by
        rw [mul_left_comm, mul_comm (2 ^ blockLog2), hsplit]
        omega, add_mul_div_left _ _ hn, add_comm]
    have hp64 := hdiv (p / 64) (p % 64)
    rw [div_add_mod] at hp64
    rw [hp64, hidx, add_mul, mul_assoc, hsplit]

theorem mem_blockIter_iff (hs : Sorted entries) {b : Nat} :
    b ∈ (blockIter blockLog2 entries).map Prod.fst ↔
      2 ^ blockLog2 ∣ b ∧ ∃ p, b ≤ p ∧ p < b + 2 ^ blockLog2 ∧ tracked entries p = true := by
  rw [mem_map]
  constructor
  · rintro ⟨x, hx, rfl⟩
    obtain ⟨j, hj, htracked⟩ := exists_tracked hlog2 hs hx
    exact ⟨blockIter_aligned hlog2 hx, x.1 + j, by omega, by omega, htracked⟩
  · rintro ⟨⟨k, rfl⟩, p, hle, hlt, htracked⟩
    obtain ⟨x, hx, hb⟩ := exists_mem_blockIter hlog2 htracked
    refine ⟨x, hx, ?_⟩
    have hk : p / 2 ^ blockLog2 = k := by
      rw [Nat.div_eq_iff (Nat.two_pow_pos blockLog2)]
      rw [mul_comm] at hle hlt
      omega
    rw [hb, hk, mul_comm]

omit hlog2 in
theorem drop_range_eq_filter (m k : Nat) :
    (List.range m).drop k = (List.range m).filter (fun i => decide (k ≤ i)) := by
  refine List.Pairwise.eq_of_mem_iff (r := (· < ·)) ?_ ?_ ?_
  · exact pairwise_lt_range.sublist (drop_sublist _ _)
  · exact pairwise_lt_range.sublist filter_sublist
  · intro i
    rw [range_eq_range', drop_range']
    simp
    omega

theorem wordBlocksAt_eq {first : Nat} (hfirst : 2 ^ blockLog2 ∣ first)
    (he : e.bitmapWordIndex = first / 64) :
    wordBlocksAt blockLog2 (first % 64) e =
      (wordBlocks blockLog2 e).filter (fun x => decide (first ≤ x.1)) := by
  have hmul : first % 64 / 2 ^ blockLog2 * 2 ^ blockLog2 = first % 64 :=
    Nat.div_mul_cancel ((dvd_mod_iff (block_dvd_word hlog2)).mpr hfirst)
  have hpos := Nat.two_pow_pos blockLog2
  rw [wordBlocksAt, wordBlocks, drop_range_eq_filter, filterMap_filter, filter_filterMap]
  apply filterMap_congr
  intro i _
  have hiff : first % 64 / 2 ^ blockLog2 ≤ i ↔ first ≤ e.bitmapWordIndex * 64 + i * 2 ^ blockLog2 := by
    have hle : first % 64 / 2 ^ blockLog2 ≤ i ↔ first % 64 ≤ i * 2 ^ blockLog2 := by
      rw [← Nat.mul_le_mul_right_iff hpos, hmul]
    omega
  dsimp only
  by_cases hi : first % 64 / 2 ^ blockLog2 ≤ i
  · rw [if_pos (decide_eq_true hi)]
    split
    · rfl
    · rw [Option.filter_some, if_pos (decide_eq_true (hiff.mp hi))]
  · rw [if_neg (by simpa using hi)]
    split
    · rfl
    · rw [Option.filter_some, if_neg (by simpa using fun h => hi (hiff.mpr h))]

theorem blockIterAt_eq {first : Nat} (hfirst : 2 ^ blockLog2 ∣ first) (hs : Sorted entries) :
    blockIterAt blockLog2 first entries =
      (blockIter blockLog2 entries).filter (fun x => decide (first ≤ x.1)) := by
  induction entries with
  | nil => rfl
  | cons e entries ih =>
    obtain ⟨hlt, hs⟩ := pairwise_cons.mp hs
    rw [blockIter, flatMap_cons, filter_append]
    by_cases hidx : e.bitmapWordIndex < first / 64
    · have hnil : (wordBlocks blockLog2 e).filter (fun x => decide (first ≤ x.1)) = [] := by
        rw [filter_eq_nil_iff]
        intro x hx
        obtain ⟨i, hi, hpos, -⟩ := mem_wordBlocks.mp hx
        have hin := block_in_word hlog2 hi (Nat.two_pow_pos blockLog2)
        simp only [decide_eq_true_eq]
        omega
      rw [hnil, List.nil_append, ← blockIter, ← ih hs, blockIterAt, blockIterAt,
        dropWhile_cons_of_pos (by simpa using hidx)]
    · have hall : (entries.flatMap (wordBlocks blockLog2)).filter (fun x => decide (first ≤ x.1)) =
          blockIter blockLog2 entries := by
        refine filter_eq_self.mpr ?_
        intro x hx
        obtain ⟨f, hf, hx⟩ := mem_flatMap.mp hx
        obtain ⟨i, hi, hpos, -⟩ := mem_wordBlocks.mp hx
        have hef := hlt f hf
        simp only [decide_eq_true_eq]
        omega
      rw [hall, blockIterAt, dropWhile_cons_of_neg (by simpa using hidx)]
      dsimp only
      by_cases he : e.bitmapWordIndex = first / 64
      · rw [if_pos he, wordBlocksAt_eq hlog2 hfirst he]
      · rw [if_neg he]
        have hzero : wordBlocksAt blockLog2 0 e = wordBlocks blockLog2 e := by
          rw [wordBlocksAt, Nat.zero_div, drop_zero, wordBlocks]
        rw [hzero]
        congr 1
        refine (filter_eq_self.mpr ?_).symm
        intro x hx
        obtain ⟨i, hi, hpos, -⟩ := mem_wordBlocks.mp hx
        simp only [decide_eq_true_eq]
        omega

end BlockIter

def AllocBitmap.chunk (a : AllocBitmap) (n p : Nat) : BitmapWord :=
  a.word (p / 64) >>> (p % 64) &&& trailingBitsMask n

/-- A chunked iterator's position, which may be anywhere beyond the bitmap's end. -/
def ChunkedIter.At (it : ChunkedIter) (a : AllocBitmap) (n p : Nat) : Prop :=
  it.chunkAllocationBlocks = n ∧
    ((it.curBitmapWord = none ∧ a.bitmap.length ≤ p / 64) ∨
      (it.nextPosInCurBitmapWord = p % 64 ∧
        nextWord (a.bitmap.drop (p / 64)) = (it.curBitmapWord, it.bitmapWords)))

theorem nextWord_drop {ws : List BitmapWord} {i : Nat} {cur : Option BitmapWord}
    {rest : List BitmapWord} (h : nextWord (ws.drop i) = (cur, rest)) :
    cur = ws[i]? ∧ rest = ws.drop (i + 1) := by
  cases hd : ws.drop i with
  | nil =>
    rw [hd] at h
    cases h
    have hlen := drop_eq_nil_iff.mp hd
    exact ⟨(getElem?_eq_none hlen).symm, (drop_eq_nil_of_le (by omega)).symm⟩
  | cons w rest' =>
    rw [hd] at h
    cases h
    refine ⟨?_, ?_⟩
    · rw [← head?_drop, hd]
      rfl
    · rw [← tail_drop, hd]
      rfl

theorem AllocBitmap.at_iterChunkedAtAllocationBlock (a : AllocBitmap) (n p : Nat) :
    (a.iterChunkedAtAllocationBlock p n).At a n p :=
  ⟨rfl, Or.inr ⟨rfl, rfl⟩⟩

variable {blockLog2 : Nat}

theorem ChunkedIter.next_spec {it : ChunkedIter}
    (hlog2 : blockLog2 ≤ 6) (hp : 2 ^ blockLog2 ∣ p) (h : it.At a (2 ^ blockLog2) p) :
    it.next.1.getD 0 = a.chunk (2 ^ blockLog2) p ∧
      it.next.2.At a (2 ^ blockLog2) (p + 2 ^ blockLog2) := by
  obtain ⟨hchunk, ⟨hcur, hend⟩ | ⟨hpos, hword⟩⟩ := h
  · have hzero : a.word (p / 64) = 0 := by
      rw [AllocBitmap.word, getElem?_eq_none hend]
      rfl
    rw [ChunkedIter.next, hcur]
    refine ⟨?_, hchunk, Or.inl ⟨hcur, hend.trans (Nat.div_le_div_right (Nat.le_add_right _ _))⟩⟩
    rw [AllocBitmap.chunk, hzero]
    simp
  · obtain ⟨hcur, hrest⟩ := nextWord_drop hword
    cases hget : a.bitmap[p / 64]? with
    | none =>
      have hend : a.bitmap.length ≤ p / 64 := List.getElem?_eq_none_iff.mp hget
      have hzero : a.word (p / 64) = 0 := by
        rw [AllocBitmap.word, hget]
        rfl
      rw [hget] at hcur
      rw [ChunkedIter.next, hcur]
      refine ⟨?_, hchunk, Or.inl ⟨hcur, hend.trans (Nat.div_le_div_right (Nat.le_add_right _ _))⟩⟩
      rw [AllocBitmap.chunk, hzero]
      simp
    | some w =>
      have hw : a.word (p / 64) = w := by
        rw [AllocBitmap.word, hget]
        rfl
      have hfit := mod_add_le_word hlog2 hp
      rw [hget] at hcur
      rw [ChunkedIter.next, hcur]
      dsimp only
      rw [hpos, hchunk, hrest]
      by_cases hlast : p % 64 + 2 ^ blockLog2 ≥ 64
      · have heq : p % 64 + 2 ^ blockLog2 - 64 = 0 := by omega
        rw [if_pos hlast, heq, if_neg (lt_irrefl 0)]
        refine ⟨?_, rfl, Or.inr ⟨by dsimp only; omega, ?_⟩⟩
        · rw [AllocBitmap.chunk, hw]
          rfl
        · rw [show (p + 2 ^ blockLog2) / 64 = p / 64 + 1 by omega]
      · rw [if_neg hlast]
        refine ⟨?_, rfl, Or.inr ⟨by dsimp only; omega, ?_⟩⟩
        · rw [AllocBitmap.chunk, hw]
          rfl
        · rw [show (p + 2 ^ blockLog2) / 64 = p / 64 by omega, hword, hcur, hrest]

theorem AllocBitmap.div_lt_of_allocated (h : a.allocated p = true) :
    p / 64 < a.bitmap.length := by
  by_contra hge
  rw [AllocBitmap.allocated, AllocBitmap.word, getElem?_eq_none (not_lt.mp hge)] at h
  simp at h

theorem AllocBitmap.lt_of_allocated (h : a.allocated p = true) :
    p < 2 ^ 57 := by
  have hlt := AllocBitmap.div_lt_of_allocated h
  have hlen := a.length_le
  omega

theorem AllocBitmap.next_iterChunked (a : AllocBitmap) (hlog2 : blockLog2 ≤ 6)
    (hp : 2 ^ blockLog2 ∣ p) (hlt : p / 64 < a.bitmap.length) :
    (a.iterChunkedAtAllocationBlock p (2 ^ blockLog2)).next.1 = some (a.chunk (2 ^ blockLog2) p) := by
  have hget := (ChunkedIter.next_spec hlog2 hp (a.at_iterChunkedAtAllocationBlock _ p)).1
  have hsome : (a.iterChunkedAtAllocationBlock p (2 ^ blockLog2)).next.1.isSome = true := by
    rw [AllocBitmap.iterChunkedAtAllocationBlock, drop_eq_getElem_cons hlt, nextWord,
      ChunkedIter.next]
    dsimp only
    split <;> rfl
  obtain ⟨w, hw⟩ := Option.isSome_iff_exists.mp hsome
  rw [hw] at hget ⊢
  exact congrArg some hget

theorem AllocBitmap.getLsbD_chunk (a : AllocBitmap) (hlog2 : blockLog2 ≤ 6)
    (hp : 2 ^ blockLog2 ∣ p) (j : Nat) :
    (a.chunk (2 ^ blockLog2) p).getLsbD j = (decide (j < 2 ^ blockLog2) && a.allocated (p + j)) := by
  rw [AllocBitmap.chunk, getLsbD_masked (block_le_word hlog2)]
  by_cases hj : j < 2 ^ blockLog2
  · have hfit := mod_add_le_word hlog2 hp
    rw [AllocBitmap.allocated, show (p + j) / 64 = p / 64 by omega,
      show (p + j) % 64 = p % 64 + j by omega]
  · simp [hj]

def oneWord (w : BitmapWord) : AllocBitmap := ⟨[w], by simp⟩

theorem allocated_oneWord {w x : BitmapWord} (h : tracked [⟨0, x⟩] p = true) :
    x.getLsbD (p % 64) = true ∧ (oneWord w).allocated p = w.getLsbD (p % 64) := by
  obtain ⟨e, he, hidx, hbit⟩ := tracked_iff.mp h
  obtain rfl := mem_singleton.mp he
  refine ⟨hbit, ?_⟩
  rw [AllocBitmap.allocated, AllocBitmap.word, ← hidx]
  rfl

theorem allocated_oneWord_of_and {w x : BitmapWord} (h : x &&& ~~~w = 0) (p : Nat)
    (hp : tracked [⟨0, x⟩] p = true) : (oneWord w).allocated p = true := by
  obtain ⟨hbit, hword⟩ := allocated_oneWord (w := w) hp
  have hand := congrArg (fun y : BitmapWord => y.getLsbD (p % 64)) h
  simp only [BitVec.getLsbD_and, BitVec.getLsbD_not, hbit] at hand
  simpa [hword, mod_lt] using hand

end CocoonFs.Bitmap
