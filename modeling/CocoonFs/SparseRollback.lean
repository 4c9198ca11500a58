import CocoonFs.SparseLoops

namespace CocoonFs.SparseBitmap

open Checked Extents Bitmap List
open SparseAllocBitmap (addBlocksFrom addExtent addExtents blockRange populateExtents
  populateMissingInRange pruneExtents pruneUnusedInRange removeBlockWith removeBlocksWith
  removeExtent removeExtentWith removeExtents repopulateSetRangeForRollback rollbackRemoveExtents
  setExtents setInRange)
open BitVec (allOnes)

/-- A range of blocks, possibly empty, whose end can be rounded up to the next word.
Physical storage is addressed by bytes, so there are no blocks beyond 2^57. -/
def InStorage (range : BlockRange) : Prop := range.b ≤ range.e ∧ range.e + 64 ≤ 2 ^ 64

instance (range : BlockRange) : Decidable (InStorage range) :=
  inferInstanceAs (Decidable (_ ∧ _))

def wordsEnd (range : BlockRange) : Nat := (range.e + 63) / 64

variable {r range : BlockRange}

theorem InStorage.blockCount (hr : InStorage r) : r.blockCount = .ok (r.e - r.b) :=
  checkedSub_ok hr.1

theorem InStorage.rangeWords (pr : Profile) (hr : InStorage r) :
    rangeWords pr r = .ok (r.b / 64, wordsEnd r - r.b / 64) := by
  obtain ⟨hle, hend⟩ := hr
  have hwords : (if (r.e - r.b + r.b % 64) / 64 * 64 ≠ r.e - r.b + r.b % 64 then
      (r.e - r.b + r.b % 64) / 64 + 1 else (r.e - r.b + r.b % 64) / 64) =
        wordsEnd r - r.b / 64 := by
    rw [wordsEnd]
    split <;> omega
  rw [SparseBitmap.rangeWords, BlockRange.blockCount, checkedSub_ok hle, ok_bind,
    addU64_ok pr (by omega), ok_bind]
  dsimp only
  rw [hwords, pure_eq_ok]

structure Wf (s : SparseAllocBitmap) : Prop where
  sorted : Sorted s.entries
  index_lt : ∀ e ∈ s.entries, e.bitmapWordIndex < 2 ^ 58
  room : s.entries.length + s.removeRollbackReserveCapacity ≤ s.capacity
  capacity_lt : s.capacity < 2 ^ 59

structure Pruned (prepare : Bool) (s s' : SparseAllocBitmap) : Prop where
  sublist : s'.entries.Sublist s.entries
  keeps : ∀ e ∈ s.entries, e.bitmapWord ≠ 0 → e ∈ s'.entries
  capacity_eq : s'.capacity = s.capacity
  reserve_eq : s'.removeRollbackReserveCapacity = s.removeRollbackReserveCapacity +
    (if prepare then s.entries.length - s'.entries.length else 0)

variable {range : BlockRange} {l m : List Entry} {hint : Option Nat}

section Prune

variable {pr : Profile} {prepare : Bool} {s s' : SparseAllocBitmap}

theorem Pruned.wf (h : Pruned prepare s s') (hw : Wf s) : Wf s' where
  sorted := hw.sorted.sublist h.sublist
  index_lt e he := hw.index_lt e (h.sublist.subset he)
  room := by
    have hlen := h.sublist.length_le
    have hroom := hw.room
    rw [h.reserve_eq, h.capacity_eq]
    split <;> omega
  capacity_lt := h.capacity_eq ▸ hw.capacity_lt

theorem Pruned.words_subset (h : Pruned prepare s s') : words s'.entries ⊆ words s.entries :=
  (h.sublist.map _).subset

theorem Pruned.length_add_reserve (h : Pruned true s s') :
    s'.entries.length + s'.removeRollbackReserveCapacity =
      s.entries.length + s.removeRollbackReserveCapacity := by
  have hlen := h.sublist.length_le
  rw [h.reserve_eq, if_pos rfl]
  omega

theorem Pruned.tracked (h : Pruned prepare s s') (p : Nat) :
    tracked s'.entries p = tracked s.entries p := by
  rw [Bool.eq_iff_iff, tracked_iff, tracked_iff]
  constructor
  · rintro ⟨e, he, hidx, hbit⟩
    exact ⟨e, h.sublist.subset he, hidx, hbit⟩
  · rintro ⟨e, he, hidx, hbit⟩
    refine ⟨e, h.keeps e he ?_, hidx, hbit⟩
    rintro hzero
    simp [hzero] at hbit

theorem pruneUnusedInRange_spec
    (hbound : s.entries.length + s.removeRollbackReserveCapacity < 2 ^ 64)
    (h : pruneUnusedInRange pr s range hint prepare = .ok s') :
    Pruned prepare s s' := by
  obtain ⟨⟨w, n⟩, -, h⟩ := bind_eq_ok h
  obtain ⟨i, -, h⟩ := bind_eq_ok h
  obtain ⟨⟨es, reserve⟩, hprune, h⟩ := bind_eq_ok h
  cases h
  have hdrop : (s.entries.drop i).length ≤ s.entries.length := (drop_sublist i _).length_le
  obtain ⟨hsub, hkeep, hreserve⟩ := pruneFrom_spec (by omega) hprune
  have hsplit := take_append_drop i s.entries
  have hlen : (s.entries.take i).length + (s.entries.drop i).length = s.entries.length := by
    rw [← length_append, hsplit]
  refine ⟨?_, ?_, rfl, ?_⟩
  · have happend := hsub.append_left (s.entries.take i)
    rwa [hsplit] at happend
  · intro e he hne
    rw [← hsplit] at he
    rcases mem_append.mp he with he | he
    · exact mem_append_left _ he
    · exact mem_append_right _ (hkeep e he hne)
  · dsimp only
    rw [hreserve, length_append]
    split <;> omega

theorem pruneUnusedInRange_ok (pr : Profile) (prepare : Bool) (hw : Wf s)
    (hr : InStorage range) (hsplit : s.entries = l ++ m)
    (hlt : ∀ x ∈ l, x.bitmapWordIndex < range.b / 64)
    (hle : ∀ x ∈ m, range.b / 64 ≤ x.bitmapWordIndex) :
    ∃ s', pruneUnusedInRange pr s range (some l.length) prepare = .ok s' := by
  have hs := hw.sorted
  have hroom := hw.room
  have hcap := hw.capacity_lt
  rw [hsplit, length_append] at hroom
  rw [hsplit] at hs
  rw [pruneUnusedInRange, hr.rangeWords, ok_bind]
  dsimp only
  rw [hsplit, firstEntryIndex_hint pr hlt hle, ok_bind, drop_left]
  obtain ⟨r, hr⟩ := pruneFrom_ok pr prepare ((l ++ m).length - l.length)
    s.removeRollbackReserveCapacity (range.b / 64) (wordsEnd range - range.b / 64) (by omega)
    (pairwise_append.mp hs).2.1 hle
  rw [hr]
  exact ⟨_, rfl⟩

end Prune

/-- A bitmap with some of the bits in its words changed, but no words added or
removed. -/
structure SameWords (s s' : SparseAllocBitmap) : Prop where
  words_eq : words s'.entries = words s.entries
  capacity_eq : s'.capacity = s.capacity
  reserve_eq : s'.removeRollbackReserveCapacity = s.removeRollbackReserveCapacity

variable {s s' : SparseAllocBitmap}

theorem SameWords.length_eq (h : SameWords s s') :
    s'.entries.length = s.entries.length := by
  simpa [words] using congrArg List.length h.words_eq

theorem SameWords.wf (h : SameWords s s') (hw : Wf s) : Wf s' where
  sorted := by
    rw [sorted_iff_words, h.words_eq, ← sorted_iff_words]
    exact hw.sorted
  index_lt e he := by
    have hmem : e.bitmapWordIndex ∈ words s'.entries := mem_words.mpr ⟨e, he, rfl⟩
    rw [h.words_eq] at hmem
    obtain ⟨f, hf, hidx⟩ := mem_words.mp hmem
    exact hidx ▸ hw.index_lt f hf
  room := by
    rw [h.length_eq, h.capacity_eq, h.reserve_eq]
    exact hw.room
  capacity_lt := h.capacity_eq ▸ hw.capacity_lt

variable {value : Bool} {pr : Profile}

theorem setInRange_spec {i : Nat}
    (h : setInRange pr s range hint value = .ok (i, s')) : SameWords s s' := by
  obtain ⟨count, -, h⟩ := bind_eq_ok h
  obtain ⟨i, -, h⟩ := bind_eq_ok h
  split at h
  · cases h
  · obtain ⟨es, hset, h⟩ := bind_eq_ok h
    cases h
    refine ⟨?_, rfl, rfl⟩
    rw [words_append, setFrom_words hset, ← words_append, take_append_drop]

variable {s : SparseAllocBitmap}

/-- The range's bits get cleared and the position of the first entry not before it
is returned. -/
theorem clearInRange_ok (pr : Profile) (hw : Wf s)
    (hr : InStorage range) (hsplit : s.entries = l ++ m)
    (hlt : ∀ x ∈ l, x.bitmapWordIndex < range.b / 64)
    (hle : ∀ x ∈ m, range.b / 64 ≤ x.bitmapWordIndex) :
    ∃ m', setInRange pr s range none false =
        .ok (l.length, { s with entries := l ++ m' }) ∧ words m' = words m ∧
      ∀ p, tracked (l ++ m') p = (tracked s.entries p && !decide (range.b ≤ p ∧ p < range.e)) := by
  have hs := hw.sorted
  have hidx := hw.index_lt
  rw [hsplit] at hs hidx
  obtain ⟨m', hset, htracked⟩ := setFrom_tracked pr false (range.b / 64) (range.e - range.b)
    (range.b % 64) (pairwise_append.mp hs).2.1 hle (fun x hx => hidx x (mem_append_right _ hx))
    (Nat.mod_lt range.b (by decide))
  refine ⟨m', ?_, setFrom_words hset, ?_⟩
  · rw [setInRange, hr.blockCount, ok_bind, hsplit,
      firstEntryIndex_none pr hlt hle, ok_bind, if_neg (by simp), drop_left, hset, ok_bind,
      take_left, pure_eq_ok]
  · intro p
    have hbegin : range.b / 64 * 64 + range.b % 64 = range.b := Nat.div_add_mod' _ _
    have hend : range.b + (range.e - range.b) = range.e := Nat.add_sub_cancel' hr.1
    rw [hsplit, tracked_append, tracked_append, htracked p, hbegin, hend]
    by_cases hp : range.b ≤ p ∧ p < range.e
    · have hnot : tracked l p = false := by
        apply tracked_eq_false
        intro hmem
        obtain ⟨x, hx, hxp⟩ := mem_words.mp hmem
        have hxlt := hlt x hx
        omega
      simp [hp, hnot]
    · simp [hp]

structure Removed (xs : List BlockRange) (s s' : SparseAllocBitmap) : Prop where
  wf : Wf s'
  capacity_eq : s'.capacity = s.capacity
  words_subset : words s'.entries ⊆ words s.entries
  length_add_reserve : s'.entries.length + s'.removeRollbackReserveCapacity =
    s.entries.length + s.removeRollbackReserveCapacity
  tracked_eq : ∀ p, tracked s'.entries p =
    (tracked s.entries p && !decide (∃ r ∈ xs, r.b ≤ p ∧ p < r.e))

theorem removeExtentWith_ok (pr : Profile) (hw : Wf s) (prepare : Bool) (hr : InStorage range) :
    ∃ s₁ s', SameWords s s₁ ∧ Pruned prepare s₁ s' ∧
      removeExtentWith pr s prepare range = .ok s' ∧
      ∀ p, tracked s₁.entries p = (tracked s.entries p && !decide (range.b ≤ p ∧ p < range.e)) := by
  obtain ⟨l, m, hsplit, hlt, hle⟩ := exists_split hw.sorted (range.b / 64)
  obtain ⟨m', hset, hwords, htracked⟩ := clearInRange_ok pr hw hr hsplit hlt hle
  have hsame := setInRange_spec hset
  have hle' : ∀ x ∈ m', range.b / 64 ≤ x.bitmapWordIndex := by
    intro x hx
    have hmem : x.bitmapWordIndex ∈ words m' := mem_words.mpr ⟨x, hx, rfl⟩
    rw [hwords] at hmem
    obtain ⟨y, hy, hyx⟩ := mem_words.mp hmem
    exact hyx ▸ hle y hy
  have hw' := hsame.wf hw
  obtain ⟨s', hs'⟩ := pruneUnusedInRange_ok pr prepare hw' hr rfl hlt hle'
  have hbound : _ < 2 ^ 64 := hw'.room.trans_lt (hw'.capacity_lt.trans (by decide))
  refine ⟨_, s', hsame, pruneUnusedInRange_spec hbound hs', ?_, htracked⟩
  rw [removeExtentWith, hset, ok_bind]
  exact hs'

theorem removeExtent_ok (pr : Profile) (hw : Wf s) (hr : InStorage range) :
    ∃ s', removeExtent pr s range = .ok s' ∧ Removed [range] s s' := by
  obtain ⟨s₁, s', hsame, hpruned, hok, htracked⟩ := removeExtentWith_ok pr hw true hr
  refine ⟨s', hok, hpruned.wf (hsame.wf hw), ?_, ?_, ?_, ?_⟩
  · rw [hpruned.capacity_eq, hsame.capacity_eq]
  · rw [← hsame.words_eq]
    exact hpruned.words_subset
  · rw [hpruned.length_add_reserve, hsame.length_eq, hsame.reserve_eq]
  · intro p
    rw [hpruned.tracked, htracked]
    simp

theorem Removed.nil (hw : Wf s) : Removed [] s s :=
  ⟨hw, rfl, List.Subset.refl _, rfl, fun p => by simp⟩

theorem Removed.cons {rs : List BlockRange} {s s₁ s' : SparseAllocBitmap}
    (h : Removed [r] s s₁) (h' : Removed rs s₁ s') : Removed (r :: rs) s s' where
  wf := h'.wf
  capacity_eq := h'.capacity_eq.trans h.capacity_eq
  words_subset := List.Subset.trans h'.words_subset h.words_subset
  length_add_reserve := h'.length_add_reserve.trans h.length_add_reserve
  tracked_eq p := by
    rw [h'.tracked_eq, h.tracked_eq, Bool.and_assoc, ← Bool.not_or, ← Bool.decide_or]
    simp

theorem removeExtents_ok (pr : Profile) (hw : Wf s)
    {ranges : List BlockRange} (hr : ∀ r ∈ ranges, InStorage r) :
    ∃ s', removeExtents pr s ranges = .ok s' ∧ Removed ranges s s' := by
  induction ranges generalizing s with
  | nil => exact ⟨s, rfl, .nil hw⟩
  | cons r ranges ih =>
    obtain ⟨s₁, hs₁, hremoved⟩ := removeExtent_ok pr hw (hr r (mem_cons_self ..))
    obtain ⟨s', hs', hremoved'⟩ := ih hremoved.wf (fun x hx => hr x (mem_cons_of_mem _ hx))
    refine ⟨s', ?_, hremoved.cons hremoved'⟩
    rw [removeExtents, foldlM_cons, hs₁, ok_bind]
    exact hs'

section Rollback

variable (pr : Profile) (al : Allocator) (a : AllocBitmap) (value : Bool) {s : SparseAllocBitmap}

theorem index_lt_wordsEnd (hr : InStorage range) : wordsEnd range < 2 ^ 58 := by
  have hend := hr.2
  rw [wordsEnd]
  omega

theorem repopulate_ok (hw : Wf s) (hr : InStorage range) :
    ∃ r s', repopulateSetRangeForRollback pr al s range a value = .ok (r, s') ∧
      Wf s' ∧ s'.capacity = s.capacity ∧
      s'.entries.length + s'.removeRollbackReserveCapacity =
        s.entries.length + s.removeRollbackReserveCapacity ∧
      ∀ K : List Nat, words s.entries ⊆ K →
        K.length ≤ s.entries.length + s.removeRollbackReserveCapacity →
        (∀ p, range.b ≤ p → p < range.e → p / 64 ∈ K ∧ a.allocated p ≠ value) →
        r = .ok () ∧ words s'.entries ⊆ K ∧ ∀ p, tracked s'.entries p =
          (tracked s.entries p || decide (range.b ≤ p ∧ p < range.e)) := by
  obtain ⟨l, m, hsplit, hlt, hle⟩ := exists_split hw.sorted (range.b / 64)
  have hs := hw.sorted
  have hidx := hw.index_lt
  have hroom := hw.room
  rw [hsplit] at hs hidx hroom
  obtain ⟨hsl, hsm, -⟩ := pairwise_append.mp hs
  have hmod := Nat.mod_lt range.b (show 0 < 64 by decide)
  have hbegin : range.b / 64 * 64 + range.b % 64 = range.b := Nat.div_add_mod' _ _
  have hend : range.b + (range.e - range.b) = range.e := Nat.add_sub_cancel' hr.1
  have hwords := index_lt_wordsEnd hr
  have hword : range.b / 64 + (wordsEnd range - range.b / 64) = wordsEnd range := by
    rw [wordsEnd]
    omega
  obtain ⟨enough, m', reserve', hrec, hs', hle', hwords', hlen⟩ := repopulateFrom_ok al a
    value (wordsEnd range - range.b / 64) _ _ _ _ (range.e - range.b) (range.b % 64) hsm hle hroom
  refine ⟨if enough then .ok () else .error .internal, ⟨l ++ m', s.capacity, reserve'⟩, ?_, ?_, rfl,
    ?_, ?_⟩
  · rw [repopulateSetRangeForRollback, if_neg (by rw [hsplit]; omega),
      hr.blockCount, ok_bind, hsplit, firstEntryIndex_none pr hlt hle, ok_bind, drop_left,
      ← wordsEnd, hrec, ok_bind, take_left]
    rfl
  · refine ⟨sorted_append hsl hs' hlt hle', ?_, ?_, hw.capacity_lt⟩
    · intro x hx
      rcases mem_append.mp hx with hx | hx
      · exact hidx x (mem_append_left _ hx)
      · rcases hwords' _ (mem_words.mpr ⟨x, hx, rfl⟩) with hmem | hmem
        · obtain ⟨y, hy, hyx⟩ := mem_words.mp hmem
          exact hyx ▸ hidx y (mem_append_right _ hy)
        · exact (hword ▸ hmem).trans hwords
    · dsimp only
      rw [length_append] at hroom ⊢
      omega
  · dsimp only
    rw [hsplit, length_append, length_append]
    omega
  · intro K hK hlenK hblocks
    rw [hsplit, words_append] at hK
    have hll : (words l).length = l.length := length_map _
    have hP : ∀ j ∈ words l, j < range.b / 64 := by
      intro j hj
      obtain ⟨x, hx, rfl⟩ := mem_words.mp hj
      exact hlt x hx
    obtain ⟨rfl, hsub, htracked⟩ := repopulateFrom_enough al hsm hle hP (nodup_words hsl) hK
      (by rw [hsplit, length_append] at hlenK; omega) hmod
      (by rw [hword, hbegin, hend, wordsEnd]; omega)
      (by rw [hbegin, hend]; exact hblocks) hrec
    refine ⟨rfl, ?_, ?_⟩
    · rw [words_append]
      exact append_subset.mpr ⟨List.Subset.trans (subset_append_left _ _) hK, hsub⟩
    · intro p
      rw [hsplit, tracked_append, tracked_append, htracked p, hbegin, hend, Bool.or_assoc]

theorem rollbackRemoveExtents_enough (hw : Wf s) {ranges : List BlockRange}
    (hr : ∀ r ∈ ranges, InStorage r) {K : List Nat} (hK : words s.entries ⊆ K)
    (hlen : K.length ≤ s.entries.length + s.removeRollbackReserveCapacity)
    (hblocks : ∀ r ∈ ranges, ∀ p, r.b ≤ p → p < r.e → p / 64 ∈ K ∧ a.allocated p ≠ value) :
    ∃ s', rollbackRemoveExtents pr al a value s ranges = .ok (.ok (), s') ∧
      s'.capacity = s.capacity ∧ ∀ p, tracked s'.entries p =
        (tracked s.entries p || decide (∃ r ∈ ranges, r.b ≤ p ∧ p < r.e)) := by
  induction ranges generalizing s with
  | nil => exact ⟨s, rfl, rfl, by simp⟩
  | cons range ranges ih =>
    obtain ⟨r, s₁, hs₁, hw₁, hcap₁, hlen₁, henough⟩ := repopulate_ok pr al a value hw
      (hr range (mem_cons_self ..))
    obtain ⟨rfl, hK₁, htracked₁⟩ := henough K hK hlen (hblocks range (mem_cons_self ..))
    obtain ⟨s', hs', hcap, htracked⟩ := ih hw₁ (fun x hx => hr x (mem_cons_of_mem _ hx)) hK₁
      (hlen₁ ▸ hlen) (fun x hx => hblocks x (mem_cons_of_mem _ hx))
    refine ⟨s', ?_, hcap.trans hcap₁, ?_⟩
    · rw [rollbackRemoveExtents, SparseAllocBitmap.rollbackRemoveExtent, hs₁,
        ok_bind]
      exact hs'
    · intro p
      rw [htracked p, htracked₁ p, Bool.or_assoc, ← Bool.decide_or]
      simp

end Rollback

/-- No word strictly in between a range's first and last one has got an entry if the
word right before it hasn't. -/
def Clean (K : Nat → Prop) (range : BlockRange) : Prop :=
  ∀ j, K j → range.b / 64 < j → j + 1 < wordsEnd range → K (j - 1)

def withRange (K : Nat → Prop) (range : BlockRange) (j : Nat) : Prop :=
  K j ∨ range.b / 64 ≤ j ∧ j < wordsEnd range

/-- Each range is clean once those before it have been populated. -/
def CleanAll (K : Nat → Prop) : List BlockRange → Prop
  | [] => True
  | range :: ranges => Clean K range ∧ CleanAll (withRange K range) ranges

section Populate

variable {pr : Profile} {al : Allocator} {s s' : SparseAllocBitmap} {enough : Bool}

theorem populateFrom_wf {l m m' : List Entry} {w n capacity : Nat} (hw : Wf s)
    (hsplit : s.entries = l ++ m) (hlt : ∀ x ∈ l, x.bitmapWordIndex < w)
    (hle : ∀ x ∈ m, w ≤ x.bitmapWordIndex) (hclean : CleanFrom w n m) (hn : w + n ≤ 2 ^ 58)
    (h : populateFrom pr al s.removeRollbackReserveCapacity s.entries.length s.capacity w n m =
      .ok (enough, m', capacity)) :
    Wf { s with entries := l ++ m', capacity := capacity } ∧ (enough = true →
      ∀ j, j ∈ words (l ++ m') ↔ j ∈ words s.entries ∨ w ≤ j ∧ j < w + n) := by
  have hs := hw.sorted
  have hidx := hw.index_lt
  rw [hsplit] at hs hidx
  obtain ⟨hsl, hsm, -⟩ := pairwise_append.mp hs
  obtain ⟨hpop, hlen, hroom, hcap⟩ := populateFrom_spec hsm hle hclean hn hw.room hw.capacity_lt h
  rw [hsplit] at hroom
  refine ⟨⟨sorted_append hsl hpop.sorted hlt hpop.le_index, ?_, ?_, hcap⟩, ?_⟩
  · intro x hx
    rcases mem_append.mp hx with hx | hx
    · exact hidx x (mem_append_left _ hx)
    · rcases hpop.of_mem_words _ (mem_words.mpr ⟨x, hx, rfl⟩) with hmem | ⟨-, hmem⟩
      · obtain ⟨y, hy, hyx⟩ := mem_words.mp hmem
        exact hyx ▸ hidx y (mem_append_right _ hy)
      · exact hmem.trans_le hn
  · dsimp only
    rw [length_append] at hroom ⊢
    omega
  · intro henough j
    rw [hsplit, words_append, words_append, mem_append, mem_append]
    constructor
    · rintro (hj | hj)
      · exact .inl (.inl hj)
      · exact (hpop.of_mem_words j hj).imp_left Or.inr
    · rintro ((hj | hj) | ⟨hj, hjn⟩)
      · exact .inl hj
      · exact .inr (hpop.words_subset hj)
      · exact .inr (hpop.enough_mem henough j hj hjn)

theorem mem_words_of_le {w j : Nat} (hlt : ∀ x ∈ l, x.bitmapWordIndex < w)
    (hj : j ∈ words (l ++ m)) (hwj : w ≤ j) : j ∈ words m := by
  rw [words_append, mem_append] at hj
  rcases hj with hj | hj
  · obtain ⟨x, hx, rfl⟩ := mem_words.mp hj
    exact absurd (hlt x hx) (Nat.not_lt.mpr hwj)
  · exact hj

variable {range : BlockRange} {ranges : List BlockRange} {hint : Option Nat}
  {r : Except NvFsError Nat}

theorem populate_finish {first : Nat} {s₁ : SparseAllocBitmap} (hw : Wf s₁)
    (h : (if enough then pure (.ok first, s₁) else do
        let s ← pruneUnusedInRange pr s₁ range (some first) false
        pure (.error .memoryAllocationFailure, s) : Comp (Result Nat)) = .ok (r, s')) :
    Wf s' ∧ ∀ i, r = .ok i → enough = true ∧ s' = s₁ := by
  split at h
  next henough =>
    cases h
    exact ⟨hw, fun _ _ => ⟨henough, rfl⟩⟩
  · obtain ⟨s₂, hprune, h⟩ := bind_eq_ok h
    cases h
    have hbound : _ < 2 ^ 64 := hw.room.trans_lt (hw.capacity_lt.trans (by decide))
    exact ⟨(pruneUnusedInRange_spec hbound hprune).wf hw, fun _ hi => nomatch hi⟩

section

variable (hw : Wf s) (hr : InStorage range) (hclean : Clean (· ∈ words s.entries) range)
include hw hr hclean

theorem populateMissingInRange_spec
    (h : populateMissingInRange pr al s range = .ok (r, s')) :
    Wf s' ∧ ∀ i, r = .ok i →
      ∀ j, j ∈ words s'.entries ↔ withRange (· ∈ words s.entries) range j := by
  obtain ⟨l, m, hsplit, hlt, hle⟩ := exists_split hw.sorted (range.b / 64)
  have hend := index_lt_wordsEnd hr
  have hbe : range.b / 64 ≤ wordsEnd range := by
    have := hr.1
    rw [wordsEnd]
    omega
  rw [populateMissingInRange, hr.rangeWords, ok_bind] at h
  dsimp only at h
  rw [hsplit, findEntryPosition_split hlt hle] at h
  by_cases hfound : ∃ e ∈ m.head?, e.bitmapWordIndex = range.b / 64
  · obtain ⟨e, he, hidx⟩ := hfound
    obtain ⟨m₀, rfl⟩ := head?_eq_some_iff.mp he
    have hs := hw.sorted
    rw [hsplit] at hs
    obtain ⟨hhead, -⟩ := pairwise_cons.mp (pairwise_append.mp hs).2.1
    have hsplit' : l ++ e :: m₀ = (l ++ [e]) ++ m₀ := by simp
    have hlength : l.length + 1 = (l ++ [e]).length := by simp
    have hlt' : ∀ x ∈ l ++ [e], x.bitmapWordIndex < range.b / 64 + 1 := by
      intro x hx
      rcases mem_append.mp hx with hx | hx
      · exact (hlt x hx).trans (Nat.lt_succ_self _)
      · rw [mem_singleton.mp hx, hidx]
        exact Nat.lt_succ_self _
    rw [if_pos ⟨e, he, hidx⟩] at h
    dsimp only at h
    rw [hlength, hsplit', drop_left, take_left, ← hsplit', ← hsplit] at h
    obtain ⟨⟨enough, m', capacity⟩, hpop, h⟩ := bind_eq_ok h
    rw [hsplit'] at hsplit
    have hcleanFrom : CleanFrom (range.b / 64 + 1) (wordsEnd range - range.b / 64 - 1) m₀ := by
      intro x hx hxlt hxend
      have hmem : x.bitmapWordIndex ∈ words s.entries :=
        mem_words.mpr ⟨x, hsplit ▸ mem_append_right _ hx, rfl⟩
      have hprev := hclean _ hmem (by omega) (by omega)
      rw [hsplit] at hprev
      exact mem_words_of_le hlt' hprev (by omega)
    obtain ⟨hw', hwords⟩ := populateFrom_wf hw hsplit hlt' (fun x hx => hidx ▸ hhead x hx)
      hcleanFrom (by omega) hpop
    obtain ⟨hwf, hok⟩ := populate_finish hw' h
    refine ⟨hwf, fun i hi j => ?_⟩
    obtain ⟨henough, rfl⟩ := hok i hi
    have hin : range.b / 64 ∈ words s.entries :=
      mem_words.mpr ⟨e, by rw [hsplit]; simp, hidx⟩
    rw [hwords henough, withRange]
    constructor
    · rintro (hj | hj)
      · exact .inl hj
      · exact .inr (by omega)
    · rintro (hj | hj)
      · exact .inl hj
      · rcases Nat.eq_or_lt_of_le hj.1 with rfl | hlt
        · exact .inl hin
        · exact .inr (by omega)
  · rw [if_neg hfound] at h
    rw [drop_left, take_left, ← hsplit] at h
    obtain ⟨⟨enough, m', capacity⟩, hpop, h⟩ := bind_eq_ok h
    have hcleanFrom : CleanFrom (range.b / 64) (wordsEnd range - range.b / 64) m := by
      intro x hx hxlt hxend
      have hmem : x.bitmapWordIndex ∈ words s.entries :=
        mem_words.mpr ⟨x, hsplit ▸ mem_append_right _ hx, rfl⟩
      have hprev := hclean _ hmem hxlt (by omega)
      rw [hsplit] at hprev
      exact mem_words_of_le hlt hprev (by omega)
    obtain ⟨hw', hwords⟩ := populateFrom_wf hw hsplit hlt hle hcleanFrom (by omega) hpop
    obtain ⟨hwf, hok⟩ := populate_finish hw' h
    refine ⟨hwf, fun i hi j => ?_⟩
    obtain ⟨henough, rfl⟩ := hok i hi
    rw [hwords henough, withRange, Nat.add_sub_cancel' hbe]

theorem addExtent_spec {r : Except NvFsError Unit}
    (h : addExtent pr al s range = .ok (r, s')) :
    Wf s' ∧ (r = .ok () →
      ∀ j, j ∈ words s'.entries ↔ withRange (· ∈ words s.entries) range j) := by
  obtain ⟨⟨r₁, s₁⟩, hpop, h⟩ := bind_eq_ok h
  obtain ⟨hw₁, hwords⟩ := populateMissingInRange_spec hw hr hclean hpop
  cases r₁ with
  | error e =>
    cases h
    exact ⟨hw₁, fun h => nomatch h⟩
  | ok first =>
    obtain ⟨⟨i, s₂⟩, hset, h⟩ := bind_eq_ok h
    cases h
    have hsame := setInRange_spec hset
    refine ⟨hsame.wf hw₁, fun _ j => ?_⟩
    rw [hsame.words_eq, hwords first rfl j]

end

theorem setExtents_wf (hw : Wf s)
    (h : setExtents pr hint s ranges = .ok s') : Wf s' := by
  induction ranges generalizing hint s with
  | nil =>
    cases h
    exact hw
  | cons range ranges ih =>
    obtain ⟨⟨i, s₁⟩, hset, h⟩ := bind_eq_ok h
    exact ih ((setInRange_spec hset).wf hw) h

theorem pruneExtents_wf (hw : Wf s)
    (h : pruneExtents pr hint s ranges = .ok s') : Wf s' := by
  induction ranges generalizing hint s with
  | nil =>
    cases h
    exact hw
  | cons range ranges ih =>
    obtain ⟨s₁, hprune, h⟩ := bind_eq_ok h
    have hbound : _ < 2 ^ 64 := hw.room.trans_lt (hw.capacity_lt.trans (by decide))
    exact ih ((pruneUnusedInRange_spec hbound hprune).wf hw) h

theorem CleanAll.congr {K K' : Nat → Prop} (h : ∀ j, K j ↔ K' j) (ranges : List BlockRange) :
    CleanAll K ranges ↔ CleanAll K' ranges := by
  obtain rfl : K = K' := funext (fun j => propext (h j))
  exact Iff.rfl

section

variable (hw : Wf s) (hr : ∀ x ∈ ranges, InStorage x)
  (hclean : CleanAll (· ∈ words s.entries) ranges)
include hw hr hclean

theorem populateExtents_wf {reset : Bool}
    {done : List BlockRange} {r : Except NvFsError (Option Nat)}
    (h : populateExtents pr al hint reset done s ranges = .ok (r, s')) :
    Wf s' := by
  induction ranges generalizing hint reset done s with
  | nil =>
    cases h
    exact hw
  | cons range ranges ih =>
    obtain ⟨⟨r₁, s₁⟩, hpop, h⟩ := bind_eq_ok h
    obtain ⟨hw₁, hwords⟩ := populateMissingInRange_spec hw (hr range (mem_cons_self ..))
      hclean.1 hpop
    cases r₁ with
    | error e =>
      obtain ⟨s₂, hprune, h⟩ := bind_eq_ok h
      cases h
      exact pruneExtents_wf hw₁ hprune
    | ok first =>
      have hclean₁ := (CleanAll.congr (hwords first rfl) ranges).mpr hclean.2
      have hr₁ : ∀ x ∈ ranges, InStorage x := fun x hx => hr x (mem_cons_of_mem _ hx)
      cases hint with
      | none => exact ih hw₁ hr₁ hclean₁ h
      | some hint => exact ih hw₁ hr₁ hclean₁ h

theorem addExtents_wf {r : Except NvFsError Unit}
    (h : addExtents pr al s ranges = .ok (r, s')) : Wf s' := by
  obtain ⟨⟨r₁, s₁⟩, hpop, h⟩ := bind_eq_ok h
  have hw₁ := populateExtents_wf hw hr hclean hpop
  cases r₁ with
  | error e =>
    cases h
    exact hw₁
  | ok hint =>
    obtain ⟨s₂, hset, h⟩ := bind_eq_ok h
    cases h
    exact setExtents_wf hw₁ hset

end

end Populate

def alignedRange (blockLog2 b : Nat) : BlockRange := ⟨b, b + 2 ^ blockLog2⟩

theorem blockRange_ok (pr : Profile) {blockLog2 b : Nat} (hr : InStorage (alignedRange blockLog2 b)) :
    blockRange pr b blockLog2 = .ok (alignedRange blockLog2 b) := by
  have hend : b + 2 ^ blockLog2 + 64 ≤ 2 ^ 64 := hr.2
  have hlog2 : blockLog2 < 64 := by
    rw [← Nat.pow_lt_pow_iff_right (show 1 < 2 by decide)]
    omega
  rw [blockRange, shlU64_ok pr hlog2 (by omega), ok_bind, Nat.one_mul,
    checkedAdd_ok (by omega), ok_bind]
  rfl

section Ops

variable {pr : Profile} {al : Allocator} {s s' : SparseAllocBitmap} {prepare : Bool}

theorem removeExtentWith_wf (hw : Wf s) (hr : InStorage range)
    (h : removeExtentWith pr s prepare range = .ok s') : Wf s' := by
  obtain ⟨s₁, s₂, hsame, hpruned, hok, -⟩ := removeExtentWith_ok pr hw prepare hr
  rw [hok] at h
  cases h
  exact hpruned.wf (hsame.wf hw)

variable {blocks : List Nat} {blockLog2 : Nat} {r : Except NvFsError Unit}

theorem removeBlocksWith_wf (hw : Wf s) (hr : ∀ b ∈ blocks, InStorage (alignedRange blockLog2 b))
    (h : removeBlocksWith pr s prepare blockLog2 blocks = .ok s') : Wf s' := by
  induction blocks generalizing s with
  | nil =>
    cases h
    exact hw
  | cons b blocks ih =>
    have hb := hr b (mem_cons_self ..)
    rw [removeBlocksWith, foldlM_cons] at h
    obtain ⟨s₁, hs₁, h⟩ := bind_eq_ok h
    rw [removeBlockWith, blockRange_ok pr hb, ok_bind] at hs₁
    exact ih (removeExtentWith_wf hw hb hs₁) (fun x hx => hr x (mem_cons_of_mem _ hx)) h

theorem addBlocksFrom_wf (hw : Wf s) {done : List Nat}
    (hdone : ∀ b ∈ done, InStorage (alignedRange blockLog2 b))
    (hr : ∀ b ∈ blocks, InStorage (alignedRange blockLog2 b))
    (hclean : CleanAll (· ∈ words s.entries) (blocks.map (alignedRange blockLog2)))
    (h : addBlocksFrom pr al blockLog2 done s blocks = .ok (r, s')) : Wf s' := by
  induction blocks generalizing done s with
  | nil =>
    cases h
    exact hw
  | cons b blocks ih =>
    have hb := hr b (mem_cons_self ..)
    obtain ⟨⟨r₁, s₁⟩, hadd, h⟩ := bind_eq_ok h
    rw [SparseAllocBitmap.addBlock, blockRange_ok pr hb, ok_bind] at hadd
    obtain ⟨hw₁, hwords⟩ := addExtent_spec hw hb hclean.1 hadd
    cases r₁ with
    | error e =>
      obtain ⟨s₂, hremove, h⟩ := bind_eq_ok h
      cases h
      exact removeBlocksWith_wf hw₁ hdone hremove
    | ok u =>
      have hclean₁ := (CleanAll.congr (hwords rfl) (blocks.map (alignedRange blockLog2))).mpr
        hclean.2
      refine ih hw₁ ?_ (fun x hx => hr x (mem_cons_of_mem _ hx)) hclean₁ h
      intro x hx
      rcases mem_append.mp hx with hx | hx
      · exact hdone x hx
      · exact mem_singleton.mp hx ▸ hb

variable {a : AllocBitmap}

theorem repopulate_wf (hw : Wf s) (hr : InStorage range)
    (h : repopulateSetRangeForRollback pr al s range a value = .ok (r, s')) :
    Wf s' := by
  obtain ⟨r₁, s₁, hok, hw₁, -⟩ := repopulate_ok pr al a value hw hr
  rw [hok] at h
  cases h
  exact hw₁

theorem rollbackRemoveExtents_wf (hw : Wf s)
    {ranges : List BlockRange} (hr : ∀ x ∈ ranges, InStorage x)
    (h : rollbackRemoveExtents pr al a value s ranges = .ok (r, s')) : Wf s' := by
  induction ranges generalizing s with
  | nil =>
    cases h
    exact hw
  | cons range ranges ih =>
    obtain ⟨⟨r₁, s₁⟩, hrollback, h⟩ := bind_eq_ok h
    have hw₁ := repopulate_wf hw (hr range (mem_cons_self ..)) hrollback
    cases r₁ with
    | error e =>
      cases h
      exact hw₁
    | ok u => exact ih hw₁ (fun x hx => hr x (mem_cons_of_mem _ hx)) h

theorem rollbackRemoveBlocks_wf (hw : Wf s)
    (hr : ∀ b ∈ blocks, InStorage (alignedRange blockLog2 b))
    (h : SparseAllocBitmap.rollbackRemoveBlocks pr al a value blockLog2 s blocks = .ok (r, s')) :
    Wf s' := by
  induction blocks generalizing s with
  | nil =>
    cases h
    exact hw
  | cons b blocks ih =>
    have hb := hr b (mem_cons_self ..)
    obtain ⟨⟨r₁, s₁⟩, hrollback, h⟩ := bind_eq_ok h
    rw [SparseAllocBitmap.rollbackRemoveBlock, blockRange_ok pr hb, ok_bind] at hrollback
    have hw₁ := repopulate_wf hw hb hrollback
    cases r₁ with
    | error e =>
      cases h
      exact hw₁
    | ok u => exact ih hw₁ (fun x hx => hr x (mem_cons_of_mem _ hx)) h

end Ops

def Op.ranges : Op → List BlockRange
  | .addBlock blockLog2 b => [alignedRange blockLog2 b]
  | .addBlocks blockLog2 blocks => blocks.map (alignedRange blockLog2)
  | .addExtent extent => [extent]
  | .addExtents extents => extents
  | .removeBlock blockLog2 b => [alignedRange blockLog2 b]
  | .removeBlocks blockLog2 blocks => blocks.map (alignedRange blockLog2)
  | .removeExtent extent => [extent]
  | .removeExtents extents => extents
  | .rollbackRemoveBlock _ _ blockLog2 b => [alignedRange blockLog2 b]
  | .rollbackRemoveBlocks _ _ blockLog2 blocks => blocks.map (alignedRange blockLog2)
  | .rollbackRemoveExtent _ _ extent => [extent]
  | .rollbackRemoveExtents _ _ extents => extents

def Op.InStorage (op : Op) : Prop := ∀ r ∈ op.ranges, SparseBitmap.InStorage r

def Op.adds : Op → Bool
  | .addBlock .. | .addBlocks .. | .addExtent .. | .addExtents .. => true
  | _ => false

/-- An operation adding blocks doesn't come past an existing entry after some missing
ones with more words to go. -/
def Op.Clean (s : SparseAllocBitmap) (op : Op) : Prop :=
  op.adds = true → CleanAll (· ∈ words s.entries) op.ranges

/-- The bitmaps reached by operations that meet some condition at the bitmap they're
applied to, with any memory allocator each. -/
inductive Reached (pr : Profile) (Allowed : SparseAllocBitmap → Op → Prop) :
    SparseAllocBitmap → Prop
  | new : Reached pr Allowed .new
  | step {s s' : SparseAllocBitmap} (op : Op) (al : Allocator) (h : Reached pr Allowed s)
      (hop : Allowed s op) (hs' : op.apply pr al s = .ok s') : Reached pr Allowed s'

theorem map_snd_eq_ok {α : Type} {x : Comp (Result α)}
    (h : Prod.snd <$> x = .ok s) : ∃ r, x = .ok (r, s) := by
  cases x with
  | error e => cases h
  | ok y =>
    cases h
    exact ⟨y.1, rfl⟩

theorem Op.apply_wf {al : Allocator} {op : Op}
    (hw : Wf s) (hr : op.InStorage) (hclean : op.Clean s) (h : op.apply pr al s = .ok s') :
    Wf s' := by
  cases op with
  | addBlock blockLog2 b =>
    have hb := hr _ (mem_singleton_self _)
    obtain ⟨r, h⟩ := map_snd_eq_ok h
    rw [SparseAllocBitmap.addBlock, blockRange_ok pr hb, ok_bind] at h
    exact (addExtent_spec hw hb (hclean rfl).1 h).1
  | addBlocks blockLog2 blocks =>
    obtain ⟨r, h⟩ := map_snd_eq_ok h
    exact addBlocksFrom_wf hw (fun b hb => absurd hb not_mem_nil)
      (fun b hb => hr _ (mem_map_of_mem hb)) (hclean rfl) h
  | addExtent extent =>
    obtain ⟨r, h⟩ := map_snd_eq_ok h
    exact (addExtent_spec hw (hr _ (mem_singleton_self _)) (hclean rfl).1 h).1
  | addExtents extents =>
    obtain ⟨r, h⟩ := map_snd_eq_ok h
    exact addExtents_wf hw hr (hclean rfl) h
  | removeBlock blockLog2 b =>
    have hb := hr _ (mem_singleton_self _)
    rw [Op.apply, removeBlockWith, blockRange_ok pr hb, ok_bind] at h
    exact removeExtentWith_wf hw hb h
  | removeBlocks blockLog2 blocks =>
    exact removeBlocksWith_wf hw (fun b hb => hr _ (mem_map_of_mem hb)) h
  | removeExtent extent => exact removeExtentWith_wf hw (hr _ (mem_singleton_self _)) h
  | removeExtents extents =>
    obtain ⟨s₁, hok, hremoved⟩ := removeExtents_ok pr hw hr
    cases hok.symm.trans h
    exact hremoved.wf
  | rollbackRemoveBlock a value blockLog2 b =>
    have hb := hr _ (mem_singleton_self _)
    obtain ⟨r, h⟩ := map_snd_eq_ok h
    rw [SparseAllocBitmap.rollbackRemoveBlock, blockRange_ok pr hb, ok_bind] at h
    exact repopulate_wf hw hb h
  | rollbackRemoveBlocks a value blockLog2 blocks =>
    obtain ⟨r, h⟩ := map_snd_eq_ok h
    exact rollbackRemoveBlocks_wf hw (fun b hb => hr _ (mem_map_of_mem hb)) h
  | rollbackRemoveExtent a value extent =>
    obtain ⟨r, h⟩ := map_snd_eq_ok h
    exact repopulate_wf hw (hr _ (mem_singleton_self _)) h
  | rollbackRemoveExtents a value extents =>
    obtain ⟨r, h⟩ := map_snd_eq_ok h
    exact rollbackRemoveExtents_wf hw hr h

theorem Reached.wf (h : Reached pr (fun s op => op.InStorage ∧ op.Clean s) s) : Wf s := by
  induction h with
  | new => exact ⟨List.Pairwise.nil, fun e he => absurd he not_mem_nil, le_refl 0, by decide⟩
  | step op al _ hop hs' ih => exact Op.apply_wf ih hop.1 hop.2 hs'

/-- Removing extents with all their blocks' bits set, none of which is in the state
tracked in the bitmap rolled back to, and rolling that back right afterwards succeeds
with no new memory and restores the block set. -/
def RemovesReversibly (pr : Profile) (s : SparseAllocBitmap) : Prop :=
  ∀ (a : AllocBitmap) (value : Bool) (xs : List BlockRange), (∀ r ∈ xs, InStorage r) →
    (∀ r ∈ xs, ∀ p, r.b ≤ p → p < r.e →
      tracked s.entries p = true ∧ a.allocated p ≠ value) →
    ∀ al : Allocator, ∃ s₁ s₂, s.removeExtents pr xs = .ok s₁ ∧
      rollbackRemoveExtents pr al a value s₁ xs = .ok (.ok (), s₂) ∧
      s₂.capacity = s.capacity ∧ ∀ p, tracked s₂.entries p = tracked s.entries p

theorem Wf.removesReversibly (hw : Wf s) (pr : Profile) :
    RemovesReversibly pr s := by
  intro a value xs hr hblocks al
  obtain ⟨s₁, hs₁, hremoved⟩ := removeExtents_ok pr hw hr
  have hlen : (words s.entries).length ≤
      s₁.entries.length + s₁.removeRollbackReserveCapacity := by
    rw [hremoved.length_add_reserve, words, length_map]
    exact Nat.le_add_right _ _
  have hmem : ∀ r ∈ xs, ∀ p, r.b ≤ p → p < r.e →
      p / 64 ∈ words s.entries ∧ a.allocated p ≠ value := by
    intro r hrx p hp hp'
    obtain ⟨htracked, halloc⟩ := hblocks r hrx p hp hp'
    obtain ⟨e, he, hidx, -⟩ := tracked_iff.mp htracked
    exact ⟨mem_words.mpr ⟨e, he, hidx⟩, halloc⟩
  obtain ⟨s₂, hs₂, hcap, htracked⟩ := rollbackRemoveExtents_enough pr al a value hremoved.wf hr
    hremoved.words_subset hlen hmem
  refine ⟨s₁, s₂, hs₁, hs₂, hcap.trans hremoved.capacity_eq, fun p => ?_⟩
  rw [htracked p, hremoved.tracked_eq p]
  by_cases hin : ∃ r ∈ xs, r.b ≤ p ∧ p < r.e
  · obtain ⟨r, hrx, hp, hp'⟩ := hin
    rw [decide_eq_true ⟨r, hrx, hp, hp'⟩, Bool.or_true, (hblocks r hrx p hp hp').1]
  · rw [decide_eq_false hin, Bool.not_false, Bool.and_true, Bool.or_false]

theorem reached_removesReversibly {pr : Profile} {s : SparseAllocBitmap}
    (h : Reached pr (fun s op => op.InStorage ∧ op.Clean s) s) :
    s.removeRollbackReserveCapacity ≤ s.capacity - s.entries.length ∧ RemovesReversibly pr s := by
  have hw := h.wf
  have hroom := hw.room
  exact ⟨by omega, hw.removesReversibly pr⟩

/-- Any capacity that a vector of entries can have is available, and nothing more
than what's been asked for is given. -/
def exactAllocator : Allocator where
  grow _ required := if required < 2 ^ 59 then some required else none
  le_grow h := by
    split at h
    · cases h
      exact le_refl _
    · cases h
  grow_lt h := by
    split at h
    · cases h
      assumption
    · cases h

/-- The bitmap after adding the blocks of the first word and of a part of the second
one. -/
def twoWords : SparseAllocBitmap := ⟨[⟨0, allOnes 64⟩, ⟨1, 63#64⟩], 2, 0⟩

theorem twoWords_removesReversibly :
    Reached .debug (fun s op => op.InStorage ∧ op.Clean s) twoWords ∧
      0 ≤ 2 - 2 ∧ RemovesReversibly .debug twoWords := by
  have hreached : Reached .debug (fun s op => op.InStorage ∧ op.Clean s) twoWords := by
    refine .step (.addExtent ⟨0, 70⟩) exactAllocator .new ⟨?_, ?_⟩ (by decide +kernel)
    · intro r hr
      obtain rfl := mem_singleton.mp hr
      decide
    · exact fun _ => ⟨fun j hj => absurd hj not_mem_nil, trivial⟩
  exact ⟨hreached, reached_removesReversibly hreached⟩

/-- The bitmap after adding four words' blocks first and then an extent that begins
in the word before: the second and the third word are there twice. -/
def doubledWords : SparseAllocBitmap where
  entries := [⟨2, 0xffffffff00000000#64⟩, ⟨3, allOnes 64⟩, ⟨3, 0⟩, ⟨4, allOnes 64⟩,
    ⟨4, 0⟩, ⟨5, allOnes 64⟩, ⟨6, 0xffffffff#64⟩]
  capacity := 7
  removeRollbackReserveCapacity := 0

theorem doubledWords_reached : Reached .release (fun _ op => op.InStorage) doubledWords := by
  have hfirst : Reached .release (fun _ op => op.InStorage)
      ⟨[⟨3, 0xffffffff00000000#64⟩, ⟨4, allOnes 64⟩, ⟨5, allOnes 64⟩,
        ⟨6, 0xffffffff#64⟩], 4, 0⟩ := by
    refine .step (.addExtent ⟨224, 416⟩) exactAllocator .new ?_ (by decide +kernel)
    intro r hr
    obtain rfl := mem_singleton.mp hr
    decide
  refine .step (.addExtent ⟨160, 416⟩) exactAllocator hfirst ?_ (by decide +kernel)
  intro r hr
  obtain rfl := mem_singleton.mp hr
  decide

/-- Only three of the five words are pruned, as if there were none twice, but all five
are needed again. -/
theorem doubledWords_not_removesReversibly :
    Reached .release (fun _ op => op.InStorage) doubledWords ∧
      ¬RemovesReversibly .release doubledWords := by
  refine ⟨doubledWords_reached, fun h => ?_⟩
  have hblocks : ∀ p < 416, 160 ≤ p → tracked doubledWords.entries p = true := by
    decide +kernel
  obtain ⟨s₁, s₂, hs₁, hs₂, -⟩ := h ⟨[], by decide⟩ true [⟨160, 416⟩]
    (by
      intro r hr
      obtain rfl := mem_singleton.mp hr
      decide)
    (by
      intro r hr p hp hp'
      obtain rfl := mem_singleton.mp hr
      exact ⟨hblocks p hp' hp, by simp [AllocBitmap.allocated, AllocBitmap.word]⟩)
    exactAllocator
  have hremoved : doubledWords.removeExtents .release [⟨160, 416⟩] =
      .ok ⟨[⟨4, allOnes 64⟩, ⟨4, 0⟩, ⟨5, allOnes 64⟩, ⟨6, 0xffffffff#64⟩], 7, 3⟩ := by
    decide +kernel
  cases hremoved.symm.trans hs₁
  have hfails : (rollbackRemoveExtents .release exactAllocator ⟨[], by decide⟩ true
      ⟨[⟨4, allOnes 64⟩, ⟨4, 0⟩, ⟨5, allOnes 64⟩, ⟨6, 0xffffffff#64⟩], 7, 3⟩
      [⟨160, 416⟩]).map Prod.fst = .ok (.error .internal) := by
    decide +kernel
  rw [hs₂] at hfails
  cases hfails

end CocoonFs.SparseBitmap
