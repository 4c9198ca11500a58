import CocoonFs.SparseLoops

namespace CocoonFs.BitmapResize

open Checked Extents Bitmap SparseBitmap List
open BitVec (allOnes getLsbD_zero)

/-- Whether a block's bit is set in the words of an allocation bitmap. -/
def allocated (bitmap : List BitmapWord) (p : Nat) : Bool :=
  (bitmap[p / 64]?.getD 0).getLsbD (p % 64)

/-- AllocBitmap::new, if there's enough memory for the words. -/
def new (enough : Bool) (imageAllocationBlocks : Nat) : Except NvFsError (List BitmapWord) :=
  if imageAllocationBlocks = 0 then
    .ok []
  else if enough then
    .ok (List.replicate ((imageAllocationBlocks - 1) / 64 + 1) 0)
  else
    .error .memoryAllocationFailure

/-- AllocBitmap::resize, if there's enough memory for the new words. -/
def resize (enough : Bool) (bitmap : List BitmapWord) (imageAllocationBlocks : Nat) :
    Except NvFsError (List BitmapWord) :=
  if imageAllocationBlocks = 0 then
    .ok []
  else
    let bitmapWords := (imageAllocationBlocks - 1) / 64 + 1
    if bitmapWords < bitmap.length then
      let bitsInLastBitmapWord := 64 - (2 ^ 64 - imageAllocationBlocks) % 64
      .ok ((bitmap.take bitmapWords).modify (bitmapWords - 1)
        (· &&& trailingBitsMask bitsInLastBitmapWord))
    else if enough then
      .ok (bitmap ++ List.replicate (bitmapWords - bitmap.length) 0)
    else
      .error .memoryAllocationFailure

/-- AllocBitmap::apply_pending, from the current entry on. An entry's index is that of
a block's word, so it doesn't get lost in the block's index. -/
def applyPending (isFree : Bool) : List Entry → List BitmapWord → Comp (List BitmapWord)
  | [], bitmap => pure bitmap
  | e :: es, bitmap => do
    let word ← index bitmap e.bitmapWordIndex
    applyPending isFree es (bitmap.set e.bitmapWordIndex
      (if isFree then word &&& ~~~e.bitmapWord else word ||| e.bitmapWord))

/-- The loop of set_in_range, over the words that overlap with the range. -/
def setWords (value : Bool) : Nat → Nat → List BitmapWord → List BitmapWord
  | _, _, [] => []
  | count, offset, word :: words =>
    let bits := min count (64 - offset)
    let mask := bitsMask bits offset
    (word &&& ~~~mask ||| (if value then mask else 0)) ::
      setWords value (count - bits) 0 words

/-- AllocBitmap::set_in_range -/
def setInRange (pr : Profile) (bitmap : List BitmapWord) (range : BlockRange) (value : Bool) :
    Comp (Except NvFsError (List BitmapWord)) := do
  let count ← range.blockCount
  let last ← subU64 pr range.e 1
  let wordsBegin := range.b / 64
  let wordsEnd := last / 64 + 1
  if wordsEnd > bitmap.length ∧ value then
    pure (.error .ioErrorRegionOutOfRange)
  else if wordsEnd > bitmap.length ∧ wordsBegin ≥ bitmap.length then
    pure (.ok bitmap)
  else
    -- What's beyond the bitmap's end is unset already.
    let wordsEnd := min wordsEnd bitmap.length
    pure (.ok (bitmap.take wordsBegin ++
      setWords value count (range.b % 64) ((bitmap.drop wordsBegin).take (wordsEnd - wordsBegin)) ++
      bitmap.drop (max wordsBegin wordsEnd)))

/-- An allocation bitmap with the number of blocks it has been sized for. -/
structure State where
  bitmap : List BitmapWord
  imageAllocationBlocks : Nat
  deriving DecidableEq

inductive Op where
  | resize (enough : Bool) (imageAllocationBlocks : Nat)
  | setInRange (range : BlockRange) (value : Bool)
  | applyPending (pending : List Entry) (isFree : Bool)

def Op.apply (pr : Profile) (s : State) : Op → Comp State
  | .resize enough n =>
    match BitmapResize.resize enough s.bitmap n with
    | .ok bitmap => pure ⟨bitmap, n⟩
    | .error _ => pure s
  | .setInRange range value => do
    let r ← BitmapResize.setInRange pr s.bitmap range value
    match r with
    | .ok bitmap => pure { s with bitmap := bitmap }
    | .error _ => pure s
  | .applyPending pending isFree => do
    let bitmap ← BitmapResize.applyPending isFree pending s.bitmap
    pure { s with bitmap := bitmap }

def Op.Within (s : State) : Op → Prop
  | .resize _ n => n < 2 ^ 64
  | .setInRange range _ => range.e ≤ s.imageAllocationBlocks
  | .applyPending pending _ => ∀ p, tracked pending p = true → p < s.imageAllocationBlocks

/-- The bitmap isn't resized to the same number of words with something allocated
beyond its new end. -/
def Op.Masks (s : State) : Op → Prop
  | .resize _ n => n = 0 ∨ (n - 1) / 64 + 1 < s.bitmap.length ∨
      ∀ p, n ≤ p → allocated s.bitmap p = false
  | _ => True

inductive Reached (pr : Profile) (Allowed : State → Op → Prop) (s₀ : State) : State → Prop
  | start : Reached pr Allowed s₀ s₀
  | step {s s' : State} (op : Op) (h : Reached pr Allowed s₀ s) (hop : Allowed s op)
      (hs' : op.apply pr s = .ok s') : Reached pr Allowed s₀ s'

def Clear (bitmap : List BitmapWord) (n : Nat) : Prop := ∀ p, n ≤ p → allocated bitmap p = false

theorem allocated_nil (p : Nat) : allocated [] p = false := getLsbD_zero

theorem allocated_append (l m : List BitmapWord) (p : Nat) :
    allocated (l ++ m) p =
      if p / 64 < l.length then allocated l p else allocated m (p - l.length * 64) := by
  rw [allocated, getElem?_append]
  split
  · rfl
  next hge =>
    have hdiv : (p - l.length * 64) / 64 = p / 64 - l.length := by omega
    have hmod : (p - l.length * 64) % 64 = p % 64 := by omega
    rw [allocated, hdiv, hmod]

variable {bitmap bitmap' : List BitmapWord}

theorem allocated_of_le {p : Nat} (h : bitmap.length ≤ p / 64) :
    allocated bitmap p = false := by
  rw [allocated, getElem?_eq_none h]
  exact getLsbD_zero

theorem allocated_replicate (k p : Nat) : allocated (List.replicate k 0) p = false := by
  rw [allocated, getElem?_replicate]
  split <;> exact getLsbD_zero

theorem allocated_take {k p : Nat} (h : p / 64 < k) :
    allocated (bitmap.take k) p = allocated bitmap p := by
  rw [allocated, getElem?_take_of_lt h, allocated]

theorem allocated_drop (k p : Nat) :
    allocated (bitmap.drop k) p = allocated bitmap (p + k * 64) := by
  have hdiv : (p + k * 64) / 64 = k + p / 64 := by omega
  have hmod : (p + k * 64) % 64 = p % 64 := by omega
  rw [allocated, getElem?_drop, allocated, hdiv, hmod]

/-- All the blocks from the new size on get cleared only if the number of words gets
smaller. -/
theorem resize_spec {enough : Bool} {n : Nat} (hn : n < 2 ^ 64)
    (h : resize enough bitmap n = .ok bitmap') (p : Nat) :
    allocated bitmap' p =
      if n = 0 ∨ (n - 1) / 64 + 1 < bitmap.length then allocated bitmap p && decide (p < n)
      else allocated bitmap p := by
  rw [resize] at h
  by_cases hzero : n = 0
  · rw [if_pos hzero] at h
    cases h
    rw [if_pos (.inl hzero), allocated_nil, hzero, decide_eq_false (by omega), Bool.and_false]
  · rw [if_neg hzero] at h
    by_cases hless : (n - 1) / 64 + 1 < bitmap.length
    · rw [if_pos hless] at h
      cases h
      rw [if_pos (.inr hless), Nat.add_sub_cancel, allocated]
      by_cases hlast : (n - 1) / 64 = p / 64
      · rw [hlast, List.getElem?_modify_eq, getElem?_take_of_lt (Nat.lt_succ_self _), allocated,
          getElem?_eq_getElem (by omega)]
        change BitVec.getLsbD (_ &&& _) _ = _
        rw [BitVec.getLsbD_and, getLsbD_trailingBitsMask (by omega)]
        congr 1
        rw [decide_eq_decide]
        omega
      · rw [getElem?_modify_ne _ _ hlast]
        by_cases hp : p / 64 < (n - 1) / 64 + 1
        · rw [getElem?_take_of_lt hp, decide_eq_true (by omega), Bool.and_true, allocated]
        · rw [getElem?_take_eq_none (by omega), decide_eq_false (by omega), Bool.and_false]
          exact getLsbD_zero
    · rw [if_neg hless] at h
      split at h
      · cases h
        rw [if_neg (not_or.mpr ⟨hzero, hless⟩), allocated_append]
        split
        · rfl
        · rw [allocated_replicate, allocated_of_le (by omega)]
      · cases h

/-- Resizing does what it's meant to if and only if it needn't mask any bits or masks
them. -/
theorem resize_clear_iff {enough : Bool} {n : Nat}
    (hn : n < 2 ^ 64) (h : resize enough bitmap n = .ok bitmap') :
    Clear bitmap' n ↔ n = 0 ∨ (n - 1) / 64 + 1 < bitmap.length ∨ Clear bitmap n := by
  rw [← or_assoc]
  by_cases hless : n = 0 ∨ (n - 1) / 64 + 1 < bitmap.length
  · refine iff_of_true (fun p hp => ?_) (.inl hless)
    rw [resize_spec hn h, if_pos hless, decide_eq_false (by omega), Bool.and_false]
  · rw [or_iff_right hless]
    refine forall_congr' (fun p => ?_)
    rw [resize_spec hn h, if_neg hless]

theorem allocated_cons (word : BitmapWord) (words : List BitmapWord) (p : Nat) :
    allocated (word :: words) p = if p < 64 then word.getLsbD p else allocated words (p - 64) := by
  have happend := allocated_append [word] words p
  rw [singleton_append, length_singleton, one_mul] at happend
  rw [happend]
  by_cases hp : p < 64
  · rw [if_pos (by omega), if_pos hp, allocated, Nat.div_eq_of_lt hp, Nat.mod_eq_of_lt hp]
    rfl
  · rw [if_neg (by omega), if_neg hp]

theorem length_setWords (value : Bool) (count offset : Nat) (words : List BitmapWord) :
    (setWords value count offset words).length = words.length := by
  induction words generalizing count offset with
  | nil => rfl
  | cons word words ih => rw [setWords, length_cons, length_cons, ih]

theorem allocated_setWords (value : Bool) (count offset : Nat) (words : List BitmapWord)
    (hoffset : offset < 64) (p : Nat) : allocated (setWords value count offset words) p =
      if offset ≤ p ∧ p < offset + count ∧ p / 64 < words.length then value
      else allocated words p := by
  induction words generalizing count offset p with
  | nil =>
    rw [setWords, if_neg]
    rw [length_nil]
    omega
  | cons word words ih =>
    rw [setWords, allocated_cons, allocated_cons, length_cons]
    by_cases hp : p < 64
    · rw [if_pos hp, if_pos hp, getLsbD_setWord (by omega) hp]
      apply if_congr _ rfl rfl
      omega
    · rw [if_neg hp, if_neg hp, ih _ _ (by decide)]
      apply if_congr _ rfl rfl
      omega

/-- The blocks within the range and the bitmap get the value, all others stay as they
are. -/
theorem setInRange_spec {pr : Profile} {range : BlockRange}
    {value : Bool} (h : setInRange pr bitmap range value = .ok (.ok bitmap')) (p : Nat)
    (hp : ¬(range.b ≤ p ∧ p < range.e)) : allocated bitmap' p = allocated bitmap p := by
  obtain ⟨count, hcount, h⟩ := bind_eq_ok h
  obtain ⟨last, -, h⟩ := bind_eq_ok h
  dsimp only at h
  split at h
  · cases h
  · split at h
    · cases h
      rfl
    next hin =>
      cases h
      have hcount : count = range.e - range.b := by
        rw [BlockRange.blockCount, checkedSub] at hcount
        split at hcount
        · cases hcount
          rfl
        · cases hcount
      generalize hwordsEnd : min (last / 64 + 1) bitmap.length = wordsEnd
      rcases lt_or_ge (range.b / 64) wordsEnd with hlt | hge
      · rw [max_eq_right hlt.le, append_assoc, allocated_append, length_take,
          min_eq_left (by omega)]
        by_cases hbefore : p / 64 < range.b / 64
        · rw [if_pos hbefore, allocated_take hbefore]
        · rw [if_neg hbefore, allocated_append, length_setWords, length_take, length_drop,
            min_eq_left (by omega)]
          by_cases hword : (p - range.b / 64 * 64) / 64 < wordsEnd - range.b / 64
          · rw [if_pos hword, allocated_setWords _ _ _ _ (Nat.mod_lt _ (by decide)), if_neg (by omega),
              allocated_take hword, allocated_drop, Nat.sub_add_cancel (by omega)]
          · rw [if_neg hword, allocated_drop]
            congr 1
            omega
      · rw [max_eq_left hge, Nat.sub_eq_zero_of_le hge, take_zero, setWords, List.append_nil,
          take_append_drop]

theorem allocated_set {i : Nat} (hi : i < bitmap.length)
    (word : BitmapWord) (p : Nat) : allocated (bitmap.set i word) p =
      if p / 64 = i then word.getLsbD (p % 64) else allocated bitmap p := by
  rw [allocated]
  split
  next heq => rw [heq, getElem?_set_self hi, Option.getD_some]
  next hne => rw [getElem?_set_ne (Ne.symm hne), allocated]

theorem applyPending_spec {isFree : Bool} {pending : List Entry}
    (h : applyPending isFree pending bitmap = .ok bitmap') (p : Nat) :
    allocated bitmap' p = if isFree then allocated bitmap p && !tracked pending p
      else allocated bitmap p || tracked pending p := by
  induction pending generalizing bitmap with
  | nil =>
    cases h
    cases isFree <;> simp [tracked]
  | cons e pending ih =>
    obtain ⟨word, hword, h⟩ := bind_eq_ok h
    rw [index] at hword
    split at hword
    next x hx =>
      cases hword
      obtain ⟨hlt, hget⟩ := List.getElem?_eq_some_iff.mp hx
      rw [ih h, allocated_set hlt, tracked_cons]
      by_cases hp : p / 64 = e.bitmapWordIndex
      · have hold : allocated bitmap p = word.getLsbD (p % 64) := by
          rw [allocated, hp, hx, Option.getD_some]
        rw [if_pos hp, decide_eq_true hp.symm, hold]
        cases isFree <;> simp [Bool.and_assoc, Bool.or_assoc, Nat.mod_lt]
      · rw [if_neg hp, decide_eq_false (Ne.symm hp)]
        simp
    · cases hword

section Run

variable {pr : Profile} {s s' : State}

theorem Op.apply_clear {op : Op} (hclear : Clear s.bitmap s.imageAllocationBlocks)
    (hwithin : op.Within s) (hmasks : op.Masks s) (h : op.apply pr s = .ok s') :
    Clear s'.bitmap s'.imageAllocationBlocks := by
  cases op with
  | resize enough n =>
    rw [Op.apply] at h
    split at h
    next bitmap hresize =>
      cases h
      exact (resize_clear_iff hwithin hresize).mpr hmasks
    · cases h
      exact hclear
  | setInRange range value =>
    obtain ⟨r, hset, h⟩ := bind_eq_ok h
    cases r with
    | error e =>
      cases h
      exact hclear
    | ok bitmap =>
      cases h
      intro p hp
      have hbeyond : range.e ≤ p := le_trans hwithin hp
      rw [setInRange_spec hset p (by omega), hclear p hp]
  | applyPending pending isFree =>
    obtain ⟨bitmap, hpending, h⟩ := bind_eq_ok h
    cases h
    intro p hp
    have htracked : tracked pending p = false := by
      rw [← Bool.not_eq_true]
      exact fun ht => Nat.not_lt_of_le hp (hwithin p ht)
    rw [applyPending_spec hpending, hclear p hp, htracked]
    cases isFree <;> rfl

theorem Reached.clear {s₀ : State} (hs₀ : Clear s₀.bitmap s₀.imageAllocationBlocks)
    (h : Reached pr (fun s op => op.Within s ∧ op.Masks s) s₀ s) :
    Clear s.bitmap s.imageAllocationBlocks := by
  induction h with
  | start => exact hs₀
  | step op _ hop hs' ih => exact op.apply_clear ih hop.1 hop.2 hs'

/-- As long as all resizing masks what's beyond the new end, nothing beyond the size is
allocated, and neither is any of the blocks that growing the bitmap adds. -/
theorem reached_exposes_unallocated {s₀ : State} (hs₀ : Clear s₀.bitmap s₀.imageAllocationBlocks)
    (h : Reached pr (fun s op => op.Within s ∧ op.Masks s) s₀ s) :
    (∀ p, s.imageAllocationBlocks ≤ p → allocated s.bitmap p = false) ∧
      ∀ enough m bitmap', s.imageAllocationBlocks ≤ m → m < 2 ^ 64 →
        resize enough s.bitmap m = .ok bitmap' →
          ∀ p, s.imageAllocationBlocks ≤ p → allocated bitmap' p = false := by
  have hclear := h.clear hs₀
  refine ⟨hclear, fun enough m bitmap' _ hm hresize p hp => ?_⟩
  rw [resize_spec hm hresize, hclear p hp, Bool.false_and, ite_self]

end Run

/-- All the blocks of two words are allocated before the bitmap shrinks to a single one. -/
theorem reached_exposes_unallocated_sample :
    (∀ p, 1 ≤ p → allocated [1#64] p = false) ∧
      ∀ enough m bitmap', 1 ≤ m → m < 2 ^ 64 → resize enough [1#64] m = .ok bitmap' →
        ∀ p, 1 ≤ p → allocated bitmap' p = false := by
  have hnew : Reached .debug (fun s op => op.Within s ∧ op.Masks s) ⟨[], 0⟩ ⟨[0, 0], 128⟩ :=
    .step (.resize true 128) .start
      ⟨(by decide : 128 < 2 ^ 64), .inr (.inr (fun p _ => allocated_nil p))⟩ (by decide +kernel)
  have hset : Reached .debug (fun s op => op.Within s ∧ op.Masks s) ⟨[], 0⟩
      ⟨[allOnes 64, allOnes 64], 128⟩ :=
    .step (.setInRange ⟨0, 128⟩ true) hnew ⟨le_refl 128, trivial⟩ (by decide +kernel)
  have hshrunk : Reached .debug (fun s op => op.Within s ∧ op.Masks s) ⟨[], 0⟩ ⟨[1#64], 1⟩ :=
    .step (.resize true 1) hset ⟨(by decide : 1 < 2 ^ 64), .inr (.inl (by decide))⟩
      (by decide +kernel)
  exact reached_exposes_unallocated (fun p _ => allocated_nil p) hshrunk

/-- The last 63 blocks of the word are still allocated once the bitmap has shrunk to a
single block and grown again. -/
theorem resize_exposes_allocated :
    Reached .debug (fun s op => op.Within s) ⟨[], 0⟩ ⟨[allOnes 64], 1⟩ ∧
      ¬Clear [allOnes 64] 1 ∧
      resize true [allOnes 64] 64 = .ok [allOnes 64] ∧
      allocated [allOnes 64] 63 = true := by
  have hnew : Reached .debug (fun s op => op.Within s) ⟨[], 0⟩ ⟨[0], 64⟩ :=
    .step (.resize true 64) .start (by decide : 64 < 2 ^ 64) (by decide +kernel)
  have hset : Reached .debug (fun s op => op.Within s) ⟨[], 0⟩ ⟨[allOnes 64], 64⟩ :=
    .step (.setInRange ⟨0, 64⟩ true) hnew (le_refl 64) (by decide +kernel)
  have hlast : allocated [allOnes 64] 63 = true := by decide
  refine ⟨.step (.resize true 1) hset (by decide : 1 < 2 ^ 64) (by decide +kernel), ?_, rfl, hlast⟩
  intro hclear
  exact Bool.noConfusion (hlast.symm.trans (hclear 63 (by decide)))

end CocoonFs.BitmapResize
