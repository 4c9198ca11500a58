import CocoonFs.SparseEntries
import CocoonFs.SparseLoops

namespace CocoonFs.SparseBitmap

open Checked Extents Bitmap SparseEntries List

/-- Vec::drain -/
def drain (entries : List Entry) (b e : Nat) : Comp (List Entry) :=
  if b ≤ e ∧ e ≤ entries.length then .ok (entries.take b ++ entries.drop e)
  else panic .indexOutOfBounds

/-- A position in the entries. The ones right before it, from removeBegin on, have
been emptied and are still to be removed. -/
structure Cursor where
  entries : List Entry
  entryIndex : Nat
  removeBegin : Option Nat

def Cursor.drainRemoved (c : Cursor) : Comp Cursor :=
  match c.removeBegin with
  | some removeBegin => do
    let entries ← drain c.entries removeBegin c.entryIndex
    pure ⟨entries, removeBegin, none⟩
  | none => pure c

/-- The common step of clear_redundant and subtract: the current entry's word gets
replaced, and the cursor moves on to the next one. -/
def Cursor.replaceWord (c : Cursor) (entry : Entry) (word : BitmapWord) : Comp Cursor :=
  let entries := c.entries.set c.entryIndex ⟨entry.bitmapWordIndex, word⟩
  if word ≠ 0 then do
    let c ← Cursor.drainRemoved ⟨entries, c.entryIndex, c.removeBegin⟩
    pure ⟨c.entries, c.entryIndex + 1, none⟩
  else
    pure ⟨entries, c.entryIndex + 1, c.removeBegin.or (some c.entryIndex)⟩

def allocBitmapWordInvertMask (isFree : Bool) : BitmapWord :=
  0#64 - (1#64 - BitVec.ofNat 64 isFree.toNat)

def clearRedundantFrom (a : AllocBitmap) (invertMask : BitmapWord) : Nat → Cursor → Comp Cursor
  | 0, _ => panic .outOfFuel
  | fuel + 1, c =>
    if c.entryIndex < c.entries.length then do
      let entry ← index c.entries c.entryIndex
      let c ← c.replaceWord entry
        (entry.bitmapWord &&& (a.word entry.bitmapWordIndex ^^^ invertMask))
      clearRedundantFrom a invertMask fuel c
    else
      pure c

/-- The first position from the given one on whose entry is not before a word, if
there is one. -/
def skipBelow (entries : List Entry) (bitmapWordIndex : Nat) : Nat → Nat → Comp (Option Nat)
  | 0, _ => panic .outOfFuel
  | fuel + 1, i => do
    let entry ← index entries i
    if entry.bitmapWordIndex < bitmapWordIndex then
      if i + 1 = entries.length then pure none
      else skipBelow entries bitmapWordIndex fuel (i + 1)
    else
      pure (some i)

/-- The innermost loop of subtract goes through words that both have got. It tells
whether one of the two has come to its end. -/
def subtractEqual (other : List Entry) : Nat → Cursor → Nat → Comp (Cursor × Nat × Bool)
  | 0, _, _ => panic .outOfFuel
  | fuel + 1, c, otherEntryIndex => do
    let entry ← index c.entries c.entryIndex
    let otherEntry ← index other otherEntryIndex
    if entry.bitmapWordIndex = otherEntry.bitmapWordIndex then
      let c ← c.replaceWord entry (entry.bitmapWord &&& ~~~otherEntry.bitmapWord)
      if c.entryIndex = c.entries.length then pure (c, otherEntryIndex, true)
      else if otherEntryIndex + 1 = other.length then pure (c, otherEntryIndex + 1, true)
      else subtractEqual other fuel c (otherEntryIndex + 1)
    else
      pure (c, otherEntryIndex, false)

/-- The entries before the other's current word are left alone. There is nothing
left to do if there are no others. -/
def skipThis (pr : Profile) (c : Cursor) (bitmapWordIndex : Nat) : Comp (Cursor × Bool) := do
  let entry ← index c.entries c.entryIndex
  if entry.bitmapWordIndex < bitmapWordIndex then
    let c ← c.drainRemoved
    match ← skipBelow c.entries bitmapWordIndex (c.entries.length + 1) c.entryIndex with
    | none => do
      debugAssert pr (c.removeBegin = none)
      pure (c, true)
    | some i => pure (⟨c.entries, i, c.removeBegin⟩, false)
  else
    pure (c, false)

def subtractFrom (pr : Profile) (other : List Entry) : Nat → Cursor → Nat → Comp Cursor
  | 0, _, _ => panic .outOfFuel
  | fuel + 1, c, otherEntryIndex => do
    debugAssert pr (c.entryIndex < c.entries.length)
    debugAssert pr (otherEntryIndex < other.length)
    let otherEntry ← index other otherEntryIndex
    let (c, returned) ← skipThis pr c otherEntry.bitmapWordIndex
    if returned then pure c
    else
      let entry ← index c.entries c.entryIndex
      debugAssert pr (c.entryIndex < c.entries.length ∧
        otherEntry.bitmapWordIndex ≤ entry.bitmapWordIndex)
      match ← skipBelow other entry.bitmapWordIndex (other.length + 1) otherEntryIndex with
      | none => c.drainRemoved
      | some otherEntryIndex => do
        let (c, otherEntryIndex, broken) ←
          subtractEqual other (c.entries.length + 1) c otherEntryIndex
        if broken then c.drainRemoved
        else subtractFrom pr other fuel c otherEntryIndex

namespace SparseAllocBitmap

def clearRedundant (s : SparseAllocBitmap) (a : AllocBitmap) (isFree : Bool) :
    Comp SparseAllocBitmap := do
  let c ← clearRedundantFrom a (allocBitmapWordInvertMask isFree) (s.entries.length + 1)
    ⟨s.entries, 0, none⟩
  match c.removeBegin with
  | some removeBegin => pure ⟨c.entries.take removeBegin, s.capacity, 0⟩
  | none => pure ⟨c.entries, s.capacity, 0⟩

def subtract (pr : Profile) (s other : SparseAllocBitmap) : Comp SparseAllocBitmap :=
  if s.entries = [] ∨ other.entries = [] then .ok ⟨s.entries, s.capacity, 0⟩
  else do
    let c ← subtractFrom pr other.entries (s.entries.length + other.entries.length + 1)
      ⟨s.entries, 0, none⟩ 0
    pure ⟨c.entries, s.capacity, 0⟩

end SparseAllocBitmap

/-- The entries with their words masked, without the ones that are emptied. -/
def masked (mask : Nat → BitmapWord) (entries : List Entry) : List Entry :=
  (entries.map (fun e => ⟨e.bitmapWordIndex, e.bitmapWord &&& mask e.bitmapWordIndex⟩)).filter
    (fun e => e.bitmapWord ≠ 0)

variable {e : Entry}

section Masked

variable {mask : Nat → BitmapWord}

variable {es : List Entry}

theorem masked_cons_zero
    (h : e.bitmapWord &&& mask e.bitmapWordIndex = 0) : masked mask (e :: es) = masked mask es := by
  rw [masked, map_cons, filter_cons_of_neg (by simp [h]), masked]

theorem masked_cons_ne_zero (h : e.bitmapWord &&& mask e.bitmapWordIndex ≠ 0) :
    masked mask (e :: es) =
      ⟨e.bitmapWordIndex, e.bitmapWord &&& mask e.bitmapWordIndex⟩ :: masked mask es := by
  rw [masked, map_cons, filter_cons_of_pos (by simpa using h), masked]

theorem sorted_masked (hs : Sorted es) : Sorted (masked mask es) := by
  apply List.Pairwise.filter
  exact pairwise_map.mpr hs

theorem ne_zero_of_mem_masked : ∀ e ∈ masked mask es, e.bitmapWord ≠ 0 := by
  intro e he
  simpa using (mem_filter.mp he).2

theorem tracked_masked (es : List Entry) (p : Nat) :
    tracked (masked mask es) p = (tracked es p && (mask (p / 64)).getLsbD (p % 64)) := by
  induction es with
  | nil => rfl
  | cons e es ih =>
    have hbit : (decide (e.bitmapWordIndex = p / 64) &&
        (e.bitmapWord &&& mask e.bitmapWordIndex).getLsbD (p % 64)) =
        (decide (e.bitmapWordIndex = p / 64) && e.bitmapWord.getLsbD (p % 64) &&
          (mask (p / 64)).getLsbD (p % 64)) := by
      by_cases hidx : e.bitmapWordIndex = p / 64
      · rw [hidx, BitVec.getLsbD_and, Bool.and_assoc]
      · simp [hidx]
    rw [tracked_cons, Bool.and_or_distrib_right, ← hbit, ← ih]
    by_cases hzero : e.bitmapWord &&& mask e.bitmapWordIndex = 0
    · rw [masked_cons_zero hzero, hzero]
      simp
    · rw [masked_cons_ne_zero hzero, tracked_cons]

end Masked

/-- The entries before the cursor are the ones that are kept and, right before it,
the ones still to be removed. -/
structure At (c : Cursor) (kept removed rest : List Entry) : Prop where
  entries_eq : c.entries = kept ++ removed ++ rest
  index_eq : c.entryIndex = kept.length + removed.length
  begin_eq : c.removeBegin = if removed = [] then none else some kept.length

theorem At.start (entries : List Entry) : At ⟨entries, 0, none⟩ [] [] entries :=
  ⟨rfl, rfl, rfl⟩

section Step

variable {c : Cursor} {kept removed rest : List Entry}

theorem At.drainRemoved (h : At c kept removed rest) :
    ∃ c', c.drainRemoved = .ok c' ∧ At c' kept [] rest := by
  rw [Cursor.drainRemoved, h.begin_eq]
  by_cases hr : removed = []
  · rw [if_pos hr]
    refine ⟨c, rfl, ?_, ?_, ?_⟩
    · rw [h.entries_eq, hr]
    · rw [h.index_eq, hr]
    · rw [h.begin_eq, if_pos hr, if_pos rfl]
  · rw [if_neg hr]
    have hlen : c.entryIndex ≤ c.entries.length := by
      rw [h.entries_eq, h.index_eq, length_append, length_append]
      omega
    have htake : c.entries.take kept.length = kept := by
      rw [h.entries_eq, append_assoc, take_left]
    have hdrop : c.entries.drop c.entryIndex = rest := by
      rw [h.entries_eq, h.index_eq, ← length_append, drop_left]
    refine ⟨⟨kept ++ rest, kept.length, none⟩, ?_, ?_, ?_, ?_⟩
    · dsimp only
      rw [drain, if_pos ⟨by rw [h.index_eq]; omega, hlen⟩, htake, hdrop]
      rfl
    · rw [List.append_nil]
    · rfl
    · rfl

theorem At.index_ok (h : At c kept removed (e :: rest)) :
    index c.entries c.entryIndex = .ok e := by
  apply Checked.index_ok
  rw [h.entries_eq, h.index_eq, ← length_append, getElem?_append_right (by omega)]
  simp

theorem At.replaceWord (h : At c kept removed (e :: rest)) (word : BitmapWord) :
    ∃ c', c.replaceWord e word = .ok c' ∧
      (word ≠ 0 → At c' (kept ++ [⟨e.bitmapWordIndex, word⟩]) [] rest) ∧
      (word = 0 → At c' kept (removed ++ [⟨e.bitmapWordIndex, word⟩]) rest) := by
  have hset : c.entries.set c.entryIndex ⟨e.bitmapWordIndex, word⟩ =
      kept ++ removed ++ (⟨e.bitmapWordIndex, word⟩ :: rest) := by
    rw [h.entries_eq, h.index_eq, ← length_append, set_append_right _ _ (by omega),
      Nat.sub_self, set_cons_zero]
  rw [Cursor.replaceWord, hset]
  by_cases hw : word = 0
  · rw [if_neg (not_not.mpr hw)]
    refine ⟨_, rfl, fun hne => absurd hw hne, fun _ => ⟨?_, ?_, ?_⟩⟩
    · simp
    · dsimp only
      rw [h.index_eq, length_append, length_singleton]
      omega
    · rw [if_neg (by simp), h.begin_eq, h.index_eq]
      by_cases hr : removed = []
      · simp [hr]
      · simp [hr]
  · rw [if_pos hw]
    have hat : At ⟨kept ++ removed ++ (⟨e.bitmapWordIndex, word⟩ :: rest), c.entryIndex,
        c.removeBegin⟩ kept removed (⟨e.bitmapWordIndex, word⟩ :: rest) :=
      ⟨rfl, h.index_eq, h.begin_eq⟩
    obtain ⟨c', hc', hat'⟩ := hat.drainRemoved
    refine ⟨_, by rw [hc']; rfl, fun _ => ⟨?_, ?_, ?_⟩, fun h0 => absurd h0 hw⟩
    · rw [hat'.entries_eq]
      simp
    · rw [hat'.index_eq, length_append]
      rfl
    · rfl

end Step

variable {kept removed : List Entry} {c : Cursor}

theorem clearRedundantFrom_ok (a : AllocBitmap) (invertMask : BitmapWord) (rest : List Entry)
    (h : At c kept removed rest) {fuel : Nat} (hfuel : rest.length < fuel) :
    ∃ c' removed', clearRedundantFrom a invertMask fuel c = .ok c' ∧
      At c' (kept ++ masked (fun i => a.word i ^^^ invertMask) rest) removed' [] := by
  induction rest generalizing c kept removed fuel with
  | nil =>
    obtain ⟨fuel, rfl⟩ : ∃ n, fuel = n + 1 := ⟨fuel - 1, by omega⟩
    refine ⟨c, removed, ?_, by simpa [masked] using h⟩
    rw [clearRedundantFrom, if_neg]
    · rfl
    · rw [h.index_eq, h.entries_eq, List.append_nil, length_append]
      omega
  | cons e rest ih =>
    rw [length_cons] at hfuel
    obtain ⟨fuel, rfl⟩ : ∃ n, fuel = n + 1 := ⟨fuel - 1, by omega⟩
    have hlt : c.entryIndex < c.entries.length := by
      rw [h.index_eq, h.entries_eq, length_append, length_append, length_cons]
      omega
    obtain ⟨c₁, hc₁, hne, hzero⟩ :=
      h.replaceWord (e.bitmapWord &&& (a.word e.bitmapWordIndex ^^^ invertMask))
    rw [clearRedundantFrom, if_pos hlt, h.index_ok, ok_bind, hc₁, ok_bind]
    by_cases hw : e.bitmapWord &&& (a.word e.bitmapWordIndex ^^^ invertMask) = 0
    · rw [masked_cons_zero hw]
      exact ih (hzero hw) (by omega)
    · rw [masked_cons_ne_zero hw, ← singleton_append, ← append_assoc]
      exact ih (hne hw) (by omega)

theorem SparseAllocBitmap.clearRedundant_ok (s : SparseAllocBitmap) (a : AllocBitmap)
    (isFree : Bool) :
    s.clearRedundant a isFree =
      .ok ⟨masked (fun i => a.word i ^^^ allocBitmapWordInvertMask isFree) s.entries,
        s.capacity, 0⟩ := by
  obtain ⟨c, removed, hc, hat⟩ := clearRedundantFrom_ok a (allocBitmapWordInvertMask isFree)
    s.entries (At.start s.entries) (Nat.lt_succ_self _)
  rw [SparseAllocBitmap.clearRedundant, hc, ok_bind, hat.begin_eq, hat.entries_eq]
  by_cases hr : removed = []
  · rw [if_pos hr, hr]
    simp
  · rw [if_neg hr]
    simp

variable {entries : List Entry} {rest : List Entry}

theorem skipBelow_ok (w fuel : Nat) (hne : rest ≠ [])
    {pre : List Entry} (h : entries = pre ++ rest) (hfuel : rest.length < fuel) :
    ((∀ e ∈ rest, e.bitmapWordIndex < w) ∧ skipBelow entries w fuel pre.length = .ok none) ∨
    ∃ skipped e rest', rest = skipped ++ e :: rest' ∧ (∀ x ∈ skipped, x.bitmapWordIndex < w) ∧
      w ≤ e.bitmapWordIndex ∧
      skipBelow entries w fuel pre.length = .ok (some (pre.length + skipped.length)) := by
  induction rest generalizing fuel pre with
  | nil => exact absurd rfl hne
  | cons e rest ih =>
    rw [length_cons] at hfuel
    obtain ⟨fuel, rfl⟩ : ∃ n, fuel = n + 1 := ⟨fuel - 1, by omega⟩
    have hindex : index entries pre.length = .ok e := by
      apply Checked.index_ok
      rw [h, getElem?_append_right (le_refl _)]
      simp
    rw [skipBelow, hindex, ok_bind]
    by_cases hlt : e.bitmapWordIndex < w
    · rw [if_pos hlt]
      by_cases hrest : rest = []
      · refine .inl ⟨by simpa [hrest] using hlt, if_pos ?_⟩
        rw [h, hrest, length_append]
        rfl
      · have hlen : pre.length + 1 ≠ entries.length := by
          have hpos := length_pos_of_ne_nil hrest
          rw [h, length_append, length_cons]
          omega
        rw [if_neg hlen]
        have hsplit : entries = (pre ++ [e]) ++ rest := by
          rw [h]
          simp
        have hstep := ih fuel hrest hsplit (by omega)
        rw [length_append, length_singleton] at hstep
        obtain ⟨hall, hok⟩ | ⟨skipped, f, rest', rfl, hskipped, hf, hok⟩ := hstep
        · exact .inl ⟨forall_mem_cons.mpr ⟨hlt, hall⟩, hok⟩
        · refine .inr ⟨e :: skipped, f, rest', rfl, forall_mem_cons.mpr ⟨hlt, hskipped⟩, hf,
            ?_⟩
          rw [hok, length_cons]
          congr 2
          omega
    · rw [if_neg hlt]
      exact .inr ⟨[], e, rest, rfl, by simp, Nat.le_of_not_lt hlt, rfl⟩

/-- What is masked in the difference: all but what's in the other one. -/
def except (other : List Entry) : List Entry → List Entry := masked (fun i => ~~~wordAt other i)

theorem except_append_of_disjoint {other l m : List Entry} (hne : ∀ e ∈ l, e.bitmapWord ≠ 0)
    (h : ∀ e ∈ l, ∀ o ∈ other, o.bitmapWordIndex ≠ e.bitmapWordIndex) :
    except other (l ++ m) = l ++ except other m := by
  induction l with
  | nil => rfl
  | cons e l ih =>
    have hword : e.bitmapWord &&& ~~~wordAt other e.bitmapWordIndex = e.bitmapWord := by
      rw [wordAt_eq_zero (h e (by simp))]
      exact BitVec.and_allOnes
    rw [List.cons_append, List.cons_append, except, masked_cons_ne_zero (by
      rw [hword]
      exact hne e (by simp)), hword]
    exact congrArg _ (ih (fun x hx => hne x (by simp [hx])) (fun x hx => h x (by simp [hx])))

theorem except_of_disjoint {other l : List Entry} (hne : ∀ e ∈ l, e.bitmapWord ≠ 0)
    (h : ∀ e ∈ l, ∀ o ∈ other, o.bitmapWordIndex ≠ e.bitmapWordIndex) : except other l = l := by
  have happend := except_append_of_disjoint (m := []) hne h
  rwa [List.append_nil, show except other [] = [] from rfl, List.append_nil] at happend

theorem wordAt_of_mem (hs : Sorted entries) (he : e ∈ entries) :
    wordAt entries e.bitmapWordIndex = e.bitmapWord := by
  induction entries with
  | nil => cases he
  | cons f fs ih =>
    obtain ⟨hhead, htail⟩ := pairwise_cons.mp hs
    rcases mem_cons.mp he with rfl | he
    · rw [wordAt, find?_cons_of_pos (by simp)]
    · have hlt := hhead e he
      rw [wordAt, find?_cons_of_neg (by simpa using hlt.ne)]
      exact ih htail he

/-- The two merge positions: all of the other's words passed are before what's left. -/
structure Merging (other : List Entry) (otherEntryIndex : Nat) (rest : List Entry) : Prop where
  sorted : Sorted rest
  nonzero : ∀ e ∈ rest, e.bitmapWord ≠ 0
  passed : ∀ o ∈ other.take otherEntryIndex, ∀ e ∈ rest, o.bitmapWordIndex < e.bitmapWordIndex

theorem Merging.start (other : List Entry) (hs : Sorted entries)
    (hne : ∀ e ∈ entries, e.bitmapWord ≠ 0) : Merging other 0 entries :=
  ⟨hs, hne, by simp⟩

section Merge

variable {other rest : List Entry} {j : Nat} {l m : List Entry}

theorem Merging.tail (h : Merging other j (l ++ m)) : Merging other j m :=
  ⟨(pairwise_append.mp h.sorted).2.1, fun e he => h.nonzero e (mem_append_right l he),
    fun o ho e he => h.passed o ho e (mem_append_right l he)⟩

/-- Nothing is left to do once all of the other's words are before what's left. -/
theorem Merging.done (h : Merging other j rest) {w : Nat}
    (hafter : ∀ o ∈ other.drop j, o.bitmapWordIndex < w)
    (hw : ∀ e ∈ rest, w ≤ e.bitmapWordIndex) : except other rest = rest := by
  apply except_of_disjoint h.nonzero
  intro e he o ho
  rw [← take_append_drop j other] at ho
  rcases mem_append.mp ho with ho | ho
  · exact (h.passed o ho e he).ne
  · exact (lt_of_lt_of_le (hafter o ho) (hw e he)).ne

theorem Merging.skip (h : Merging other j (l ++ m)) {w : Nat}
    (hl : ∀ e ∈ l, e.bitmapWordIndex < w) (hafter : ∀ o ∈ other.drop j, w ≤ o.bitmapWordIndex) :
    except other (l ++ m) = l ++ except other m := by
  apply except_append_of_disjoint (fun e he => h.nonzero e (mem_append_left m he))
  intro e he o ho
  rw [← take_append_drop j other] at ho
  rcases mem_append.mp ho with ho | ho
  · exact (h.passed o ho e (mem_append_left m he)).ne
  · exact (lt_of_lt_of_le (hl e he) (hafter o ho)).ne'

variable {o : Entry}

theorem drop_eq_cons (ho : other[j]? = some o) :
    other.drop j = o :: other.drop (j + 1) := by
  obtain ⟨hj, rfl⟩ := List.getElem?_eq_some_iff.mp ho
  exact drop_eq_getElem_cons hj

theorem lt_of_mem_drop (hs : Sorted other) (ho : other[j]? = some o) :
    ∀ x ∈ other.drop (j + 1), o.bitmapWordIndex < x.bitmapWordIndex := by
  have hdrop : Sorted (other.drop j) := List.Pairwise.sublist (drop_sublist j other) hs
  rw [drop_eq_cons ho] at hdrop
  exact (pairwise_cons.mp hdrop).1

theorem le_of_mem_drop (hs : Sorted other) (ho : other[j]? = some o) :
    ∀ x ∈ other.drop j, o.bitmapWordIndex ≤ x.bitmapWordIndex := by
  rw [drop_eq_cons ho, forall_mem_cons]
  exact ⟨le_refl _, fun x hx => (lt_of_mem_drop hs ho x hx).le⟩

theorem Merging.advance (h : Merging other j rest) {j' : Nat}
    (hpassed : ∀ o ∈ (other.take j').drop j, ∀ e ∈ rest, o.bitmapWordIndex < e.bitmapWordIndex) :
    Merging other j' rest := by
  refine ⟨h.sorted, h.nonzero, fun o ho e he => ?_⟩
  rw [← take_append_drop j (other.take j')] at ho
  rcases mem_append.mp ho with ho | ho
  · rw [take_take] at ho
    exact h.passed o (take_subset_take_left other (min_le_left _ _) ho) e he
  · exact hpassed o ho e he

theorem Merging.advance_equal (h : Merging other j (e :: rest))
    (ho : other[j]? = some o) (heq : e.bitmapWordIndex = o.bitmapWordIndex) :
    Merging other (j + 1) rest := by
  have hrest : Merging other j rest := Merging.tail (l := [e]) h
  refine hrest.advance (fun x hx f hf => ?_)
  rw [drop_take, Nat.add_sub_cancel_left, drop_eq_cons ho] at hx
  obtain rfl : x = o := by simpa using hx
  rw [← heq]
  exact (pairwise_cons.mp h.sorted).1 f hf

end Merge

structure Progress (other kept rest : List Entry) (c' : Cursor)
    (kept' removed' rest' : List Entry) : Prop where
  at_ : At c' kept' removed' rest'
  except_eq : kept' ++ except other rest' = kept ++ except other rest
  length_le : rest'.length ≤ rest.length

variable {j : Nat}

section Loops

variable {other : List Entry} (hso : Sorted other)
include hso

theorem except_cons {e o : Entry} (ho : other[j]? = some o)
    (heq : e.bitmapWordIndex = o.bitmapWordIndex) :
    except other (e :: rest) = (if e.bitmapWord &&& ~~~o.bitmapWord = 0 then [] else
      [⟨e.bitmapWordIndex, e.bitmapWord &&& ~~~o.bitmapWord⟩]) ++ except other rest := by
  have hword : wordAt other e.bitmapWordIndex = o.bitmapWord := by
    rw [heq]
    exact wordAt_of_mem hso (mem_of_getElem? ho)
  rw [← hword, except]
  split
  · rename_i hzero
    exact masked_cons_zero hzero
  · rename_i hne
    exact masked_cons_ne_zero hne

theorem subtractEqual_ok (fuel : Nat) (hne : rest ≠ [])
    (h : At c kept removed rest) (hm : Merging other j rest)
    (hj : j < other.length) (hfuel : rest.length < fuel) :
    ∃ c' j' broken kept' removed' rest',
      subtractEqual other fuel c j = .ok (c', j', broken) ∧
      Progress other kept rest c' kept' removed' rest' ∧ j ≤ j' ∧
      (broken = true → except other rest' = rest') ∧
      (broken = false → rest' ≠ [] ∧ j' < other.length ∧ Merging other j' rest' ∧
        (rest.head?.map Entry.bitmapWordIndex = other[j]?.map Entry.bitmapWordIndex →
          rest'.length < rest.length)) := by
  induction rest generalizing fuel c kept removed j with
  | nil => exact absurd rfl hne
  | cons e rest ih =>
    rw [length_cons] at hfuel
    obtain ⟨fuel, rfl⟩ : ∃ n, fuel = n + 1 := ⟨fuel - 1, by omega⟩
    have ho : other[j]? = some other[j] := getElem?_eq_getElem hj
    rw [subtractEqual, h.index_ok, ok_bind, Checked.index_ok ho, ok_bind]
    by_cases heq : e.bitmapWordIndex = other[j].bitmapWordIndex
    · obtain ⟨c₁, hc₁, hset, hzero⟩ :=
        h.replaceWord (e.bitmapWord &&& ~~~other[j].bitmapWord)
      obtain ⟨kept₁, removed₁, hat, hkept⟩ : ∃ kept₁ removed₁, At c₁ kept₁ removed₁ rest ∧
          kept₁ ++ except other rest = kept ++ except other (e :: rest) := by
        rw [except_cons hso ho heq]
        split
        · rename_i hw
          exact ⟨_, _, hzero hw, rfl⟩
        · rename_i hw
          exact ⟨_, _, hset hw, by rw [append_assoc]⟩
      have hm₁ := hm.advance_equal ho heq
      rw [if_pos heq, hc₁, ok_bind]
      by_cases hend : rest = []
      · subst hend
        rw [if_pos (by rw [hat.index_eq, hat.entries_eq]; simp)]
        exact ⟨_, _, _, kept₁, removed₁, [], rfl, ⟨hat, hkept, Nat.zero_le _⟩, Nat.le_refl j,
          fun _ => rfl, nofun⟩
      · rw [if_neg (by rw [hat.index_eq, hat.entries_eq]; simp; omega)]
        by_cases hlast : j + 1 = other.length
        · rw [if_pos hlast]
          refine ⟨_, _, _, kept₁, removed₁, rest, rfl, ⟨hat, hkept, by simp⟩, Nat.le_succ j,
            fun _ => ?_, nofun⟩
          apply hm₁.done (w := 0)
          · rw [hlast, drop_length]
            simp
          · exact fun _ _ => Nat.zero_le _
        · rw [if_neg hlast]
          obtain ⟨c', j', broken, kept', removed', rest', hok, hp, hjj, hbroken, hgo⟩ :=
            ih fuel hend hat hm₁ (by omega) (by omega)
          have hle := hp.length_le
          refine ⟨c', j', broken, kept', removed', rest', hok,
            ⟨hp.at_, hp.except_eq.trans hkept, by rw [length_cons]; omega⟩, by omega,
            hbroken, fun hb => ?_⟩
          obtain ⟨hne', hj', hm', -⟩ := hgo hb
          exact ⟨hne', hj', hm', fun _ => by rw [length_cons]; omega⟩
    · rw [if_neg heq]
      refine ⟨c, j, false, kept, removed, e :: rest, rfl, ⟨h, rfl, le_refl _⟩,
        le_refl j, nofun, fun _ => ⟨cons_ne_nil _ _, hj, hm, fun hhead => ?_⟩⟩
      rw [ho] at hhead
      exact absurd (Option.some.inj hhead) heq

theorem skipThis_ok (pr : Profile) (h : At c kept removed (e :: rest))
    (hm : Merging other j (e :: rest)) {o : Entry} (ho : other[j]? = some o) :
    (∃ c', skipThis pr c o.bitmapWordIndex = .ok (c', true) ∧
      c'.entries = kept ++ except other (e :: rest)) ∨
    ∃ c' kept' removed' e' rest', skipThis pr c o.bitmapWordIndex = .ok (c', false) ∧
      Progress other kept (e :: rest) c' kept' removed' (e' :: rest') ∧
      Merging other j (e' :: rest') ∧ o.bitmapWordIndex ≤ e'.bitmapWordIndex ∧
      (e.bitmapWordIndex < o.bitmapWordIndex → rest'.length < rest.length) ∧
      (o.bitmapWordIndex ≤ e.bitmapWordIndex → e' = e) := by
  have hafter := le_of_mem_drop hso ho
  rw [skipThis, h.index_ok, ok_bind]
  by_cases hlt : e.bitmapWordIndex < o.bitmapWordIndex
  · obtain ⟨c₁, hc₁, hat⟩ := h.drainRemoved
    have hentries : c₁.entries = kept ++ e :: rest := by
      rw [hat.entries_eq, List.append_nil]
    have hindex : c₁.entryIndex = kept.length := hat.index_eq
    have hbegin : c₁.removeBegin = none := hat.begin_eq
    rw [if_pos hlt, hc₁, ok_bind, hindex]
    obtain ⟨hall, hok⟩ | ⟨skipped, f, rest', hsplit, hskipped, hf, hok⟩ :=
      skipBelow_ok o.bitmapWordIndex (c₁.entries.length + 1) (cons_ne_nil _ _) hentries
        (by rw [hentries, length_append]; omega)
    · left
      rw [hok, ok_bind]
      rw [debugAssert_ok pr hbegin, ok_bind]
      refine ⟨c₁, rfl, ?_⟩
      have hskip := Merging.skip (l := e :: rest) (m := []) (by simpa using hm) hall hafter
      rw [List.append_nil, show except other [] = [] from rfl, List.append_nil] at hskip
      rw [hentries, hskip]
    · right
      rw [hok, ok_bind]
      have hm' : Merging other j (skipped ++ f :: rest') := hsplit ▸ hm
      cases skipped with
      | nil =>
        obtain ⟨rfl, rfl⟩ := List.cons.inj hsplit
        exact absurd hlt (not_lt.mpr hf)
      | cons s skipped =>
        obtain ⟨rfl, rfl⟩ := List.cons.inj hsplit
        refine ⟨_, kept ++ e :: skipped, [], f, rest', rfl, ⟨⟨?_, ?_, hbegin⟩, ?_, ?_⟩, hm'.tail,
          hf, fun _ => ?_, fun hge => absurd hlt (not_lt.mpr hge)⟩
        · rw [hentries]
          simp
        · simp
        · rw [append_assoc]
          exact congrArg (kept ++ ·) (hm'.skip hskipped hafter).symm
        · rw [append_eq, length_cons, length_cons, length_append,
            length_cons]
          omega
        · rw [append_eq, length_append, length_cons]
          omega
  · rw [if_neg hlt]
    exact .inr ⟨c, kept, removed, e, rest, rfl, ⟨h, rfl, le_refl _⟩, hm, Nat.le_of_not_lt hlt,
      fun h => absurd h hlt, fun _ => rfl⟩

theorem subtractFrom_ok (pr : Profile) (fuel : Nat) (hne : rest ≠ []) (h : At c kept removed rest)
    (hm : Merging other j rest) (hj : j < other.length)
    (hfuel : rest.length + (other.length - j) < fuel) :
    ∃ c', subtractFrom pr other fuel c j = .ok c' ∧ c'.entries = kept ++ except other rest := by
  induction fuel generalizing rest c kept removed j with
  | zero => omega
  | succ fuel ih =>
    obtain ⟨e, rest, rfl⟩ := exists_cons_of_ne_nil hne
    have ho : other[j]? = some other[j] := getElem?_eq_getElem hj
    have hlt : c.entryIndex < c.entries.length := by
      rw [h.index_eq, h.entries_eq, length_append, length_append, length_cons]
      omega
    rw [subtractFrom, debugAssert_ok pr hlt, ok_bind, debugAssert_ok pr hj, ok_bind,
      Checked.index_ok ho, ok_bind]
    obtain ⟨c₁, hc₁, hentries⟩ | ⟨c₁, kept₁, removed₁, e₁, rest₁, hc₁, hp₁, hm₁, hle₁, hshrink,
      hsame⟩ := skipThis_ok hso pr h hm ho
    · rw [hc₁, ok_bind]
      exact ⟨c₁, rfl, hentries⟩
    have hat₁ := hp₁.at_
    have hlt₁ : c₁.entryIndex < c₁.entries.length := by
      rw [hat₁.index_eq, hat₁.entries_eq, length_append, length_append, length_cons]
      omega
    have hpre : (other.take j).length = j := by
      rw [length_take]
      omega
    rw [hc₁, ok_bind]
    dsimp only
    rw [if_neg Bool.false_ne_true, hat₁.index_ok, ok_bind, debugAssert_ok pr ⟨hlt₁, hle₁⟩, ok_bind]
    have hbelow := skipBelow_ok e₁.bitmapWordIndex (other.length + 1)
      (by rw [drop_eq_cons ho]; exact cons_ne_nil _ _) (take_append_drop j other).symm
      (by rw [length_drop]; omega)
    rw [hpre] at hbelow
    have hfirst : ∀ x ∈ e₁ :: rest₁, e₁.bitmapWordIndex ≤ x.bitmapWordIndex :=
      forall_mem_cons.mpr ⟨le_refl _, fun x hx =>
        ((pairwise_cons.mp hm₁.sorted).1 x hx).le⟩
    obtain ⟨hall, hok⟩ | ⟨skipped, o, after, hsplit, hskipped, hoe, hok⟩ := hbelow
    · -- All the other's words are before what's left.
      obtain ⟨c', hc', hat'⟩ := hat₁.drainRemoved
      rw [hok, ok_bind]
      refine ⟨c', hc', ?_⟩
      rw [hat'.entries_eq, List.append_nil, ← hp₁.except_eq, hm₁.done hall hfirst]
    · rw [hok, ok_bind]
      dsimp only
      have hlen : other.length = j + (skipped.length + (after.length + 1)) := by
        have hl := congrArg List.length hsplit
        rw [length_drop, length_append, length_cons] at hl
        omega
      have ho' : other[j + skipped.length]? = some o := by
        rw [← take_append_drop j other, getElem?_append_right (by omega), hpre, hsplit,
          Nat.add_sub_cancel_left, getElem?_append_right (le_refl _)]
        simp
      have hm₂ : Merging other (j + skipped.length) (e₁ :: rest₁) := by
        refine hm₁.advance (fun x hx f hf => ?_)
        rw [drop_take, Nat.add_sub_cancel_left, hsplit, take_left] at hx
        exact lt_of_lt_of_le (hskipped x hx) (hfirst f hf)
      obtain ⟨c', j', broken, kept', removed', rest', hok', hp', hjj, hbroken, hgo⟩ :=
        subtractEqual_ok hso (c₁.entries.length + 1) (cons_ne_nil _ _) hat₁ hm₂ (by omega)
          (by rw [hat₁.entries_eq, length_append]; omega)
      have hkept := hp'.except_eq.trans hp₁.except_eq
      rw [hok', ok_bind]
      dsimp only
      cases broken with
      | true =>
        obtain ⟨c₂, hc₂, hat₂⟩ := hp'.at_.drainRemoved
        rw [if_pos rfl]
        refine ⟨c₂, hc₂, ?_⟩
        rw [hat₂.entries_eq, List.append_nil, ← hkept, hbroken rfl]
      | false =>
        obtain ⟨hne', hj', hm', hequal⟩ := hgo rfl
        have hle := hp'.length_le
        have hle' := hp₁.length_le
        simp only [length_cons] at hle hle' hfuel
        rw [if_neg Bool.false_ne_true, ← hkept]
        refine ih hne' hp'.at_ hm' hj' ?_
        -- Every iteration makes progress with one of the two or with both.
        rcases lt_trichotomy e.bitmapWordIndex other[j].bitmapWordIndex with hlt | heq | hgt
        · have := hshrink hlt
          omega
        · have he := hsame heq.ge
          have hnil : skipped = [] := by
            cases skipped with
            | nil => rfl
            | cons x skipped =>
              rw [drop_eq_cons ho] at hsplit
              have hx := hskipped x (by simp)
              rw [he, ← (List.cons.inj hsplit).1] at hx
              omega
          have := hequal (by
            rw [hnil, drop_eq_cons ho] at hsplit
            rw [ho', he, ← (List.cons.inj hsplit).1]
            exact congrArg some heq)
          rw [length_cons] at this
          omega
        · have he := hsame hgt.le
          have hpos : 0 < skipped.length := by
            refine length_pos_of_ne_nil (fun hnil => ?_)
            rw [hnil, drop_eq_cons ho] at hsplit
            rw [he, ← (List.cons.inj hsplit).1] at hoe
            omega
          omega

end Loops

theorem SparseAllocBitmap.subtract_ok (pr : Profile) {s other : SparseAllocBitmap}
    (hs : Sorted s.entries) (hne : ∀ e ∈ s.entries, e.bitmapWord ≠ 0) (hso : Sorted other.entries) :
    SparseAllocBitmap.subtract pr s other =
      .ok ⟨except other.entries s.entries, s.capacity, 0⟩ := by
  rw [SparseAllocBitmap.subtract]
  by_cases hempty : s.entries = [] ∨ other.entries = []
  · rw [if_pos hempty]
    have hsame : except other.entries s.entries = s.entries := by
      apply except_of_disjoint hne
      rcases hempty with h | h
      · simp [h]
      · simp [h]
    rw [hsame]
  · obtain ⟨hs0, ho0⟩ := not_or.mp hempty
    obtain ⟨c, hc, hentries⟩ := subtractFrom_ok hso pr
      (s.entries.length + other.entries.length + 1) hs0 (At.start s.entries)
      (Merging.start other.entries hs hne) (length_pos_of_ne_nil ho0) (by omega)
    rw [if_neg hempty, hc, ok_bind, hentries]
    rfl

theorem getLsbD_not {w : BitmapWord} {k : Nat} (hk : k < 64) : (~~~w).getLsbD k = !w.getLsbD k := by
  rw [BitVec.getLsbD_not]
  simp [hk]

theorem getLsbD_invertMask (a : AllocBitmap) (isFree : Bool) (p : Nat) :
    (a.word (p / 64) ^^^ allocBitmapWordInvertMask isFree).getLsbD (p % 64) =
      (a.allocated p == isFree) := by
  have hlt : p % 64 < 64 := Nat.mod_lt p (by decide)
  have hmask : (allocBitmapWordInvertMask isFree).getLsbD (p % 64) = !isFree := by
    cases isFree with
    | false =>
      rw [show allocBitmapWordInvertMask false = BitVec.allOnes 64 by decide,
        BitVec.getLsbD_allOnes]
      exact decide_eq_true hlt
    | true =>
      rw [show allocBitmapWordInvertMask true = 0#64 by decide]
      exact BitVec.getLsbD_zero
  rw [BitVec.getLsbD_xor, hmask, AllocBitmap.allocated]
  cases isFree <;> cases (a.word (p / 64)).getLsbD (p % 64) <;> rfl

def Canonical (s : SparseAllocBitmap) : Prop :=
  Sorted s.entries ∧ ∀ e ∈ s.entries, e.bitmapWord ≠ 0

/-- Both of the merge loops end, with just the blocks left that are to be kept. -/
theorem differences_correct (pr : Profile) (s other : SparseAllocBitmap) (a : AllocBitmap)
    (isFree : Bool) (hs : Canonical s) (ho : Canonical other) :
    (∃ s', SparseAllocBitmap.subtract pr s other = .ok s' ∧ Canonical s' ∧
      ∀ p, tracked s'.entries p = (tracked s.entries p && !tracked other.entries p)) ∧
    ∃ s', s.clearRedundant a isFree = .ok s' ∧ Canonical s' ∧
      ∀ p, tracked s'.entries p = (tracked s.entries p && (a.allocated p == isFree)) := by
  have hcanonical {mask : Nat → BitmapWord} {capacity : Nat} :
      Canonical ⟨masked mask s.entries, capacity, 0⟩ :=
    ⟨sorted_masked hs.1, ne_zero_of_mem_masked⟩
  refine ⟨⟨_, SparseAllocBitmap.subtract_ok pr hs.1 hs.2 ho.1, hcanonical, fun p => ?_⟩,
    ⟨_, s.clearRedundant_ok a isFree, hcanonical, fun p => ?_⟩⟩
  · rw [except, tracked_masked, getLsbD_not (Nat.mod_lt p (by decide)), ← tracked_eq ho.1]
  · rw [tracked_masked, getLsbD_invertMask]

/-- One word emptied, one changed, one without a counterpart. -/
theorem differences_correct_threeWords :
    ∃ s', SparseAllocBitmap.subtract .debug ⟨[⟨1, 3⟩, ⟨2, 6⟩, ⟨4, 1⟩], 3, 0⟩
        ⟨[⟨1, 7⟩, ⟨2, 2⟩], 2, 0⟩ = .ok s' ∧
      Canonical s' ∧ ∀ p, tracked s'.entries p =
        (tracked [⟨1, 3⟩, ⟨2, 6⟩, ⟨4, 1⟩] p && !tracked [⟨1, 7⟩, ⟨2, 2⟩] p) :=
  (differences_correct .debug ⟨[⟨1, 3⟩, ⟨2, 6⟩, ⟨4, 1⟩], 3, 0⟩ ⟨[⟨1, 7⟩, ⟨2, 2⟩], 2, 0⟩
    ⟨[], by decide⟩ true ⟨by decide, by decide⟩ ⟨by decide, by decide⟩).1

end CocoonFs.SparseBitmap
