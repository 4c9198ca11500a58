import CocoonFs.CacheCalls

namespace CocoonFs.CacheOrderedCursor

open Checked CacheSet CacheRows CacheOrder CacheInsert CacheCalls Lanes List

/-- Each key maps to at most one set, and an entry is in its key's set only. -/
structure SetAssocCache (K T : Type) where
  sets : List (SetAssocCacheSet K T)
  mapKeyToSet : K → Option Nat

/-- The positions within the sets are packed, eight nibbles a word. The entries of
the batch from its begin on are pairs of a set's and a slot's index. -/
structure SetAssocCacheOrderedCursor where
  packedSetsNextOrderedSlotsIndex : List (BitVec 32)
  nextOrderedBatch : List (Nat × Nat)
  nextOrderedBatchBegin : Nat
  deriving DecidableEq, Repr

inductive SetAssocCacheOrderedIterNewError where
  | memoryAllocationFailure
  deriving DecidableEq, Repr

def copyWithin {α : Type} (xs : List α) (b e dest : Nat) : Comp (List α) :=
  if b ≤ e ∧ e ≤ xs.length ∧ dest ≤ xs.length - (e - b) then
    .ok (xs.take dest ++ (xs.drop b).take (e - b) ++ xs.drop (dest + (e - b)))
  else
    Checked.panic .indexOutOfBounds

def setAt {α : Type} (xs : List α) (i : Nat) (x : α) : Comp (List α) :=
  if i < xs.length then .ok (xs.set i x) else Checked.panic .indexOutOfBounds

variable {K T : Type}

def keyAt (sets : List (SetAssocCacheSet K T)) (setIndex slot : Nat) : Comp K := do
  let s ← index sets setIndex
  let entry ← s.slot slot
  let entry ← unwrap entry
  pure entry.1

namespace SetAssocCacheOrderedCursor

def new (enough : Bool) (sets : List (SetAssocCacheSet K T)) :
    Except SetAssocCacheOrderedIterNewError SetAssocCacheOrderedCursor :=
  let packedLen := sets.length >>> 3 + if sets.length &&& 0x7 ≠ 0 then 1 else 0
  if enough then .ok ⟨List.replicate packedLen 0, List.replicate 4 (0, 0), 4⟩
  else .error .memoryAllocationFailure

def subwords4SetOne (pr : Profile) (x : BitVec 32) (i value : Nat) : Comp (BitVec 32) := do
  debugAssert pr (i < 8)
  debugAssert pr (value < 0x10)
  let mask ← shl pr 0xf#32 (4 * i)
  let value ← shl pr (BitVec.ofNat 32 value) (4 * i)
  pure (x &&& ~~~mask ||| value)

variable [LinearOrder K] (pr : Profile) (sets : List (SetAssocCacheSet K T))

def findNextOrderedBatchInsertionPos (c : SetAssocCacheOrderedCursor) (key : K) : Nat → Comp Nat
  | 0 => .ok 0
  | pos + 1 =>
    if pos + 1 > c.nextOrderedBatchBegin then do
      let existing ← index c.nextOrderedBatch pos
      let existingKey ← keyAt sets existing.1 existing.2
      match cmp key existingKey with
      | .gt => .ok (pos + 1)
      | .lt => findNextOrderedBatchInsertionPos c key pos
      | .eq => Checked.panic .unreachable
    else
      .ok (pos + 1)

def nextOrderedBatchInsertAt (c : SetAssocCacheOrderedCursor) (pos : Nat) (entry : Nat × Nat) :
    Comp SetAssocCacheOrderedCursor := do
  debugAssert pr (pos ≥ c.nextOrderedBatchBegin)
  debugAssert pr (pos ≤ c.nextOrderedBatch.length)
  debugAssert pr (pos ≠ c.nextOrderedBatch.length ∨ c.nextOrderedBatchBegin ≠ 0)
  if c.nextOrderedBatchBegin = 0 then
    -- All batch entries used, kick out the last one.
    let batch ← copyWithin c.nextOrderedBatch pos (c.nextOrderedBatch.length - 1) (pos + 1)
    let batch ← setAt batch pos entry
    pure { c with nextOrderedBatch := batch }
  else
    -- Spare batch entries available, extend towards the unused ones at the head.
    let batch ← copyWithin c.nextOrderedBatch c.nextOrderedBatchBegin pos
      (c.nextOrderedBatchBegin - 1)
    let pos ← subU64 pr pos 1
    let batch ← setAt batch pos entry
    pure { c with nextOrderedBatch := batch, nextOrderedBatchBegin := c.nextOrderedBatchBegin - 1 }

def refillFromSet (c : SetAssocCacheOrderedCursor) (curSetIndex nextOrderedSlotsIndex : Nat) :
    Comp SetAssocCacheOrderedCursor :=
  if nextOrderedSlotsIndex = maxAssociativity then pure c
  else do
    let s ← index sets curSetIndex
    match ← getOrderedSlot pr s.orderedSlots nextOrderedSlotsIndex with
    | none => pure c
    | some slot => do
      let key ← keyAt sets curSetIndex slot
      let pos ← c.findNextOrderedBatchInsertionPos sets key c.nextOrderedBatch.length
      if c.nextOrderedBatchBegin ≠ 0 ∨ pos ≠ c.nextOrderedBatch.length then
        c.nextOrderedBatchInsertAt pr pos (curSetIndex, slot)
      else
        pure c

/-- The sets of a word that are left, the next one's nibble being the lowest. -/
def refillFromWord : Nat → Nat → BitVec 32 → SetAssocCacheOrderedCursor →
    Comp SetAssocCacheOrderedCursor
  | 0, _, _, c => pure c
  | n + 1, curSetIndex, packed, c =>
    if curSetIndex ≥ sets.length then pure c
    else do
      let c ← refillFromSet pr sets c curSetIndex (packed &&& 0xf#32).toNat
      refillFromWord n (curSetIndex + 1) (packed >>> 4) c

def refillFromWords : Nat → List (BitVec 32) → SetAssocCacheOrderedCursor →
    Comp SetAssocCacheOrderedCursor
  | _, [], c => pure c
  | i, packed :: rest, c => do
    let c ← refillFromWord pr sets 8 (8 * i) packed c
    refillFromWords (i + 1) rest c

def refillNextOrderedBatch (c : SetAssocCacheOrderedCursor) : Comp SetAssocCacheOrderedCursor := do
  debugAssert pr (c.nextOrderedBatchBegin = c.nextOrderedBatch.length)
  refillFromWords pr sets 0 c.packedSetsNextOrderedSlotsIndex c

/-- If the dequeued set's next key is smaller than what's currently batched, if
anything, batch it. -/
def batchNext (c : SetAssocCacheOrderedCursor) (dequeuedSetIndex nextOrderedSlotsIndex : Nat) :
    Comp SetAssocCacheOrderedCursor :=
  if nextOrderedSlotsIndex = maxAssociativity ∨
      c.nextOrderedBatchBegin = c.nextOrderedBatch.length then
    pure c
  else do
    let s ← index sets dequeuedSetIndex
    match ← getOrderedSlot pr s.orderedSlots nextOrderedSlotsIndex with
    | none => pure c
    | some slot => do
      let key ← keyAt sets dequeuedSetIndex slot
      let pos ← c.findNextOrderedBatchInsertionPos sets key c.nextOrderedBatch.length
      if pos ≠ c.nextOrderedBatch.length then
        c.nextOrderedBatchInsertAt pr pos (dequeuedSetIndex, slot)
      else
        pure c

/-- Takes the batch's first entry, its set's position is advanced. -/
def dequeue (c : SetAssocCacheOrderedCursor) :
    Comp ((Nat × Nat) × SetAssocCacheOrderedCursor) := do
  let dequeued ← index c.nextOrderedBatch c.nextOrderedBatchBegin
  let i := dequeued.1 >>> 3
  let j := dequeued.1 &&& 0x7
  let packed ← index c.packedSetsNextOrderedSlotsIndex i
  let shifted ← shr pr packed (4 * j)
  let nextOrderedSlotsIndex := (shifted &&& 0xf#32).toNat + 1
  let packed ← subwords4SetOne pr packed j nextOrderedSlotsIndex
  let packed ← setAt c.packedSetsNextOrderedSlotsIndex i packed
  let c ← batchNext pr sets ⟨packed, c.nextOrderedBatch, c.nextOrderedBatchBegin + 1⟩ dequeued.1
    nextOrderedSlotsIndex
  pure (dequeued, c)

def next (c : SetAssocCacheOrderedCursor) :
    Comp (Option (Nat × Nat) × SetAssocCacheOrderedCursor) :=
  if c.nextOrderedBatchBegin = c.nextOrderedBatch.length then do
    let c ← c.refillNextOrderedBatch pr sets
    if c.nextOrderedBatchBegin = c.nextOrderedBatch.length then pure (none, c)
    else do
      let (dequeued, c) ← c.dequeue pr sets
      pure (some dequeued, c)
  else do
    let (dequeued, c) ← c.dequeue pr sets
    pure (some dequeued, c)

end SetAssocCacheOrderedCursor

variable {c : SetAssocCacheOrderedCursor} {entries : List (Nat × Nat)} {α : Type}

section Insertion

structure Batch (c : SetAssocCacheOrderedCursor) (entries : List (Nat × Nat)) : Prop where
  length_eq : c.nextOrderedBatch.length = 4
  begin_le : c.nextOrderedBatchBegin ≤ 4
  drop_eq : c.nextOrderedBatch.drop c.nextOrderedBatchBegin = entries

theorem Batch.length_entries
    (h : Batch c entries) : c.nextOrderedBatchBegin + entries.length = 4 := by
  have hb := h.begin_le
  rw [← h.drop_eq, length_drop, h.length_eq]
  omega

theorem Batch.take_append (h : Batch c entries) :
    c.nextOrderedBatch = c.nextOrderedBatch.take c.nextOrderedBatchBegin ++ entries := by
  rw [← h.drop_eq, take_append_drop]

theorem setAt_append (l m : List α) (x y : α) :
    setAt (l ++ x :: m) l.length y = .ok (l ++ y :: m) := by
  rw [setAt, if_pos (by rw [length_append, length_cons]; omega),
    set_append_right _ _ (le_refl _), Nat.sub_self, set_cons_zero]

theorem copyWithin_up (l m : List α) (x : α) :
    copyWithin (l ++ x :: m) l.length ((l ++ x :: m).length - 1) (l.length + 1) =
      .ok (l ++ x :: (x :: m).dropLast) := by
  have hlen : (l ++ x :: m).length = l.length + (m.length + 1) := by
    rw [length_append, length_cons]
  have htake : (l ++ x :: m).take (l.length + 1) = l ++ [x] := by
    rw [List.take_append, take_of_length_le (by omega), Nat.add_sub_cancel_left]
    rfl
  rw [copyWithin, if_pos (by omega), hlen, htake, drop_left, dropLast_eq_take,
    length_cons, drop_eq_nil_of_le (by omega), List.append_nil, append_assoc,
    show l.length + (m.length + 1) - 1 - l.length = m.length + 1 - 1 by omega]
  rfl

theorem copyWithin_down (pre l m : List α) (x : α) :
    ∃ y, copyWithin (pre ++ x :: (l ++ m)) (pre.length + 1) (pre.length + 1 + l.length) pre.length =
      .ok (pre ++ l ++ y :: m) := by
  have hdrop : (pre ++ x :: (l ++ m)).drop (pre.length + 1) = l ++ m := by
    rw [drop_append, drop_eq_nil_of_le (by omega), Nat.add_sub_cancel_left]
    rfl
  have hrest : ∃ y, (pre ++ x :: (l ++ m)).drop (pre.length + l.length) = y :: m := by
    rw [drop_append, drop_eq_nil_of_le (by omega), Nat.add_sub_cancel_left,
      List.nil_append]
    rcases l.eq_nil_or_concat with rfl | ⟨l, y, rfl⟩
    · exact ⟨x, rfl⟩
    · refine ⟨y, ?_⟩
      rw [concat_eq_append, length_append, length_singleton, drop_succ_cons,
        append_assoc, drop_left]
      rfl
  obtain ⟨y, hy⟩ := hrest
  refine ⟨y, ?_⟩
  have hlen : (pre ++ x :: (l ++ m)).length = pre.length + (l.length + m.length + 1) := by
    rw [length_append, length_cons, length_append]
  rw [copyWithin, if_pos (by omega), Nat.add_sub_cancel_left, hdrop, hy, take_left,
    take_left]

variable (pr : Profile) {c : SetAssocCacheOrderedCursor} {l m : List (Nat × Nat)}

theorem insertAt_spare (h : Batch c (l ++ m)) (hb : c.nextOrderedBatchBegin ≠ 0) (x : Nat × Nat) :
    ∃ c', c.nextOrderedBatchInsertAt pr (c.nextOrderedBatchBegin + l.length) x = .ok c' ∧
      Batch c' (l ++ x :: m) ∧
      c'.packedSetsNextOrderedSlotsIndex = c.packedSetsNextOrderedSlotsIndex := by
  obtain ⟨n, hn⟩ : ∃ n, c.nextOrderedBatchBegin = n + 1 := ⟨c.nextOrderedBatchBegin - 1, by omega⟩
  have hlen := h.length_entries
  have hbatch := h.take_append
  rw [length_append, hn] at hlen
  obtain ⟨pre, z, hpre⟩ : ∃ pre z, c.nextOrderedBatch.take c.nextOrderedBatchBegin = pre ++ [z] := by
    obtain hnil | ⟨pre, z, hpre⟩ :=
      (c.nextOrderedBatch.take c.nextOrderedBatchBegin).eq_nil_or_concat
    · have hl := congrArg List.length hnil
      rw [length_take, h.length_eq, length_nil] at hl
      omega
    · exact ⟨pre, z, by rw [hpre, concat_eq_append]⟩
  have hprelen : pre.length = n := by
    have hl := congrArg List.length hpre
    rw [length_take, h.length_eq, length_append, length_singleton] at hl
    omega
  rw [hpre, append_assoc, singleton_append] at hbatch
  obtain ⟨y, hcopy⟩ := copyWithin_down pre l m z
  have hset := setAt_append (pre ++ l) m y x
  rw [length_append, hprelen] at hset
  rw [SetAssocCacheOrderedCursor.nextOrderedBatchInsertAt, debugAssert_ok pr (by omega), ok_bind,
    debugAssert_ok pr (by rw [h.length_eq]; omega), ok_bind, debugAssert_ok pr (Or.inr hb), ok_bind,
    if_neg hb, hn, Nat.add_sub_cancel, hbatch, ← hprelen, hcopy, ok_bind,
    subU64_ok pr (by omega), ok_bind, show pre.length + 1 + l.length - 1 = n + l.length by omega,
    hset]
  refine ⟨_, rfl, ⟨?_, ?_, ?_⟩, rfl⟩
  · rw [length_append, length_append, length_cons]
    omega
  · dsimp only
    omega
  · rw [append_assoc, drop_left]

theorem insertAt_full {y : Nat × Nat} (h : Batch c (l ++ y :: m))
    (hb : c.nextOrderedBatchBegin = 0) (x : Nat × Nat) :
    ∃ c', c.nextOrderedBatchInsertAt pr l.length x = .ok c' ∧
      Batch c' (l ++ x :: (y :: m).dropLast) ∧
      c'.packedSetsNextOrderedSlotsIndex = c.packedSetsNextOrderedSlotsIndex := by
  have hlen := h.length_entries
  have hbatch := h.take_append
  rw [length_append, length_cons] at hlen
  rw [hb, take_zero, List.nil_append] at hbatch
  rw [SetAssocCacheOrderedCursor.nextOrderedBatchInsertAt, debugAssert_ok pr (by omega), ok_bind,
    debugAssert_ok pr (by rw [h.length_eq]; omega), ok_bind,
    debugAssert_ok pr (Or.inl (by rw [h.length_eq]; omega)), ok_bind, if_pos hb, hbatch,
    copyWithin_up, ok_bind, setAt_append]
  refine ⟨_, rfl, ⟨?_, ?_, ?_⟩, rfl⟩
  · rw [length_append, length_cons, length_dropLast, length_cons]
    omega
  · exact h.begin_le
  · rw [hb, drop_zero]

end Insertion

structure Head (K : Type) where
  setIndex : Nat
  slot : Nat
  key : K

def Head.position (x : Head K) : Nat × Nat := (x.setIndex, x.slot)

section Search

variable [LinearOrder K] {sets : List (SetAssocCacheSet K T)}
  {c : SetAssocCacheOrderedCursor}

theorem findFrom_spec {key : K} (l m : List (Head K)) (h : Batch c ((l ++ m).map Head.position))
    (hkeys : ∀ x ∈ l, keyAt sets x.setIndex x.slot = .ok x.key)
    (hsorted : l.Pairwise (fun x y => x.key < y.key)) (hne : ∀ x ∈ l, x.key ≠ key)
    (hm : ∀ x ∈ m, key < x.key) :
    ∃ l' m', l ++ m = l' ++ m' ∧ (∀ x ∈ l', x.key < key) ∧ (∀ x ∈ m', key < x.key) ∧
      c.findNextOrderedBatchInsertionPos sets key (c.nextOrderedBatchBegin + l.length) =
        .ok (c.nextOrderedBatchBegin + l'.length) := by
  induction l using List.reverseRecOn generalizing m with
  | nil =>
    refine ⟨[], m, rfl, by simp, hm, ?_⟩
    cases hb : c.nextOrderedBatchBegin with
    | zero => rfl
    | succ b =>
      rw [length_nil, add_zero]
      change ite (_ > _) _ _ = _
      rw [if_neg (by omega)]
  | append_singleton l y ih =>
    have hget : c.nextOrderedBatch[c.nextOrderedBatchBegin + l.length]? = some y.position := by
      have hdrop : (c.nextOrderedBatch.drop c.nextOrderedBatchBegin)[l.length]? =
          some y.position := by
        rw [h.drop_eq, append_assoc, map_append,
          getElem?_append_right (by rw [length_map]), length_map, Nat.sub_self]
        rfl
      rwa [getElem?_drop] at hdrop
    have hkey := hkeys y (by simp)
    rw [length_append, length_singleton, ← add_assoc]
    change ∃ l' m', _ ∧ _ ∧ _ ∧ ite (_ > _) _ _ = _
    rw [if_pos (by omega), index_ok hget, ok_bind]
    dsimp only [Head.position]
    rw [hkey, ok_bind]
    rcases lt_trichotomy key y.key with hlt | heq | hgt
    · rw [show cmp key y.key = .lt from (cmp_eq_lt_iff key y.key).mpr hlt]
      have hstep := ih (y :: m) (by simpa using h) (fun x hx => hkeys x (by simp [hx]))
        (pairwise_append.mp hsorted).1 (fun x hx => hne x (by simp [hx]))
        (forall_mem_cons.mpr ⟨hlt, hm⟩)
      simpa using hstep
    · exact absurd heq.symm (hne y (by simp))
    · rw [show cmp key y.key = .gt from (cmp_eq_gt_iff key y.key).mpr hgt]
      refine ⟨l ++ [y], m, rfl, ?_, hm, by simp [add_assoc]⟩
      intro x hx
      rcases mem_append.mp hx with hx | hx
      · exact ((pairwise_append.mp hsorted).2.2 x hx y (by simp)).trans hgt
      · rw [mem_singleton.mp hx]
        exact hgt

theorem findPos_spec {key : K} {b : List (Head K)} (h : Batch c (b.map Head.position))
    (hkeys : ∀ x ∈ b, keyAt sets x.setIndex x.slot = .ok x.key)
    (hsorted : b.Pairwise (fun x y => x.key < y.key)) (hne : ∀ x ∈ b, x.key ≠ key) :
    ∃ l m, b = l ++ m ∧ (∀ x ∈ l, x.key < key) ∧ (∀ x ∈ m, key < x.key) ∧
      c.findNextOrderedBatchInsertionPos sets key c.nextOrderedBatch.length =
        .ok (c.nextOrderedBatchBegin + l.length) := by
  have hlen := h.length_entries
  rw [length_map] at hlen
  have hspec := findFrom_spec b [] (by simpa using h) hkeys hsorted hne (by simp)
  rwa [List.append_nil, hlen, ← h.length_eq] at hspec

end Search

end CocoonFs.CacheOrderedCursor
