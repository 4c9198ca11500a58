import CocoonFs.UpdateStates
import Mathlib.Data.Nat.Bitwise

namespace CocoonFs.PruneUnmodified

open Checked UpdateStates List
open List (append_nil cons_append nil_append)

/-- Whether there's any modified data among a state's Allocation Blocks. -/
def anyModified (s : AuthTreeDataBlockUpdateState) : Bool :=
  s.allocationBlocksStates.any (·.hasModifiedData)

section Model

variable (ioLog2 imageHeaderEnd : Nat)

/-- The loop over the further states from an IO Block: their number, with the first one, and
whether any of them is modified. -/
def ioBlockGroup (states : List AuthTreeDataBlockUpdateState) (cur first : Nat) :
    Nat → Nat → Bool → Comp (Nat × Bool)
  | 0, k, modified => pure (k, modified)
  | n + 1, k, modified =>
    if cur + k ≠ states.length then do
      let s ← index states (cur + k)
      if (s.targetAllocationBlocksBegin ^^^ first) >>> ioLog2 ≠ 0 then pure (k, modified)
      else ioBlockGroup states cur first n (k + 1) (modified || anyModified s)
    else pure (k, modified)

/-- Vec::drain -/
def drain (states : List AuthTreeDataBlockUpdateState) (b e : Nat) :
    Comp (List AuthTreeDataBlockUpdateState) :=
  if b ≤ e ∧ e ≤ states.length then pure (states.take b ++ states.drop e)
  else throw (.panic .indexOutOfBounds)

/-- What is to be pruned is drained only when there's something to be kept behind it. -/
def pruneLoop : Nat → List AuthTreeDataBlockUpdateState → Option Nat → Nat →
    Comp (List AuthTreeDataBlockUpdateState × Option Nat)
  | 0, states, pruneBegin, _ => pure (states, pruneBegin)
  | n + 1, states, pruneBegin, cur =>
    if cur < states.length then do
      let first ← index states cur
      let b := first.targetAllocationBlocksBegin
      let (k, modified) ← ioBlockGroup ioLog2 states cur b states.length 1
        (anyModified first || decide (b < imageHeaderEnd))
      match modified, pruneBegin with
      | true, some p => do
        let states ← drain states p cur
        pruneLoop n states none (p + k)
      | true, none => pruneLoop n states none (cur + k)
      | false, some p => pruneLoop n states (some p) (cur + k)
      | false, none => pruneLoop n states (some cur) (cur + k)
    else pure (states, pruneBegin)

def pruneUnmodified (states : List AuthTreeDataBlockUpdateState) :
    Comp (List AuthTreeDataBlockUpdateState) := do
  let (states, pruneBegin) ← pruneLoop ioLog2 imageHeaderEnd states.length states none 0
  match pruneBegin with
  | none => pure states
  | some p => drain states p states.length

end Model

section Groups

variable (ioLog2 imageHeaderEnd : Nat)

def sameIoBlock (s t : AuthTreeDataBlockUpdateState) : Bool :=
  s.targetAllocationBlocksBegin / 2 ^ ioLog2 == t.targetAllocationBlocksBegin / 2 ^ ioLog2

/-- A state is kept if anything tracked in its IO Block is modified or in the image header. -/
def keeps (states : List AuthTreeDataBlockUpdateState) (s : AuthTreeDataBlockUpdateState) : Bool :=
  states.any (fun t => sameIoBlock ioLog2 t s &&
    (anyModified t || decide (t.targetAllocationBlocksBegin < imageHeaderEnd)))

variable {ioLog2 imageHeaderEnd} {dataLog2 : Nat} {s t : AuthTreeDataBlockUpdateState}
  {done group rest states : List AuthTreeDataBlockUpdateState}

theorem xor_shiftRight_iff :
    (t.targetAllocationBlocksBegin ^^^ s.targetAllocationBlocksBegin) >>> ioLog2 ≠ 0 ↔
      sameIoBlock ioLog2 t s = false := by
  rw [Nat.shiftRight_xor_distrib, Nat.shiftRight_eq_div_pow, Nat.shiftRight_eq_div_pow, ne_eq,
    Nat.xor_eq_zero_iff, sameIoBlock, beq_eq_false_iff_ne]

/-- The states up to the first one from another IO Block. -/
theorem ioBlockGroup_ok (n : Nat) (hn : rest.length ≤ n) (modified : Bool) :
    ioBlockGroup ioLog2 (done ++ s :: (group ++ rest)) done.length s.targetAllocationBlocksBegin n
        (group.length + 1) modified =
      .ok (group.length + 1 + (rest.takeWhile (sameIoBlock ioLog2 · s)).length,
        modified || (rest.takeWhile (sameIoBlock ioLog2 · s)).any anyModified) := by
  induction n generalizing group rest modified with
  | zero =>
    obtain rfl := eq_nil_of_length_eq_zero (Nat.le_zero.mp hn)
    rw [ioBlockGroup, takeWhile_nil, any_nil, Bool.or_false]
    rfl
  | succ n ih =>
    rw [ioBlockGroup]
    cases rest with
    | nil =>
      rw [if_neg (by simp), takeWhile_nil, any_nil, Bool.or_false]
      rfl
    | cons t rest =>
      rw [if_pos (by simp), index_ok (x := t) (by simp), ok_bind,
        takeWhile_cons]
      by_cases hsame : sameIoBlock ioLog2 t s = true
      · have hgroup := @ih (group ++ [t]) rest (Nat.le_of_succ_le_succ hn)
          (modified || anyModified t)
        rw [length_append, length_singleton, append_assoc, singleton_append] at hgroup
        rw [if_neg (by rw [xor_shiftRight_iff, hsame]; decide), hgroup, if_pos hsame, length_cons,
          any_cons, Bool.or_assoc, add_assoc (_ + 1) 1, add_comm 1]
      · rw [Bool.not_eq_true] at hsame
        rw [if_pos (xor_shiftRight_iff.mpr hsame), hsame, if_neg (by decide), any_nil, Bool.or_false]
        rfl

/-- The states behind a group are all from other IO Blocks. -/
theorem sameIoBlock_dropWhile (h : Ordered dataLog2 (s :: rest)) :
    ∀ t ∈ rest.dropWhile (sameIoBlock ioLog2 · s), sameIoBlock ioLog2 t s = false := by
  obtain ⟨hhead, htail⟩ := pairwise_cons.mp h.ascending
  have hsorted := htail.sublist (dropWhile_sublist (sameIoBlock ioLog2 · s))
  have hmem : ∀ t ∈ rest.dropWhile (sameIoBlock ioLog2 · s), t ∈ rest :=
    fun t ht => (dropWhile_sublist _).subset ht
  have hfirst := head?_dropWhile_not (sameIoBlock ioLog2 · s) rest
  cases hdrop : rest.dropWhile (sameIoBlock ioLog2 · s) with
  | nil => exact fun t ht => by cases ht
  | cons u us =>
    rw [hdrop] at hsorted hmem hfirst
    simp only [head?_cons] at hfirst
    rw [sameIoBlock, beq_eq_false_iff_ne] at hfirst
    have hsu := Nat.div_le_div_right (c := 2 ^ ioLog2) (hhead u (hmem u (mem_cons_self ..))).le
    intro t ht
    have hut : u.targetAllocationBlocksBegin / 2 ^ ioLog2 ≤ t.targetAllocationBlocksBegin / 2 ^ ioLog2 := by
      rcases mem_cons.mp ht with rfl | ht
      · exact le_refl _
      · exact Nat.div_le_div_right ((pairwise_cons.mp hsorted).1 t ht).le
    rw [sameIoBlock, beq_eq_false_iff_ne]
    omega

/-- What's kept, an IO Block at a time. -/
theorem filter_keeps (h : Ordered dataLog2 (s :: rest)) :
    (s :: rest).filter (keeps ioLog2 imageHeaderEnd (s :: rest)) =
      (if (anyModified s || decide (s.targetAllocationBlocksBegin < imageHeaderEnd) ||
          (rest.takeWhile (sameIoBlock ioLog2 · s)).any anyModified) = true then
        s :: rest.takeWhile (sameIoBlock ioLog2 · s) else []) ++
      (rest.dropWhile (sameIoBlock ioLog2 · s)).filter
        (keeps ioLog2 imageHeaderEnd (rest.dropWhile (sameIoBlock ioLog2 · s))) := by
  have hhead := (pairwise_cons.mp h.ascending).1
  have hother := @sameIoBlock_dropWhile ioLog2 _ _ _ h
  have hsame : ∀ t ∈ s :: rest.takeWhile (sameIoBlock ioLog2 · s), sameIoBlock ioLog2 t s = true := by
    refine forall_mem_cons.mpr ⟨beq_self_eq_true _, fun t ht => ?_⟩
    exact all_eq_true.mp all_takeWhile t ht
  have hrest := takeWhile_append_dropWhile (p := (sameIoBlock ioLog2 · s)) (l := rest)
  generalize rest.takeWhile (sameIoBlock ioLog2 · s) = group at hsame hrest ⊢
  generalize rest.dropWhile (sameIoBlock ioLog2 · s) = rest' at hother hrest ⊢
  subst hrest
  simp only [sameIoBlock, beq_iff_eq, beq_eq_false_iff_ne] at hsame hother
  rw [← cons_append, filter_append]
  congr 1
  · have hall : ∀ t ∈ s :: group, keeps ioLog2 imageHeaderEnd (s :: group ++ rest') t =
        (anyModified s || decide (s.targetAllocationBlocksBegin < imageHeaderEnd) ||
          group.any anyModified) := by
      intro t ht
      have hts := hsame t ht
      rw [keeps, Bool.eq_iff_iff]
      simp only [List.any_eq_true, Bool.and_eq_true, Bool.or_eq_true, decide_eq_true_eq, sameIoBlock,
        beq_iff_eq]
      constructor
      · rintro ⟨u, hu, hut, hmodified⟩
        rcases mem_append.mp hu with hu | hu
        · rcases mem_cons.mp hu with rfl | hu
          · exact .inl hmodified
          · rcases hmodified with hmodified | hlt
            · exact .inr ⟨u, hu, hmodified⟩
            · exact .inl (.inr ((hhead u (mem_append_left _ hu)).trans hlt))
        · exact absurd (hut.trans hts) (hother u hu)
      · rintro (hmodified | ⟨u, hu, hmodified⟩)
        · exact ⟨s, by simp, hts.symm, hmodified⟩
        · exact ⟨u, by simp [hu], (hsame u (by simp [hu])).trans hts.symm, .inl hmodified⟩
    split
    next hm => exact filter_eq_self.mpr (fun t ht => (hall t ht).trans hm)
    next hm => exact filter_eq_nil_iff.mpr (fun t ht => by rwa [hall t ht])
  · apply filter_congr
    intro t ht
    rw [keeps, any_append, keeps, Bool.or_eq_right_iff_imp, List.any_eq_true]
    rintro ⟨u, hu, hut⟩
    simp only [Bool.and_eq_true, sameIoBlock, beq_iff_eq] at hut
    exact absurd (hut.1.symm.trans (hsame u hu)) (hother t ht)

end Groups

variable {s : AuthTreeDataBlockUpdateState}

section Loop

variable {ioLog2 imageHeaderEnd dataLog2 : Nat}
  {kept pending rest states : List AuthTreeDataBlockUpdateState}

/-- There is something to be pruned right before the loop's position. -/
def pendingBegin (kept pending : List AuthTreeDataBlockUpdateState) : Option Nat :=
  if pending = [] then none else some kept.length

theorem drain_pending :
    drain (kept ++ pending ++ rest) kept.length (kept ++ pending).length = .ok (kept ++ rest) := by
  rw [drain, if_pos (by simp), drop_left, append_assoc, take_left]
  rfl

theorem pendingBegin_append_cons {group : List AuthTreeDataBlockUpdateState} :
    pendingBegin kept (pending ++ s :: group) = some kept.length :=
  if_neg (by simp)

theorem pruneLoop_ok (n : Nat) (hn : rest.length ≤ n) (hord : Ordered dataLog2 rest) :
    ∃ kept' pending', kept' = kept ++ rest.filter (keeps ioLog2 imageHeaderEnd rest) ∧
      pruneLoop ioLog2 imageHeaderEnd n (kept ++ pending ++ rest) (pendingBegin kept pending)
        (kept ++ pending).length = .ok (kept' ++ pending', pendingBegin kept' pending') := by
  induction n generalizing kept pending rest with
  | zero =>
    obtain rfl := eq_nil_of_length_eq_zero (Nat.le_zero.mp hn)
    exact ⟨kept, pending, (append_nil _).symm, by rw [pruneLoop, append_nil]; rfl⟩
  | succ n ih =>
    rw [pruneLoop]
    cases rest with
    | nil =>
      rw [append_nil, if_neg (lt_irrefl _)]
      exact ⟨kept, pending, (append_nil _).symm, rfl⟩
    | cons s rest =>
      have hgroup := @ioBlockGroup_ok ioLog2 s (kept ++ pending) [] rest
        (kept ++ pending ++ s :: rest).length (by simp; omega)
        (anyModified s || decide (s.targetAllocationBlocksBegin < imageHeaderEnd))
      rw [nil_append, length_nil, zero_add] at hgroup
      rw [if_pos (by simp), index_ok (x := s) (by simp), ok_bind]
      dsimp only
      rw [hgroup, ok_bind, filter_keeps hord]
      have hlen := (dropWhile_sublist (sameIoBlock ioLog2 · s) (l := rest)).length_le
      have hord' := hord.of_suffix ((dropWhile_suffix (sameIoBlock ioLog2 · s)).trans
        (suffix_cons s rest))
      have hrest := takeWhile_append_dropWhile (p := (sameIoBlock ioLog2 · s)) (l := rest)
      generalize rest.takeWhile (sameIoBlock ioLog2 · s) = group at hrest ⊢
      generalize rest.dropWhile (sameIoBlock ioLog2 · s) = rest' at hlen hord' hrest ⊢
      subst hrest
      cases anyModified s || decide (s.targetAllocationBlocksBegin < imageHeaderEnd) ||
          group.any anyModified with
      | true =>
        -- The group is kept, and what's pending in front of it is drained.
        obtain ⟨kept', pending', hkept, hrun⟩ := @ih (kept ++ s :: group) []
          rest' (by simp at hn; omega) hord'
        refine ⟨kept', pending', by rw [hkept, if_pos rfl, append_assoc], ?_⟩
        rw [← hrun, pendingBegin]
        by_cases hpending : pending = []
        · subst hpending
          rw [if_pos rfl, pendingBegin, if_pos rfl]
          simp only [append_nil, append_assoc, cons_append, length_append, length_cons]
          congr 1
          omega
        · rw [if_neg hpending, pendingBegin, if_pos rfl]
          dsimp only
          rw [drain_pending, ok_bind]
          simp only [append_nil, append_assoc, cons_append, length_append, length_cons]
          congr 1
          omega
      | false =>
        obtain ⟨kept', pending', hkept, hrun⟩ := @ih kept (pending ++ s :: group)
          rest' (by simp at hn; omega) hord'
        refine ⟨kept', pending', by rw [hkept, if_neg (by decide), nil_append], ?_⟩
        rw [← hrun, pendingBegin_append_cons, pendingBegin]
        by_cases hpending : pending = []
        · subst hpending
          rw [if_pos rfl]
          simp only [append_nil, nil_append, append_assoc, cons_append,
            length_append, length_cons]
          congr 1
          omega
        · rw [if_neg hpending]
          simp only [append_assoc, cons_append, length_append, length_cons]
          congr 1
          omega

end Loop

section Prune

variable (ioLog2 imageHeaderEnd : Nat) {dataLog2 : Nat}

theorem ordered_of_sublist {states remaining : List AuthTreeDataBlockUpdateState}
    (h : Ordered dataLog2 states) (hsub : remaining.Sublist states) : Ordered dataLog2 remaining where
  ascending := h.ascending.sublist hsub
  aligned := fun s hs => h.aligned s (hsub.subset hs)
  complete := fun s hs => h.complete s (hsub.subset hs)
  in_image := fun s hs => h.in_image s (hsub.subset hs)

theorem keeps_eq_false_iff {states : List AuthTreeDataBlockUpdateState} :
    keeps ioLog2 imageHeaderEnd states s = false ↔ ∀ t ∈ states, sameIoBlock ioLog2 t s = true →
      anyModified t = false ∧ imageHeaderEnd ≤ t.targetAllocationBlocksBegin := by
  rw [keeps, any_eq_false]
  simp only [Bool.and_eq_true, Bool.or_eq_true, decide_eq_true_eq, not_and, not_or, not_lt,
    Bool.not_eq_true]

/-- The states which remain are the ones kept, in their order, and what's removed is exactly the
IO Blocks with no modified data, all of whose states begin at or after the image header's end. -/
theorem pruneUnmodified_keeps (states : List AuthTreeDataBlockUpdateState)
    (hord : Ordered dataLog2 states) :
    ∃ remaining, pruneUnmodified ioLog2 imageHeaderEnd states = .ok remaining ∧
      Ordered dataLog2 remaining ∧ remaining.Sublist states ∧
      ∀ s ∈ states, s ∉ remaining ↔ ∀ t ∈ states, sameIoBlock ioLog2 t s = true →
        anyModified t = false ∧ imageHeaderEnd ≤ t.targetAllocationBlocksBegin := by
  obtain ⟨kept, pending, hkept, hrun⟩ := @pruneLoop_ok ioLog2 imageHeaderEnd _ [] []
    states states.length (le_refl _) hord
  rw [nil_append] at hkept
  have hfilter := filter_sublist (p := keeps ioLog2 imageHeaderEnd states) (l := states)
  refine ⟨kept, ?_, hkept ▸ ordered_of_sublist hord hfilter, hkept ▸ hfilter, fun s hs => ?_⟩
  · rw [append_nil, nil_append, length_nil, pendingBegin, if_pos rfl] at hrun
    rw [pruneUnmodified, hrun, ok_bind]
    cases pending with
    | nil => rw [pendingBegin, if_pos rfl, append_nil]
             rfl
    | cons s pending =>
      rw [pendingBegin, if_neg (by simp)]
      have hdrain := @drain_pending kept (s :: pending) []
      rwa [append_nil, append_nil] at hdrain
  · rw [hkept, mem_filter, ← keeps_eq_false_iff]
    simp [hs]

end Prune

/-- Data Blocks of a single Allocation Block each, the second of them in an IO Block with the first. -/
def prunedStates : List AuthTreeDataBlockUpdateState :=
  [⟨4, none, [⟨.allocatedUnmodified, .none⟩], none⟩, ⟨5, none, [⟨.allocatedModified, .none⟩], none⟩,
    ⟨6, none, [⟨.allocatedUnmodified, .none⟩], none⟩]

theorem pruneUnmodified_keeps_two :
    ∃ remaining, pruneUnmodified 1 2 prunedStates = .ok remaining ∧
      Ordered 0 remaining ∧ remaining.Sublist prunedStates ∧
      ∀ s ∈ prunedStates, s ∉ remaining ↔ ∀ t ∈ prunedStates, sameIoBlock 1 t s = true →
        anyModified t = false ∧ 2 ≤ t.targetAllocationBlocksBegin :=
  pruneUnmodified_keeps 1 2 prunedStates ⟨by decide, by simp [prunedStates], by decide, by decide⟩

end CocoonFs.PruneUnmodified
