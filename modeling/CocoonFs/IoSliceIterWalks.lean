import CocoonFs.IoSliceIterSteps
import Mathlib.Algebra.Group.Nat.Defs

namespace CocoonFs.IoSliceIterWalks

open Codes IoSliceIters IoSliceIterSteps Remaining

open Iter (Result chunkSize)
open Remaining (append mapError takeExact)

variable {ε : Type}

/-- The callback goes from slice to slice until it tells to stop. -/
def visit {τ : Type} (cb : τ → List Byte → τ × Bool) : List (List Byte) → τ → τ × Bool
  | [], st => (st, true)
  | slice :: slices, st =>
    if (cb st slice).2 then visit cb slices (cb st slice).1 else ((cb st slice).1, false)

variable {τ : Type} {slices : List (List Byte)}

theorem visit_append (cb : τ → List Byte → τ × Bool) (slices slices' : List (List Byte))
    (st : τ) : visit cb (slices ++ slices') st =
      if (visit cb slices st).2 then visit cb slices' (visit cb slices st).1
      else visit cb slices st := by
  induction slices generalizing st with
  | nil => rfl
  | cons slice slices ih =>
    rw [List.cons_append, visit, visit]
    cases hcb : (cb st slice).2 with
    | true => exact ih (cb st slice).1
    | false => rfl

variable {iter iter' : GenericIoSlicesIter ε} {slice : List Byte}

theorem nextSlice_none_ne_nil
    (h : iter.nextSlice none = (.ok (some slice), iter')) : slice ≠ [] := by
  rw [GenericIoSlicesIter.nextSlice] at h
  split at h
  · rename_i self' _
    cases hhead : self'.head with
    | none =>
      rw [hhead] at h
      cases h
    | some head =>
      rw [hhead] at h
      cases h
      exact head.2
  · cases h

theorem length_nextSlice (h : iter.nextSlice none = (.ok (some slice), iter')) :
    (GenericIoSlicesIter.remaining iter').bytes.length <
      (GenericIoSlicesIter.remaining iter).bytes.length := by
  have htakes := (GenericIoSlicesIter.nextSlice_spec none iter).1
  rw [h, TakesFront] at htakes
  have hpos := List.length_pos_of_ne_nil (nextSlice_none_ne_nil h)
  rw [htakes, cons_bytes, List.length_append]
  exact Nat.lt_add_of_pos_left hpos

/-- The `while let` loop of `for_each()` -/
def whileSlice {τ : Type} (cb : τ → List Byte → τ × Bool) (iter : GenericIoSlicesIter ε) (st : τ) :
    Result ε Unit × τ :=
  match _h : iter.nextSlice none with
  | (.ok (some slice), iter) =>
    if (cb st slice).2 then whileSlice cb iter (cb st slice).1 else (.ok (), (cb st slice).1)
  | (.ok none, _) => (.ok (), st)
  | (.error e, _) => (.error e, st)
termination_by (GenericIoSlicesIter.remaining iter).bytes.length
decreasing_by exact length_nextSlice _h

def whileRemaining {τ : Type} (cb : τ → List Byte → τ × Bool) (remaining : Nat) (st : τ) : τ :=
  if remaining = 0 then st
  else
    let (st, goOn) := cb st (List.replicate (min remaining chunkSize) 0)
    if goOn then whileRemaining cb (remaining - min remaining chunkSize) st else st
termination_by remaining
decreasing_by
  rw [chunkSize]
  omega

/-- What `take_exact()` has the wrapped iterator call, with what remains and `buffers_exhausted`
kept beside the callback's own. -/
def takeExactCallback {τ : Type} (cb : τ → List Byte → τ × Bool) (st : τ × Nat × Bool)
    (slice : List Byte) : (τ × Nat × Bool) × Bool :=
  let (st, remaining, buffersExhausted) := st
  if remaining = 0 then ((st, remaining, buffersExhausted), false)
  else
    let sliceLen := min remaining slice.length
    if sliceLen = 0 then ((st, remaining, true), false)
    else
      (((cb st (slice.take sliceLen)).1, remaining - sliceLen, buffersExhausted),
        (cb st (slice.take sliceLen)).2)

/-- What a chain has its first iterator call, `done` being kept beside the callback's own. -/
def chainCallback {τ : Type} (cb : τ → List Byte → τ × Bool) (st : τ × Bool) (slice : List Byte) :
    (τ × Bool) × Bool :=
  let done := st.2 || !(cb st.1 slice).2
  (((cb st.1 slice).1, done), !done)

def forEach : Iter ε → {τ : Type} → (τ → List Byte → τ × Bool) → τ → Result ε Unit × τ
  | .generic iter, _, cb, st => whileSlice cb iter.decoupledBorrow st
  | .buffersSlice iter, _, cb, st => (.ok (), (visit cb iter.slices st).1)
  | .singleton slice, _, cb, st =>
    match slice with
    | none => (.ok (), st)
    | some slice => if slice = [] then (.ok (), st) else (.ok (), (cb st slice).1)
  | .zeroFilled remaining, _, cb, st => (.ok (), whileRemaining cb remaining st)
  | .empty, _, _, st => (.ok (), st)
  | .mapErr iter f, _, cb, st => ((forEach iter cb st).1.mapError f, (forEach iter cb st).2)
  | .asRef iter, _, cb, st => forEach iter cb st
  | .mutRef iter, _, cb, st => forEach iter cb st
  | .takeExact iter remaining, _, cb, st =>
    match forEach iter (takeExactCallback cb) (st, remaining, false) with
    | (.error e, st, _) => (.error (.backendIteratorError e), st)
    | (.ok (), st, _, false) => (.ok (), st)
    | (.ok (), st, _, true) => (.error .buffersExhausted, st)
  | .chain iter0 iter1, _, cb, st =>
    match forEach iter0 (chainCallback cb) (st, false) with
    | (.error e, st, _) => (.error e, st)
    | (.ok (), st, true) => (.ok (), st)
    | (.ok (), st, false) => forEach iter1 cb st
  | .dropped, _, _, st => (.ok (), st)

def usizeBits : Nat := 64

def usizeAdd (l n : Nat) : Nat := (l + n) % 2 ^ usizeBits

/-- The default implementation of `total_len()` -/
def sumLens (iter : Iter ε) : Result ε Nat :=
  match forEach iter (fun l slice => (usizeAdd l slice.length, true)) 0 with
  | (.ok (), l) => .ok l
  | (.error e, _) => .error e

def totalLen : Iter ε → Result ε Nat
  | .generic iter => sumLens (.generic iter)
  | .buffersSlice iter => sumLens (.buffersSlice iter)
  | .singleton slice => sumLens (.singleton slice)
  | .zeroFilled remaining => .ok remaining
  | .empty => .ok 0
  | .mapErr iter f => (totalLen iter).mapError f
  | .asRef iter => totalLen iter
  | .mutRef iter => sumLens (.mutRef iter)
  | .takeExact _ remaining => .ok remaining
  | .chain iter0 iter1 =>
    match totalLen iter0, totalLen iter1 with
    | .error e, _ => .error e
    | .ok _, .error e => .error e
    | .ok len0, .ok len1 => .ok (usizeAdd len0 len1)
  | .dropped => .ok 0

/-- Nothing is left of the slice taken last from a wrapped iterator's back, nor are there items
behind an error that has been returned. -/
def TailKept : Iter ε → Prop
  | .generic iter => iter.tail = none ∧ (iter.iterDone = true → itemsRemaining iter.iter = nil)
  | .mapErr iter _ | .asRef iter | .mutRef iter | .takeExact iter _ => TailKept iter
  | .chain iter0 iter1 => TailKept iter0 ∧ TailKept iter1
  | .buffersSlice _ | .singleton _ | .zeroFilled _ | .empty | .dropped => True

/-- Also there are bytes enough for each `take_exact()`. -/
def Walkable : Iter ε → Prop
  | .generic iter => TailKept (.generic iter)
  | .mapErr iter _ | .asRef iter | .mutRef iter => Walkable iter
  | .takeExact iter n => Walkable iter ∧ n ≤ (remaining iter).bytes.length ∧
      (remaining iter).error = none
  | .chain iter0 iter1 => Walkable iter0 ∧ Walkable iter1
  | .buffersSlice _ | .singleton _ | .zeroFilled _ | .empty | .dropped => True

def atEnd : Option (IterError ε) → Result ε Unit
  | none => .ok ()
  | some e => .error e

def Walks (slices : List (List Byte)) (r : Remaining (IterError ε)) {τ : Type}
    (cb : τ → List Byte → τ × Bool) (st : τ) (result : Result ε Unit × τ) : Prop :=
  result = if (visit cb slices st).2 then (atEnd r.error, (visit cb slices st).1)
    else (.ok (), (visit cb slices st).1)

structure Covers (slices : List (List Byte)) (bytes : List Byte) : Prop where
  flatten_eq : slices.flatten = bytes
  ne_nil : ∀ slice ∈ slices, slice ≠ []

theorem decoupledBorrow_generic {iter : GenericIoSlicesIter ε} (h : TailKept (.generic iter)) :
    GenericIoSlicesIter.remaining iter.decoupledBorrow = GenericIoSlicesIter.remaining iter := by
  obtain ⟨htail, hdone⟩ := h
  have hhead : sliceBytes ((iter.head.map (·.1)).bind slice?) = sliceBytes iter.head := by
    cases iter.head with
    | none => rfl
    | some head => exact sliceBytes_slice? head.1
  rw [GenericIoSlicesIter.decoupledBorrow, GenericIoSlicesIter.new, GenericIoSlicesIter.remaining,
    GenericIoSlicesIter.remaining, htail]
  rw [hhead, if_neg Bool.false_ne_true]
  by_cases hd : iter.iterDone = true
  · rw [if_pos hd, hdone hd]
  · rw [if_neg hd]

variable {iter : Iter ε}

theorem decoupledBorrow_spec (h : TailKept iter) :
    remaining iter.decoupledBorrow = remaining iter := by
  induction iter with
  | generic iter => exact decoupledBorrow_generic h
  | mapErr iter f ih => exact congrArg (mapError f) (ih h)
  | asRef iter ih => exact ih h
  | mutRef iter ih => exact ih h
  | takeExact iter n ih => exact congrArg (takeExact n) (ih h)
  | chain iter0 iter1 ih0 ih1 =>
    rw [Iter.decoupledBorrow, remaining, ih0 h.1, ih1 h.2, remaining]
  | buffersSlice iter => rfl
  | singleton slice => rfl
  | zeroFilled n => rfl
  | empty => rfl
  | dropped => rfl

theorem whileSlice_spec (iter : GenericIoSlicesIter ε) :
    ∃ slices, Covers slices (GenericIoSlicesIter.remaining iter).bytes ∧
      ∀ {τ : Type} (cb : τ → List Byte → τ × Bool) (st : τ),
        Walks slices (GenericIoSlicesIter.remaining iter) cb st (whileSlice cb iter st) := by
  induction hlen : (GenericIoSlicesIter.remaining iter).bytes.length using Nat.strongRecOn
    generalizing iter with
  | ind len ih =>
    have htakes := (GenericIoSlicesIter.nextSlice_spec none iter).1
    match hnext : iter.nextSlice none with
    | (.ok (some slice), iter') =>
      rw [hnext, TakesFront] at htakes
      obtain ⟨slices, hcovers, hwalks⟩ := ih _ (hlen ▸ length_nextSlice hnext) iter' rfl
      refine ⟨slice :: slices, ⟨?_, ?_⟩, ?_⟩
      · rw [htakes, List.flatten_cons, hcovers.flatten_eq, cons_bytes]
      · exact List.forall_mem_cons.mpr ⟨nextSlice_none_ne_nil hnext, hcovers.ne_nil⟩
      · intro τ cb st
        rw [Walks, whileSlice, hnext, htakes, visit]
        dsimp only
        cases hcb : (cb st slice).2 with
        | true => exact hwalks cb (cb st slice).1
        | false => rfl
    | (.ok none, iter') =>
      rw [hnext] at htakes
      refine ⟨[], ⟨?_, fun slice h => by cases h⟩, ?_⟩
      · rw [htakes.1]
        rfl
      · intro τ cb st
        rw [Walks, whileSlice, hnext, htakes.1]
        rfl
    | (.error e, iter') =>
      rw [hnext, TakesFront] at htakes
      refine ⟨[], ⟨?_, fun slice h => by cases h⟩, ?_⟩
      · rw [htakes]
        rfl
      · intro τ cb st
        rw [Walks, whileSlice, hnext, htakes]
        rfl

theorem whileRemaining_spec (n : Nat) :
    ∃ slices, Covers slices (List.replicate n 0) ∧
      ∀ {τ : Type} (cb : τ → List Byte → τ × Bool) (st : τ),
        whileRemaining cb n st = (visit cb slices st).1 := by
  induction n using Nat.strongRecOn with
  | ind n ih =>
    by_cases hn : n = 0
    · refine ⟨[], ⟨?_, fun slice h => by cases h⟩, ?_⟩
      · rw [hn]
        rfl
      · intro τ cb st
        rw [whileRemaining, if_pos hn]
        rfl
    · have hchunk : 0 < min n chunkSize := Nat.lt_min.mpr ⟨Nat.pos_of_ne_zero hn, Nat.succ_pos 15⟩
      have hle : min n chunkSize ≤ n := Nat.min_le_left _ _
      obtain ⟨slices, hcovers, hvisit⟩ :=
        ih (n - min n chunkSize) (Nat.sub_lt (Nat.pos_of_ne_zero hn) hchunk)
      refine ⟨List.replicate (min n chunkSize) 0 :: slices, ⟨?_, ?_⟩, ?_⟩
      · rw [List.flatten_cons, hcovers.flatten_eq, List.replicate_append_replicate,
          Nat.add_sub_cancel' hle]
      · refine List.forall_mem_cons.mpr ⟨fun hnil => ?_, hcovers.ne_nil⟩
        rw [List.replicate_eq_nil_iff] at hnil
        exact Nat.ne_of_gt hchunk hnil
      · intro τ cb st
        rw [whileRemaining, if_neg hn, visit]
        dsimp only
        split
        · exact hvisit cb _
        · rfl

def cutSlices : Nat → List (List Byte) → List (List Byte)
  | _, [] => []
  | n, slice :: slices =>
    if n = 0 then [] else slice.take n :: cutSlices (n - slice.length) slices

theorem cutSlices_covers {bytes : List Byte} (h : Covers slices bytes)
    (n : Nat) : Covers (cutSlices n slices) (bytes.take n) := by
  induction slices generalizing n bytes with
  | nil =>
    refine ⟨?_, fun slice h => by cases h⟩
    rw [← h.flatten_eq, List.flatten_nil, List.take_nil]
    rfl
  | cons slice slices ih =>
    obtain ⟨hslice, hslices⟩ := List.forall_mem_cons.mp h.ne_nil
    rw [cutSlices]
    by_cases hn : n = 0
    · rw [if_pos hn, hn, List.take_zero]
      exact ⟨rfl, fun slice h => by cases h⟩
    · rw [if_neg hn]
      have htail := ih ⟨rfl, hslices⟩ (n - slice.length)
      refine ⟨?_, List.forall_mem_cons.mpr ⟨?_, htail.ne_nil⟩⟩
      · rw [List.flatten_cons, htail.flatten_eq, ← h.flatten_eq, List.flatten_cons, List.take_append]
      · intro hnil
        rcases List.take_eq_nil_iff.mp hnil with hzero | hnil
        · exact hn hzero
        · exact hslice hnil

/-- As none of the slices is empty, `buffers_exhausted` doesn't ever get set. -/
theorem visit_takeExactCallback (cb : τ → List Byte → τ × Bool)
    (h : ∀ slice ∈ slices, slice ≠ []) (n : Nat) (st : τ) :
    ∃ n', (visit (takeExactCallback cb) slices (st, n, false)).1 =
      ((visit cb (cutSlices n slices) st).1, n', false) := by
  induction slices generalizing n st with
  | nil => exact ⟨n, rfl⟩
  | cons slice slices ih =>
    obtain ⟨hslice, hslices⟩ := List.forall_mem_cons.mp h
    rw [visit, cutSlices, takeExactCallback]
    by_cases hn : n = 0
    · rw [if_pos hn, if_pos hn]
      exact ⟨n, rfl⟩
    · have hlen : min n slice.length ≠ 0 :=
        Nat.ne_of_gt (Nat.lt_min.mpr ⟨Nat.pos_of_ne_zero hn, List.length_pos_of_ne_nil hslice⟩)
      have htake : slice.take (min n slice.length) = slice.take n := by
        rw [← List.take_take, List.take_length]
      have hsub : n - min n slice.length = n - slice.length := by omega
      rw [if_neg hn, if_neg hn, if_neg hlen, htake, hsub, visit]
      cases hcb : (cb st (slice.take n)).2 with
      | true => exact ih hslices (n - slice.length) _
      | false => exact ⟨n - slice.length, rfl⟩

theorem visit_chainCallback (cb : τ → List Byte → τ × Bool) (slices : List (List Byte)) (st : τ) :
    visit (chainCallback cb) slices (st, false) =
      (((visit cb slices st).1, !(visit cb slices st).2), (visit cb slices st).2) := by
  induction slices generalizing st with
  | nil => rfl
  | cons slice slices ih =>
    rw [visit, visit, chainCallback, Bool.false_or, Bool.not_not]
    cases hcb : (cb st slice).2 with
    | true => exact ih (cb st slice).1
    | false => rfl

theorem Walks.of_ok {r : Remaining (IterError ε)}
    {cb : τ → List Byte → τ × Bool} {st : τ} (h : r.error = none) :
    Walks slices r cb st (.ok (), (visit cb slices st).1) := by
  rw [Walks, h]
  split
  · rfl
  · rfl

theorem slices_covers (iter : BuffersSliceIoSlicesIter) :
    Covers iter.slices (BuffersSliceIoSlicesIter.remaining iter) := by
  have hflatten : ∀ slice : Option Slice, (slice.toList.map (·.1)).flatten = sliceBytes slice := by
    intro slice
    cases slice with
    | none => rfl
    | some slice => exact List.append_nil _
  refine ⟨?_, ?_⟩
  · rw [BuffersSliceIoSlicesIter.slices, List.flatten_filter_not_isEmpty, List.flatten_append,
      List.flatten_append, hflatten, hflatten, BuffersSliceIoSlicesIter.remaining]
  · intro slice hslice hnil
    have hfilter := (List.mem_filter.mp hslice).2
    rw [hnil] at hfilter
    cases hfilter

theorem Covers.append {slices' : List (List Byte)} {bytes bytes' : List Byte}
    (h : Covers slices bytes) (h' : Covers slices' bytes') :
    Covers (slices ++ slices') (bytes ++ bytes') := by
  refine ⟨?_, List.forall_mem_append.mpr ⟨h.ne_nil, h'.ne_nil⟩⟩
  rw [List.flatten_append, h.flatten_eq, h'.flatten_eq]

theorem covers_nil : Covers [] [] := ⟨rfl, fun slice h => by cases h⟩

theorem forEach_spec (h : Walkable iter) :
    ∃ slices, Covers slices (remaining iter).bytes ∧
      ∀ {τ : Type} (cb : τ → List Byte → τ × Bool) (st : τ),
        Walks slices (remaining iter) cb st (forEach iter cb st) := by
  induction iter with
  | generic iter =>
    obtain ⟨slices, hcovers, hwalks⟩ := whileSlice_spec iter.decoupledBorrow
    rw [decoupledBorrow_generic h] at hcovers
    refine ⟨slices, hcovers, fun cb st => ?_⟩
    have hwalk := hwalks cb st
    rw [decoupledBorrow_generic h] at hwalk
    exact hwalk
  | buffersSlice iter =>
    refine ⟨iter.slices, ?_, fun cb st => Walks.of_ok rfl⟩
    rw [remaining, cons_bytes, nil, List.append_nil]
    exact slices_covers iter
  | singleton slice =>
    cases slice with
    | none => exact ⟨[], covers_nil, fun cb st => rfl⟩
    | some slice =>
      by_cases hnil : slice = []
      · refine ⟨[], ?_, fun cb st => ?_⟩
        · rw [remaining, Option.getD_some, hnil]
          exact covers_nil
        · rw [forEach, if_pos hnil]
          rfl
      · refine ⟨[slice], ⟨rfl, ?_⟩, fun cb st => ?_⟩
        · exact List.forall_mem_cons.mpr ⟨hnil, fun slice h => by cases h⟩
        · have hvisit : (visit cb [slice] st).1 = (cb st slice).1 := by
            rw [visit]
            split
            · rfl
            · rfl
          rw [forEach, if_neg hnil, ← hvisit]
          exact Walks.of_ok rfl
  | zeroFilled n =>
    obtain ⟨slices, hcovers, hvisit⟩ := whileRemaining_spec n
    refine ⟨slices, ?_, fun cb st => ?_⟩
    · rw [remaining, cons_bytes, nil, List.append_nil]
      exact hcovers
    · rw [forEach, hvisit]
      exact Walks.of_ok rfl
  | empty => exact ⟨[], covers_nil, fun cb st => rfl⟩
  | mapErr iter f ih =>
    obtain ⟨slices, hcovers, hwalks⟩ := ih h
    refine ⟨slices, hcovers, fun cb st => ?_⟩
    have hwalk := hwalks cb st
    rw [Walks, forEach, hwalk]
    split
    · rw [remaining, mapError]
      cases (remaining iter).error with
      | none => rfl
      | some e => rfl
    · rfl
  | asRef iter ih => exact ih h
  | mutRef iter ih => exact ih h
  | takeExact iter n ih =>
    obtain ⟨hwalkable, hn, herror⟩ := h
    obtain ⟨slices, hcovers, hwalks⟩ := ih hwalkable
    have htake : remaining (.takeExact iter n) = ⟨(remaining iter).bytes.take n, none⟩ := by
      rw [remaining, takeExact, if_pos hn]
    rw [htake]
    refine ⟨cutSlices n slices, cutSlices_covers hcovers n, fun cb st => ?_⟩
    have hwalk := hwalks (takeExactCallback cb) (st, n, false)
    obtain ⟨n', hvisit⟩ := visit_takeExactCallback cb hcovers.ne_nil n st
    rw [Walks, herror, hvisit, atEnd, ite_self] at hwalk
    rw [forEach, hwalk]
    exact Walks.of_ok rfl
  | chain iter0 iter1 ih0 ih1 =>
    obtain ⟨slices0, hcovers0, hwalks0⟩ := ih0 h.1
    obtain ⟨slices1, hcovers1, hwalks1⟩ := ih1 h.2
    rw [remaining, append]
    cases herror : (remaining iter0).error with
    | none =>
      refine ⟨slices0 ++ slices1, hcovers0.append hcovers1, fun cb st => ?_⟩
      have hwalk0 := hwalks0 (chainCallback cb) (st, false)
      have hwalk1 := hwalks1 cb (visit cb slices0 st).1
      rw [Walks, visit_chainCallback, herror, atEnd, ite_self] at hwalk0
      rw [Walks, forEach, hwalk0, visit_append]
      cases hvisit : (visit cb slices0 st).2 with
      | true => exact hwalk1
      | false =>
        rw [if_neg Bool.false_ne_true, hvisit, if_neg Bool.false_ne_true]
        rfl
    | some e =>
      refine ⟨slices0, hcovers0, fun cb st => ?_⟩
      have hwalk0 := hwalks0 (chainCallback cb) (st, false)
      rw [Walks, visit_chainCallback, herror, atEnd] at hwalk0
      rw [Walks, forEach, hwalk0]
      cases hvisit : (visit cb slices0 st).2 with
      | true => rfl
      | false => rfl
  | dropped => exact ⟨[], covers_nil, fun cb st => rfl⟩

theorem usizeAdd_eq {l n : Nat} (h : l + n < 2 ^ usizeBits) : usizeAdd l n = l + n :=
  Nat.mod_eq_of_lt h

theorem visit_sumLens (slices : List (List Byte)) (l : Nat)
    (h : l + slices.flatten.length < 2 ^ usizeBits) :
    visit (fun l slice => (usizeAdd l slice.length, true)) slices l =
      (l + slices.flatten.length, true) := by
  induction slices generalizing l with
  | nil => rfl
  | cons slice slices ih =>
    rw [List.flatten_cons, List.length_append] at h ⊢
    have hadd : usizeAdd l slice.length = l + slice.length :=
      usizeAdd_eq (Nat.lt_of_le_of_lt (Nat.le_trans (Nat.le_add_right _ _)
        (Nat.le_of_eq (Nat.add_assoc _ _ _))) h)
    rw [visit, hadd, ← Nat.add_assoc]
    exact ih (l + slice.length) (Nat.lt_of_le_of_lt (Nat.le_of_eq (Nat.add_assoc _ _ _)) h)

def lenOf (r : Remaining (IterError ε)) : Result ε Nat := (atEnd r.error).map fun _ => r.bytes.length

theorem sumLens_spec (h : Walkable iter) (hlen : (remaining iter).bytes.length < 2 ^ usizeBits) :
    sumLens iter = lenOf (remaining iter) := by
  obtain ⟨slices, hcovers, hwalks⟩ := forEach_spec h
  have hwalk := hwalks (fun l slice => (usizeAdd l slice.length, true)) 0
  have hvisit := visit_sumLens slices 0
  rw [hcovers.flatten_eq, Nat.zero_add] at hvisit
  rw [Walks, hvisit hlen, if_pos rfl] at hwalk
  rw [sumLens, hwalk, lenOf]
  cases (remaining iter).error with
  | none => rfl
  | some e => rfl

theorem totalLen_spec (h : Walkable iter) (hlen : (remaining iter).bytes.length < 2 ^ usizeBits) :
    totalLen iter = lenOf (remaining iter) := by
  induction iter with
  | generic iter => exact sumLens_spec h hlen
  | buffersSlice iter => exact sumLens_spec h hlen
  | singleton slice => exact sumLens_spec h hlen
  | zeroFilled n =>
    rw [totalLen, remaining, lenOf, cons_bytes, nil, List.append_nil, List.length_replicate]
    rfl
  | empty => rfl
  | mapErr iter f ih =>
    rw [totalLen, ih h hlen, lenOf, lenOf, remaining, mapError]
    cases (remaining iter).error with
    | none => rfl
    | some e => rfl
  | asRef iter ih => exact ih h hlen
  | mutRef iter ih => exact sumLens_spec h hlen
  | takeExact iter n ih =>
    obtain ⟨hwalkable, hn, herror⟩ := h
    rw [totalLen, remaining, takeExact, if_pos hn, lenOf, atEnd, List.length_take,
      Nat.min_eq_left hn]
    rfl
  | chain iter0 iter1 ih0 ih1 =>
    rw [remaining, append] at hlen ⊢
    rw [totalLen]
    cases herror : (remaining iter0).error with
    | none =>
      rw [herror] at hlen
      rw [List.length_append] at hlen
      rw [ih0 h.1 (Nat.lt_of_le_of_lt (Nat.le_add_right _ _) hlen),
        ih1 h.2 (Nat.lt_of_le_of_lt (Nat.le_add_left _ _) hlen), lenOf, lenOf, lenOf, herror]
      cases (remaining iter1).error with
      | none => exact congrArg Except.ok ((usizeAdd_eq hlen).trans List.length_append.symm)
      | some e => rfl
    | some e =>
      rw [herror] at hlen
      rw [ih0 h.1 hlen, lenOf, herror]
      rfl
  | dropped => rfl

end CocoonFs.IoSliceIterWalks
