import CocoonFs.IoSliceIters
import Mathlib.Data.List.Induction

namespace CocoonFs.IoSliceIterSteps

open Codes IoSliceIters
open Option (getD_some isNone_none)
open IoSliceIters.GenericIoSlicesIter (maybeRefillHead nextBackSlice nextSlice nextSliceLen
  refillHead refillTail)

/-- The bytes that remain, and the error that comes then instead of the end. -/
@[ext] structure Remaining (α : Type) where
  bytes : List Byte
  error : Option α

namespace Remaining

variable {α β : Type}

def nil : Remaining α := ⟨[], none⟩

def cons (bs : List Byte) (r : Remaining α) : Remaining α := ⟨bs ++ r.bytes, r.error⟩

def append (r s : Remaining α) : Remaining α :=
  match r.error with
  | none => ⟨r.bytes ++ s.bytes, s.error⟩
  | some e => ⟨r.bytes, some e⟩

def mapError (f : α → β) (r : Remaining α) : Remaining β := ⟨r.bytes, r.error.map f⟩

def takeExact {ε : Type} (n : Nat) (r : Remaining (IterError ε)) : Remaining (IterError ε) :=
  if n ≤ r.bytes.length then ⟨r.bytes.take n, none⟩
  else ⟨r.bytes, some ((r.error.map .backendIteratorError).getD .buffersExhausted)⟩

@[simp] theorem cons_nil (r : Remaining α) : cons [] r = r := rfl

@[simp] theorem cons_bytes (bs : List Byte) (r : Remaining α) : (cons bs r).bytes = bs ++ r.bytes :=
  rfl

@[simp] theorem cons_error (bs : List Byte) (r : Remaining α) : (cons bs r).error = r.error := rfl

theorem cons_append (bs : List Byte) (r s : Remaining α) :
    (cons bs r).append s = cons bs (r.append s) := by
  cases h : r.error with
  | none => simp [append, cons, h]
  | some e => simp [append, cons, h]

@[simp] theorem nil_append (r : Remaining α) : nil.append r = r := rfl

theorem append_nil (r : Remaining α) : r.append nil = r := by
  cases h : r.error with
  | none => ext1 <;> simp [append, nil, h]
  | some e => ext1 <;> simp [append, h]

theorem cons_cons (bs bs' : List Byte) (r : Remaining α) : cons bs (cons bs' r) = cons (bs ++ bs') r := by
  rw [cons, cons, cons, List.append_assoc]

theorem takeExact_cons {ε : Type} {n : Nat} {bs : List Byte} (r : Remaining (IterError ε))
    (h : bs.length ≤ n) : takeExact n (cons bs r) = cons bs (takeExact (n - bs.length) r) := by
  rw [takeExact, takeExact, cons_bytes, cons_error, List.length_append]
  by_cases hn : n ≤ bs.length + r.bytes.length
  · rw [if_pos hn, if_pos (by omega), cons, List.take_append, List.take_of_length_le h]
  · rw [if_neg hn, if_neg (by omega), cons]

theorem takeExact_zero {ε : Type} (r : Remaining (IterError ε)) : takeExact 0 r = nil := by
  rw [takeExact, if_pos (Nat.zero_le _), List.take_zero]
  rfl

end Remaining

open Remaining

variable {ε : Type}

def itemsRemaining : List (Except ε (List Byte)) → Remaining (IterError ε)
  | [] => nil
  | .error e :: _ => ⟨[], some (.item e)⟩
  | .ok bs :: items => cons bs (itemsRemaining items)

def GenericIoSlicesIter.remaining (self : GenericIoSlicesIter ε) : Remaining (IterError ε) :=
  cons (sliceBytes self.head)
    ((if self.iterDone then nil else itemsRemaining self.iter).append
      (cons (sliceBytes self.tail) nil))

def BuffersSliceIoSlicesIter.remaining (self : BuffersSliceIoSlicesIter) : List Byte :=
  sliceBytes self.head ++ self.buffersSlice.flatten ++ sliceBytes self.tail

def remaining : Iter ε → Remaining (IterError ε)
  | .generic iter => GenericIoSlicesIter.remaining iter
  | .buffersSlice iter => cons (BuffersSliceIoSlicesIter.remaining iter) nil
  | .singleton slice => cons (slice.getD []) nil
  | .zeroFilled n => cons (List.replicate n 0) nil
  | .empty => nil
  | .mapErr iter f => (remaining iter).mapError f
  | .asRef iter => remaining iter
  | .mutRef iter => remaining iter
  | .takeExact iter n => (remaining iter).takeExact n
  | .chain iter0 iter1 => (remaining iter0).append (remaining iter1)
  | .dropped => nil

/-- What has been returned is taken away from the front, and only the end is returned as such. -/
def TakesFront (r : Remaining (IterError ε)) :
    Except (IterError ε) (Option (List Byte)) → Remaining (IterError ε) → Prop
  | .ok (some slice), r' => r = cons slice r'
  | .ok none, r' => r = nil ∧ r' = nil
  | .error e, _ => r = ⟨[], some e⟩

theorem itemsRemaining_nextItem (items : List (Except ε (List Byte))) :
    match nextItem items with
    | (.ok (some slice), items') => itemsRemaining items = cons slice.1 (itemsRemaining items')
    | (.ok none, _) => itemsRemaining items = nil
    | (.error e, _) => itemsRemaining items = ⟨[], some (.item e)⟩ := by
  induction items with
  | nil => rfl
  | cons item items ih =>
    cases item with
    | error e => rfl
    | ok bs =>
      rw [nextItem]
      by_cases h : bs = []
      · rw [dif_pos h, itemsRemaining, h, cons_nil]
        exact ih
      · rw [dif_neg h]
        rfl

theorem splitFront_spec (maxLen : Option Nat) (slice : Slice) :
    ∃ bs, (splitFront maxLen (some slice)).1 = some bs ∧
      slice.1 = bs ++ sliceBytes (splitFront maxLen (some slice)).2 ∧
      ∀ n, maxLen = some n → bs.length ≤ n := by
  cases maxLen with
  | none => exact ⟨slice.1, rfl, (List.append_nil _).symm, fun n h => by cases h⟩
  | some n =>
    refine ⟨slice.1.take n, rfl, ?_, ?_⟩
    · rw [splitFront, sliceBytes_slice?, List.take_append_drop]
    · rintro m ⟨⟩
      exact List.length_take_le _ _

theorem splitBack_spec (maxLen : Option Nat) (slice : Slice) :
    ∃ bs, (splitBack maxLen (some slice)).1 = some bs ∧
      slice.1 = sliceBytes (splitBack maxLen (some slice)).2 ++ bs := by
  cases maxLen with
  | none => exact ⟨slice.1, rfl, rfl⟩
  | some n =>
    refine ⟨slice.1.drop (slice.1.length - n), rfl, ?_⟩
    rw [splitBack, sliceBytes_slice?, List.take_append_drop]

namespace GenericIoSlicesIter

/-- With the head filled there is either a slice at the front or nothing at all. -/
theorem maybeRefillHead_spec (self : GenericIoSlicesIter ε) :
    match self.maybeRefillHead with
    | (.ok (), self') => remaining self' = remaining self ∧
        (self'.head = none → remaining self' = nil)
    | (.error e, _) => remaining self = ⟨[], some (.item e)⟩ := by
  rw [maybeRefillHead]
  cases hhead : self.head with
  | some head =>
    exact ⟨rfl, fun h => by rw [hhead] at h; cases h⟩
  | none =>
    dsimp only [isNone_none]
    rw [if_pos rfl, refillHead]
    by_cases hdone : self.iterDone = true
    · rw [if_pos hdone]
      have htail : remaining self = cons (sliceBytes self.tail) nil := by
        rw [remaining, hhead, if_pos hdone, sliceBytes_none, cons_nil, nil_append]
      refine ⟨?_, ?_⟩
      · rw [htail, remaining, if_pos hdone]
        rfl
      · intro h
        rw [remaining, if_pos hdone]
        rw [h]
        rfl
    · rw [if_neg hdone]
      have hitem := itemsRemaining_nextItem self.iter
      have hself : remaining self =
          (itemsRemaining self.iter).append (cons (sliceBytes self.tail) nil) := by
        rw [remaining, hhead, if_neg hdone, sliceBytes_none, cons_nil]
      match hnext : nextItem self.iter with
      | (.ok (some head), iter) =>
        rw [hnext] at hitem
        refine ⟨?_, fun h => by cases h⟩
        rw [hself, hitem, cons_append, remaining]
        rw [if_neg hdone]
        rfl
      | (.ok none, iter) =>
        rw [hnext] at hitem
        refine ⟨?_, ?_⟩
        · rw [hself, hitem, nil_append]
          rfl
        · intro h
          rw [remaining]
          rw [h]
          rfl
      | (.error e, iter) =>
        rw [hnext] at hitem
        rw [hself, hitem]
        rfl

theorem nextSlice_spec (maxLen : Option Nat) (self : GenericIoSlicesIter ε) :
    TakesFront (remaining self) (self.nextSlice maxLen).1 (remaining (self.nextSlice maxLen).2) ∧
      ∀ slice n, (self.nextSlice maxLen).1 = .ok (some slice) → maxLen = some n →
        slice.length ≤ n := by
  have hrefill := maybeRefillHead_spec self
  rw [nextSlice]
  match hself' : self.maybeRefillHead with
  | (.ok (), self') =>
    rw [hself'] at hrefill
    obtain ⟨heq, hnone⟩ := hrefill
    rw [← heq]
    dsimp only
    cases hhead : self'.head with
    | none =>
      have hnil := hnone hhead
      refine ⟨⟨hnil, ?_⟩, fun slice n h => by cases h⟩
      rw [← hnil, remaining, remaining, hhead]
      rfl
    | some head =>
      obtain ⟨bs, hbs, hsplit, hlen⟩ := splitFront_spec maxLen head
      rw [hbs]
      refine ⟨?_, ?_⟩
      · rw [TakesFront, remaining, hhead, sliceBytes_some, hsplit, remaining, cons_cons]
      · rintro slice n ⟨⟩ hn
        exact hlen n hn
  | (.error e, self') =>
    rw [hself'] at hrefill
    exact ⟨hrefill, fun slice n h => by cases h⟩

theorem nextSliceLen_spec (self : GenericIoSlicesIter ε) :
    match self.nextSliceLen with
    | (.ok len, self') => remaining self' = remaining self ∧ len ≤ (remaining self).bytes.length ∧
        (len = 0 → remaining self = nil)
    | (.error e, _) => remaining self = ⟨[], some e⟩ := by
  have hrefill := maybeRefillHead_spec self
  rw [nextSliceLen]
  match hself' : self.maybeRefillHead with
  | (.ok (), self') =>
    rw [hself'] at hrefill
    obtain ⟨heq, hnone⟩ := hrefill
    refine ⟨heq, ?_, ?_⟩
    · rw [← heq, remaining, cons_bytes, List.length_append]
      exact Nat.le_add_right _ _
    · intro hlen
      rw [← heq]
      refine hnone ?_
      cases hhead : self'.head with
      | none => rfl
      | some head =>
        rw [hhead] at hlen
        exact absurd (List.eq_nil_of_length_eq_zero hlen) head.2
  | (.error e, self') =>
    rw [hself'] at hrefill
    exact hrefill

end GenericIoSlicesIter

/-- What has been returned is taken away from the back. It is only without an error in front of it
that one can tell. -/
def TakesBack (r : Remaining (IterError ε)) :
    Except (IterError ε) (Option (List Byte)) → Remaining (IterError ε) → Prop
  | .ok (some slice), r' => r.bytes = r'.bytes ++ slice ∧ r'.error = none
  | .ok none, r' => r = nil ∧ r' = nil
  | .error _, _ => False

theorem itemsRemaining_append (items items' : List (Except ε (List Byte))) :
    itemsRemaining (items ++ items') = (itemsRemaining items).append (itemsRemaining items') := by
  induction items with
  | nil => rfl
  | cons item items ih =>
    cases item with
    | error e => rfl
    | ok bs => rw [List.cons_append, itemsRemaining, itemsRemaining, ih, cons_append]

variable {r s : Remaining (IterError ε)}

theorem Remaining.error_append (h : (r.append s).error = none) :
    r.error = none ∧ s.error = none ∧ (r.append s).bytes = r.bytes ++ s.bytes := by
  rw [append] at h ⊢
  split at h
  · rename_i hr
    rw [hr]
    exact ⟨rfl, h, rfl⟩
  · cases h

theorem Remaining.append_of_none (h : r.error = none) :
    r.append s = ⟨r.bytes ++ s.bytes, s.error⟩ := by
  rw [append, h]

theorem itemsRemaining_nextItem_reverse {items : List (Except ε (List Byte))}
    (h : (itemsRemaining items).error = none) :
    match nextItem items.reverse with
    | (.ok (some slice), items') =>
      (itemsRemaining items).bytes = (itemsRemaining items'.reverse).bytes ++ slice.1 ∧
        (itemsRemaining items'.reverse).error = none
    | (.ok none, _) => itemsRemaining items = nil
    | (.error _, _) => False := by
  induction items using List.reverseRecOn with
  | nil => rfl
  | append_singleton items item ih =>
    rw [itemsRemaining_append] at h
    obtain ⟨hitems, hitem, hbytes⟩ := error_append h
    rw [itemsRemaining_append, List.reverse_append, List.reverse_singleton, List.singleton_append]
    cases item with
    | error e => cases hitem
    | ok bs =>
      rw [nextItem]
      by_cases hbs : bs = []
      · have hempty : itemsRemaining [(.ok bs : Except ε (List Byte))] = nil := by
          rw [hbs]
          rfl
        rw [dif_pos hbs, hempty, append_nil]
        exact ih hitems
      · rw [dif_neg hbs]
        dsimp only
        rw [hbytes, List.reverse_reverse]
        refine ⟨?_, hitems⟩
        rw [itemsRemaining, itemsRemaining, cons_bytes]
        exact congrArg _ (List.append_nil _)

namespace GenericIoSlicesIter

variable {self : GenericIoSlicesIter ε}

/-- Without an error ahead, what remains are the head, the items and the tail. -/
theorem remaining_of_none (h : (remaining self).error = none) :
    (if self.iterDone then nil else itemsRemaining self.iter).error = none ∧
      (remaining self).bytes = sliceBytes self.head ++
        (if self.iterDone then nil else itemsRemaining self.iter).bytes ++ sliceBytes self.tail := by
  obtain ⟨hitems, -, hbytes⟩ := error_append h
  refine ⟨hitems, ?_⟩
  rw [remaining, cons_bytes, hbytes, cons_bytes, List.append_assoc]
  exact congrArg _ (congrArg _ (List.append_nil _))

theorem maybeRefillTail_spec (h : (remaining self).error = none) :
    ∃ self', (if self.tail.isNone then self.refillTail else (.ok (), self)) = (.ok (), self') ∧
      remaining self' = remaining self ∧ (self'.tail = none → remaining self' = nil) := by
  obtain ⟨hitems, hbytes⟩ := remaining_of_none h
  cases htail : self.tail with
  | some tail =>
    refine ⟨self, rfl, rfl, fun hnone => ?_⟩
    rw [htail] at hnone
    cases hnone
  | none =>
    rw [htail, sliceBytes_none, List.append_nil] at hbytes
    dsimp only [isNone_none]
    rw [if_pos rfl, refillTail]
    by_cases hdone : self.iterDone = true
    · rw [if_pos hdone] at hitems hbytes
      have hself : remaining self = cons (sliceBytes self.head) nil := by
        ext1
        · exact hbytes
        · exact h
      rw [if_pos hdone]
      refine ⟨_, rfl, ?_, ?_⟩
      · rw [hself, remaining, if_pos hdone]
        rfl
      · intro hnone
        rw [remaining, if_pos hdone]
        rw [hnone]
        rfl
    · rw [if_neg hdone] at hitems hbytes
      rw [if_neg hdone]
      have hnext := itemsRemaining_nextItem_reverse hitems
      match hitem : nextItem self.iter.reverse with
      | (.ok (some slice), items') =>
        rw [hitem] at hnext
        obtain ⟨hsplit, herror⟩ := hnext
        refine ⟨_, rfl, ?_, fun hnone => by cases hnone⟩
        rw [remaining]
        rw [if_neg hdone, append_of_none herror]
        ext1
        · rw [cons_bytes, hbytes, hsplit, sliceBytes_some]
          exact congrArg _ (congrArg _ (List.append_nil _))
        · exact h.symm
      | (.ok none, items') =>
        rw [hitem] at hnext
        have hself : remaining self = cons (sliceBytes self.head) nil := by
          ext1
          · rw [hbytes, hnext]
            rfl
          · exact h
        refine ⟨_, rfl, ?_, ?_⟩
        · rw [hself]
          rfl
        · intro hnone
          rw [remaining]
          rw [hnone]
          rfl
      | (.error e, items') =>
        rw [hitem] at hnext
        exact hnext.elim

theorem nextBackSlice_spec (maxLen : Option Nat)
    (h : (remaining self).error = none) : TakesBack (remaining self) (self.nextBackSlice maxLen).1
      (remaining (self.nextBackSlice maxLen).2) := by
  obtain ⟨self', hself', heq, hnone⟩ := maybeRefillTail_spec h
  rw [nextBackSlice, hself']
  rw [← heq] at h ⊢
  obtain ⟨hitems, hbytes⟩ := remaining_of_none h
  dsimp only
  cases htail : self'.tail with
  | none =>
    have hnil := hnone htail
    refine ⟨hnil, ?_⟩
    rw [← hnil, remaining, remaining, htail]
    rfl
  | some tail =>
    obtain ⟨bs, hbs, hsplit⟩ := splitBack_spec maxLen tail
    rw [hbs]
    refine ⟨?_, ?_⟩
    · rw [hbytes, htail, sliceBytes_some, hsplit, remaining, append_of_none hitems, cons_bytes]
      simp [nil, cons]
    · rw [remaining, append_of_none hitems]
      rfl

end GenericIoSlicesIter

namespace BuffersSliceIoSlicesIter

theorem flatten_nextBuffer (buffers : List (List Byte)) :
    match nextBuffer buffers with
    | (some slice, buffers') => buffers.flatten = slice.1 ++ buffers'.flatten
    | (none, buffers') => buffers.flatten = [] ∧ buffers' = [] := by
  induction buffers with
  | nil => exact ⟨rfl, rfl⟩
  | cons bs buffers ih =>
    rw [nextBuffer]
    by_cases h : bs = []
    · rw [dif_pos h, h, List.flatten_cons, List.nil_append]
      exact ih
    · rw [dif_neg h]
      rfl

theorem flatten_nextBuffer_reverse (buffers : List (List Byte)) :
    match nextBuffer buffers.reverse with
    | (some slice, buffers') => buffers.flatten = buffers'.reverse.flatten ++ slice.1
    | (none, buffers') => buffers.flatten = [] ∧ buffers' = [] := by
  induction buffers using List.reverseRecOn with
  | nil => exact ⟨rfl, rfl⟩
  | append_singleton buffers bs ih =>
    rw [List.reverse_append, List.reverse_singleton, List.singleton_append, nextBuffer,
      List.flatten_append, List.flatten_singleton]
    by_cases h : bs = []
    · rw [dif_pos h, h, List.append_nil]
      exact ih
    · rw [dif_neg h]
      dsimp only
      rw [List.reverse_reverse]

theorem maybeRefillHead_spec (self : BuffersSliceIoSlicesIter) :
    remaining self.maybeRefillHead = remaining self ∧
      (self.maybeRefillHead.head = none → remaining self = []) := by
  rw [IoSliceIters.BuffersSliceIoSlicesIter.maybeRefillHead]
  cases hhead : self.head with
  | some head =>
    refine ⟨rfl, fun hnone => ?_⟩
    dsimp only [Option.isNone_some] at hnone
    rw [if_neg (by decide), hhead] at hnone
    cases hnone
  | none =>
    dsimp only [isNone_none]
    rw [if_pos rfl]
    have hnext := flatten_nextBuffer self.buffersSlice
    match hbuffer : nextBuffer self.buffersSlice with
    | (some slice, buffers') =>
      rw [hbuffer] at hnext
      refine ⟨?_, fun hnone => by cases hnone⟩
      rw [remaining, remaining, hnext, hhead]
      rfl
    | (none, buffers') =>
      rw [hbuffer] at hnext
      obtain ⟨hflatten, hnil⟩ := hnext
      refine ⟨?_, ?_⟩
      · simp [remaining, hflatten, hhead, hnil]
      · intro hnone
        dsimp only at hnone
        rw [remaining, hflatten, hhead, hnone]
        rfl

theorem maybeRefillTail_spec (self : BuffersSliceIoSlicesIter) :
    remaining self.maybeRefillTail = remaining self ∧
      (self.maybeRefillTail.tail = none → remaining self = []) := by
  rw [IoSliceIters.BuffersSliceIoSlicesIter.maybeRefillTail]
  cases htail : self.tail with
  | some tail =>
    refine ⟨rfl, fun hnone => ?_⟩
    dsimp only [Option.isNone_some] at hnone
    rw [if_neg (by decide), htail] at hnone
    cases hnone
  | none =>
    dsimp only [isNone_none]
    rw [if_pos rfl]
    have hnext := flatten_nextBuffer_reverse self.buffersSlice
    match hbuffer : nextBuffer self.buffersSlice.reverse with
    | (some slice, buffers') =>
      rw [hbuffer] at hnext
      refine ⟨?_, fun hnone => by cases hnone⟩
      simp [remaining, hnext, htail]
    | (none, buffers') =>
      rw [hbuffer] at hnext
      obtain ⟨hflatten, hnil⟩ := hnext
      refine ⟨?_, ?_⟩
      · simp [remaining, hflatten, htail, hnil]
      · intro hnone
        dsimp only at hnone
        rw [remaining, hflatten, htail, hnone]
        rfl

theorem nextSlice_spec (maxLen : Option Nat) (self : BuffersSliceIoSlicesIter) :
    match self.nextSlice maxLen with
    | (some slice, self') => remaining self = slice ++ remaining self' ∧
        ∀ n, maxLen = some n → slice.length ≤ n
    | (none, self') => remaining self = [] ∧ remaining self' = [] := by
  obtain ⟨heq, hnone⟩ := maybeRefillHead_spec self
  rw [IoSliceIters.BuffersSliceIoSlicesIter.nextSlice]
  cases hhead : self.maybeRefillHead.head with
  | none =>
    refine ⟨hnone hhead, ?_⟩
    rw [← hnone hhead, ← heq, remaining, remaining, hhead]
    rfl
  | some head =>
    obtain ⟨bs, hbs, hsplit, hlen⟩ := splitFront_spec maxLen head
    rw [hbs]
    refine ⟨?_, hlen⟩
    rw [← heq, remaining, hhead, sliceBytes_some, hsplit, remaining]
    simp only [List.append_assoc]

theorem nextBackSlice_spec (maxLen : Option Nat) (self : BuffersSliceIoSlicesIter) :
    match self.nextBackSlice maxLen with
    | (some slice, self') => remaining self = remaining self' ++ slice
    | (none, self') => remaining self = [] ∧ remaining self' = [] := by
  obtain ⟨heq, hnone⟩ := maybeRefillTail_spec self
  rw [IoSliceIters.BuffersSliceIoSlicesIter.nextBackSlice]
  cases htail : self.maybeRefillTail.tail with
  | none =>
    refine ⟨hnone htail, ?_⟩
    rw [← hnone htail, ← heq, remaining, remaining, htail]
    rfl
  | some tail =>
    obtain ⟨bs, hbs, hsplit⟩ := splitBack_spec maxLen tail
    rw [hbs]
    dsimp only
    rw [← heq, remaining, htail, sliceBytes_some, hsplit, remaining]
    simp only [List.append_assoc]

theorem nextSliceLen_spec (self : BuffersSliceIoSlicesIter) :
    remaining self.nextSliceLen.2 = remaining self ∧
      self.nextSliceLen.1 ≤ (remaining self).length ∧
      (self.nextSliceLen.1 = 0 → remaining self = []) := by
  obtain ⟨heq, hnone⟩ := maybeRefillHead_spec self
  rw [IoSliceIters.BuffersSliceIoSlicesIter.nextSliceLen]
  refine ⟨heq, ?_, ?_⟩
  · rw [← heq, remaining, List.length_append, List.length_append]
    omega
  · intro hlen
    refine hnone ?_
    cases hhead : self.maybeRefillHead.head with
    | none => rfl
    | some head =>
      rw [hhead] at hlen
      exact absurd (List.eq_nil_of_length_eq_zero hlen) head.2

end BuffersSliceIoSlicesIter

section TakesFront

variable {r r' : Remaining (IterError ε)} {result : Except (IterError ε) (Option (List Byte))}

theorem TakesFront.mapError (f : IterError ε → IterError ε) (h : TakesFront r result r') :
    TakesFront (r.mapError f) (result.mapError f) (r'.mapError f) := by
  cases result with
  | error e =>
    rw [h]
    rfl
  | ok slice =>
    cases slice with
    | none =>
      obtain ⟨rfl, rfl⟩ := h
      exact ⟨rfl, rfl⟩
    | some slice =>
      rw [h]
      rfl

theorem TakesFront.append {slice : List Byte} (h : TakesFront r (.ok (some slice)) r')
    (s : Remaining (IterError ε)) : TakesFront (r.append s) (.ok (some slice)) (r'.append s) := by
  rw [TakesFront] at h ⊢
  rw [h, cons_append]

theorem takeExact_of_pos {n : Nat} (hn : n ≠ 0) (error : Option (IterError ε)) :
    (⟨[], error⟩ : Remaining (IterError ε)).takeExact n =
      ⟨[], some ((error.map .backendIteratorError).getD .buffersExhausted)⟩ := by
  rw [takeExact, if_neg]
  exact fun h => hn (Nat.le_zero.mp h)

end TakesFront

theorem remaining_dropped : remaining (.dropped : Iter ε) = nil := rfl

theorem nextSlice_spec (maxLen : Option Nat) (iter : Iter ε) :
    TakesFront (remaining iter) (iter.nextSlice maxLen).1 (remaining (iter.nextSlice maxLen).2) ∧
      ∀ slice n, (iter.nextSlice maxLen).1 = .ok (some slice) → maxLen = some n →
        slice.length ≤ n := by
  induction iter generalizing maxLen with
  | generic iter => exact GenericIoSlicesIter.nextSlice_spec maxLen iter
  | buffersSlice iter =>
    have hspec := BuffersSliceIoSlicesIter.nextSlice_spec maxLen iter
    rw [Iter.nextSlice]
    match hnext : iter.nextSlice maxLen with
    | (some slice, iter') =>
      rw [hnext] at hspec
      refine ⟨?_, ?_⟩
      · rw [TakesFront, remaining, hspec.1, remaining, cons_cons]
      · rintro slice' n ⟨⟩ hn
        exact hspec.2 n hn
    | (none, iter') =>
      rw [hnext] at hspec
      refine ⟨⟨?_, ?_⟩, fun slice n h => by cases h⟩
      · rw [remaining, hspec.1]
        rfl
      · rw [remaining, hspec.2]
        rfl
  | singleton slice =>
    cases slice with
    | none => exact ⟨⟨rfl, rfl⟩, fun slice n h => by cases h⟩
    | some slice =>
      rw [Iter.nextSlice]
      split
      · rename_i hnil
        refine ⟨⟨?_, rfl⟩, fun slice n h => by cases h⟩
        rw [remaining, getD_some, hnil]
        rfl
      · refine ⟨?_, ?_⟩
        · rw [TakesFront, remaining, remaining, cons_cons, getD_some, getD_some,
            List.take_append_drop]
        · rintro slice' n ⟨⟩ rfl
          exact Nat.le_trans (List.length_take_le _ _) (Nat.min_le_left _ _)
  | zeroFilled n =>
    rw [Iter.nextSlice]
    split
    · rename_i hzero
      rw [hzero]
      exact ⟨⟨rfl, rfl⟩, fun slice n h => by cases h⟩
    · refine ⟨?_, ?_⟩
      · have hle : (maxLen.map (min · (min n Iter.chunkSize))).getD (min n Iter.chunkSize) ≤ n := by
          cases maxLen with
          | none => exact Nat.min_le_left _ _
          | some m => exact Nat.le_trans (Nat.min_le_right _ _) (Nat.min_le_left _ _)
        rw [TakesFront, remaining, remaining, cons_cons, List.replicate_append_replicate,
          Nat.add_sub_cancel' hle]
      · rintro slice' m ⟨⟩ rfl
        rw [List.length_replicate]
        exact Nat.min_le_left _ _
  | empty => exact ⟨⟨rfl, rfl⟩, fun slice n h => by cases h⟩
  | mapErr iter f ih =>
    refine ⟨(ih maxLen).1.mapError f, fun slice n h hn => (ih maxLen).2 slice n ?_ hn⟩
    rw [Iter.nextSlice] at h
    cases hresult : (iter.nextSlice maxLen).1 with
    | error e =>
      rw [hresult] at h
      cases h
    | ok slice' =>
      rw [hresult] at h
      exact h
  | asRef iter ih => exact ih maxLen
  | mutRef iter ih => exact ih maxLen
  | takeExact iter n ih =>
    rw [Iter.nextSlice]
    split
    · rename_i hzero
      rw [remaining, hzero]
      exact ⟨⟨takeExact_zero _, takeExact_zero _⟩, fun slice n h => by cases h⟩
    · rename_i hpos
      obtain ⟨len, hlen⟩ : ∃ len, len = (maxLen.map (min · n)).getD n := ⟨_, rfl⟩
      have hle : len ≤ n := by
        rw [hlen]
        cases maxLen with
        | none => exact Nat.le_refl _
        | some m => exact Nat.min_le_right _ _
      rw [← hlen]
      obtain ⟨htakes, hbound⟩ := ih (some len)
      match hresult : iter.nextSlice (some len) with
      | (.ok (some slice), iter') =>
        rw [hresult] at htakes hbound
        have hslice := hbound slice len rfl rfl
        refine ⟨?_, ?_⟩
        · rw [Iter.takeExactResult, TakesFront, remaining, htakes, remaining,
            takeExact_cons _ (Nat.le_trans hslice hle)]
        · rintro slice' m ⟨⟩ rfl
          rw [hlen] at hslice
          exact Nat.le_trans hslice (Nat.min_le_left _ _)
      | (.ok none, iter') =>
        rw [hresult] at htakes
        refine ⟨?_, fun slice n h => by cases h⟩
        rw [Iter.takeExactResult, TakesFront, remaining, htakes.1]
        exact takeExact_of_pos hpos none
      | (.error e, iter') =>
        rw [hresult] at htakes
        refine ⟨?_, fun slice n h => by cases h⟩
        rw [Iter.takeExactResult, TakesFront, remaining, htakes]
        exact takeExact_of_pos hpos (some e)
  | chain iter0 iter1 ih0 ih1 =>
    rw [Iter.nextSlice]
    obtain ⟨htakes0, hbound0⟩ := ih0 maxLen
    match hresult0 : iter0.nextSlice maxLen with
    | (.ok (some slice), iter0') =>
      rw [hresult0] at htakes0 hbound0
      exact ⟨htakes0.append _, hbound0⟩
    | (.error e, iter0') =>
      rw [hresult0] at htakes0
      refine ⟨?_, fun slice n h => by cases h⟩
      rw [remaining, htakes0]
      rfl
    | (.ok none, iter0') =>
      rw [hresult0] at htakes0
      have hremaining : remaining (.chain iter0 iter1) = remaining iter1 := by
        rw [remaining, htakes0.1, nil_append]
      obtain ⟨htakes1, hbound1⟩ := ih1 maxLen
      rw [hremaining]
      match hresult1 : iter1.nextSlice maxLen with
      | (.ok (some slice), iter1') =>
        rw [hresult1] at htakes1 hbound1
        exact ⟨htakes1, hbound1⟩
      | (.error e, iter1') =>
        rw [hresult1] at htakes1
        exact ⟨htakes1, fun slice n h => by cases h⟩
      | (.ok none, iter1') =>
        rw [hresult1] at htakes1
        exact ⟨⟨htakes1.1, rfl⟩, fun slice n h => by cases h⟩
  | dropped => exact ⟨⟨rfl, rfl⟩, fun slice n h => by cases h⟩

theorem TakesBack.mapError {r r' : Remaining (IterError ε)}
    {result : Except (IterError ε) (Option (List Byte))} (f : IterError ε → IterError ε)
    (h : TakesBack r result r') : TakesBack (r.mapError f) (result.mapError f) (r'.mapError f) := by
  cases result with
  | error e => exact h
  | ok slice =>
    cases slice with
    | none =>
      obtain ⟨rfl, rfl⟩ := h
      exact ⟨rfl, rfl⟩
    | some slice =>
      refine ⟨h.1, ?_⟩
      rw [Remaining.mapError, h.2]
      rfl

theorem nextBackSlice_spec (maxLen : Option Nat) (iter : Iter ε) (hback : iter.DoubleEnded)
    (h : (remaining iter).error = none) :
    TakesBack (remaining iter) (iter.nextBackSlice maxLen hback).1
      (remaining (iter.nextBackSlice maxLen hback).2) := by
  induction iter with
  | generic iter => exact GenericIoSlicesIter.nextBackSlice_spec maxLen h
  | buffersSlice iter =>
    have hspec := BuffersSliceIoSlicesIter.nextBackSlice_spec maxLen iter
    rw [Iter.nextBackSlice]
    match hnext : iter.nextBackSlice maxLen with
    | (some slice, iter') =>
      rw [hnext] at hspec
      refine ⟨?_, rfl⟩
      rw [remaining, hspec, remaining, cons_bytes, cons_bytes, nil, List.append_nil, List.append_nil]
    | (none, iter') =>
      rw [hnext] at hspec
      refine ⟨?_, ?_⟩
      · rw [remaining, hspec.1]
        rfl
      · rw [remaining, hspec.2]
        rfl
  | singleton slice =>
    cases slice with
    | none => exact ⟨rfl, rfl⟩
    | some slice =>
      rw [Iter.nextBackSlice]
      split
      · rename_i hnil
        refine ⟨?_, rfl⟩
        rw [remaining, getD_some, hnil]
        rfl
      · refine ⟨?_, rfl⟩
        rw [remaining, remaining, cons_bytes, cons_bytes, getD_some, getD_some, nil,
          List.append_nil, List.append_nil, List.take_append_drop]
  | zeroFilled n => exact hback.elim
  | empty => exact ⟨rfl, rfl⟩
  | mapErr iter f ih =>
    have hinner : (remaining iter).error = none := by
      rw [remaining, Remaining.mapError, Option.map_eq_none_iff] at h
      exact h
    exact (ih hback hinner).mapError f
  | asRef iter ih => exact ih hback h
  | mutRef iter ih => exact ih hback h
  | takeExact iter n ih => exact hback.elim
  | chain iter0 iter1 ih0 ih1 =>
    obtain ⟨h0, h1, hbytes⟩ := error_append h
    have htakes1 := ih1 hback.2 h1
    rw [Iter.nextBackSlice]
    match hresult1 : iter1.nextBackSlice maxLen hback.2 with
    | (.error e, iter1') =>
      rw [hresult1] at htakes1
      exact htakes1.elim
    | (.ok (some slice), iter1') =>
      rw [hresult1] at htakes1
      refine ⟨?_, ?_⟩
      · rw [remaining, hbytes, htakes1.1, remaining, append_of_none h0, List.append_assoc]
      · rw [remaining, append_of_none h0]
        exact htakes1.2
    | (.ok none, iter1') =>
      rw [hresult1] at htakes1
      have hremaining : remaining (.chain iter0 iter1) = remaining iter0 := by
        rw [remaining, htakes1.1, append_nil]
      have htakes0 := ih0 hback.1 h0
      rw [hremaining]
      match hresult0 : iter0.nextBackSlice maxLen hback.1 with
      | (.ok (some slice), iter0') =>
        rw [hresult0] at htakes0
        rw [remaining, remaining_dropped, append_nil]
        exact htakes0
      | (.error e, iter0') =>
        rw [hresult0] at htakes0
        exact htakes0.elim
      | (.ok none, iter0') =>
        rw [hresult0] at htakes0
        exact ⟨htakes0.1, rfl⟩
  | dropped => exact ⟨rfl, rfl⟩

end CocoonFs.IoSliceIterSteps
