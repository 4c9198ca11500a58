import CocoonFs.Codes

namespace CocoonFs.IoSliceIters

open Codes

/-- The errors of a wrapped iterator, and the one that there are too few bytes. -/
inductive IterError (ε : Type) where
  | item (e : ε)
  | backendIteratorError (e : IterError ε)
  | buffersExhausted
  deriving DecidableEq, Repr

abbrev Slice := { bs : List Byte // bs ≠ [] }

/-- `then_some()`, which keeps what remains of a slice unless it is empty. -/
def slice? (bs : List Byte) : Option Slice := if h : bs = [] then none else some ⟨bs, h⟩

def sliceBytes (slice : Option Slice) : List Byte := (slice.map (·.1)).getD []

@[simp] theorem sliceBytes_none : sliceBytes none = [] := rfl

@[simp] theorem sliceBytes_some (slice : Slice) : sliceBytes (some slice) = slice.1 := rfl

@[simp] theorem sliceBytes_slice? (bs : List Byte) : sliceBytes (slice? bs) = bs := by
  rw [slice?]
  split
  · rename_i h
    rw [h, sliceBytes_none]
  · rfl

def splitFront (maxLen : Option Nat) : Option Slice → Option (List Byte) × Option Slice
  | none => (none, none)
  | some slice =>
    match maxLen with
    | none => (some slice.1, none)
    | some n => (some (slice.1.take n), slice? (slice.1.drop n))

def splitBack (maxLen : Option Nat) : Option Slice → Option (List Byte) × Option Slice
  | none => (none, none)
  | some slice =>
    match maxLen with
    | none => (some slice.1, none)
    | some n => (some (slice.1.drop (slice.1.length - n)), slice? (slice.1.take (slice.1.length - n)))

/-- The loop that skips the empty ones: the next of the items, if there is one, and those behind. -/
def nextItem {ε : Type} : List (Except ε (List Byte)) →
    Except ε (Option Slice) × List (Except ε (List Byte))
  | [] => (.ok none, [])
  | .error e :: items => (.error e, items)
  | .ok bs :: items => if h : bs = [] then nextItem items else (.ok (some ⟨bs, h⟩), items)

structure GenericIoSlicesIter (ε : Type) where
  iter : List (Except ε (List Byte))
  head : Option Slice
  tail : Option Slice
  iterDone : Bool

namespace GenericIoSlicesIter

variable {ε : Type}

def new (iter : List (Except ε (List Byte))) (head : Option (List Byte)) : GenericIoSlicesIter ε :=
  ⟨iter, head.bind slice?, none, false⟩

def refillHead (self : GenericIoSlicesIter ε) : Except ε Unit × GenericIoSlicesIter ε :=
  if self.iterDone then (.ok (), { self with head := self.tail, tail := none })
  else
    match nextItem self.iter with
    | (.ok (some head), iter) => (.ok (), { self with iter := iter, head := some head })
    | (.ok none, iter) =>
      (.ok (), { iter := iter, head := self.tail, tail := none, iterDone := true })
    | (.error e, iter) => (.error e, { self with iter := iter, iterDone := true })

def maybeRefillHead (self : GenericIoSlicesIter ε) : Except ε Unit × GenericIoSlicesIter ε :=
  if self.head.isNone then self.refillHead else (.ok (), self)

def nextSliceLen (self : GenericIoSlicesIter ε) :
    Except (IterError ε) Nat × GenericIoSlicesIter ε :=
  match self.maybeRefillHead with
  | (.ok (), self) => (.ok (sliceBytes self.head).length, self)
  | (.error e, self) => (.error (.item e), self)

def nextSlice (maxLen : Option Nat) (self : GenericIoSlicesIter ε) :
    Except (IterError ε) (Option (List Byte)) × GenericIoSlicesIter ε :=
  match self.maybeRefillHead with
  | (.ok (), self) =>
    (.ok (splitFront maxLen self.head).1, { self with head := (splitFront maxLen self.head).2 })
  | (.error e, self) => (.error (.item e), self)

def refillTail (self : GenericIoSlicesIter ε) : Except ε Unit × GenericIoSlicesIter ε :=
  if self.iterDone then (.ok (), { self with head := none, tail := self.head })
  else
    match nextItem self.iter.reverse with
    | (.ok (some tail), iter) => (.ok (), { self with iter := iter.reverse, tail := some tail })
    | (.ok none, iter) =>
      (.ok (), { iter := iter.reverse, head := none, tail := self.head, iterDone := true })
    | (.error e, iter) => (.error e, { self with iter := iter.reverse, iterDone := true })

def nextBackSlice (maxLen : Option Nat) (self : GenericIoSlicesIter ε) :
    Except (IterError ε) (Option (List Byte)) × GenericIoSlicesIter ε :=
  match if self.tail.isNone then self.refillTail else (.ok (), self) with
  | (.ok (), self) =>
    (.ok (splitBack maxLen self.tail).1, { self with tail := (splitBack maxLen self.tail).2 })
  | (.error e, self) => (.error (.item e), self)

/-- A new iterator over what is left of the wrapped one, with the head first. -/
def decoupledBorrow (self : GenericIoSlicesIter ε) : GenericIoSlicesIter ε :=
  new self.iter (self.head.map (·.1))

end GenericIoSlicesIter

/-- `BuffersSliceIoSlicesIter` and `BuffersSliceIoSlicesMutIter` -/
structure BuffersSliceIoSlicesIter where
  buffersSlice : List (List Byte)
  head : Option Slice
  tail : Option Slice

/-- The loop that skips the empty buffers. -/
def nextBuffer : List (List Byte) → Option Slice × List (List Byte)
  | [] => (none, [])
  | bs :: buffers => if h : bs = [] then nextBuffer buffers else (some ⟨bs, h⟩, buffers)

namespace BuffersSliceIoSlicesIter

def new (buffersSlice : List (List Byte)) : BuffersSliceIoSlicesIter := ⟨buffersSlice, none, none⟩

def maybeRefillHead (self : BuffersSliceIoSlicesIter) : BuffersSliceIoSlicesIter :=
  if self.head.isNone then
    match nextBuffer self.buffersSlice with
    | (some head, buffersSlice) => { self with buffersSlice := buffersSlice, head := some head }
    | (none, buffersSlice) => ⟨buffersSlice, self.tail, none⟩
  else self

def nextSliceLen (self : BuffersSliceIoSlicesIter) : Nat × BuffersSliceIoSlicesIter :=
  ((sliceBytes self.maybeRefillHead.head).length, self.maybeRefillHead)

def nextSlice (maxLen : Option Nat) (self : BuffersSliceIoSlicesIter) :
    Option (List Byte) × BuffersSliceIoSlicesIter :=
  ((splitFront maxLen self.maybeRefillHead.head).1,
    { self.maybeRefillHead with head := (splitFront maxLen self.maybeRefillHead.head).2 })

def maybeRefillTail (self : BuffersSliceIoSlicesIter) : BuffersSliceIoSlicesIter :=
  if self.tail.isNone then
    match nextBuffer self.buffersSlice.reverse with
    | (some tail, buffersSlice) =>
      { self with buffersSlice := buffersSlice.reverse, tail := some tail }
    | (none, buffersSlice) => ⟨buffersSlice.reverse, none, self.head⟩
  else self

def nextBackSlice (maxLen : Option Nat) (self : BuffersSliceIoSlicesIter) :
    Option (List Byte) × BuffersSliceIoSlicesIter :=
  ((splitBack maxLen self.maybeRefillTail.tail).1,
    { self.maybeRefillTail with tail := (splitBack maxLen self.maybeRefillTail.tail).2 })

/-- The slices that `for_each()` goes over. -/
def slices (self : BuffersSliceIoSlicesIter) : List (List Byte) :=
  ((self.head.toList.map (·.1)) ++ self.buffersSlice ++ (self.tail.toList.map (·.1))).filter
    (!·.isEmpty)

end BuffersSliceIoSlicesIter

/-- The iterators and their adaptors. An iterator of a chain that has come to its end is dropped,
and `SingletonIoSliceMut` is the same as `SingletonIoSlice`. -/
inductive Iter (ε : Type) where
  | generic (iter : GenericIoSlicesIter ε)
  | buffersSlice (iter : BuffersSliceIoSlicesIter)
  | singleton (slice : Option (List Byte))
  | zeroFilled (remaining : Nat)
  | empty
  | mapErr (iter : Iter ε) (f : IterError ε → IterError ε)
  | asRef (iter : Iter ε)
  | mutRef (iter : Iter ε)
  | takeExact (iter : Iter ε) (remaining : Nat)
  | chain (iter0 iter1 : Iter ε)
  | dropped

namespace Iter

variable {ε : Type}

abbrev Result (ε α : Type) := Except (IterError ε) α

/-- `CHUNK_SIZE` -/
def chunkSize : Nat := 16

def nextSliceLen : Iter ε → Result ε Nat × Iter ε
  | generic iter => (iter.nextSliceLen.1, generic iter.nextSliceLen.2)
  | buffersSlice iter => (.ok iter.nextSliceLen.1, buffersSlice iter.nextSliceLen.2)
  | singleton slice => (.ok (slice.getD []).length, singleton slice)
  | zeroFilled remaining => (.ok (min remaining chunkSize), zeroFilled remaining)
  | empty => (.ok 0, empty)
  | mapErr iter f => (iter.nextSliceLen.1.mapError f, mapErr iter.nextSliceLen.2 f)
  | asRef iter => (iter.nextSliceLen.1, asRef iter.nextSliceLen.2)
  | mutRef iter => (iter.nextSliceLen.1, mutRef iter.nextSliceLen.2)
  | takeExact iter remaining =>
    ((iter.nextSliceLen.1.map (min · remaining)).mapError .backendIteratorError,
      takeExact iter.nextSliceLen.2 remaining)
  | chain dropped iter1 => (iter1.nextSliceLen.1, chain dropped iter1.nextSliceLen.2)
  | chain iter0 iter1 => (iter0.nextSliceLen.1, chain iter0.nextSliceLen.2 iter1)
  | dropped => (.ok 0, dropped)

/-- The default implementation goes by the length of the next slice, and there is none but this
for a `&mut` reference. -/
def isEmpty : Iter ε → Result ε Bool × Iter ε
  | generic iter => (iter.nextSliceLen.1.map (· == 0), generic iter.nextSliceLen.2)
  | buffersSlice iter => (.ok (iter.nextSliceLen.1 == 0), buffersSlice iter.nextSliceLen.2)
  | singleton slice => (.ok ((slice.getD []).length == 0), singleton slice)
  | zeroFilled remaining => (.ok (remaining == 0), zeroFilled remaining)
  | empty => (.ok true, empty)
  | mapErr iter f => (iter.isEmpty.1.mapError f, mapErr iter.isEmpty.2 f)
  | asRef iter => (iter.isEmpty.1, asRef iter.isEmpty.2)
  | mutRef iter => (iter.nextSliceLen.1.map (· == 0), mutRef iter.nextSliceLen.2)
  | takeExact iter remaining => (.ok (remaining == 0), takeExact iter remaining)
  | chain iter0 iter1 =>
    match iter0.isEmpty with
    | (.ok true, iter0) => (iter1.isEmpty.1, chain iter0 iter1.isEmpty.2)
    | (.ok false, iter0) => (.ok false, chain iter0 iter1)
    | (.error e, iter0) => (.error e, chain iter0 iter1)
  | dropped => (.ok true, dropped)

def takeExactResult (remaining : Nat) :
    Result ε (Option (List Byte)) × Iter ε → Result ε (Option (List Byte)) × Iter ε
  | (.ok (some slice), iter) => (.ok (some slice), takeExact iter (remaining - slice.length))
  | (.ok none, iter) => (.error .buffersExhausted, takeExact iter remaining)
  | (.error e, iter) => (.error (.backendIteratorError e), takeExact iter remaining)

def nextSlice (maxLen : Option Nat) : Iter ε → Result ε (Option (List Byte)) × Iter ε
  | generic iter => ((iter.nextSlice maxLen).1, generic (iter.nextSlice maxLen).2)
  | buffersSlice iter => (.ok (iter.nextSlice maxLen).1, buffersSlice (iter.nextSlice maxLen).2)
  | singleton slice =>
    match slice with
    | none => (.ok none, singleton none)
    | some slice =>
      if slice = [] then (.ok none, singleton none)
      else
        let headSliceLen := (maxLen.map (min · slice.length)).getD slice.length
        (.ok (some (slice.take headSliceLen)), singleton (some (slice.drop headSliceLen)))
  | zeroFilled remaining =>
    if remaining = 0 then (.ok none, zeroFilled remaining)
    else
      let len := (maxLen.map (min · (min remaining chunkSize))).getD (min remaining chunkSize)
      (.ok (some (List.replicate len 0)), zeroFilled (remaining - len))
  | empty => (.ok none, empty)
  | mapErr iter f => ((iter.nextSlice maxLen).1.mapError f, mapErr (iter.nextSlice maxLen).2 f)
  | asRef iter => ((iter.nextSlice maxLen).1, asRef (iter.nextSlice maxLen).2)
  | mutRef iter => ((iter.nextSlice maxLen).1, mutRef (iter.nextSlice maxLen).2)
  | takeExact iter remaining =>
    if remaining = 0 then (.ok none, takeExact iter remaining)
    else
      takeExactResult remaining
        (iter.nextSlice (some ((maxLen.map (min · remaining)).getD remaining)))
  | chain iter0 iter1 =>
    match iter0.nextSlice maxLen with
    | (.ok none, _) =>
      match iter1.nextSlice maxLen with
      | (.ok none, _) => (.ok none, chain dropped dropped)
      | (slice, iter1) => (slice, chain dropped iter1)
    | (slice, iter0) => (slice, chain iter0 iter1)
  | dropped => (.ok none, dropped)

def DoubleEnded : Iter ε → Prop
  | zeroFilled _ | takeExact _ _ => False
  | mapErr iter _ | asRef iter | mutRef iter => iter.DoubleEnded
  | chain iter0 iter1 => iter0.DoubleEnded ∧ iter1.DoubleEnded
  | generic _ | buffersSlice _ | singleton _ | empty | dropped => True

def nextBackSlice (maxLen : Option Nat) :
    (iter : Iter ε) → iter.DoubleEnded → Result ε (Option (List Byte)) × Iter ε
  | generic iter, _ => ((iter.nextBackSlice maxLen).1, generic (iter.nextBackSlice maxLen).2)
  | buffersSlice iter, _ =>
    (.ok (iter.nextBackSlice maxLen).1, buffersSlice (iter.nextBackSlice maxLen).2)
  | singleton slice, _ =>
    match slice with
    | none => (.ok none, singleton none)
    | some slice =>
      if slice = [] then (.ok none, singleton none)
      else
        let tailSliceLen := (maxLen.map (min · slice.length)).getD slice.length
        (.ok (some (slice.drop (slice.length - tailSliceLen))),
          singleton (some (slice.take (slice.length - tailSliceLen))))
  | empty, _ => (.ok none, empty)
  | mapErr iter f, h =>
    ((iter.nextBackSlice maxLen h).1.mapError f, mapErr (iter.nextBackSlice maxLen h).2 f)
  | asRef iter, h => ((iter.nextBackSlice maxLen h).1, asRef (iter.nextBackSlice maxLen h).2)
  | mutRef iter, h => ((iter.nextBackSlice maxLen h).1, mutRef (iter.nextBackSlice maxLen h).2)
  | chain iter0 iter1, h =>
    match iter1.nextBackSlice maxLen h.2 with
    | (.ok none, _) =>
      match iter0.nextBackSlice maxLen h.1 with
      | (.ok none, _) => (.ok none, chain dropped dropped)
      | (slice, iter0) => (slice, chain iter0 dropped)
    | (slice, iter1) => (slice, chain iter0 iter1)
  | dropped, _ => (.ok none, dropped)

def decoupledBorrow : Iter ε → Iter ε
  | generic iter => generic iter.decoupledBorrow
  | mapErr iter f => mapErr iter.decoupledBorrow f
  | asRef iter | mutRef iter => iter.decoupledBorrow
  | takeExact iter remaining => takeExact iter.decoupledBorrow remaining
  | chain iter0 iter1 => chain iter0.decoupledBorrow iter1.decoupledBorrow
  | buffersSlice iter => buffersSlice iter
  | singleton slice => singleton slice
  | zeroFilled remaining => zeroFilled remaining
  | empty => empty
  | dropped => dropped

end Iter

end CocoonFs.IoSliceIters
