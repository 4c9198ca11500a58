import CocoonFs.Checked
import CocoonFs.Lanes

namespace CocoonFs.CacheSet

open Checked
open Checked (panic)

section Words

variable {m : Nat}

/-- An operation on words whose result does not fit panics only with overflow checks. -/
def fitting {α : Type} (pr : Profile) (fits : Prop) [Decidable fits] (wrapped : α) : Comp α :=
  if fits then .ok wrapped
  else match pr with
    | .debug => panic .overflow
    | .release => .ok wrapped

def shl (pr : Profile) (x : BitVec m) (n : Nat) : Comp (BitVec m) :=
  fitting pr (n < m) (x <<< (n % m))

def shr (pr : Profile) (x : BitVec m) (n : Nat) : Comp (BitVec m) :=
  fitting pr (n < m) (x >>> (n % m))

def add (pr : Profile) (x y : BitVec m) : Comp (BitVec m) :=
  fitting pr (x.toNat + y.toNat < 2 ^ m) (x + y)

def sub (pr : Profile) (x y : BitVec m) : Comp (BitVec m) :=
  fitting pr (y.toNat ≤ x.toNat) (x - y)

def mul (pr : Profile) (x y : BitVec m) : Comp (BitVec m) :=
  fitting pr (x.toNat * y.toNat < 2 ^ m) (x * y)

def subU32 (pr : Profile) (a b : Nat) : Comp Nat :=
  fitting pr (b ≤ a) ((a + 2 ^ 32 - b) % 2 ^ 32)

end Words

def maxAssociativity : Nat := 8

def subwords8MaskLsb : BitVec 64 :=
  let m := 0x01#64
  let m := m ||| m <<< 8
  let m := m ||| m <<< 16
  m ||| m <<< 32

def subwords4MaskLsb : BitVec 32 :=
  let m := 0x01#32
  let m := m ||| m <<< 4
  let m := m ||| m <<< 8
  m ||| m <<< 16

/-- The most significant bit of each subword that is zero, for subwords of width
`w` given by the mask of their least significant bits. -/
def subwordsMaskIsZeroMsb {m : Nat} (pr : Profile) (w : Nat) (maskLsb x : BitVec m) :
    Comp (BitVec m) := do
  let maskMsbInv := ~~~(maskLsb <<< (w - 1))
  let y ← add pr (x &&& maskMsbInv) maskMsbInv
  pure (~~~(y ||| x ||| maskMsbInv))

def subwords8MaskIsZeroMsb (pr : Profile) (x : BitVec 64) : Comp (BitVec 64) :=
  subwordsMaskIsZeroMsb pr 8 subwords8MaskLsb x

def subwords4MaskIsZeroMsb (pr : Profile) (x : BitVec 32) : Comp (BitVec 32) :=
  subwordsMaskIsZeroMsb pr 4 subwords4MaskLsb x

def findLeastSignificantZeroByte (pr : Profile) (x : BitVec 64) : Comp Nat := do
  let z ← subwords8MaskIsZeroMsb pr x
  pure (z.ctz.toNat / 8)

def findLeastSignificantZeroNibble (pr : Profile) (x : BitVec 32) : Comp Nat := do
  let z ← subwords4MaskIsZeroMsb pr x
  pure (z.ctz.toNat / 4)

/-- One of the three rounds of a compression: move bits to the right by the
distance of the round. The mask has the least significant bit of each subword. -/
def compressRound {n : Nat} (maskLsb : BitVec n) (distance : Nat) (x m mk : BitVec n) :
    BitVec n × BitVec n × BitVec n :=
  let clear := maskLsb
  let mp := mk ^^^ ((mk <<< 1) &&& ~~~clear)
  let clear := clear ||| clear <<< 1
  let mp := mp ^^^ ((mp <<< 2) &&& ~~~clear)
  let clear := clear ||| clear <<< 2
  let mp := mp ^^^ ((mp <<< 4) &&& ~~~clear)
  let mv := mp &&& m
  let m := (m ^^^ mv) ||| (mv >>> distance)
  let t := x &&& mv
  let x := (x ^^^ t) ||| (t >>> distance)
  (x, m, mk &&& ~~~mp)

def subwordsCompress {n : Nat} (maskLsb x m : BitVec n) : BitVec n :=
  let x := x &&& m
  let mk := (~~~m <<< 1) &&& ~~~maskLsb
  let (x, m, mk) := compressRound maskLsb 1 x m mk
  let (x, m, mk) := compressRound maskLsb 2 x m mk
  (compressRound maskLsb 4 x m mk).1

def subwords8Compress (x m : BitVec 64) : BitVec 64 := subwordsCompress subwords8MaskLsb x m

def subwords8MaskAllSetLsb (x : BitVec 64) : BitVec 64 :=
  let x := x &&& x >>> 1
  let x := x &&& x >>> 2
  let x := x &&& x >>> 4
  x &&& subwords8MaskLsb

def subwords8MaskAllSet (pr : Profile) (x : BitVec 64) : Comp (BitVec 64) := do
  let maskAllSetLsb := subwords8MaskAllSetLsb x
  let maskAllSetMsb := maskAllSetLsb <<< 7
  let low ← sub pr maskAllSetMsb maskAllSetLsb
  pure (maskAllSetMsb ||| low)

def referencedSlotMask (pr : Profile) (capacity slot : Nat) : Comp (BitVec 64) := do
  let bit ← shl pr 1#64 capacity
  let row ← sub pr bit 1#64
  shl pr row (8 * slot)

/-- The first step of a slot's reference through a shared reference, an atomic
fetch-or: the new matrix and the mask for the second step. -/
def lruReferenceSlotSyncOr (pr : Profile) (matrix : BitVec 64) (capacity slot : Nat) :
    Comp (BitVec 64 × BitVec 64) := do
  let maskReferencedSlot ← referencedSlotMask pr capacity slot
  let maskUnoccupiedSlots ← subwords8MaskAllSet pr matrix
  let column ← shl pr subwords8MaskLsb slot
  pure (matrix ||| maskReferencedSlot, ~~~column ||| maskUnoccupiedSlots)

def lruReferenceSlotSyncAnd (matrix mask : BitVec 64) : BitVec 64 := matrix &&& mask

def lruReferenceSlotSync (pr : Profile) (matrix : BitVec 64) (capacity slot : Nat) :
    Comp (BitVec 64) := do
  let (matrix, mask) ← lruReferenceSlotSyncOr pr matrix capacity slot
  pure (lruReferenceSlotSyncAnd matrix mask)

def lruReferenceSlotLocked (pr : Profile) (matrix : BitVec 64) (capacity slot : Nat) :
    Comp (BitVec 64) := do
  let row ← shl pr 0xff#64 (8 * slot)
  let matrix := matrix &&& ~~~row
  let maskUnoccupiedSlots ← subwords8MaskAllSet pr matrix
  let maskReferencedSlot ← referencedSlotMask pr capacity slot
  let column ← shl pr subwords8MaskLsb slot
  pure ((matrix ||| maskReferencedSlot) &&& (~~~column ||| maskUnoccupiedSlots))

def lruRemoveSlotLocked (pr : Profile) (matrix : BitVec 64) (slot : Nat) : Comp (BitVec 64) := do
  let row ← shl pr 0xff#64 (8 * slot)
  pure (matrix ||| row)

/-- A cache set of up to eight slots. The reference matrix has a row of eight bits
for each slot, the ordered slots have a nibble for each occupied slot. -/
structure SetAssocCacheSet (K T : Type) where
  lruReferenceMatrix : BitVec 64
  slots : Fin 8 → Option (K × T)
  orderedSlots : BitVec 32
  capacity : Nat

variable {K T : Type}

def SetAssocCacheSet.default : SetAssocCacheSet K T := ⟨0#64, fun _ => none, 0#32, 0⟩

namespace SetAssocCacheSet

def slot (s : SetAssocCacheSet K T) (i : Nat) : Comp (Option (K × T)) :=
  if h : i < 8 then .ok (s.slots ⟨i, h⟩) else panic .indexOutOfBounds

def setSlot (s : SetAssocCacheSet K T) (i : Nat) (entry : Option (K × T)) :
    Comp (SetAssocCacheSet K T) :=
  if h : i < 8 then .ok { s with slots := Function.update s.slots ⟨i, h⟩ entry }
  else panic .indexOutOfBounds

end SetAssocCacheSet

def unwrap {α : Type} (o : Option α) : Comp α :=
  match o with
  | some a => .ok a
  | none => panic .unwrapNone

def getOrderedSlot (pr : Profile) (orderedSlots : BitVec 32) (orderedSlotsIndex : Nat) :
    Comp (Option Nat) := do
  let shifted ← shr pr orderedSlots (4 * orderedSlotsIndex)
  let slot := (shifted &&& 0xf#32).toNat
  pure (if slot ≠ 0 then some (slot - 1) else none)

inductive Lookup where
  | found (i : Nat)
  | missing (i : Nat)
  deriving DecidableEq, Repr

section Ordered

variable [LinearOrder K]

/-- The binary search's loop. It takes fewer iterations than there are positions. -/
def lookupLoop (pr : Profile) (s : SetAssocCacheSet K T) (key : K) : Nat → Nat → Nat → Comp Lookup
  | 0, _, _ => panic .outOfFuel
  | fuel + 1, l, u =>
    if u < l then .ok (.missing l)
    else do
      let m := (l + u) / 2
      match ← getOrderedSlot pr s.orderedSlots m with
      | none => do
        debugAssert pr (u ≠ 0)
        let u ← subU32 pr m 1
        lookupLoop pr s key fuel l u
      | some i => do
        let entry ← s.slot i
        let entry ← unwrap entry
        match cmp key entry.1 with
        | .eq => .ok (.found m)
        | .lt => if m = 0 then .ok (.missing m) else lookupLoop pr s key fuel l (m - 1)
        | .gt => lookupLoop pr s key fuel (m + 1) u

def lookupOrderedSlotsIndex (pr : Profile) (s : SetAssocCacheSet K T) (key : K) : Comp Lookup :=
  if s.orderedSlots = 0#32 then .ok (.missing 0)
  else do
    let u ← subU32 pr s.capacity 1
    lookupLoop pr s key (s.capacity + 1) 0 u

end Ordered

def insertOrderedSlotsEntry (pr : Profile) (orderedSlots : BitVec 32) (insertionIndex slot : Nat) :
    Comp (BitVec 32) := do
  debugAssert pr (slot < maxAssociativity)
  debugAssert pr (insertionIndex < maxAssociativity)
  let high ← shr pr orderedSlots (4 * insertionIndex)
  let high ← shl pr (high <<< 4 ||| BitVec.ofNat 32 (slot + 1)) (4 * insertionIndex)
  let bit ← shl pr 1#32 (4 * insertionIndex)
  let low ← sub pr bit 1#32
  pure (high ||| (orderedSlots &&& low))

def removeOrderedSlotsEntry (pr : Profile) (orderedSlots : BitVec 32) (removalIndex : Nat) :
    Comp (BitVec 32) := do
  let high ← shr pr orderedSlots (4 * removalIndex)
  let high ← shl pr (high >>> 4) (4 * removalIndex)
  let bit ← shl pr 1#32 (4 * removalIndex)
  let low ← sub pr bit 1#32
  pure (high ||| (orderedSlots &&& low))

def findOrderedSlot (pr : Profile) (orderedSlots : BitVec 32) (slot : Nat) : Comp Nat := do
  let nibbles ← mul pr (BitVec.ofNat 32 (slot + 1)) subwords4MaskLsb
  findLeastSignificantZeroNibble pr (orderedSlots ^^^ nibbles)

def reverseLookupOrderedSlotsIndex (pr : Profile) (orderedSlots : BitVec 32) (slot : Nat) :
    Comp (Option Nat) := do
  debugAssert pr (slot < maxAssociativity)
  let i ← findOrderedSlot pr orderedSlots slot
  pure (if i ≠ maxAssociativity then some i else none)

section Operations

variable [LinearOrder K] (pr : Profile) (s : SetAssocCacheSet K T)

def lookupKey (key : K) : Comp (Option Nat) := do
  match ← lookupOrderedSlotsIndex pr s key with
  | .found i => do
    let slot ← getOrderedSlot pr s.orderedSlots i
    let slot ← unwrap slot
    pure (some slot)
  | .missing _ => pure none

/-- The slot for a new entry: the first unoccupied one, or the one least recently used. -/
def slotForInsert : Comp (Nat × Bool) := do
  let unoccupied := subwords8MaskAllSetLsb s.lruReferenceMatrix
  if unoccupied ≠ 0#64 then pure (unoccupied.ctz.toNat / 8, true)
  else do
    let slot ← findLeastSignificantZeroByte pr s.lruReferenceMatrix
    pure (slot, false)

/-- Free up the slot's position, and where the new entry's position is then. -/
def evictOrderedSlot (orderedSlots : BitVec 32) (slot insertionIndex : Nat)
    (slotIsUnoccupied : Bool) : Comp (BitVec 32 × Nat) :=
  if slotIsUnoccupied then .ok (orderedSlots, insertionIndex)
  else do
    let evicted ← reverseLookupOrderedSlotsIndex pr orderedSlots slot
    let evicted ← unwrap evicted
    let orderedSlots ← removeOrderedSlotsEntry pr orderedSlots evicted
    pure (orderedSlots, if evicted < insertionIndex then insertionIndex - 1 else insertionIndex)

def insert (key : K) (value : T) : Comp (SetAssocCacheSet K T × Nat × Option (K × T)) := do
  match ← lookupOrderedSlotsIndex pr s key with
  | .found i => do
    let slot ← getOrderedSlot pr s.orderedSlots i
    let slot ← unwrap slot
    let s ← s.setSlot slot (some (key, value))
    pure (s, slot, none)
  | .missing insertionIndex => do
    let (slot, slotIsUnoccupied) ← slotForInsert pr s
    debugAssert pr (slot < s.capacity)
    let matrix ← lruReferenceSlotLocked pr s.lruReferenceMatrix s.capacity slot
    let (orderedSlots, insertionIndex) ←
      evictOrderedSlot pr s.orderedSlots slot insertionIndex slotIsUnoccupied
    let orderedSlots ← insertOrderedSlotsEntry pr orderedSlots insertionIndex slot
    let evicted ← s.slot slot
    let s ← { s with lruReferenceMatrix := matrix, orderedSlots := orderedSlots }.setSlot slot
      (some (key, value))
    debugAssert pr (slotIsUnoccupied ≠ evicted.isSome)
    pure (s, slot, evicted)

def takeSlot (slot orderedSlotsIndex : Nat) : Comp (SetAssocCacheSet K T × Option (K × T)) := do
  let matrix ← lruRemoveSlotLocked pr s.lruReferenceMatrix slot
  let orderedSlots ← removeOrderedSlotsEntry pr s.orderedSlots orderedSlotsIndex
  let removed ← s.slot slot
  let s ← { s with lruReferenceMatrix := matrix, orderedSlots := orderedSlots }.setSlot slot none
  pure (s, removed)

def removeByKey (key : K) : Comp (SetAssocCacheSet K T × Option (K × T)) := do
  match ← lookupOrderedSlotsIndex pr s key with
  | .missing _ => pure (s, none)
  | .found i => do
    let slot ← getOrderedSlot pr s.orderedSlots i
    let slot ← unwrap slot
    takeSlot pr s slot i

/-- Take the entry out of a slot, unless the position says that there is none. -/
def removeAtPosition (slot orderedSlotsIndex : Nat) : Comp (SetAssocCacheSet K T × Option (K × T)) :=
  if orderedSlotsIndex = maxAssociativity then do
    let entry ← s.slot slot
    debugAssert pr entry.isNone
    pure (s, none)
  else do
    let (s, removed) ← takeSlot pr s slot orderedSlotsIndex
    debugAssert pr removed.isSome
    pure (s, removed)

def removeBySlot (slot : Nat) (orderedSlotsIndex : Option Nat) :
    Comp (SetAssocCacheSet K T × Option (K × T)) :=
  match orderedSlotsIndex with
  | some i => removeAtPosition pr s slot i
  | none => do
    let i ← findOrderedSlot pr s.orderedSlots slot
    removeAtPosition pr s slot i

def trailingBitsMask (count : Nat) : Comp (BitVec 64) := do
  debugAssert pr (count ≤ 64)
  let bit ← shl pr 1#64 (count % 64)
  let low ← sub pr bit 1#64
  pure (low - BitVec.ofNat 64 (count / 64))

/-- The slots marked for eviction so far: the unoccupied ones left, the matrix aged
by them, their columns, and a nibble for each slot. -/
structure Evicting where
  unoccupied : BitVec 64
  matrix : BitVec 64
  allEvicted : BitVec 64
  slotIsEvicted : BitVec 32

/-- The next slot to evict, an unoccupied one or the least recently used one. -/
def nextEvicted (st : Evicting) : Comp (Nat × BitVec 64) :=
  if st.unoccupied ≠ 0#64 then do
    let unoccupiedSlot := st.unoccupied.ctz.toNat
    let row ← shl pr 0xff#64 unoccupiedSlot
    pure (unoccupiedSlot / 8, st.unoccupied ^^^ row)
  else do
    let slot ← findLeastSignificantZeroByte pr st.matrix
    pure (slot, st.unoccupied)

/-- One iteration for each slot by which the capacity is to shrink. -/
def evictSlots : Nat → Evicting → Comp Evicting
  | 0, st => .ok st
  | n + 1, st => do
    let (evictedSlot, unoccupied) ← nextEvicted pr st
    debugAssert pr (evictedSlot < maxAssociativity)
    let bit ← shl pr 1#32 (4 * evictedSlot)
    let column ← shl pr subwords8MaskLsb evictedSlot
    let allEvicted := st.allEvicted ||| column
    let row ← shl pr 0xff#64 (8 * evictedSlot)
    evictSlots n
      ⟨unoccupied, (st.matrix &&& ~~~allEvicted) ||| row, allEvicted, st.slotIsEvicted ||| bit⟩

def evictedLeCounts (slotIsEvicted : BitVec 32) : Comp (BitVec 32) := do
  let counts ← add pr slotIsEvicted (slotIsEvicted <<< 4)
  let counts ← add pr counts (counts <<< 8)
  add pr counts (counts <<< 16)

def removeRow (matrix : BitVec 64) (slot : Nat) : Comp (BitVec 64) := do
  let high ← shr pr matrix (8 * slot)
  let high ← shl pr (high >>> 8) (8 * slot)
  let bit ← shl pr 1#64 (8 * slot)
  let low ← sub pr bit 1#64
  pure (high ||| (matrix &&& low))

def removeOrderedSlot (orderedSlots : BitVec 32) (slot : Nat) : Comp (BitVec 32) := do
  match ← reverseLookupOrderedSlotsIndex pr orderedSlots slot with
  | some i => removeOrderedSlotsEntry pr orderedSlots i
  | none => pure orderedSlots

/-- Move a slot's contents to its new position or drop them. The nibbles are those of the
slot. -/
def moveSlot (slot : Nat) (isEvicted leCount : BitVec 4) (s : SetAssocCacheSet K T) :
    Comp (SetAssocCacheSet K T) :=
  if isEvicted = 0#4 then do
    let newSlot ← subU32 pr slot leCount.toNat
    let entry ← s.slot slot
    let s ← s.setSlot slot none
    s.setSlot newSlot entry
  else do
    let s ← s.setSlot slot none
    let orderedSlots ← removeOrderedSlot pr s.orderedSlots slot
    let row ← subU32 pr (slot + 1) leCount.toNat
    let matrix ← removeRow pr s.lruReferenceMatrix row
    pure { s with lruReferenceMatrix := matrix, orderedSlots := orderedSlots }

/-- The loop over the last so many slots. -/
def moveSlots : Nat → BitVec 32 → BitVec 32 → SetAssocCacheSet K T → Comp (SetAssocCacheSet K T)
  | 0, _, _, s => .ok s
  | n + 1, slotIsEvicted, leCounts, s => do
    let s ← moveSlot pr (maxAssociativity - (n + 1)) (slotIsEvicted.setWidth 4) (leCounts.setWidth 4) s
    moveSlots n (slotIsEvicted >>> 4) (leCounts >>> 4) s

def orderedLeCounts (orderedSlots leCounts : BitVec 32) : Nat → BitVec 32 → Comp (BitVec 32)
  | 0, acc => .ok acc
  | i + 1, acc => do
    let slot ← getOrderedSlot pr orderedSlots i
    let slot ← unwrap slot
    let count ← shr pr leCounts (4 * slot)
    orderedLeCounts orderedSlots leCounts i (acc <<< 4 ||| (count &&& 0xf#32))

def debugAssertTrailing (matrix : BitVec 64) (newCapacity : Nat) : Comp Unit :=
  match pr with
  | .debug => do
    let mask ← trailingBitsMask .debug (8 * newCapacity)
    debugAssert .debug (matrix &&& ~~~mask = 0#64)
  | .release => .ok ()

def shrinkCapacity (newCapacity : Nat) : Comp (SetAssocCacheSet K T) := do
  debugAssert pr (newCapacity ≤ maxAssociativity)
  debugAssert pr (newCapacity < s.capacity)
  let unoccupied ← subwords8MaskAllSet pr s.lruReferenceMatrix
  let st ← evictSlots pr (s.capacity - newCapacity) ⟨unoccupied, s.lruReferenceMatrix, 0#64, 0#32⟩
  let matrix := subwords8Compress st.matrix (~~~st.allEvicted) ||| st.unoccupied
  let leCounts ← evictedLeCounts pr st.slotIsEvicted
  let s ← moveSlots pr maxAssociativity st.slotIsEvicted leCounts { s with lruReferenceMatrix := matrix }
  debugAssertTrailing pr s.lruReferenceMatrix newCapacity
  let i ← findLeastSignificantZeroNibble pr s.orderedSlots
  let counts ← orderedLeCounts pr s.orderedSlots leCounts i 0#32
  let orderedSlots ← sub pr s.orderedSlots counts
  pure { s with orderedSlots := orderedSlots, capacity := newCapacity }

def growCapacity (newCapacity : Nat) : Comp (SetAssocCacheSet K T) := do
  debugAssert pr (newCapacity ≤ maxAssociativity)
  debugAssert pr (s.capacity < newCapacity)
  let addedCapacity ← subU32 pr newCapacity s.capacity
  let added ← trailingBitsMask pr (8 * addedCapacity)
  let added ← shl pr added (8 * s.capacity)
  pure { s with lruReferenceMatrix := s.lruReferenceMatrix ||| added, capacity := newCapacity }

def pruneAll : Comp (SetAssocCacheSet K T) := do
  let matrix ← trailingBitsMask pr (8 * s.capacity)
  pure { s with slots := fun _ => none, lruReferenceMatrix := matrix, orderedSlots := 0#32 }

/-- The condition has a state of its own, it's invoked on the entries in key order. -/
def pruneCondLoop {S : Type} (cond : S → K → T → Bool × S) :
    Nat → SetAssocCacheSet K T → S → Nat → Comp (SetAssocCacheSet K T × S)
  | 0, _, _, _ => panic .outOfFuel
  | fuel + 1, s, st, i =>
    if maxAssociativity ≤ i then .ok (s, st)
    else do
      match ← getOrderedSlot pr s.orderedSlots i with
      | none => pure (s, st)
      | some slot => do
        let entry ← s.slot slot
        let entry ← unwrap entry
        let (evict, st) := cond st entry.1 entry.2
        if evict then do
          let (s, _) ← removeBySlot pr s slot (some i)
          pruneCondLoop cond fuel s st i
        else pruneCondLoop cond fuel s st (i + 1)

def pruneCond {S : Type} (cond : S → K → T → Bool × S) (st : S) :
    Comp (SetAssocCacheSet K T × S) :=
  pruneCondLoop pr cond (2 * maxAssociativity + 1) s st 0

def getSlot (slot : Nat) : Comp (SetAssocCacheSet K T × Option (K × T)) := do
  match ← s.slot slot with
  | none => pure (s, none)
  | some entry => do
    let matrix ← lruReferenceSlotSync pr s.lruReferenceMatrix s.capacity slot
    pure ({ s with lruReferenceMatrix := matrix }, some entry)

/-- The caller may write to the value through the reference returned. -/
def getSlotMut (slot : Nat) (write : T → T) :
    Comp (SetAssocCacheSet K T × Option (K × T)) := do
  match ← s.slot slot with
  | none => pure (s, none)
  | some entry => do
    let matrix ← lruReferenceSlotLocked pr s.lruReferenceMatrix s.capacity slot
    let s ← { s with lruReferenceMatrix := matrix }.setSlot slot (some (entry.1, write entry.2))
    pure (s, some entry)

end Operations

end CocoonFs.CacheSet
