import CocoonFs.Bitmap
import CocoonFs.Extents

namespace CocoonFs.SparseBitmap

open Checked Extents Bitmap

/-- What a vector of entries gets from the memory allocator when it has to grow:
nothing or some capacity, not less than asked for, with isize::MAX bytes at most. -/
structure Allocator where
  grow : Nat → Nat → Option Nat
  le_grow : ∀ {capacity required c : Nat}, grow capacity required = some c → required ≤ c
  grow_lt : ∀ {capacity required c : Nat}, grow capacity required = some c → c < 2 ^ 59

/-- Vec::try_reserve_exact -/
def Allocator.tryReserveExact (al : Allocator) (len capacity additional : Nat) : Option Nat :=
  if additional ≤ capacity - len then some capacity else al.grow capacity (len + additional)

/-- Vec::insert makes room for one more entry if it's at its capacity. -/
def Allocator.reserveForInsert (al : Allocator) (len capacity : Nat) : Comp Nat :=
  if len < capacity then
    .ok capacity
  else
    match al.grow capacity (len + 1) with
    | some c => .ok c
    | none => panic .allocFailure

structure SparseAllocBitmap where
  entries : List Entry
  capacity : Nat
  removeRollbackReserveCapacity : Nat
  deriving DecidableEq, Repr

def SparseAllocBitmap.new : SparseAllocBitmap := ⟨[], 0, 0⟩

/-- The result of an operation comes with the bitmap as the operation left it,
errors included. -/
abbrev Result (α : Type) := Except NvFsError α × SparseAllocBitmap

/-- The binary search by a word's index: the position of the word or else the one
to insert it at. -/
def findEntryPosition (entries : List Entry) (bitmapWordIndex : Nat) : Except Nat Nat :=
  let i := (entries.takeWhile (fun e => e.bitmapWordIndex < bitmapWordIndex)).length
  match entries[i]? with
  | some e => if e.bitmapWordIndex = bitmapWordIndex then .ok i else .error i
  | none => .error i

/-- The range's first word and the number of words it overlaps with. -/
def rangeWords (pr : Profile) (range : BlockRange) : Comp (Nat × Nat) := do
  let count ← range.blockCount
  let count ← addU64 pr count (range.b % 64)
  let words := count / 64
  pure (range.b / 64, if words * 64 ≠ count then words + 1 else words)

/-- Where to start with a range: at the hint, which gets checked with debug
assertions, or else at the first entry not before the range. -/
def firstEntryIndex (pr : Profile) (entries : List Entry) (bitmapWordIndex : Nat) :
    Option Nat → Comp Nat
  | some hint => do
    debugAssert pr (hint = entries.length ∨
      entries[hint]?.any (fun e => bitmapWordIndex ≤ e.bitmapWordIndex))
    debugAssert pr (hint = 0 ∨
      entries[hint - 1]?.any (fun e => e.bitmapWordIndex < bitmapWordIndex))
    pure hint
  | none =>
    match findEntryPosition entries bitmapWordIndex with
    | .ok i => pure i
    | .error i => pure i

/-- How many entries follow up to one that cannot go with the current batch, if
there is such an entry. -/
def findBatchEnd (pr : Profile) (bitmapWordIndex bitmapWordsCount : Nat) :
    List Entry → Comp (Option Nat)
  | [] => pure none
  | e :: es => do
    if e.bitmapWord ≠ 0 then
      pure (some 0)
    else
      let distance ← subU64 pr e.bitmapWordIndex bitmapWordIndex
      if distance ≥ bitmapWordsCount then
        pure (some 0)
      else
        let i ← findBatchEnd pr bitmapWordIndex bitmapWordsCount es
        pure (i.map (· + 1))

/-- The loop of prune_unused_in_range, from the current entry on. Every iteration
goes past an entry at least. -/
def pruneFrom (pr : Profile) (prepareForRollback : Bool) :
    Nat → Nat → Nat → Nat → List Entry → Comp (List Entry × Nat)
  | 0, reserve, _, _, es => pure (es, reserve)
  | _ + 1, reserve, _, _, [] => pure ([], reserve)
  | fuel + 1, reserve, bitmapWordIndex, bitmapWordsCount, e :: es => do
    if bitmapWordsCount = 0 then
      pure (e :: es, reserve)
    else
      debugAssert pr (bitmapWordIndex ≤ e.bitmapWordIndex)
      let skipped ← subU64 pr e.bitmapWordIndex bitmapWordIndex
      let bitmapWordsCount := bitmapWordsCount - skipped
      if bitmapWordsCount = 0 then
        pure (e :: es, reserve)
      else if e.bitmapWord = 0 then
        let batchEnd ← findBatchEnd pr e.bitmapWordIndex bitmapWordsCount es
        let batchLen := batchEnd.getD 0 + 1
        let last ← index (e :: es) (batchLen - 1)
        let words ← subU64 pr (last.bitmapWordIndex + 1) e.bitmapWordIndex
        let bitmapWordsCount ← subU64 pr bitmapWordsCount words
        let reserve ← addU64 pr reserve (if prepareForRollback then batchLen else 0)
        pruneFrom pr prepareForRollback fuel reserve (last.bitmapWordIndex + 1) bitmapWordsCount
          (es.drop (batchLen - 1))
      else
        let (es, reserve) ← pruneFrom pr prepareForRollback fuel reserve (e.bitmapWordIndex + 1)
          (bitmapWordsCount - 1) es
        pure (e :: es, reserve)

/-- The position in the current word and the number of blocks left once the words
without an entry before the current one have been skipped. -/
def skipWords (pr : Profile) (e : Entry) (bitmapWordIndex count offset : Nat) :
    Comp (Nat × Nat) := do
  if e.bitmapWordIndex ≠ bitmapWordIndex then
    let words ← subU64 pr e.bitmapWordIndex bitmapWordIndex
    let words ← subU64 pr words 1
    let bits ← shlU64 pr words 6
    let bits ← addU64 pr bits (64 - offset)
    pure (count - min bits count, 0)
  else
    pure (count, offset)

def bitsMask (bits offset : Nat) : BitmapWord := trailingBitsMask bits <<< offset

/-- The loop of set_in_range, from the current entry on. -/
def setFrom (pr : Profile) (value : Bool) : Nat → Nat → Nat → List Entry → Comp (List Entry)
  | _, _, _, [] => pure []
  | bitmapWordIndex, count, offset, e :: es => do
    if count = 0 then
      pure (e :: es)
    else
      let (count, offset) ← skipWords pr e bitmapWordIndex count offset
      if count = 0 then
        pure (e :: es)
      else
        let bits := min count (64 - offset)
        let mask := bitsMask bits offset
        let word := e.bitmapWord &&& ~~~mask ||| (if value then mask else 0)
        let es ← setFrom pr value (e.bitmapWordIndex + 1) (count - bits) 0 es
        pure (⟨e.bitmapWordIndex, word⟩ :: es)

def missingEntries (bitmapWordIndex count : Nat) : List Entry :=
  (List.range' bitmapWordIndex count).map (fun i => ⟨i, 0⟩)

/-- The loop of populate_missing_in_range, from the next entry on: whether there has
been enough memory, the entries and their capacity. -/
def populateFrom (pr : Profile) (al : Allocator) (reserve : Nat) :
    Nat → Nat → Nat → Nat → List Entry → Comp (Bool × List Entry × Nat)
  | len, capacity, bitmapWordIndex, bitmapWordsCount, [] => do
    if bitmapWordsCount = 0 then
      pure (true, [], capacity)
    else
      let additional ← addU64 pr bitmapWordsCount reserve
      match al.tryReserveExact len capacity additional with
      | none => pure (false, [], capacity)
      | some capacity =>
        if len + bitmapWordsCount < 2 ^ 64 then
          pure (true, missingEntries bitmapWordIndex bitmapWordsCount, capacity)
        else
          pure (false, [], capacity)
  | len, capacity, bitmapWordIndex, bitmapWordsCount, e :: es => do
    if bitmapWordsCount = 0 then
      pure (true, e :: es, capacity)
    else if e.bitmapWordIndex ≠ bitmapWordIndex then
      let words ← subU64 pr e.bitmapWordIndex bitmapWordIndex
      let missing := min words bitmapWordsCount
      let additional ← addU64 pr missing reserve
      match al.tryReserveExact len capacity additional with
      | none => pure (false, e :: es, capacity)
      | some capacity => do
        debugAssert pr (bitmapWordsCount - missing = 0 ∨
          bitmapWordIndex + missing = e.bitmapWordIndex)
        -- The next entry is gone past, but the word's index isn't incremented.
        let (enough, es, capacity) ← populateFrom pr al reserve (len + missing) capacity
          (bitmapWordIndex + missing) (bitmapWordsCount - missing - 1) es
        pure (enough, missingEntries bitmapWordIndex missing ++ e :: es, capacity)
    else
      let (enough, es, capacity) ← populateFrom pr al reserve len capacity
        (bitmapWordIndex + 1) (bitmapWordsCount - 1) es
      pure (enough, e :: es, capacity)

/-- The loop of repopulate_set_range_for_rollback over the range's words, with the
entries from the current one on: whether the reserve has been enough, the entries,
their capacity and what's left of the reserve. -/
def repopulateFrom (al : Allocator) (a : AllocBitmap) (value : Bool) :
    Nat → Nat → Nat → Nat → Nat → Nat → Nat → List Entry → Comp (Bool × List Entry × Nat × Nat)
  | 0, _, capacity, reserve, _, _, _, es => pure (true, es, capacity, reserve)
  | words + 1, len, capacity, reserve, bitmapWordIndex, count, offset, es => do
    let bits := min count (64 - offset)
    let mask := bitsMask bits offset
    match es.head?.filter (fun e => e.bitmapWordIndex = bitmapWordIndex) with
    | some e =>
      let (enough, es, capacity, reserve) ← repopulateFrom al a value words len capacity reserve
        (bitmapWordIndex + 1) (count - bits) 0 es.tail
      pure (enough, ⟨bitmapWordIndex, e.bitmapWord ||| mask⟩ :: es, capacity, reserve)
    | none =>
      if a.word bitmapWordIndex &&& mask = (if value then mask else 0) then
        repopulateFrom al a value words len capacity reserve (bitmapWordIndex + 1) (count - bits)
          0 es
      else if reserve = 0 then
        pure (false, es, capacity, reserve)
      else
        let capacity ← al.reserveForInsert len capacity
        let (enough, es, capacity, reserve) ← repopulateFrom al a value words (len + 1) capacity
          (reserve - 1) (bitmapWordIndex + 1) (count - bits) 0 es
        pure (enough, ⟨bitmapWordIndex, mask⟩ :: es, capacity, reserve)

namespace SparseAllocBitmap

variable (pr : Profile) (al : Allocator) (s : SparseAllocBitmap)

def pruneUnusedInRange (range : BlockRange) (firstEntryIndexHint : Option Nat)
    (prepareForRollback : Bool) : Comp SparseAllocBitmap := do
  let (bitmapWordIndex, bitmapWordsCount) ← rangeWords pr range
  let i ← firstEntryIndex pr s.entries bitmapWordIndex firstEntryIndexHint
  let (es, reserve) ← pruneFrom pr prepareForRollback (s.entries.length - i)
    s.removeRollbackReserveCapacity bitmapWordIndex bitmapWordsCount (s.entries.drop i)
  pure { s with entries := s.entries.take i ++ es, removeRollbackReserveCapacity := reserve }

def setInRange (range : BlockRange) (firstEntryIndexHint : Option Nat) (value : Bool) :
    Comp (Nat × SparseAllocBitmap) := do
  let count ← range.blockCount
  let i ← firstEntryIndex pr s.entries (range.b / 64) firstEntryIndexHint
  if i > s.entries.length ∧ count ≠ 0 then
    panic .indexOutOfBounds
  else
    let es ← setFrom pr value (range.b / 64) count (range.b % 64) (s.entries.drop i)
    pure (i, { s with entries := s.entries.take i ++ es })

def populateMissingInRange (range : BlockRange) : Comp (Result Nat) := do
  let (bitmapWordIndex, bitmapWordsCount) ← rangeWords pr range
  let (first, next, bitmapWordIndex, bitmapWordsCount) :=
    match findEntryPosition s.entries bitmapWordIndex with
    | .ok i => (i, i + 1, bitmapWordIndex + 1, bitmapWordsCount - 1)
    | .error i => (i, i, bitmapWordIndex, bitmapWordsCount)
  let (enough, es, capacity) ← populateFrom pr al s.removeRollbackReserveCapacity s.entries.length
    s.capacity bitmapWordIndex bitmapWordsCount (s.entries.drop next)
  let s := { s with entries := s.entries.take next ++ es, capacity := capacity }
  if enough then
    pure (.ok first, s)
  else
    let s ← pruneUnusedInRange pr s range (some first) false
    pure (.error .memoryAllocationFailure, s)

/-- An image's extents end well before the index of the word after the last one
can overflow when it's shifted. -/
def repopulateSetRangeForRollback (range : BlockRange) (a : AllocBitmap) (value : Bool) :
    Comp (Result Unit) := do
  if s.capacity - s.entries.length < s.removeRollbackReserveCapacity then
    pure (.error .internal, s)
  else
    let count ← range.blockCount
    let i ← firstEntryIndex pr s.entries (range.b / 64) none
    let (enough, es, capacity, reserve) ← repopulateFrom al a value
      ((range.e + 63) / 64 - range.b / 64) s.entries.length s.capacity
      s.removeRollbackReserveCapacity (range.b / 64) count (range.b % 64) (s.entries.drop i)
    let s := ⟨s.entries.take i ++ es, capacity, reserve⟩
    pure (if enough then .ok () else .error .internal, s)

def addExtent (extent : BlockRange) : Comp (Result Unit) := do
  let (r, s) ← populateMissingInRange pr al s extent
  match r with
  | .error e => pure (.error e, s)
  | .ok first =>
    let (_, s) ← setInRange pr s extent (some first) true
    pure (.ok (), s)

def removeExtentWith (prepareForRollback : Bool) (extent : BlockRange) :
    Comp SparseAllocBitmap := do
  let (first, s) ← setInRange pr s extent none false
  pruneUnusedInRange pr s extent (some first) prepareForRollback

def removeExtent (extent : BlockRange) : Comp SparseAllocBitmap :=
  removeExtentWith pr s true extent

def rollbackRemoveExtent (extent : BlockRange) (a : AllocBitmap) (value : Bool) :
    Comp (Result Unit) :=
  repopulateSetRangeForRollback pr al s extent a value

def removeExtents (extents : List BlockRange) : Comp SparseAllocBitmap :=
  extents.foldlM (fun s extent => removeExtent pr s extent) s

def rollbackRemoveExtents (a : AllocBitmap) (value : Bool) :
    SparseAllocBitmap → List BlockRange → Comp (Result Unit)
  | s, [] => pure (.ok (), s)
  | s, extent :: extents => do
    let (r, s) ← rollbackRemoveExtent pr al s extent a value
    match r with
    | .error e => pure (.error e, s)
    | .ok () => rollbackRemoveExtents a value s extents

def pruneExtents : Option Nat → SparseAllocBitmap → List BlockRange → Comp SparseAllocBitmap
  | _, s, [] => pure s
  | hint, s, extent :: extents => do
    let s ← pruneUnusedInRange pr s extent hint false
    pruneExtents none s extents

def setExtents : Option Nat → SparseAllocBitmap → List BlockRange → Comp SparseAllocBitmap
  | _, s, [] => pure s
  | hint, s, extent :: extents => do
    let (_, s) ← setInRange pr s extent hint true
    setExtents none s extents

/-- The first loop of add_extents, with the extents populated so far: the hint for
the first extent. -/
def populateExtents : Option Nat → Bool → List BlockRange → SparseAllocBitmap →
    List BlockRange → Comp (Result (Option Nat))
  | hint, reset, _, s, [] => pure (.ok (if reset then none else hint), s)
  | hint, reset, done, s, extent :: extents => do
    let (r, s) ← populateMissingInRange pr al s extent
    match r with
    | .error e => do
      let s ← pruneExtents pr hint s done
      pure (.error e, s)
    | .ok first =>
      match hint with
      | none => populateExtents (some first) reset (done ++ [extent]) s extents
      | some hint => populateExtents (some hint) true (done ++ [extent]) s extents

def addExtents (extents : List BlockRange) : Comp (Result Unit) := do
  let (r, s) ← populateExtents pr al none false [] s extents
  match r with
  | .error e => pure (.error e, s)
  | .ok hint =>
    let s ← setExtents pr hint s extents
    pure (.ok (), s)

def blockRange (b blockLog2 : Nat) : Comp BlockRange := do
  let count ← shlU64 pr 1 blockLog2
  let e ← checkedAdd b count
  pure ⟨b, e⟩

def addBlock (blockLog2 b : Nat) : Comp (Result Unit) := do
  let range ← blockRange pr b blockLog2
  addExtent pr al s range

def removeBlockWith (prepareForRollback : Bool) (blockLog2 b : Nat) : Comp SparseAllocBitmap := do
  let range ← blockRange pr b blockLog2
  removeExtentWith pr s prepareForRollback range

def rollbackRemoveBlock (a : AllocBitmap) (value : Bool) (blockLog2 b : Nat) :
    Comp (Result Unit) := do
  let range ← blockRange pr b blockLog2
  repopulateSetRangeForRollback pr al s range a value

def removeBlocksWith (prepareForRollback : Bool) (blockLog2 : Nat) (blocks : List Nat) :
    Comp SparseAllocBitmap :=
  blocks.foldlM (fun s b => removeBlockWith pr s prepareForRollback blockLog2 b) s

/-- The loop of add_blocks, with the blocks added so far. -/
def addBlocksFrom (blockLog2 : Nat) :
    List Nat → SparseAllocBitmap → List Nat → Comp (Result Unit)
  | _, s, [] => pure (.ok (), s)
  | done, s, b :: blocks => do
    let (r, s) ← addBlock pr al s blockLog2 b
    match r with
    | .error e => do
      let s ← removeBlocksWith pr s false blockLog2 done
      pure (.error e, s)
    | .ok () => addBlocksFrom blockLog2 (done ++ [b]) s blocks

def rollbackRemoveBlocks (a : AllocBitmap) (value : Bool) (blockLog2 : Nat) :
    SparseAllocBitmap → List Nat → Comp (Result Unit)
  | s, [] => pure (.ok (), s)
  | s, b :: blocks => do
    let (r, s) ← rollbackRemoveBlock pr al s a value blockLog2 b
    match r with
    | .error e => pure (.error e, s)
    | .ok () => rollbackRemoveBlocks a value blockLog2 s blocks

end SparseAllocBitmap

/-- The operations on a sparse bitmap, those resetting the reserve apart. -/
inductive Op where
  | addBlock (blockLog2 b : Nat)
  | addBlocks (blockLog2 : Nat) (blocks : List Nat)
  | addExtent (extent : BlockRange)
  | addExtents (extents : List BlockRange)
  | removeBlock (blockLog2 b : Nat)
  | removeBlocks (blockLog2 : Nat) (blocks : List Nat)
  | removeExtent (extent : BlockRange)
  | removeExtents (extents : List BlockRange)
  | rollbackRemoveBlock (a : AllocBitmap) (value : Bool) (blockLog2 b : Nat)
  | rollbackRemoveBlocks (a : AllocBitmap) (value : Bool) (blockLog2 : Nat) (blocks : List Nat)
  | rollbackRemoveExtent (a : AllocBitmap) (value : Bool) (extent : BlockRange)
  | rollbackRemoveExtents (a : AllocBitmap) (value : Bool) (extents : List BlockRange)

def Op.apply (pr : Profile) (al : Allocator) (s : SparseAllocBitmap) :
    Op → Comp SparseAllocBitmap
  | .addBlock blockLog2 b => Prod.snd <$> SparseAllocBitmap.addBlock pr al s blockLog2 b
  | .addBlocks blockLog2 blocks =>
    Prod.snd <$> SparseAllocBitmap.addBlocksFrom pr al blockLog2 [] s blocks
  | .addExtent extent => Prod.snd <$> SparseAllocBitmap.addExtent pr al s extent
  | .addExtents extents => Prod.snd <$> SparseAllocBitmap.addExtents pr al s extents
  | .removeBlock blockLog2 b => SparseAllocBitmap.removeBlockWith pr s true blockLog2 b
  | .removeBlocks blockLog2 blocks => SparseAllocBitmap.removeBlocksWith pr s true blockLog2 blocks
  | .removeExtent extent => SparseAllocBitmap.removeExtent pr s extent
  | .removeExtents extents => SparseAllocBitmap.removeExtents pr s extents
  | .rollbackRemoveBlock a value blockLog2 b =>
    Prod.snd <$> SparseAllocBitmap.rollbackRemoveBlock pr al s a value blockLog2 b
  | .rollbackRemoveBlocks a value blockLog2 blocks =>
    Prod.snd <$> SparseAllocBitmap.rollbackRemoveBlocks pr al a value blockLog2 s blocks
  | .rollbackRemoveExtent a value extent =>
    Prod.snd <$> SparseAllocBitmap.rollbackRemoveExtent pr al s extent a value
  | .rollbackRemoveExtents a value extents =>
    Prod.snd <$> SparseAllocBitmap.rollbackRemoveExtents pr al a value s extents

end CocoonFs.SparseBitmap
