import CocoonFs.Checked
import CocoonFs.LevelTree

namespace CocoonFs.IndexNodes

open Checked LevelTree List

def noInode : Nat := 0

/-- The special inodes with an entry in the index: the authentication tree,
the allocation bitmap and the index root. -/
def specialInodes : List Nat := [1, 2, 3]

def specialInodeMax : Nat := 15

def maxExtentAllocationBlocks : Nat := 64

/-- InodeIndexTreeLayout -/
structure TreeLayout where
  encodedInternalNodeLen : Nat
  maxInternalNodeEntries : Nat
  minInternalNodeEntries : Nat
  encodedLeafNodeLen : Nat
  maxLeafNodeEntries : Nat
  minLeafNodeEntries : Nat
  deriving DecidableEq, Repr

/-- The encrypted blocks' layouts enter with their sizes and payload lengths. -/
def TreeLayout.new (pr : Profile) (leafAllocationBlocksLog2 internalAllocationBlocksLog2
    leafMaxPayloadLen internalMaxPayloadLen : Nat) : Comp TreeLayout := do
  let nodeAllocationBlocks ←
    shlU64 pr 1 (max leafAllocationBlocksLog2 internalAllocationBlocksLog2)
  if nodeAllocationBlocks > maxExtentAllocationBlocks then
    formatErr .invalidIndexConfig
  else
    let internalLen ← subU64 pr internalMaxPayloadLen 4
    let internalLen ← subU64 pr internalLen 8
    let maxInternal := internalLen / 16
    if maxInternal < 3 then
      formatErr .invalidIndexConfig
    else
      let minInternal := maxInternal / 2 - (1 - maxInternal % 2)
      debugAssert pr (minInternal ≥ 1)
      debugAssert pr (2 * minInternal < maxInternal)
      debugAssert pr ((maxInternal - 1) / 2 ≥ minInternal)
      let leafLen ← subU64 pr leafMaxPayloadLen 4
      let leafLen ← subU64 pr leafLen 8
      let maxLeaf := leafLen / 20
      let minLeaf := divCeil maxLeaf 2
      if minLeaf < 3 then
        formatErr .invalidIndexConfig
      else
        .ok
          { encodedInternalNodeLen := 4 + 8 + maxInternal * 16
            maxInternalNodeEntries := maxInternal
            minInternalNodeEntries := minInternal
            encodedLeafNodeLen := 4 + 8 + maxLeaf * 20
            maxLeafNodeEntries := maxLeaf
            minLeafNodeEntries := minLeaf }

structure TreeLayout.Balanced (lay : TreeLayout) : Prop where
  one_le_minInternal : 1 ≤ lay.minInternalNodeEntries
  minInternal_lt : 2 * lay.minInternalNodeEntries < lay.maxInternalNodeEntries
  maxInternal_le : lay.maxInternalNodeEntries ≤ 2 * lay.minInternalNodeEntries + 2
  three_le_minLeaf : 3 ≤ lay.minLeafNodeEntries
  minLeaf_le : 2 * lay.minLeafNodeEntries ≤ lay.maxLeafNodeEntries + 1
  maxLeaf_le : lay.maxLeafNodeEntries ≤ 2 * lay.minLeafNodeEntries

theorem balanced_of_new {pr : Profile} {leafLog2 internalLog2 leafLen internalLen : Nat}
    {lay : TreeLayout} (h : TreeLayout.new pr leafLog2 internalLog2 leafLen internalLen = .ok lay) :
    lay.Balanced := by
  simp only [TreeLayout.new] at h
  obtain ⟨blocks, -, h⟩ := bind_eq_ok h
  split at h
  · cases h
  · obtain ⟨a, -, h⟩ := bind_eq_ok h
    obtain ⟨b, -, h⟩ := bind_eq_ok h
    split at h
    · cases h
    next hmax =>
      obtain ⟨-, -, h⟩ := bind_eq_ok h
      obtain ⟨-, -, h⟩ := bind_eq_ok h
      obtain ⟨-, -, h⟩ := bind_eq_ok h
      obtain ⟨c, -, h⟩ := bind_eq_ok h
      obtain ⟨d, -, h⟩ := bind_eq_ok h
      split at h
      · cases h
      next hmin =>
        cases h
        simp only [divCeil] at hmin
        constructor <;> simp only [divCeil] <;> omega

structure InodeEntry where
  flags : BitVec 32
  extentPtr : BitVec 64
  deriving DecidableEq, Repr

/-- The result of a lookup: the key's index, or where it would be inserted. -/
inductive Lookup where
  | found (i : Nat)
  | absent (i : Nat)
  deriving DecidableEq, Repr

def lookupKeyLoop (key : Nat) (keys : List Nat) : Nat → Nat → Nat → Comp Lookup
  | 0, _, _ => err .internal
  | fuel + 1, l, u =>
    if l ≤ u then
      let m := (l + u) / 2
      match keys[m]? with
      | none => err .internal
      | some entry =>
        if key = entry then
          .ok (.found m)
        else if key < entry then
          if m = 0 then .ok (.absent m) else lookupKeyLoop key keys fuel l (m - 1)
        else
          lookupKeyLoop key keys fuel (m + 1) u
    else
      .ok (.absent l)

def lookupKey (key : Nat) (keys : List Nat) : Comp Lookup :=
  if keys.length = 0 then
    .ok (.absent 0)
  else
    lookupKeyLoop key keys (keys.length + 1) 0 (keys.length - 1)

theorem lookupKeyLoop_absent {key p : Nat} {keys : List Nat}
    (hlt : ∀ i x, keys[i]? = some x → i < p → x < key)
    (hgt : ∀ i x, keys[i]? = some x → p ≤ i → key < x) (fuel l u : Nat) (hl : l ≤ p)
    (hu : p ≤ u + 1) (hlen : u < keys.length) (hfuel : u + 1 - l < fuel) :
    lookupKeyLoop key keys fuel l u = .ok (.absent p) := by
  induction fuel generalizing l u with
  | zero => omega
  | succ fuel ih =>
    rw [lookupKeyLoop]
    split
    next hlu =>
      have hm : (l + u) / 2 < keys.length := by omega
      simp only [getElem?_eq_getElem hm]
      by_cases hp : (l + u) / 2 < p
      · have hx := hlt _ _ (getElem?_eq_getElem hm) hp
        rw [if_neg hx.ne', if_neg hx.not_gt]
        apply ih <;> omega
      · have hx := hgt _ _ (getElem?_eq_getElem hm) (not_lt.mp hp)
        rw [if_neg hx.ne, if_pos hx]
        split
        next hzero =>
          have hp0 : p = 0 := by omega
          rw [hzero, hp0]
        next hzero => apply ih <;> omega
    next hlu =>
      have hlp : l = p := by omega
      rw [hlp]

theorem lookupKeyLoop_found {key p : Nat} {keys : List Nat}
    (hlt : ∀ i x, keys[i]? = some x → i < p → x < key) (hp : keys[p]? = some key)
    (hgt : ∀ i x, keys[i]? = some x → p < i → key < x) (fuel l u : Nat) (hl : l ≤ p)
    (hu : p ≤ u) (hlen : u < keys.length) (hfuel : u + 1 - l < fuel) :
    lookupKeyLoop key keys fuel l u = .ok (.found p) := by
  induction fuel generalizing l u with
  | zero => omega
  | succ fuel ih =>
    have hm : (l + u) / 2 < keys.length := by omega
    rw [lookupKeyLoop, if_pos (hl.trans hu)]
    simp only [getElem?_eq_getElem hm]
    rcases Nat.lt_trichotomy ((l + u) / 2) p with hmp | hmp | hmp
    · have hx := hlt _ _ (getElem?_eq_getElem hm) hmp
      rw [if_neg hx.ne', if_neg hx.not_gt]
      apply ih <;> omega
    · have hx : keys[(l + u) / 2] = key := by
        apply Option.some.inj
        rw [← getElem?_eq_getElem hm, hmp, hp]
      rw [if_pos hx.symm, hmp]
    · have hx := hgt _ _ (getElem?_eq_getElem hm) hmp
      rw [if_neg hx.ne, if_pos hx, if_neg (by omega)]
      apply ih <;> omega

theorem lookupKey_absent {key : Nat} {A B : List Nat} (hA : ∀ a ∈ A, a < key)
    (hB : ∀ b ∈ B, key < b) : lookupKey key (A ++ B) = .ok (.absent A.length) := by
  rw [lookupKey]
  split
  next h =>
    have hA0 : A.length = 0 := by
      rw [length_append] at h
      omega
    rw [hA0]
  next h =>
    apply lookupKeyLoop_absent
    · intro i x hx hi
      rw [getElem?_append_left hi] at hx
      exact hA x (mem_of_getElem? hx)
    · intro i x hx hi
      rw [getElem?_append_right hi] at hx
      exact hB x (mem_of_getElem? hx)
    · exact Nat.zero_le _
    all_goals rw [length_append] at h ⊢; omega

theorem lookupKey_found {key : Nat} {A B : List Nat} (hA : ∀ a ∈ A, a < key)
    (hB : ∀ b ∈ B, key < b) : lookupKey key (A ++ key :: B) = .ok (.found A.length) := by
  have hlen : (A ++ key :: B).length = A.length + B.length + 1 := by
    rw [length_append, length_cons, Nat.add_assoc]
  rw [lookupKey, if_neg (by omega)]
  apply lookupKeyLoop_found
  · intro i x hx hi
    rw [getElem?_append_left hi] at hx
    exact hA x (mem_of_getElem? hx)
  · rw [getElem?_append_right le_rfl, Nat.sub_self, getElem?_cons_zero]
  · intro i x hx hi
    rw [getElem?_append_right hi.le] at hx
    obtain ⟨j, hj⟩ := Nat.exists_eq_add_of_lt hi
    rw [hj, show A.length + j + 1 - A.length = j + 1 by omega, getElem?_cons_succ] at hx
    exact hB x (mem_of_getElem? hx)
  all_goals omega

/-- InodeIndexTreeLeafNode -/
structure LeafNode where
  entries : List (Nat × InodeEntry)
  next : Option Nat
  deriving DecidableEq, Repr

namespace LeafNode

def lookup (n : LeafNode) (key : Nat) : Comp Lookup :=
  lookupKey key (n.entries.map Prod.fst)

def lookupEntry (n : LeafNode) (key : Nat) : Comp (Option InodeEntry) := do
  match ← n.lookup key with
  | .found i =>
    match n.entries[i]? with
    | some e => .ok (some e.2)
    | none => err .internal
  | .absent _ => .ok none

def headKey (n : LeafNode) : Nat :=
  match n.entries with
  | [] => noInode
  | e :: _ => e.1

def insert (lay : TreeLayout) (n : LeafNode) (key : Nat) (v : InodeEntry) (pos : Option Lookup) :
    Comp LeafNode := do
  let pos ← match pos with
    | some pos => .ok pos
    | none => n.lookup key
  match pos with
  | .found i => .ok { n with entries := n.entries.modify i fun e => (e.1, v) }
  | .absent i =>
    if n.entries.length = lay.maxLeafNodeEntries then
      err .internal
    else
      .ok { n with entries := n.entries.insertIdx i (key, v) }

def remove (n : LeafNode) (pos : Nat) : Comp LeafNode :=
  if n.entries.length = 0 then
    err .internal
  else
    .ok { n with entries := n.entries.eraseIdx pos }

def spillLeft (lay : TreeLayout) (left right : LeafNode) (count : Nat) :
    Comp (LeafNode × LeafNode × Nat) :=
  if left.entries.length + count > lay.maxLeafNodeEntries ∨ right.entries.length < count ∨
      right.entries.length - count < lay.minLeafNodeEntries then
    err .internal
  else
    let left' : LeafNode := { left with entries := left.entries ++ right.entries.take count }
    let right' : LeafNode := { right with entries := right.entries.drop count }
    .ok (left', right', right'.headKey)

def spillRight (lay : TreeLayout) (left right : LeafNode) (count : Nat) :
    Comp (LeafNode × LeafNode × Nat) :=
  if right.entries.length + count > lay.maxLeafNodeEntries ∨ left.entries.length < count ∨
      left.entries.length - count < lay.minLeafNodeEntries then
    err .internal
  else
    let kept := left.entries.length - count
    let left' : LeafNode := { left with entries := left.entries.take kept }
    let right' : LeafNode := { right with entries := left.entries.drop kept ++ right.entries }
    .ok (left', right', right'.headKey)

/-- The node, the new one to be stored at newLoc behind it, and the separator key. -/
def splitInsert (lay : TreeLayout) (n : LeafNode) (key : Nat) (v : InodeEntry) (pos newLoc : Nat) :
    Comp (LeafNode × LeafNode × Nat) := do
  let insertInLeft := if pos ≤ n.entries.length / 2 then 1 else 0
  let spillCount := (n.entries.length + insertInLeft) / 2
  if spillCount + (1 - insertInLeft) < lay.minLeafNodeEntries ∨
      n.entries.length - spillCount + insertInLeft < lay.minLeafNodeEntries then
    err .internal
  else
    let kept := n.entries.length - spillCount
    let left : LeafNode := { entries := n.entries.take kept, next := some newLoc }
    let right : LeafNode := { entries := n.entries.drop kept, next := n.next }
    if insertInLeft = 1 then
      let left ← left.insert lay key v (some (.absent pos))
      .ok (left, right, right.headKey)
    else
      let right : LeafNode := { right with entries := right.entries.insertIdx (pos - kept) (key, v) }
      .ok (left, right, right.headKey)

def mergeRemove (lay : TreeLayout) (left right : LeafNode) (removalPosAfterMerge : Nat) :
    Comp LeafNode := do
  if left.entries.length + right.entries.length - 1 > lay.maxLeafNodeEntries then
    err .internal
  else if removalPosAfterMerge < left.entries.length then
    let left ← left.remove removalPosAfterMerge
    .ok { entries := left.entries ++ right.entries, next := right.next }
  else
    let removalPos := removalPosAfterMerge - left.entries.length
    .ok { entries := left.entries ++ right.entries.eraseIdx removalPos, next := right.next }

end LeafNode

/-- InodeIndexTreeInternalNode, counting levels from the leaves' of zero. -/
structure InternalNode where
  level : Nat
  keys : List Nat
  children : List Nat
  deriving DecidableEq, Repr

namespace InternalNode

def lookupChild (n : InternalNode) (key : Nat) : Comp Nat := do
  match ← lookupKey key n.keys with
  | .found i => .ok (i + 1)
  | .absent i => .ok i

def childPtr (n : InternalNode) (i : Nat) : Comp Nat :=
  match n.children[i]? with
  | some c => .ok c
  | none => formatErr .invalidIndexNode

def separatorKey (n : InternalNode) (leftChildIndex : Nat) : Nat :=
  n.keys.getD leftChildIndex noInode

def updateSeparatorKey (n : InternalNode) (leftChildIndex key : Nat) : InternalNode :=
  { n with keys := n.keys.set leftChildIndex key }

def insert (lay : TreeLayout) (n : InternalNode) (leftChildIndex key rightChild : Nat) :
    Comp InternalNode :=
  if n.keys.length = lay.maxInternalNodeEntries then
    err .internal
  else
    .ok { n with
      keys := n.keys.insertIdx leftChildIndex key
      children := n.children.insertIdx (leftChildIndex + 1) rightChild }

def remove (n : InternalNode) (rightChildIndex : Nat) : Comp InternalNode :=
  if rightChildIndex = 0 then
    err .internal
  else
    .ok { n with
      keys := n.keys.eraseIdx (rightChildIndex - 1)
      children := n.children.eraseIdx rightChildIndex }

/-- The separator key moves down into the left node, the last key spilled up. -/
def rotateLeft (lay : TreeLayout) (left right : InternalNode) (count parentKey : Nat) :
    Comp (InternalNode × InternalNode × Nat) :=
  if count = 0 then
    .ok (left, right, parentKey)
  else if left.keys.length + count > lay.maxInternalNodeEntries ∨ right.keys.length < count ∨
      right.keys.length - count < lay.minInternalNodeEntries then
    err .internal
  else
    .ok
      ({ left with
          keys := left.keys ++ parentKey :: right.keys.take (count - 1)
          children := left.children ++ right.children.take count },
        { right with
          keys := right.keys.drop count
          children := right.children.drop count },
        right.keys.getD (count - 1) noInode)

def rotateRight (lay : TreeLayout) (left right : InternalNode) (count parentKey : Nat) :
    Comp (InternalNode × InternalNode × Nat) :=
  if count = 0 then
    .ok (left, right, parentKey)
  else if right.keys.length + count > lay.maxInternalNodeEntries ∨ left.keys.length < count ∨
      left.keys.length - count < lay.minInternalNodeEntries then
    err .internal
  else
    let kept := left.keys.length - count
    .ok
      ({ left with
          keys := left.keys.take kept
          children := left.children.take (kept + 1) },
        { right with
          keys := left.keys.drop (kept + 1) ++ parentKey :: right.keys
          children := left.children.drop (kept + 1) ++ right.children },
        left.keys.getD kept noInode)

def split (lay : TreeLayout) (n : InternalNode) : Comp (InternalNode × InternalNode × Nat) :=
  let newNodeEntries := n.keys.length / 2
  if newNodeEntries < lay.minInternalNodeEntries ∨
      n.keys.length - newNodeEntries - 1 < lay.minInternalNodeEntries then
    err .internal
  else
    let kept := n.keys.length - newNodeEntries - 1
    .ok
      ({ n with keys := n.keys.take kept, children := n.children.take (kept + 1) },
        { n with keys := n.keys.drop (kept + 1), children := n.children.drop (kept + 1) },
        n.keys.getD kept noInode)

def merge (lay : TreeLayout) (left right : InternalNode) (parentKey : Nat) : Comp InternalNode :=
  if left.keys.length + 1 + right.keys.length > lay.maxInternalNodeEntries then
    err .internal
  else
    .ok { left with
      keys := left.keys ++ parentKey :: right.keys
      children := left.children ++ right.children }

def newRoot (level leftChild rightChild key : Nat) : Comp InternalNode :=
  if level = 0 then
    err .internal
  else
    .ok { level := level, keys := [key], children := [leftChild, rightChild] }

end InternalNode

inductive Node where
  | leaf (n : LeafNode)
  | internal (n : InternalNode)
  deriving DecidableEq, Repr

end CocoonFs.IndexNodes
