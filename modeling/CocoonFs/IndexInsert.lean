import CocoonFs.IndexMoves

namespace CocoonFs.IndexInsert

open Checked LevelTree IndexNodes IndexTree List
open Branch (edges lo loc ref)

/-- The transaction's view on the index, and the blocks its allocations are to
be served from. -/
structure Transaction where
  index : Index
  free : List Nat

namespace Transaction

def stage (tx : Transaction) (ns : List (Nat × Node)) : Transaction :=
  { tx with index := tx.index.stage ns }

/-- AllocateBlockFuture -/
def allocate (tx : Transaction) : Comp (Nat × Transaction) :=
  match tx.free with
  | a :: free => .ok (a, { tx with free := free })
  | [] => err .noSpace

/-- AllocateBlocksFuture, for two blocks -/
def allocateTwo (tx : Transaction) : Comp (Nat × Nat × Transaction) :=
  match tx.free with
  | a :: b :: free => .ok (a, b, { tx with free := free })
  | _ => err .noSpace

end Transaction

/-- What InodeIndexInsertEntryFuture is to insert; the flags are masked already. -/
structure Update where
  inode : Nat
  flags : BitVec 32
  mask : BitVec 32
  extentPtr : BitVec 64

def Update.new (inode : Nat) (flags mask : BitVec 32) (extentPtr : BitVec 64) : Update :=
  { inode := inode, flags := flags &&& mask, mask := mask, extentPtr := extentPtr }

def Update.entry (u : Update) (preexisting : Option InodeEntry) : InodeEntry :=
  { flags := ((preexisting.map fun e => e.flags &&& ~~~u.mask).getD 0) ||| u.flags
    extentPtr := u.extentPtr }

/-- InodeIndexLookupForInsertResult -/
structure LookupForInsertResult where
  preexistingEntry : Option InodeEntry
  leafLoc : Nat
  leaf : LeafNode
  leafParent : Option (Nat × InternalNode)

def visitLeafParent (parent : Option (Nat × InternalNode)) (loc : Nat) (n : InternalNode) (_ : Nat) :
    Option (Nat × InternalNode) :=
  if n.level = 1 then some (loc, n) else parent

/-- InodeIndexLookupForInsertFuture -/
def lookupForInsert (lay : TreeLayout) (t : Index) (inode : Nat) : Comp LookupForInsertResult := do
  let (parent, leafLoc, leaf) ← t.walk visitLeafParent inode (t.levels - 1) t.root none
  let preexistingEntry ← leaf.lookupEntry inode
  -- There is no use for the parent if nothing is to be split.
  let leafParent :=
    if preexistingEntry.isSome ∨ leaf.entries.length < lay.maxLeafNodeEntries then none else parent
  .ok
    { preexistingEntry := preexistingEntry
      leafLoc := leafLoc
      leaf := leaf
      leafParent := leafParent }

structure Sibling (α : Type) where
  atLeft : Bool
  loc : Nat
  node : α

/-- After a rotation, both siblings should have one spare entry available. -/
def tryRight {α : Type} (read : Nat → Comp α) (entries : α → Nat) (maxEntries : Nat)
    (parent : InternalNode) (childIndex : Nat) : Comp (Option (Sibling α)) := do
  let loc ← parent.childPtr (childIndex + 1)
  let node ← read loc
  if entries node ≥ maxEntries - 1 then
    .ok none
  else
    .ok (some { atLeft := false, loc := loc, node := node })

/-- TryRotatePrepare, and TryRotate up to the choice of the sibling. -/
def chooseSibling {α : Type} (read : Nat → Comp α) (entries : α → Nat) (maxEntries : Nat)
    (parent : InternalNode) (inode : Nat) : Comp (Nat × Option (Sibling α)) := do
  if parent.keys.length = 0 then
    formatErr .invalidIndexNode
  else
    let childIndex ← parent.lookupChild inode
    if childIndex ≠ 0 then
      let loc ← parent.childPtr (childIndex - 1)
      let node ← read loc
      if entries node ≥ maxEntries - 1 then
        if childIndex = parent.keys.length then
          .ok (childIndex, none)
        else
          let sibling ← tryRight read entries maxEntries parent childIndex
          .ok (childIndex, sibling)
      else
        .ok (childIndex, some { atLeft := true, loc := loc, node := node })
    else
      let sibling ← tryRight read entries maxEntries parent childIndex
      .ok (childIndex, sibling)

/-- TryRotate for internal nodes: what is staged, and the node to descend to. -/
def rotateInternal (pr : Profile) (lay : TreeLayout) (tx : Transaction) (inode : Nat)
    (parentLoc : Nat) (parent : InternalNode) (childLoc : Nat) (child : InternalNode)
    (childIndex : Nat) (sibling : Sibling InternalNode) :
    Comp (Transaction × Nat × InternalNode) := do
  debugAssert pr (child.keys.length = lay.maxInternalNodeEntries)
  let excess ← subU64 pr child.keys.length sibling.node.keys.length
  let rotateCount := divCeil excess 2
  debugAssert pr (rotateCount ≥ 1 ∧
    sibling.node.keys.length + rotateCount < lay.maxInternalNodeEntries)
  if sibling.atLeft then
    debugAssert pr (childIndex ≥ 1)
    let (left, right, key) ← InternalNode.rotateLeft lay sibling.node child rotateCount
      (parent.separatorKey (childIndex - 1))
    let parent := parent.updateSeparatorKey (childIndex - 1) key
    let tx := tx.stage
      [(parentLoc, .internal parent), (sibling.loc, .internal left), (childLoc, .internal right)]
    if inode < key then .ok (tx, sibling.loc, left) else .ok (tx, childLoc, right)
  else
    let (left, right, key) ← InternalNode.rotateRight lay child sibling.node rotateCount
      (parent.separatorKey childIndex)
    let parent := parent.updateSeparatorKey childIndex key
    let tx := tx.stage
      [(parentLoc, .internal parent), (childLoc, .internal left), (sibling.loc, .internal right)]
    if inode ≥ key then .ok (tx, sibling.loc, right) else .ok (tx, childLoc, left)

/-- TryRotate for leaves, with the insertion into one of them. -/
def rotateLeaf (pr : Profile) (lay : TreeLayout) (tx : Transaction) (u : Update)
    (parentLoc : Nat) (parent : InternalNode) (childLoc : Nat) (child : LeafNode)
    (childIndex : Nat) (sibling : Sibling LeafNode) : Comp Transaction := do
  debugAssert pr (child.entries.length = lay.maxLeafNodeEntries)
  let excess ← subU64 pr child.entries.length sibling.node.entries.length
  let spillCount := divCeil excess 2
  debugAssert pr (spillCount ≥ 1 ∧
    sibling.node.entries.length + spillCount < lay.maxLeafNodeEntries)
  if sibling.atLeft then
    debugAssert pr (childIndex ≥ 1)
    let (left, right, key) ← LeafNode.spillLeft lay sibling.node child spillCount
    let parent := parent.updateSeparatorKey (childIndex - 1) key
    let tx := tx.stage
      [(parentLoc, .internal parent), (sibling.loc, .leaf left), (childLoc, .leaf right)]
    if u.inode < key then
      let leaf ← left.insert lay u.inode (u.entry none) none
      .ok (tx.stage [(sibling.loc, .leaf leaf)])
    else
      let leaf ← right.insert lay u.inode (u.entry none) none
      .ok (tx.stage [(childLoc, .leaf leaf)])
  else
    let (left, right, key) ← LeafNode.spillRight lay child sibling.node spillCount
    let parent := parent.updateSeparatorKey childIndex key
    let tx := tx.stage
      [(parentLoc, .internal parent), (childLoc, .leaf left), (sibling.loc, .leaf right)]
    if u.inode ≥ key then
      let leaf ← right.insert lay u.inode (u.entry none) none
      .ok (tx.stage [(sibling.loc, .leaf leaf)])
    else
      let leaf ← left.insert lay u.inode (u.entry none) none
      .ok (tx.stage [(childLoc, .leaf leaf)])

def insertionPos (leaf : LeafNode) (inode : Nat) : Comp Nat := do
  match ← leaf.lookup inode with
  | .found _ => err .internal
  | .absent pos => .ok pos

/-- SplitRootNode for a leaf -/
def splitRootLeaf (lay : TreeLayout) (tx : Transaction) (u : Update) (leafLoc : Nat)
    (leaf : LeafNode) : Comp Transaction := do
  let (rootLoc, siblingLoc, tx) ← tx.allocateTwo
  let newRootLevel := tx.index.levels
  let pos ← insertionPos leaf u.inode
  let (left, right, key) ← leaf.splitInsert lay u.inode (u.entry none) pos siblingLoc
  let root ← InternalNode.newRoot newRootLevel leafLoc siblingLoc key
  let index := tx.index.stage
    [(rootLoc, .internal root), (leafLoc, .leaf left), (siblingLoc, .leaf right)]
  .ok { tx with index := { index with root := rootLoc, levels := newRootLevel + 1 } }

/-- SplitRootNode for an internal node, with the half to descend to. -/
def splitRootInternal (lay : TreeLayout) (tx : Transaction) (inode : Nat) (rootNode : InternalNode) :
    Comp (Transaction × Nat × InternalNode) := do
  let (rootLoc, siblingLoc, tx) ← tx.allocateTwo
  let newRootLevel := tx.index.levels
  let oldRootLoc := tx.index.root
  let (left, right, key) ← rootNode.split lay
  let root ← InternalNode.newRoot newRootLevel oldRootLoc siblingLoc key
  let index := tx.index.stage
    [(rootLoc, .internal root), (oldRootLoc, .internal left), (siblingLoc, .internal right)]
  let tx := { tx with index := { index with root := rootLoc, levels := newRootLevel + 1 } }
  if inode ≥ key then .ok (tx, siblingLoc, right) else .ok (tx, oldRootLoc, left)

/-- SplitNode for a leaf -/
def splitLeaf (lay : TreeLayout) (tx : Transaction) (u : Update) (parentLoc : Nat)
    (parent : InternalNode) (leafLoc : Nat) (leaf : LeafNode) (childIndex : Nat) :
    Comp Transaction := do
  let (siblingLoc, tx) ← tx.allocate
  let pos ← insertionPos leaf u.inode
  let (left, right, key) ← leaf.splitInsert lay u.inode (u.entry none) pos siblingLoc
  let parent ← parent.insert lay childIndex key siblingLoc
  .ok (tx.stage
    [(parentLoc, .internal parent), (leafLoc, .leaf left), (siblingLoc, .leaf right)])

/-- SplitNode for an internal node, with the half to descend to. -/
def splitInternal (lay : TreeLayout) (tx : Transaction) (inode : Nat) (parentLoc : Nat)
    (parent : InternalNode) (childLoc : Nat) (child : InternalNode) (childIndex : Nat) :
    Comp (Transaction × Nat × InternalNode) := do
  let (siblingLoc, tx) ← tx.allocate
  let (left, right, key) ← child.split lay
  let parent ← parent.insert lay childIndex key siblingLoc
  let tx := tx.stage
    [(parentLoc, .internal parent), (childLoc, .internal left), (siblingLoc, .internal right)]
  if inode ≥ key then .ok (tx, siblingLoc, right) else .ok (tx, childLoc, left)

/-- PreemptiveRotateSplitWalkLoadChildPrepare and LoadChild, down from a node
which is not full. At the lowest of the internal nodes, the leaf is split. -/
def rotateSplitWalk (pr : Profile) (lay : TreeLayout) (u : Update) (leafLoc : Nat)
    (leaf : LeafNode) : Nat → Transaction → Nat → InternalNode → Comp Transaction
  | 0, _, _, _ => err .internal
  | 1, tx, parentLoc, parent => do
    let childIndex ← parent.lookupChild u.inode
    splitLeaf lay tx u parentLoc parent leafLoc leaf childIndex
  | level + 2, tx, parentLoc, parent => do
    let childIndex ← parent.lookupChild u.inode
    let childLoc ← parent.childPtr childIndex
    let child ← tx.index.readInternal childLoc (level + 1)
    if child.keys.length = lay.maxInternalNodeEntries then
      let (childIndex, sibling) ← chooseSibling
        (fun loc => tx.index.readInternal loc (level + 1)) (fun n => n.keys.length)
        lay.maxInternalNodeEntries parent u.inode
      match sibling with
      | some sibling =>
        let (tx, nextLoc, next) ← rotateInternal pr lay tx u.inode parentLoc parent childLoc
          child childIndex sibling
        rotateSplitWalk pr lay u leafLoc leaf (level + 1) tx nextLoc next
      | none =>
        debugAssert pr (parent.keys.length ≠ lay.maxInternalNodeEntries)
        let (tx, nextLoc, next) ← splitInternal lay tx u.inode parentLoc parent childLoc child
          childIndex
        rotateSplitWalk pr lay u leafLoc leaf (level + 1) tx nextLoc next
    else
      rotateSplitWalk pr lay u leafLoc leaf (level + 1) tx childLoc child

/-- PreemptiveRotateSplitWalkLoadRoot -/
def rotateSplitWalkFromRoot (pr : Profile) (lay : TreeLayout) (tx : Transaction) (u : Update)
    (leafLoc : Nat) (leaf : LeafNode) : Comp Transaction := do
  let rootLevel := tx.index.levels - 1
  debugAssert pr (rootLevel ≠ 0)
  let rootNode ← tx.index.readInternal tx.index.root rootLevel
  if rootNode.keys.length = lay.maxInternalNodeEntries then
    let (tx, nextLoc, next) ← splitRootInternal lay tx u.inode rootNode
    rotateSplitWalk pr lay u leafLoc leaf rootLevel tx nextLoc next
  else
    rotateSplitWalk pr lay u leafLoc leaf rootLevel tx tx.index.root rootNode

/-- InodeIndexInsertEntryFuture, on the lookup's result -/
def insertEntry (pr : Profile) (lay : TreeLayout) (tx : Transaction) (u : Update)
    (found : LookupForInsertResult) : Comp Transaction := do
  if found.preexistingEntry.any fun e =>
      (e.flags ^^^ u.flags) &&& u.mask = 0 ∧ e.extentPtr = u.extentPtr then
    .ok tx
  else if found.preexistingEntry.isSome ∨ found.leaf.entries.length < lay.maxLeafNodeEntries then
    let leaf ← found.leaf.insert lay u.inode (u.entry found.preexistingEntry) none
    .ok (tx.stage [(found.leafLoc, .leaf leaf)])
  else
    match found.leafParent with
    | none =>
      debugAssert pr (tx.index.levels = 1)
      splitRootLeaf lay tx u found.leafLoc found.leaf
    | some (parentLoc, parent) =>
      let (childIndex, sibling) ← chooseSibling tx.index.readLeaf (fun n => n.entries.length)
        lay.maxLeafNodeEntries parent u.inode
      match sibling with
      | some sibling =>
        rotateLeaf pr lay tx u parentLoc parent found.leafLoc found.leaf childIndex sibling
      | none =>
        if parent.keys.length ≠ lay.maxInternalNodeEntries then
          splitLeaf lay tx u parentLoc parent found.leafLoc found.leaf childIndex
        else
          rotateSplitWalkFromRoot pr lay tx u found.leafLoc found.leaf

def insert (pr : Profile) (lay : TreeLayout) (tx : Transaction) (u : Update) : Comp Transaction := do
  let found ← lookupForInsert lay tx.index u.inode
  insertEntry pr lay tx u found

def Updated (es es' : List (Nat × InodeEntry)) (k : Nat) (v : InodeEntry) : Prop :=
  ∃ P Q, es' = P ++ (k, v) :: Q ∧ (es = P ++ Q ∨ ∃ w, es = P ++ (k, w) :: Q)

variable {es es' : List (Nat × InodeEntry)} {v : InodeEntry} {k : Nat}

theorem Updated.context (h : Updated es es' k v) (A B : List (Nat × InodeEntry)) :
    Updated (A ++ (es ++ B)) (A ++ (es' ++ B)) k v := by
  obtain ⟨P, Q, rfl, hes⟩ := h
  refine ⟨A ++ P, Q ++ B, by simp only [append_assoc, List.cons_append], ?_⟩
  rcases hes with rfl | ⟨w, rfl⟩
  · exact .inl (by simp only [append_assoc])
  · exact .inr ⟨w, by simp only [append_assoc, List.cons_append]⟩

theorem Updated.keepsSpecial
    (h : Updated es es' k v) (hes : ∀ e ∈ es, e.1 ≠ noInode) (hk : k ≠ noInode) :
    KeepsSpecial es es' := by
  obtain ⟨P, Q, rfl, rfl | ⟨w, rfl⟩⟩ := h
  · simp only [forall_mem_append] at hes
    refine ⟨?_, ?_⟩
    · simp only [forall_mem_append, forall_mem_cons]
      exact ⟨hes.1, hk, hes.2⟩
    · intro i _ hi
      simp only [map_append, map_cons, mem_append, mem_cons] at hi ⊢
      tauto
  · simp only [forall_mem_append, forall_mem_cons] at hes
    refine ⟨?_, ?_⟩
    · simp only [forall_mem_append, forall_mem_cons]
      exact ⟨hes.1, hk, hes.2.2⟩
    · intro i _ hi
      simpa only [map_append, map_cons] using hi

theorem Updated.lookup_eq
    (h : Updated es es' k v) (hes : Ascending es) (hes' : Ascending es') (j : Nat) :
    es'.lookup j = if j = k then some v else es.lookup j := by
  obtain ⟨P, Q, rfl, hor⟩ := h
  split
  next hj =>
    rw [hj, hes'.lookup_eq_some_iff]
    simp
  next hj =>
    refine hes'.lookup_congr hes fun x => ?_
    rcases hor with rfl | ⟨w, rfl⟩ <;> simp [hj]

section Steps

variable {α : Type} {lay : TreeLayout} {t : Index} {s : Shape} {k : Nat} {v : InodeEntry}

def Inserted (lay : TreeLayout) (t' : Index) (entryLeaf : Nat) (es : List (Nat × InodeEntry))
    (k : Nat) (v : InodeEntry) : Prop :=
  ∃ s', Represents lay t' s' ∧ t'.entryLeaf = entryLeaf ∧ Updated es (contents s'.leaves) k v

variable {l : IndexLeaf} {C : List IndexLeaf} {pr : Profile} {tx tx' : Transaction} {u : Update}
    {a nextLoc : Nat} {c : IndexBranch} {next : InternalNode} {D : List IndexLeaf} {n : LeafNode}

theorem insert_leaf (h : Represents lay t s) (hlay : lay.Balanced)
    (hleaves : s.leaves = C ++ (l :: D)) (hk : At Leaf.lo k l D)
    (hinode : k ≠ noInode) (hn : (leafNode l).insert lay k v none = .ok n) :
    Inserted lay (t.stage [(l.loc, .leaf n)]) t.entryLeaf (contents s.leaves) k v := by
  have hmem : l ∈ s.leaves := by rw [hleaves]; simp
  have hord : Ordered (C ++ ([l] ++ D)) := hleaves ▸ h.ordered
  have hfits := hord.fits
  simp only [contents_cons, contents_nil, List.append_nil] at hfits
  have hinodes : ∀ e ∈ l.entries, e.1 ≠ noInode := fun e he =>
    h.inodes e (mem_flatMap.mpr ⟨l, hmem, he⟩)
  obtain ⟨P, Q, hP, hQ, rfl, hor⟩ := leafInsert_ok (h.ordered.within l hmem).2 hn
  simp only [leafNode_entries] at hor
  have hupd : Updated l.entries (P ++ (k, v) :: Q) k v :=
    ⟨P, Q, rfl, hor.symm.imp (fun ho => ho.1) id⟩
  have hold : Fits l.lo D (P ++ Q) := by
    rcases hor with ⟨w, hw⟩ | ⟨hPQ, -⟩
    · exact hfits.sublist (by rw [hw]; exact (sublist_cons_self _ _).append_left P)
    · exact hPQ ▸ hfits
  have hfill := h.leafFill l hmem
  have hlen : l.entries.length ≤ (P ++ (k, v) :: Q).length ∧
      (P ++ (k, v) :: Q).length ≤ lay.maxLeafNodeEntries := by
    have hle := hfill.le_max
    rcases hor with ⟨w, hw⟩ | ⟨hPQ, hne⟩
    · rw [hw] at hle ⊢
      simp only [length_append, length_cons] at hle ⊢
      omega
    · rw [hPQ] at hle hne ⊢
      simp only [length_append, length_cons] at hle hne ⊢
      omega
  refine ⟨_, h.setLeaf hlay.three_le_minLeaf hleaves rfl (hold.insert hP hQ hk.1 hk.2)
    (hupd.keepsSpecial hinodes hinode) hlen.2 (fun hne => (hfill.min_le hne).trans hlen.1), rfl, ?_⟩
  rw [hleaves]
  simpa using hupd.context (contents C) (contents D)

variable {U : List (List IndexBranch)} {A B : List IndexBranch} {p : IndexBranch}
  {E F : List (Nat × Nat)}

theorem edges_length_le (h : Represents lay t s) {G : List α} {X H : List α} {ref : α → Nat × Nat}
    (hp : p ∈ s.rows.flatten) (hfam : Family ref A p B E F G X H) :
    E.length + X.length + F.length ≤ lay.maxInternalNodeEntries + 1 := by
  have hmax := (h.branchFill p hp).le_max
  have hlen := p.keys_length
  rw [hfam.edges] at hlen
  simp only [length_append, length_map] at hlen
  omega

/-- Entries are spilled between neighbours, the new one is then inserted on the
side of the new separator it belongs to. -/
theorem insert_spilled (h : Represents lay t s) (hlay : lay.Balanced)
    {x y : IndexLeaf} {left right : LeafNode} {key : Nat}
    (hrows : s.rows = U ++ [A ++ p :: B]) (hleaves : s.leaves = C ++ (x :: y :: D))
    (hfam : Family Leaf.ref A p B E F C [x, y] D)
    (hspill : Spilled (leafNode x) (leafNode y) left right key)
    (hmax : ∀ n ∈ [left, right], n.entries.length ≤ lay.maxLeafNodeEntries)
    (hmin : ∀ n ∈ [left, right], lay.minLeafNodeEntries ≤ n.entries.length)
    (hx : x.lo ≤ k) (hD : ∀ d ∈ D, k < d.lo) (hinode : k ≠ noInode) {t' : Index}
    (ht' : t' = t.stage [(p.loc, .internal ((branchNode p).updateSeparatorKey E.length key)),
      (x.loc, .leaf left), (y.loc, .leaf right)]) :
    (∀ n, k < key → left.insert lay k v none = .ok n →
      Inserted lay (t'.stage [(x.loc, .leaf n)]) t.entryLeaf (contents s.leaves) k v) ∧
    (∀ n, key ≤ k → right.insert lay k v none = .ok n →
      Inserted lay (t'.stage [(y.loc, .leaf n)]) t.entryLeaf (contents s.leaves) k v) := by
  have hedges : p.edges = E ++ x.ref :: y.ref :: F := hfam.edges
  have hord : Ordered (C ++ (x :: [y] ++ D)) := hleaves ▸ h.ordered
  have hentries : left.entries ++ right.entries = contents [x, y] := by simpa using hspill.entries
  have hroom : E.length + F.length < lay.maxInternalNodeEntries := by
    have hle := edges_length_le h (by rw [hrows]; simp) hfam
    simp only [length_cons, length_nil] at hle
    omega
  have hinodes : ∀ e ∈ contents [x, y], e.1 ≠ noInode := by
    intro e he
    refine h.inodes e ?_
    rw [hleaves, show C ++ x :: y :: D = C ++ ([x, y] ++ D) from rfl, contents_append,
      contents_append]
    exact mem_append_right _ (mem_append_left _ he)
  have hrep := h.pairLeaves (x := x) (X := [y]) hlay hrows hleaves hfam le_rfl
    (hspill.left_next.trans (h.next_eq (X := []) hleaves))
    (hspill.right_next.trans (h.next_eq (X := [x]) hleaves)) hspill.key_eq
    (by rw [hentries]; exact hord.fits) (by rw [hentries]; exact ⟨hinodes, fun _ _ hi => hi⟩) hmax
    hmin hroom (.same (h.nodup_leaves (Y := [x, y]) hleaves))
  have hcontents : contents (C ++ (leafOf x.loc x.lo left :: leafOf y.loc key right :: D)) =
      contents s.leaves := by
    rw [hleaves]
    simp only [contents_append, contents_cons, leafOf_entries]
    rw [← append_assoc left.entries, hentries]
    simp
  rw [updateSeparatorKey_at hedges] at ht'
  subst ht'
  constructor
  · intro n hlt hn
    rw [← hcontents]
    refine insert_leaf hrep hlay (l := leafOf x.loc x.lo left) rfl ⟨hx, ?_⟩ hinode hn
    rw [forall_mem_cons]
    exact ⟨hlt, hD⟩
  · intro n hle hn
    rw [← hcontents]
    exact insert_leaf hrep hlay (l := leafOf y.loc key right)
      (C := C ++ [leafOf x.loc x.lo left]) (by simp) ⟨hle, hD⟩ hinode hn

/-- A sibling which is not full, at either side of the edge between E and F. -/
def SiblingOf (read : Nat → Comp α) (E F : List (Nat × Nat)) (x : Sibling α) : Prop :=
  (x.atLeft = true ∧ ∃ E' d, E = E' ++ [d] ∧ x.loc = d.2 ∧ read d.2 = .ok x.node) ∨
    (x.atLeft = false ∧ ∃ d F', F = d :: F' ∧ x.loc = d.2 ∧ read d.2 = .ok x.node)

variable {read : Nat → Comp α} {entries : α → Nat} {e : Nat × Nat}

theorem tryRight_ok {maxEntries : Nat} {x : Sibling α} (hE : p.edges = E ++ e :: F)
    (h : tryRight read entries maxEntries (branchNode p) E.length = .ok (some x)) :
    entries x.node < maxEntries - 1 ∧ SiblingOf read E F x := by
  obtain ⟨loc, hloc, h⟩ := bind_eq_ok h
  obtain ⟨node, hnode, h⟩ := bind_eq_ok h
  cases F with
  | nil =>
    have hnone : (branchNode p).children[E.length + 1]? = none := by
      rw [branchNode_children, Branch.children, hE]
      simp
    simp only [InternalNode.childPtr, hnone] at hloc
    cases hloc
  | cons d F =>
    have hptr := childPtr_at (n := p) (E := E ++ [e]) (e := d) (F := F) (by rw [hE]; simp)
    rw [length_append, length_singleton, hloc] at hptr
    cases hptr
    split at h
    · cases h
    next hlt =>
      cases h
      exact ⟨not_le.mp hlt, .inr ⟨rfl, d, F, rfl, rfl, hnode⟩⟩

theorem chooseSibling_ok {maxEntries i : Nat}
    {sibling : Option (Sibling α)} (hE : p.edges = E ++ e :: F)
    (hasc : Ascending p.edges) (hk : At Prod.fst k e F)
    (h : chooseSibling read entries maxEntries (branchNode p) k = .ok (i, sibling)) :
    i = E.length ∧ ∀ x, sibling = some x →
      entries x.node < maxEntries - 1 ∧ SiblingOf read E F x := by
  obtain ⟨-, h⟩ := of_ite_err h
  rw [lookupChild_at hE hasc hk, ok_bind] at h
  split at h
  next hne =>
    obtain ⟨E', d, rfl⟩ := (eq_nil_or_concat' E).resolve_left fun hnil =>
      hne (by rw [hnil]; rfl)
    have hptr := childPtr_at (n := p) (E := E') (e := d) (F := e :: F) (by rw [hE]; simp)
    obtain ⟨loc, hloc, h⟩ := bind_eq_ok h
    rw [length_append, length_singleton, Nat.add_sub_cancel, hptr] at hloc
    cases hloc
    obtain ⟨node, hnode, h⟩ := bind_eq_ok h
    split at h
    · split at h
      · cases h
        exact ⟨rfl, fun x hx => by cases hx⟩
      · obtain ⟨sib, hsib, h⟩ := bind_eq_ok h
        cases h
        exact ⟨rfl, fun x hx => tryRight_ok hE (hx ▸ hsib)⟩
    next hlt =>
      cases h
      refine ⟨rfl, ?_⟩
      rintro x ⟨⟩
      exact ⟨not_le.mp hlt, .inl ⟨rfl, E', d, rfl, rfl, hnode⟩⟩
  · obtain ⟨sib, hsib, h⟩ := bind_eq_ok h
    cases h
    exact ⟨rfl, fun x hx => tryRight_ok hE (hx ▸ hsib)⟩

/-- Half of the excess is enough for both siblings not to be full afterwards. -/
theorem rotateCount_bounds {full fill excess : Nat} (hlt : fill < full - 1)
    (h : subU64 pr full fill = .ok excess) :
    1 ≤ divCeil excess 2 ∧ fill + divCeil excess 2 < full := by
  rw [subU64_ok pr (by omega)] at h
  cases h
  simp only [divCeil]
  omega

theorem rotateLeaf_ok (h : Represents lay tx.index s) (hlay : lay.Balanced)
    (hrows : s.rows = U ++ [A ++ p :: B]) (hleaves : s.leaves = C ++ (l :: D))
    (hfam : Family Leaf.ref A p B E F C [l] D) (hk : At Leaf.lo u.inode l D)
    (hinode : u.inode ≠ noInode) (hfull : l.entries.length = lay.maxLeafNodeEntries)
    {sibling : Sibling LeafNode} (hsib : SiblingOf tx.index.readLeaf E F sibling)
    (hlt : sibling.node.entries.length < lay.maxLeafNodeEntries - 1)
    (hok : rotateLeaf pr lay tx u p.loc (branchNode p) l.loc (leafNode l) E.length sibling =
      .ok tx') :
    Inserted lay tx'.index tx.index.entryLeaf (contents s.leaves) u.inode (u.entry none) := by
  have hne : s.rows ≠ [] := by simp [hrows]
  obtain ⟨-, -, hok⟩ := bind_eq_ok hok
  obtain ⟨excess, hexcess, hok⟩ := bind_eq_ok hok
  rw [leafNode_entries, hfull] at hexcess
  obtain ⟨hcount, hless⟩ := rotateCount_bounds hlt hexcess
  obtain ⟨-, -, hok⟩ := bind_eq_ok hok
  rcases hsib with ⟨hleft, E', d, rfl, hloc, hread⟩ | ⟨hright, d, F', rfl, hloc, hread⟩
  · obtain ⟨C', g, rfl, rfl, hfam'⟩ := hfam.left
    have hgl : s.leaves = C' ++ (g :: l :: D) := by rw [hleaves]; simp
    have hg : g ∈ s.leaves := by rw [hgl]; simp
    rw [show g.ref.2 = g.loc from rfl, readLeaf_eq (h.stored_leaf hg)] at hread
    injection hread with hnode
    simp only [hleft, ↓reduceIte] at hok
    obtain ⟨-, -, hok⟩ := bind_eq_ok hok
    obtain ⟨⟨left, right, key⟩, hres, hok⟩ := bind_eq_ok hok
    rw [← hnode] at hres hless
    obtain ⟨hspill, -, hlen, hlen', hmax, hmin⟩ := spillLeft_ok hres
    have hgmin := h.leaf_min hne hg
    have hord := h.ordered
    rw [hgl] at hord
    have hlo : g.lo < l.lo :=
      (hord.append_right.lt_of_mem (A := [g]) (B := l :: D) mem_cons_self
        mem_cons_self).1
    simp only [leafNode_entries] at hlen hlen' hless
    obtain ⟨hinl, hinr⟩ := insert_spilled (v := u.entry none) h hlay hrows hgl hfam' hspill
      (by simp; omega) (by simp; omega) (hlo.le.trans hk.1) hk.2 hinode rfl
    simp only [length_append, length_singleton, Nat.add_sub_cancel, hloc] at hok
    split at hok
    next hkey =>
      obtain ⟨n, hn, hok⟩ := bind_eq_ok hok
      cases hok
      exact hinl n hkey hn
    next hkey =>
      obtain ⟨n, hn, hok⟩ := bind_eq_ok hok
      cases hok
      exact hinr n (not_lt.mp hkey) hn
  · obtain ⟨g, D', rfl, rfl, hfam'⟩ := hfam.right
    have hg : g ∈ s.leaves := by rw [hleaves]; simp
    rw [show g.ref.2 = g.loc from rfl, readLeaf_eq (h.stored_leaf hg)] at hread
    injection hread with hnode
    simp only [hright, Bool.false_eq_true, ↓reduceIte] at hok
    obtain ⟨⟨left, right, key⟩, hres, hok⟩ := bind_eq_ok hok
    rw [← hnode] at hres hless
    obtain ⟨hspill, -, hlen, hlen', hmax, hmin⟩ := spillRight_ok hres
    have hgmin := h.leaf_min hne hg
    simp only [leafNode_entries] at hlen hlen' hless
    obtain ⟨hinl, hinr⟩ := insert_spilled (v := u.entry none) h hlay hrows hleaves hfam' hspill
      (by simp; omega) (by simp; omega) hk.1 (fun d hd => hk.2 d (mem_cons_of_mem _ hd)) hinode
      rfl
    simp only [hloc] at hok
    split at hok
    next hkey =>
      obtain ⟨n, hn, hok⟩ := bind_eq_ok hok
      cases hok
      exact hinr n hkey hn
    next hkey =>
      obtain ⟨n, hn, hok⟩ := bind_eq_ok hok
      cases hok
      exact hinl n (not_le.mp hkey) hn

structure Transaction.Fresh (tx : Transaction) (s : Shape) : Prop where
  nodup : tx.free.Nodup
  unused : ∀ a ∈ tx.free, s.Unused a

theorem allocate_ok (h : tx.Fresh s) (hok : tx.allocate = .ok (a, tx')) :
    tx'.index = tx.index ∧ s.Unused a ∧ a ∉ tx'.free ∧ tx'.Fresh s := by
  obtain ⟨index, free⟩ := tx
  cases free with
  | nil => cases hok
  | cons b free =>
    cases hok
    obtain ⟨ha, hfree⟩ := nodup_cons.mp h.nodup
    exact ⟨rfl, h.unused a mem_cons_self, ha, hfree, fun c hc => h.unused c (mem_cons_of_mem _ hc)⟩

theorem allocateTwo_ok {b : Nat} (h : tx.Fresh s) (hok : tx.allocateTwo = .ok (a, b, tx')) :
    tx'.index = tx.index ∧ s.Unused a ∧ s.Unused b ∧ a ≠ b ∧ a ∉ tx'.free ∧ b ∉ tx'.free ∧
      tx'.Fresh s := by
  obtain ⟨index, free⟩ := tx
  rcases free with _ | ⟨c, _ | ⟨d, free⟩⟩
  · cases hok
  · cases hok
  · cases hok
    obtain ⟨ha, hfree⟩ := nodup_cons.mp h.nodup
    obtain ⟨hd, hfree⟩ := nodup_cons.mp hfree
    rw [mem_cons, not_or] at ha
    exact ⟨rfl, h.unused _ (by simp), h.unused _ (by simp), ha.1, ha.2, hd, hfree,
      fun e he => h.unused e (by simp [he])⟩

theorem insertionPos_ok {pos : Nat} (hasc : Ascending n.entries) (h : insertionPos n k = .ok pos) :
    ∃ P Q, n.entries = P ++ Q ∧ (∀ a ∈ P, a.1 < k) ∧ (∀ b ∈ Q, k < b.1) ∧ pos = P.length := by
  obtain ⟨P, Q, hP, hQ, hsplit⟩ := hasc.split_at k
  rcases hsplit with hPQ | ⟨w, hPQ⟩
  · rw [insertionPos, lookup_absent hPQ hP hQ] at h
    cases h
    exact ⟨P, Q, hPQ, hP, hQ, rfl⟩
  · rw [insertionPos, lookup_found hPQ hP hQ] at h
    cases h

structure SplitInserted (lay : TreeLayout) (l : IndexLeaf) (D : List IndexLeaf) (k : Nat)
    (v : InodeEntry) (left right : LeafNode) : Prop where
  updated : Updated l.entries (left.entries ++ right.entries) k v
  fits : Fits l.lo D (left.entries ++ right.entries)
  le_max : ∀ n ∈ [left, right], n.entries.length ≤ lay.maxLeafNodeEntries
  min_le : ∀ n ∈ [left, right], lay.minLeafNodeEntries ≤ n.entries.length

theorem splitInserted_of_ok (h : Represents lay t s) (hlay : lay.Balanced)
    (hleaves : s.leaves = C ++ (l :: D)) (hk : At Leaf.lo k l D)
    {pos loc key : Nat} {left right : LeafNode} (hpos : insertionPos (leafNode l) k = .ok pos)
    (hsplit : (leafNode l).splitInsert lay k v pos loc = .ok (left, right, key)) :
    SplitInserted lay l D k v left right ∧ left.next = some loc ∧ right.next = l.next ∧
      key = right.headKey := by
  have hmem : l ∈ s.leaves := by rw [hleaves]; simp
  have hord : Ordered (C ++ ([l] ++ D)) := hleaves ▸ h.ordered
  have hfits := hord.fits
  simp only [contents_cons, contents_nil, List.append_nil] at hfits
  obtain ⟨P, Q, hPQ, hP, hQ, rfl⟩ := insertionPos_ok (h.ordered.within l hmem).2 hpos
  obtain ⟨hentries, hlink, hnext, hkey, hleft, hright⟩ := splitInsert_ok hPQ hsplit
  have hthree := hlay.three_le_minLeaf
  have hmax := (h.leafFill l hmem).le_max
  have hlen := congrArg List.length hentries
  simp only [leafNode_entries] at hPQ
  rw [hPQ] at hmax hfits
  simp only [length_append, length_cons] at hlen hmax hleft hright
  refine ⟨⟨⟨P, Q, hentries, .inl hPQ⟩, ?_, by simp; omega, by simp; omega⟩, hlink, hnext, hkey⟩
  rw [hentries]
  exact hfits.insert hP hQ hk.1 hk.2

theorem splitLeaf_ok (h : Represents lay tx.index s) (hlay : lay.Balanced) (hfresh : tx.Fresh s)
    (hrows : s.rows = U ++ [A ++ p :: B]) (hleaves : s.leaves = C ++ (l :: D))
    (hfam : Family Leaf.ref A p B E F C [l] D) (hk : At Leaf.lo u.inode l D)
    (hinode : u.inode ≠ noInode)
    (hok : splitLeaf lay tx u p.loc (branchNode p) l.loc (leafNode l) E.length = .ok tx') :
    Inserted lay tx'.index tx.index.entryLeaf (contents s.leaves) u.inode (u.entry none) := by
  have hmem : l ∈ s.leaves := by rw [hleaves]; simp
  have hinodes : ∀ e ∈ l.entries, e.1 ≠ noInode := fun e he =>
    h.inodes e (mem_flatMap.mpr ⟨l, hmem, he⟩)
  obtain ⟨⟨loc, tx1⟩, halloc, hok⟩ := bind_eq_ok hok
  obtain ⟨htx, hunused, -, -⟩ := allocate_ok hfresh halloc
  obtain ⟨pos, hpos, hok⟩ := bind_eq_ok hok
  obtain ⟨⟨left, right, key⟩, hsplit, hok⟩ := bind_eq_ok hok
  obtain ⟨parent, hparent, hok⟩ := bind_eq_ok hok
  obtain ⟨hins, hlink, hnext, hkey⟩ := splitInserted_of_ok h hlay hleaves hk hpos hsplit
  have hedges : p.edges = E ++ l.ref :: F := hfam.edges
  obtain ⟨hroom, rfl⟩ := insert_at hedges hparent
  have hpmax := (h.branchFill p (by rw [hrows]; simp)).le_max
  rw [keys_length_of_edges hedges] at hroom hpmax
  obtain ⟨index, free⟩ := tx1
  obtain rfl : index = tx.index := htx
  cases hok
  have hrep := h.pairLeaves (x := l) (X := []) hlay hrows hleaves hfam (Nat.zero_le 1) hlink
    (hnext.trans (h.next_eq (X := []) hleaves)) hkey hins.fits
    (by simpa using hins.updated.keepsSpecial hinodes hinode) hins.le_max hins.min_le (by omega)
    (.new (Represents.leaf_loc_mem hmem) hunused)
  refine ⟨_, hrep, rfl, ?_⟩
  rw [hleaves]
  simpa using hins.updated.context (contents C) (contents D)

def rootBranch (level loc : Nat) (left right : Nat × Nat) : IndexBranch :=
  { level := level, loc := loc, edges := [left, right], edges_ne := by simp }

theorem splitRootLeaf_ok (h : Represents lay tx.index s)
    (hlay : lay.Balanced) (hfresh : tx.Fresh s) (hrows : s.rows = [])
    (hleaves : s.leaves = [l]) (hk : At Leaf.lo u.inode l []) (hinode : u.inode ≠ noInode)
    (hok : splitRootLeaf lay tx u l.loc (leafNode l) = .ok tx') :
    Inserted lay tx'.index tx.index.entryLeaf (contents s.leaves) u.inode (u.entry none) := by
  have hmem : l ∈ s.leaves := by rw [hleaves]; simp
  have hinodes : ∀ e ∈ l.entries, e.1 ≠ noInode := fun e he =>
    h.inodes e (mem_flatMap.mpr ⟨l, hmem, he⟩)
  obtain ⟨⟨rootLoc, loc, tx1⟩, halloc, hok⟩ := bind_eq_ok hok
  obtain ⟨htx, hroot, hunused, hne, -, -, -⟩ := allocateTwo_ok hfresh halloc
  obtain ⟨pos, hpos, hok⟩ := bind_eq_ok hok
  obtain ⟨⟨left, right, key⟩, hsplit, hok⟩ := bind_eq_ok hok
  obtain ⟨root, hnew, hok⟩ := bind_eq_ok hok
  obtain ⟨hins, hlink, hnext, hkey⟩ := splitInserted_of_ok h hlay (C := []) hleaves hk hpos hsplit
  obtain ⟨-, hnew⟩ := of_ite_err hnew
  have hlevels : tx.index.levels = 1 := by simpa [hrows] using h.levels_eq
  obtain ⟨index, free⟩ := tx1
  obtain rfl : index = tx.index := htx
  simp only [hlevels] at hnew hok
  cases hnew
  cases hok
  have hthree := hlay.three_le_minLeaf
  have hne' : ∀ n ∈ [left, right], n.entries ≠ [] := fun n hn =>
    ne_nil_of_length_pos (by have := hins.min_le n hn; omega)
  obtain ⟨v, es, hhead⟩ := headKey_eq (hne' right (by simp))
  rw [← hkey] at hhead
  have hedit : LeafEdit [l] [leafOf l.loc l.lo left, leafOf loc key right] [] :=
    LeafEdit.pair (A := []) (X := []) (by simpa [hleaves] using h.ordered) rfl hlink
      (hnext.trans (h.next_eq (C := []) (X := []) hleaves)) (hne' left (by simp)) hhead hins.fits
  have hplaced : Placed s [l.loc] [rootLoc, l.loc, loc] := by
    have hnew := Placed.new (Represents.leaf_loc_mem hmem) hunused
    have hlr : rootLoc ≠ l.loc := fun heq => hroot (heq ▸ Represents.leaf_loc_mem hmem)
    refine ⟨by simpa [hlr, hne] using hnew.nodup, ?_⟩
    intro a ha
    rcases mem_cons.mp ha with rfl | ha
    · exact .inr hroot
    · exact hnew.placed a ha
  have hrep := h.growLeaf (leafOf l.loc l.lo left) (leafOf loc key right)
    (r := rootBranch 1 rootLoc l.ref (key, loc)) hlay hrows hleaves rfl hedit
    (by simpa using hins.updated.keepsSpecial hinodes hinode) (by simpa using hins.le_max)
    (by simpa using hins.min_le) rfl rfl hplaced
  rw [hlevels] at hrep
  refine ⟨_, hrep, rfl, ?_⟩
  rw [hleaves]
  simpa using hins.updated

/-- At a node which is not full, on the way to the leaf for k and with the rows D below. -/
def Walking (lay : TreeLayout) (tx : Transaction) (entryLeaf : Nat) (leaves : List IndexLeaf)
    (k : Nat) (D : List (List IndexBranch)) (loc : Nat) (node : InternalNode) : Prop :=
  ∃ s U A q B, Represents lay tx.index s ∧ tx.Fresh s ∧ tx.index.entryLeaf = entryLeaf ∧
    s.leaves = leaves ∧ s.rows = U ++ (A ++ q :: B) :: D ∧ q.loc = loc ∧ branchNode q = node ∧
    At lo k q B ∧ q.keys.length < lay.maxInternalNodeEntries

variable {D : List (List IndexBranch)} {G X X' H : List IndexBranch} {x x' y y' p' : IndexBranch}

theorem unused_of_exchange (hrows : s.rows = U ++ (A ++ p :: B) :: (G ++ (X ++ H)) :: D)
    (hloc : p'.loc = p.loc) {b : Nat}
    (hX : ∀ l ∈ X'.map loc, l ∈ X.map loc ∨ l = b) (ha : s.Unused a) (hab : a ≠ b) :
    Shape.Unused ⟨s.leaves, U ++ (A ++ p' :: B) :: (G ++ (X' ++ H)) :: D⟩ a := by
  have hold := Shape.nodes_perm_branches s.leaves U D A B G X H p
  have hnew := Shape.nodes_perm_branches s.leaves U D A B G X' H p'
  rw [← hrows] at hold
  intro hmem
  rw [Shape.Unused, (hold.map Prod.fst).mem_iff] at ha
  rw [(hnew.map Prod.fst).mem_iff] at hmem
  simp only [map_append, map_cons, List.cons_append, mem_cons, mem_append,
    map_fst_branchAt, branchAt_fst, hloc, not_or] at ha hmem
  rcases hmem with hmem | hmem | hmem
  · exact ha.1 hmem
  · rcases hX a hmem with hmem | hmem
    · exact ha.2.1 hmem
    · exact hab hmem
  · exact ha.2.2 hmem

/-- After one or two neighbours have been exchanged for two, the walk goes on
on the side of the new separator the key is on. -/
theorem walking_pair (tx' : Transaction) (h : Represents lay t s) (hlay : lay.Balanced)
    (hrows : s.rows = U ++ (A ++ p :: B) :: (G ++ (x :: X ++ H)) :: D)
    (hfam : Family ref A p B E F G (x :: X) H) (hX : X.length ≤ 1)
    (hlo : x'.lo = x.lo) (hloc : x'.loc = x.loc)
    (hedges : x'.edges ++ y'.edges = (x :: X).flatMap edges)
    (hlevel : ∀ n ∈ [x', y'], n.level = x.level)
    (hmax : ∀ n ∈ [x', y'], n.keys.length < lay.maxInternalNodeEntries)
    (hmin : ∀ n ∈ [x', y'], lay.minInternalNodeEntries ≤ n.keys.length)
    (hroom : E.length + F.length < lay.maxInternalNodeEntries)
    (hplaced : Placed s ((x :: X).map loc) [x.loc, y'.loc]) (hx : x.lo ≤ k)
    (hH : ∀ n ∈ H, k < n.lo)
    (htx : tx'.index = t.stage [branchAt (p.withEdges (E ++ x.ref :: y'.ref :: F) (by simp)),
      branchAt x', branchAt y']) (hnodup : tx'.free.Nodup)
    (hunused : ∀ a ∈ tx'.free, s.Unused a ∧ a ≠ y'.loc) :
    (k < y'.lo → Walking lay tx' t.entryLeaf s.leaves k D x.loc (branchNode x')) ∧
      (y'.lo ≤ k → Walking lay tx' t.entryLeaf s.leaves k D y'.loc (branchNode y')) := by
  have hrep := h.pairBranches hlay hrows hfam hX hlo hloc hedges hlevel
    (fun n hn => (hmax n hn).le) hmin hroom hplaced
  rw [← htx] at hrep
  have hfresh : tx'.Fresh ⟨s.leaves, U ++ (A ++ p.withEdges (E ++ x.ref :: y'.ref :: F) (by simp) :: B) ::
      (G ++ ([x', y'] ++ H)) :: D⟩ := by
    refine ⟨hnodup, fun a ha => ?_⟩
    refine unused_of_exchange hrows ?_ ?_ (hunused a ha).1 (hunused a ha).2
    · rfl
    · intro l hl
      rcases mem_pair.mp hl with rfl | rfl
      · exact .inl (by simp [hloc])
      · exact .inr rfl
  have hentry : tx'.index.entryLeaf = t.entryLeaf := by rw [htx, stage_entryLeaf]
  constructor
  · intro hlt
    refine ⟨_, U ++ [A ++ p.withEdges (E ++ x.ref :: y'.ref :: F) (by simp) :: B], G, x', y' :: H,
      hrep, hfresh, hentry, rfl, by simp, hloc, rfl, ⟨hlo ▸ hx, ?_⟩, hmax x' (by simp)⟩
    rw [forall_mem_cons]
    exact ⟨hlt, hH⟩
  · intro hle
    exact ⟨_, U ++ [A ++ p.withEdges (E ++ x.ref :: y'.ref :: F) (by simp) :: B], G ++ [x'], y', H,
      hrep, hfresh, hentry, rfl, by simp, rfl, rfl, ⟨hle, hH⟩, hmax y' (by simp)⟩

theorem level_of_rows (h : Represents lay t s) {R : List IndexBranch}
    (hrows : s.rows = U ++ R :: D) {n : IndexBranch} (hn : n ∈ R) : n.level = D.length + 1 := by
  have hlevels := h.levels
  rw [hrows] at hlevels
  obtain ⟨mid, -, -, hlevel, -⟩ := levels_append.mp hlevels
  rw [hlevel n hn, Nat.zero_add]

theorem branch_min_below (h : Represents lay t s) {row : List IndexBranch}
    (hrows : s.rows = U ++ (A ++ p :: B) :: row :: D) {n : IndexBranch} (hn : n ∈ row) :
    lay.minInternalNodeEntries ≤ n.keys.length := by
  cases U with
  | nil =>
    obtain ⟨r, hr, -, -⟩ := h.root_branch hrows
    rw [hr] at hrows
    exact h.branch_min hrows (by simp [hn])
  | cons top U =>
    obtain ⟨r, rfl, -, -⟩ := h.root_branch hrows
    exact h.branch_min hrows (by simp [hn])

theorem row_ascending (h : Represents lay t s) {R : List IndexBranch}
    (hrows : s.rows = U ++ R :: D) : Ascending (R.map ref) := by
  have hlevels := h.levels
  rw [hrows] at hlevels
  obtain ⟨mid, -, hmid, hlevel, hD⟩ := levels_append.mp hlevels
  exact (hD.ascending h.ordered.ascending_refs).row

section

variable (h : Represents lay tx.index s) (hfresh : tx.Fresh s) (hlay : lay.Balanced)
include h hfresh hlay

theorem walking_regroup (hrows : s.rows = U ++ (A ++ p :: B) :: (G ++ (x :: y :: H)) :: D)
    (hfam : Family ref A p B E F G [x, y] H) (hreg : Regrouped x y x' y')
    (hmax : ∀ n ∈ [x', y'], n.keys.length < lay.maxInternalNodeEntries)
    (hmin : ∀ n ∈ [x', y'], lay.minInternalNodeEntries ≤ n.keys.length) (hx : x.lo ≤ k)
    (hH : ∀ n ∈ H, k < n.lo)
    (htx : tx' = tx.stage
      [(p.loc, .internal ((branchNode p).updateSeparatorKey E.length y'.lo)),
        (x.loc, .internal (branchNode x')), (y.loc, .internal (branchNode y'))]) :
    (k < y'.lo → Walking lay tx' tx.index.entryLeaf s.leaves k D x.loc (branchNode x')) ∧
      (y'.lo ≤ k → Walking lay tx' tx.index.entryLeaf s.leaves k D y.loc (branchNode y')) := by
  have hedges : p.edges = E ++ x.ref :: y.ref :: F := hfam.edges
  have hroom := edges_length_le h (by rw [hrows]; simp) hfam
  simp only [length_cons, length_nil] at hroom
  have hrow : s.rows = (U ++ [A ++ p :: B]) ++ (G ++ (x :: y :: H)) :: D := by simp [hrows]
  have hlevel : ∀ n ∈ [x', y'], n.level = x.level := by
    intro n hn
    rw [level_of_rows h hrow (n := x) (by simp)]
    rcases mem_pair.mp hn with rfl | rfl
    · rw [hreg.left_level, level_of_rows h hrow (by simp)]
    · rw [hreg.right_level, level_of_rows h hrow (by simp)]
  rw [updateSeparatorKey_at hedges, ← hreg.right_loc, ← hreg.left_loc] at htx
  rw [← hreg.right_loc]
  have hy : y ∈ s.rows.flatten := by rw [hrows]; simp
  refine walking_pair (X := [y]) tx' h hlay hrows hfam le_rfl hreg.left_lo hreg.left_loc
    (by simpa using hreg.edges) hlevel hmax hmin (by omega) ?_ hx hH ?_ ?_ ?_
  · rw [hreg.right_loc]
    exact .same (h.nodup_branches (X := [x, y]) hrows)
  · rw [htx]
    have hloc : y.ref.2 = y'.loc := hreg.right_loc.symm
    simp only [hloc]
    rfl
  · rw [htx]
    exact hfresh.nodup
  · rw [htx]
    intro a ha
    refine ⟨hfresh.unused a ha, ?_⟩
    rw [hreg.right_loc]
    exact fun heq => hfresh.unused a ha (heq ▸ Represents.branch_loc_mem hy)

theorem rotateInternal_ok (hrows : s.rows = U ++ (A ++ p :: B) :: (G ++ (c :: H)) :: D)
    (hfam : Family ref A p B E F G [c] H) (hk : At lo k c H)
    (hfull : c.keys.length = lay.maxInternalNodeEntries) {sibling : Sibling InternalNode}
    (hsib : SiblingOf (fun loc => tx.index.readInternal loc (D.length + 1)) E F sibling)
    (hlt : sibling.node.keys.length < lay.maxInternalNodeEntries - 1)
    (hok : rotateInternal pr lay tx k p.loc (branchNode p) c.loc (branchNode c) E.length sibling =
      .ok (tx', nextLoc, next)) :
    Walking lay tx' tx.index.entryLeaf s.leaves k D nextLoc next := by
  have hrow : s.rows = (U ++ [A ++ p :: B]) ++ (G ++ (c :: H)) :: D := by simp [hrows]
  obtain ⟨-, -, hok⟩ := bind_eq_ok hok
  obtain ⟨excess, hexcess, hok⟩ := bind_eq_ok hok
  rw [branchNode_keys, hfull] at hexcess
  obtain ⟨hcount, hless⟩ := rotateCount_bounds hlt hexcess
  obtain ⟨-, -, hok⟩ := bind_eq_ok hok
  have hread_eq : ∀ g ∈ G ++ (c :: H), ∀ n,
      tx.index.readInternal g.ref.2 (D.length + 1) = .ok n → branchNode g = n := by
    intro g hg n hn
    have hmem : g ∈ s.rows.flatten := by
      rw [hrow]
      simp only [flatten_append, flatten_cons, mem_append] at hg ⊢
      tauto
    have hread := readInternal_eq (h.stored_branch hmem) (level_of_rows h hrow hg)
    exact Except.ok.inj (hread.symm.trans hn)
  rcases hsib with ⟨hleft, E', d, rfl, hloc, hread⟩ | ⟨hright, d, F', rfl, hloc, hread⟩
  · obtain ⟨G', g, rfl, rfl, hfam'⟩ := hfam.left
    have hrows' : s.rows = U ++ (A ++ p :: B) :: (G' ++ (g :: c :: H)) :: D := by
      rw [hrows]
      simp
    have hnode := hread_eq g (by simp) _ hread
    have hedges : p.edges = E' ++ g.ref :: c.ref :: F := hfam'.edges
    simp only [hleft, ↓reduceIte, length_append, length_singleton, Nat.add_sub_cancel,
      separatorKey_at hedges, hloc] at hok
    obtain ⟨-, -, hok⟩ := bind_eq_ok hok
    obtain ⟨⟨left, right, key⟩, hres, hok⟩ := bind_eq_ok hok
    rw [← hnode] at hres hless
    obtain ⟨x', y', hxy, hreg, hlen, hlen', -, hmin⟩ := rotateLeft_ok (by omega) hres
    cases hxy
    have hgmin := branch_min_below h hrows' (n := g) (by simp)
    have hlo : g.lo < c.lo := by
      have hasc := row_ascending h hrow
      simp only [append_assoc, map_append, singleton_append, map_cons] at hasc
      exact (pairwise_cons.mp hasc.append_right).1 c.ref mem_cons_self
    simp only [branchNode_keys] at hless
    obtain ⟨hwl, hwr⟩ := walking_regroup h hfresh hlay hrows' hfam' hreg (by simp; omega)
      (by simp; omega) (hlo.le.trans hk.1) hk.2 rfl
    split at hok
    next hkey =>
      cases hok
      exact hwl hkey
    next hkey =>
      cases hok
      exact hwr (not_lt.mp hkey)
  · obtain ⟨g, H', rfl, rfl, hfam'⟩ := hfam.right
    have hnode := hread_eq g (by simp) _ hread
    have hedges : p.edges = E ++ c.ref :: g.ref :: F' := hfam'.edges
    simp only [hright, Bool.false_eq_true, ↓reduceIte, separatorKey_at hedges, hloc] at hok
    obtain ⟨⟨left, right, key⟩, hres, hok⟩ := bind_eq_ok hok
    rw [← hnode] at hres hless
    obtain ⟨x', y', hxy, hreg, hlen, hlen', -, hmin⟩ := rotateRight_ok (by omega) hres
    cases hxy
    have hgmin := branch_min_below h hrows (n := g) (by simp)
    simp only [branchNode_keys] at hless
    obtain ⟨hwl, hwr⟩ := walking_regroup h hfresh hlay hrows hfam' hreg (by simp; omega)
      (by simp; omega) hk.1 (fun n hn => hk.2 n (mem_cons_of_mem _ hn)) rfl
    split at hok
    next hkey =>
      cases hok
      exact hwr hkey
    next hkey =>
      cases hok
      exact hwl (not_le.mp hkey)

theorem splitInternal_ok (hrows : s.rows = U ++ (A ++ p :: B) :: (G ++ (c :: H)) :: D)
    (hfam : Family ref A p B E F G [c] H) (hk : At lo k c H)
    (hok : splitInternal lay tx k p.loc (branchNode p) c.loc (branchNode c) E.length =
      .ok (tx', nextLoc, next)) :
    Walking lay tx' tx.index.entryLeaf s.leaves k D nextLoc next := by
  have hc : c ∈ s.rows.flatten := by rw [hrows]; simp
  have hcmax := (h.branchFill c hc).le_max
  have hone := hlay.one_le_minInternal
  obtain ⟨⟨loc, tx1⟩, halloc, hok⟩ := bind_eq_ok hok
  obtain ⟨htx, hunused, hloc, hfresh'⟩ := allocate_ok hfresh halloc
  obtain ⟨index, free⟩ := tx1
  obtain rfl : index = tx.index := htx
  obtain ⟨⟨left, right, key⟩, hsplit, hok⟩ := bind_eq_ok hok
  obtain ⟨parent, hparent, hok⟩ := bind_eq_ok hok
  obtain ⟨x', y', hxy, hxlevel, hxloc, hxlo, hylevel, rfl, hedges', hlen, hxmin, hymin⟩ :=
    split_ok loc hone hsplit
  cases hxy
  have hedges : p.edges = E ++ c.ref :: F := hfam.edges
  obtain ⟨hroom, rfl⟩ := insert_at hedges hparent
  have hpmax := (h.branchFill p (by rw [hrows]; simp)).le_max
  rw [keys_length_of_edges hedges] at hroom hpmax
  have hlevel : ∀ n ∈ [x', y'], n.level = c.level := by
    intro n hn
    rcases mem_pair.mp hn with rfl | rfl
    · exact hxlevel
    · exact hylevel
  obtain ⟨hwl, hwr⟩ := walking_pair (X := [])
    (Transaction.stage ⟨tx.index, free⟩ [branchAt (p.withEdges (E ++ c.ref :: y'.ref :: F)
      (by simp)), branchAt x', branchAt y']) h hlay hrows hfam (Nat.zero_le 1)
    hxlo hxloc (by simpa using hedges') hlevel (by simp; omega) (by simp; omega) (by omega)
    (.new (Represents.branch_loc_mem hc) hunused) hk.1 hk.2 rfl hfresh'.nodup
    fun a ha => ⟨hfresh'.unused a ha, fun heq => hloc (heq ▸ ha)⟩
  simp only [branchAt, hxloc] at hwl hwr
  split at hok
  next hkey =>
    cases hok
    exact hwr hkey
  next hkey =>
    cases hok
    exact hwl (not_le.mp hkey)

theorem splitRootInternal_ok (hrows : s.rows = [c] :: D)
    (hok : splitRootInternal lay tx k (branchNode c) = .ok (tx', nextLoc, next)) :
    Walking lay tx' tx.index.entryLeaf s.leaves k D nextLoc next := by
  have hc : c ∈ s.rows.flatten := by rw [hrows]; simp
  have hcmax := (h.branchFill c hc).le_max
  have hone := hlay.one_le_minInternal
  obtain ⟨m, hm, hroot, hzero⟩ := h.root_branch hrows
  cases hm
  have hclevel : c.level = D.length + 1 :=
    level_of_rows h (U := []) (R := [c]) hrows (by simp)
  have hlevels : tx.index.levels = c.level + 1 := by
    rw [h.levels_eq, hrows, length_cons, hclevel]
  obtain ⟨⟨rootLoc, loc, tx1⟩, halloc, hok⟩ := bind_eq_ok hok
  obtain ⟨htx, hrootLoc, hunused, hne, hfree, hloc, hfresh'⟩ := allocateTwo_ok hfresh halloc
  obtain ⟨index, free⟩ := tx1
  obtain rfl : index = tx.index := htx
  obtain ⟨⟨left, right, key⟩, hsplit, hok⟩ := bind_eq_ok hok
  obtain ⟨root, hnew, hok⟩ := bind_eq_ok hok
  obtain ⟨x', y', hxy, hxlevel, hxloc, hxlo, hylevel, rfl, hedges', hlen, hxmin, hymin⟩ :=
    split_ok loc hone hsplit
  cases hxy
  obtain ⟨-, hnew⟩ := of_ite_err hnew
  cases hnew
  have hlevel : ∀ n ∈ [x', y'], n.level = c.level := by
    intro n hn
    rcases mem_pair.mp hn with rfl | rfl
    · exact hxlevel
    · exact hylevel
  have hplaced : Placed s [c.loc] [rootLoc, x'.loc, y'.loc] := by
    have hmem := Represents.branch_loc_mem hc
    have hpl := Placed.new hmem hunused
    rw [hxloc]
    have hlr : rootLoc ≠ c.loc := fun heq => hrootLoc (heq ▸ hmem)
    refine ⟨by simpa [hlr, hne] using hpl.nodup, ?_⟩
    intro a ha
    rcases mem_cons.mp ha with rfl | ha
    · exact .inr hrootLoc
    · exact hpl.placed a ha
  have hrep := h.growBranch (r := rootBranch (c.level + 1) rootLoc x'.ref y'.ref) hlay hrows hxlo
    hedges' hlevel (by simp; omega) (by simp; omega) rfl rfl hplaced
  rw [hlevels] at hrep
  have hnewFresh : ∀ a ∈ free, Shape.Unused
      ⟨s.leaves, [rootBranch (c.level + 1) rootLoc x'.ref y'.ref] :: [x', y'] :: D⟩ a := by
    intro a ha
    have hold := hfresh'.unused a ha
    have har : a ≠ rootLoc := fun heq => hfree (heq ▸ ha)
    have hay : a ≠ y'.loc := fun heq => hloc (heq ▸ ha)
    simp only [Shape.Unused, Shape.nodes, hrows, map_append, flatten_cons,
      map_fst_branchAt, map_fst_leafAt, mem_append, not_or] at hold ⊢
    refine ⟨hold.1, ?_, ?_, hold.2.2⟩
    · simpa [rootBranch] using har
    · simpa [hxloc, hay] using hold.2.1
  have hroot' : tx.index.root = x'.loc := hroot.symm.trans hxloc.symm
  simp only [hlevels, hroot'] at hok
  split at hok
  next hkey =>
    cases hok
    refine ⟨_, [[rootBranch (c.level + 1) rootLoc x'.ref y'.ref]], [x'], y', [], hrep,
      ⟨hfresh'.nodup, hnewFresh⟩, rfl, rfl, rfl, rfl, rfl, ⟨hkey, by simp⟩, by omega⟩
  next hkey =>
    cases hok
    refine ⟨_, [[rootBranch (c.level + 1) rootLoc x'.ref y'.ref]], [], x', [y'], hrep,
      ⟨hfresh'.nodup, hnewFresh⟩, rfl, rfl, rfl, rfl, rfl, ⟨?_, ?_⟩, by omega⟩
    · rw [hxlo, hzero]
      exact Nat.zero_le k
    · simpa using hkey

end

theorem rotateSplitWalk_ok (hlay : lay.Balanced)
    (hinode : u.inode ≠ noInode) {leaves L : List IndexLeaf} {entryLeaf : Nat}
    (hleaves : leaves = C ++ (l :: L)) (hk : At Leaf.lo u.inode l L) (D : List (List IndexBranch)) :
    ∀ (tx : Transaction) (loc : Nat) (node : InternalNode),
      Walking lay tx entryLeaf leaves u.inode D loc node →
      rotateSplitWalk pr lay u l.loc (leafNode l) (D.length + 1) tx loc node = .ok tx' →
      Inserted lay tx'.index entryLeaf (contents leaves) u.inode (u.entry none) := by
  induction D with
  | nil =>
    intro tx loc node hw hok
    obtain ⟨s, U, A, q, B, h, hfresh, rfl, rfl, hrows, rfl, rfl, hq, hlt⟩ := hw
    have hlevels := h.levels
    rw [hrows] at hlevels
    obtain ⟨mid, -, -, -, hbottom⟩ := levels_append.mp hlevels
    have hasc := h.ordered.ascending_refs
    obtain ⟨E, x, F, C', L', hx, hfam, hkF, hkx⟩ := exists_child_at hbottom.symm hasc hq
    obtain ⟨rfl, rfl, rfl⟩ := hkx.unique hk (hx.symm.trans hleaves)
    have hqasc : Ascending q.edges := (hbottom ▸ hasc).edges
    rw [length_nil, Nat.zero_add, rotateSplitWalk,
      lookupChild_at hfam.edges hqasc hkF, ok_bind] at hok
    exact splitLeaf_ok h hlay hfresh hrows hx hfam hk hinode hok
  | cons row D ih =>
    intro tx loc node hw hok
    obtain ⟨s, U, A, q, B, h, hfresh, rfl, rfl, hrows, rfl, rfl, hq, hlt⟩ := hw
    have hlevels := h.levels
    rw [hrows] at hlevels
    obtain ⟨mid, -, -, -, hrow, -, hD⟩ := levels_append.mp hlevels
    have hasc := row_ascending h (U := U ++ [A ++ q :: B]) (R := row) (D := D) (by simp [hrows])
    obtain ⟨E, c, F, G, H, rfl, hfam, hkF, hkc⟩ := exists_child_at hrow hasc hq
    have hqasc : Ascending q.edges := (hrow ▸ hasc).edges
    have hc : c ∈ s.rows.flatten := by rw [hrows]; simp
    have hclevel : c.level = D.length + 1 :=
      level_of_rows h (U := U ++ [A ++ q :: B]) (R := G ++ c :: H) (by simp [hrows]) (by simp)
    have hread := readInternal_eq (h.stored_branch hc) hclevel
    rw [length_cons, rotateSplitWalk, lookupChild_at hfam.edges hqasc hkF, ok_bind,
      childPtr_at hfam.edges, ok_bind, show c.ref.2 = c.loc from rfl, hread, ok_bind] at hok
    split at hok
    next hfull =>
      obtain ⟨⟨i, sibling⟩, hchoose, hok⟩ := bind_eq_ok hok
      obtain ⟨rfl, hsib⟩ := chooseSibling_ok hfam.edges hqasc hkF hchoose
      cases sibling with
      | some sibling =>
        obtain ⟨hlt', hof⟩ := hsib sibling rfl
        obtain ⟨⟨tx1, nextLoc, next⟩, hrot, hok⟩ := bind_eq_ok hok
        exact ih tx1 nextLoc next
          (rotateInternal_ok h hfresh hlay hrows hfam hkc hfull hof hlt' hrot) hok
      | none =>
        obtain ⟨-, -, hok⟩ := bind_eq_ok hok
        obtain ⟨⟨tx1, nextLoc, next⟩, hsplit, hok⟩ := bind_eq_ok hok
        exact ih tx1 nextLoc next (splitInternal_ok h hfresh hlay hrows hfam hkc hsplit) hok
    next hfull =>
      refine ih tx c.loc (branchNode c) ?_ hok
      have hle := (h.branchFill c hc).le_max
      exact ⟨s, U ++ [A ++ q :: B], G, c, H, h, hfresh, rfl, rfl, by simp [hrows], rfl, rfl, hkc,
        lt_of_le_of_ne hle hfull⟩

theorem rotateSplitWalkFromRoot_ok
    (h : Represents lay tx.index s) (hfresh : tx.Fresh s) (hlay : lay.Balanced)
    (hinode : u.inode ≠ noInode) {L : List IndexLeaf}
    (hleaves : s.leaves = C ++ (l :: L)) (hk : At Leaf.lo u.inode l L) (hrows : s.rows ≠ [])
    (hok : rotateSplitWalkFromRoot pr lay tx u l.loc (leafNode l) = .ok tx') :
    Inserted lay tx'.index tx.index.entryLeaf (contents s.leaves) u.inode (u.entry none) := by
  obtain ⟨row, D, hD⟩ := exists_cons_of_ne_nil hrows
  obtain ⟨c, rfl, hroot, hzero⟩ := h.root_branch hD
  have hc : c ∈ s.rows.flatten := by rw [hD]; simp
  have hclevel : c.level = D.length + 1 :=
    level_of_rows h (U := []) (R := [c]) hD (by simp)
  obtain ⟨-, -, hok⟩ := bind_eq_ok hok
  simp only [h.levels_eq, hD, length_cons, Nat.add_sub_cancel, ← hroot,
    readInternal_eq (h.stored_branch hc) hclevel, ok_bind] at hok
  split at hok
  next hfull =>
    obtain ⟨⟨tx1, nextLoc, next⟩, hsplit, hok⟩ := bind_eq_ok hok
    exact rotateSplitWalk_ok hlay hinode hleaves hk D tx1 nextLoc next
      (splitRootInternal_ok h hfresh hlay hD hsplit) hok
  next hfull =>
    refine rotateSplitWalk_ok hlay hinode hleaves hk D tx c.loc (branchNode c) ?_ hok
    have hle := (h.branchFill c hc).le_max
    exact ⟨s, [], [], c, [], h, hfresh, rfl, rfl, hD, rfl, rfl,
      ⟨by rw [hzero]; exact Nat.zero_le _, by simp⟩, lt_of_le_of_ne hle hfull⟩

theorem lookupForInsert_ok {found : LookupForInsertResult} (h : Represents lay t s)
    (hok : lookupForInsert lay t k = .ok found) :
    ∃ C l L, s.leaves = C ++ l :: L ∧ At Leaf.lo k l L ∧ found.leafLoc = l.loc ∧
      found.leaf = leafNode l ∧ found.preexistingEntry = (contents s.leaves).lookup k ∧
      (¬(found.preexistingEntry.isSome ∨ l.entries.length < lay.maxLeafNodeEntries) →
        s.rows = [] ∧ found.leafParent = none ∨
          ∃ U A p B E F, s.rows = U ++ [A ++ p :: B] ∧
            found.leafParent = some (p.loc, branchNode p) ∧ Family Leaf.ref A p B E F C [l] L ∧
            At Prod.fst k l.ref F) := by
  obtain ⟨⟨parent, leafLoc, leaf⟩, hwalk, hok⟩ := bind_eq_ok hok
  obtain ⟨entry, hentry, hok⟩ := bind_eq_ok hok
  cases hok
  rcases eq_nil_or_concat' s.rows with hnil | ⟨U, row, hrows⟩
  · obtain ⟨C, l, L, hl, hk, hw⟩ := h.walk_leaf visitLeafParent k none (by simp [hnil])
    cases hw.symm.trans hwalk
    refine ⟨C, l, L, hl, hk, rfl, rfl, ?_, fun hfull => .inl ⟨hnil, if_neg hfull⟩⟩
    exact Except.ok.inj (hentry.symm.trans (h.lookupEntry_eq hl hk))
  · obtain ⟨A, p, B, C, l, L, E, F, rfl, -, hl, hk, hfam, hkF, hw⟩ := h.walk_parent visitLeafParent
      hrows k none fun n hn i => if_neg hn
    cases hw.symm.trans hwalk
    have hplevel : p.level = 1 := level_of_rows h (D := []) (R := A ++ p :: B) hrows (by simp)
    refine ⟨C, l, L, hl, hk, rfl, rfl, ?_, fun hfull => .inr ⟨U, A, p, B, E, F, hrows, ?_, hfam, hkF⟩⟩
    · exact Except.ok.inj (hentry.symm.trans (h.lookupEntry_eq hl hk))
    · exact (if_neg hfull).trans (if_pos hplevel)

variable {flags mask : BitVec 32} {ptr : BitVec 64}

theorem entry_of_upToDate {inode : Nat} {e : InodeEntry}
    (hflags : (e.flags ^^^ (Update.new inode flags mask ptr).flags) &&& mask = 0)
    (hptr : e.extentPtr = ptr) : (Update.new inode flags mask ptr).entry (some e) = e := by
  obtain ⟨old, oldPtr⟩ := e
  cases hptr
  have hold : (old &&& ~~~mask) ||| (flags &&& mask) = old := by
    apply BitVec.eq_of_getLsbD_eq
    intro i hi
    have hzero : (0 : BitVec 32).getLsbD i = false := BitVec.getLsbD_zero
    have hbit := congrArg (fun b : BitVec 32 => b.getLsbD i) hflags
    simp only [Update.new, BitVec.getLsbD_and, BitVec.getLsbD_xor, hzero] at hbit
    simp only [BitVec.getLsbD_or, BitVec.getLsbD_and, BitVec.getLsbD_not, hi, decide_true,
      Bool.true_and]
    revert hbit
    cases old.getLsbD i <;> cases flags.getLsbD i <;> cases mask.getLsbD i <;> decide
  simp only [Update.entry, Update.new, Option.map_some, Option.getD_some, hold]

theorem insertEntry_ok {inode : Nat}
    (h : Represents lay tx.index s) (hlay : lay.Balanced) (hfresh : tx.Fresh s)
    (hinode : inode ≠ noInode)
    (hok : insert pr lay tx (Update.new inode flags mask ptr) = .ok tx') :
    Inserted lay tx'.index tx.index.entryLeaf (contents s.leaves) inode
      ((Update.new inode flags mask ptr).entry ((contents s.leaves).lookup inode)) := by
  obtain ⟨found, hfound, hok⟩ := bind_eq_ok hok
  obtain ⟨C, l, L, hl, hk, hloc, hleaf, hpre, hparent⟩ := lookupForInsert_ok h hfound
  have hasc : Ascending (contents s.leaves) := h.ordered.ascending_contents
  rw [insertEntry, hleaf, hloc, hpre] at hok
  rw [hpre] at hparent
  split at hok
  next huptodate =>
    cases hok
    cases hlookup : (contents s.leaves).lookup inode with
    | none =>
      rw [show (Update.new inode flags mask ptr).inode = inode from rfl, hlookup] at huptodate
      cases huptodate
    | some e =>
      rw [show (Update.new inode flags mask ptr).inode = inode from rfl, hlookup] at huptodate
      simp only [Option.any_some, decide_eq_true_eq] at huptodate
      rw [entry_of_upToDate huptodate.1 huptodate.2]
      obtain ⟨P, Q, hPQ⟩ := append_of_mem (hasc.lookup_eq_some_iff.mp hlookup)
      exact ⟨s, h, rfl, P, Q, hPQ, .inr ⟨e, hPQ⟩⟩
  next hold =>
    split at hok
    next hroom =>
      obtain ⟨n, hn, hok⟩ := bind_eq_ok hok
      cases hok
      exact insert_leaf h hlay hl hk hinode hn
    next hfull =>
      have hnone : (contents s.leaves).lookup inode = none :=
        Option.not_isSome_iff_eq_none.mp fun hsome => hfull (.inl hsome)
      have hlen : l.entries.length = lay.maxLeafNodeEntries :=
        le_antisymm (h.leafFill l (by rw [hl]; simp)).le_max (not_lt.mp fun hlt => hfull (.inr hlt))
      rw [hnone]
      rcases hparent hfull with ⟨hrows, hp⟩ | ⟨U, A, p, B, E, F, hrows, hp, hfam, hkF⟩
      · obtain ⟨m, hm, -, -⟩ := h.leaves_singleton hrows
        obtain ⟨rfl, rfl, rfl⟩ : C = [] ∧ l = m ∧ L = [] := by
          have hone := hl.symm.trans hm
          cases C with
          | nil => simpa using hone
          | cons c C => simp at hone
        simp only [hp] at hok
        obtain ⟨-, -, hok⟩ := bind_eq_ok hok
        exact splitRootLeaf_ok h hlay hfresh hrows hm hk hinode hok
      · simp only [hp] at hok
        have hpasc : Ascending p.edges := by
          have hlevels := h.levels
          rw [hrows] at hlevels
          obtain ⟨mid, -, -, -, hbottom⟩ := levels_append.mp hlevels
          have hbottom : (A ++ p :: B).flatMap edges = s.leaves.map Leaf.ref := hbottom
          exact (hbottom ▸ h.ordered.ascending_refs).edges
        obtain ⟨⟨i, sibling⟩, hchoose, hok⟩ := bind_eq_ok hok
        obtain ⟨rfl, hsib⟩ := chooseSibling_ok hfam.edges hpasc hkF hchoose
        cases sibling with
        | some sibling =>
          obtain ⟨hlt, hof⟩ := hsib sibling rfl
          exact rotateLeaf_ok h hlay hrows hl hfam hk hinode hlen hof hlt hok
        | none =>
          simp only at hok
          split at hok
          · exact splitLeaf_ok h hlay hfresh hrows hl hfam hk hinode hok
          · exact rotateSplitWalkFromRoot_ok h hfresh hlay hinode hl hk (by simp [hrows]) hok

end Steps

/-- A successful insertion leaves a valid tree with the entry leaf in place,
and lookups find what they did before except for the inserted inode. -/
theorem insert_valid_lookup {pr pr' : Profile} {leafLog2 internalLog2 leafLen internalLen : Nat}
    {lay : TreeLayout} {s : Shape} {tx tx' : Transaction} {inode : Nat} {flags mask : BitVec 32}
    {ptr : BitVec 64}
    (hnew : TreeLayout.new pr' leafLog2 internalLog2 leafLen internalLen = .ok lay)
    (h : Represents lay tx.index s) (hfresh : tx.Fresh s) (hinode : inode ≠ noInode)
    (hok : insert pr lay tx (Update.new inode flags mask ptr) = .ok tx') :
    Valid lay tx'.index ∧ tx'.index.entryLeaf = tx.index.entryLeaf ∧
      (∀ i ∈ specialInodes, i ≠ inode →
        tx'.index.lookupInEntryLeaf i = tx.index.lookupInEntryLeaf i) ∧
      ∃ old, tx.index.lookup inode = .ok old ∧ ∀ k, tx'.index.lookup k =
        if k = inode then .ok (some ((Update.new inode flags mask ptr).entry old))
        else tx.index.lookup k := by
  obtain ⟨s', hrep, hentry, hupd⟩ := insertEntry_ok h (balanced_of_new hnew) hfresh hinode hok
  have hlookup : ∀ k, tx'.index.lookup k =
      if k = inode then .ok (some ((Update.new inode flags mask ptr).entry
        ((contents s.leaves).lookup inode)))
      else tx.index.lookup k := by
    intro k
    rw [hrep.lookup_eq, h.lookup_eq,
      hupd.lookup_eq h.ordered.ascending_contents hrep.ordered.ascending_contents]
    split
    · rfl
    · rfl
  refine ⟨⟨s', hrep⟩, hentry, ?_, _, h.lookup_eq inode, hlookup⟩
  intro i hi hne
  rw [hrep.lookupInEntryLeaf_eq hi, h.lookupInEntryLeaf_eq hi, hlookup, if_neg hne]

def sampleTransaction : Transaction := { index := sampleIndex, free := [9, 10] }

theorem insert_valid_lookup_sample :
    ∃ tx', insert .debug sampleLayout sampleTransaction (Update.new 31 1 1 7) = .ok tx' ∧
      Valid sampleLayout tx'.index := by
  obtain ⟨tx', hok⟩ := exists_ok_of_isOk
    (x := insert .debug sampleLayout sampleTransaction (Update.new 31 1 1 7)) (by decide)
  exact ⟨tx', hok, (insert_valid_lookup sampleLayout_new sample_represents
    ⟨by decide, by decide⟩ (by decide) hok).1⟩

end CocoonFs.IndexInsert
