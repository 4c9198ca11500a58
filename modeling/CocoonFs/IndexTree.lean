import CocoonFs.IndexNodeSpecs

namespace CocoonFs.IndexTree

open Checked LevelTree IndexNodes List
open Prod (fst snd)

/-- The inode index as seen through a transaction: a node read is the one
written last, wherever it is cached or staged. -/
structure Index where
  nodes : Nat → Option Node
  root : Nat
  levels : Nat
  entryLeaf : Nat

namespace Index

def readLeaf (t : Index) (loc : Nat) : Comp LeafNode :=
  match t.nodes loc with
  | some (.leaf n) => .ok n
  | _ => formatErr .invalidIndexNode

def readInternal (t : Index) (loc level : Nat) : Comp InternalNode :=
  match t.nodes loc with
  | some (.internal n) => if n.level = level then .ok n else formatErr .invalidIndexNode
  | _ => formatErr .invalidIndexNode

/-- The walk from a node down to the leaf for a key. What is to be found out on
the way depends on what the walk is for. -/
def walk {σ : Type} (t : Index) (visit : σ → Nat → InternalNode → Nat → σ) (key : Nat) :
    Nat → Nat → σ → Comp (σ × Nat × LeafNode)
  | 0, loc, s => do
    let n ← t.readLeaf loc
    .ok (s, loc, n)
  | level + 1, loc, s => do
    let n ← t.readInternal loc (level + 1)
    let i ← n.lookupChild key
    let child ← n.childPtr i
    walk t visit key level child (visit s loc n i)

/-- InodeIndexLookupFuture -/
def lookup (t : Index) (inode : Nat) : Comp (Option InodeEntry) := do
  let (_, _, n) ← t.walk (fun s _ _ _ => s) inode (t.levels - 1) t.root ()
  n.lookupEntry inode

def lookupInEntryLeaf (t : Index) (inode : Nat) : Comp (Option InodeEntry) := do
  let n ← t.readLeaf t.entryLeaf
  n.lookupEntry inode

end Index

structure Shape where
  leaves : List IndexLeaf
  rows : List (List IndexBranch)

def leafAt (l : IndexLeaf) : Nat × Node := (l.loc, .leaf (leafNode l))

def branchAt (n : IndexBranch) : Nat × Node := (n.loc, .internal (branchNode n))

@[simp] theorem leafAt_fst (l : IndexLeaf) : (leafAt l).1 = l.loc := rfl

@[simp] theorem branchAt_fst (n : IndexBranch) : (branchAt n).1 = n.loc := rfl

def Shape.nodes (s : Shape) : List (Nat × Node) :=
  s.leaves.map leafAt ++ s.rows.flatten.map branchAt

@[mk_iff] structure LeafFill (lay : TreeLayout) (root : Nat) (l : IndexLeaf) : Prop where
  le_max : l.entries.length ≤ lay.maxLeafNodeEntries
  min_le : l.loc ≠ root → lay.minLeafNodeEntries ≤ l.entries.length

instance (lay : TreeLayout) (root : Nat) (l : IndexLeaf) : Decidable (LeafFill lay root l) :=
  decidable_of_iff _ (leafFill_iff lay root l).symm

@[mk_iff] structure BranchFill (lay : TreeLayout) (root : Nat) (n : IndexBranch) : Prop where
  le_max : n.keys.length ≤ lay.maxInternalNodeEntries
  one_le : 1 ≤ n.keys.length
  min_le : n.loc ≠ root → lay.minInternalNodeEntries ≤ n.keys.length

instance (lay : TreeLayout) (root : Nat) (n : IndexBranch) : Decidable (BranchFill lay root n) :=
  decidable_of_iff _ (branchFill_iff lay root n).symm

def EntryLeaf (loc : Nat) (ls : List IndexLeaf) : Prop :=
  ∃ l rest, ls = l :: rest ∧ l.loc = loc ∧ ∀ i ∈ specialInodes, i ∈ l.entries.map fst

/-- A B+-tree: the rows of nodes partition the leaves, with all of them stored
and filled up enough, the leaves' keys in ascending order and the leaves chained
up in that order. -/
structure Represents (lay : TreeLayout) (t : Index) (s : Shape) : Prop where
  levels_eq : t.levels = s.rows.length + 1
  levels : Levels 0 s.rows [(0, t.root)] (s.leaves.map Leaf.ref)
  stored : Stored t.nodes s.nodes
  ordered : Ordered s.leaves
  linked : Linked s.leaves none
  leafFill : ∀ l ∈ s.leaves, LeafFill lay t.root l
  branchFill : ∀ n ∈ s.rows.flatten, BranchFill lay t.root n
  entry : EntryLeaf t.entryLeaf s.leaves
  inodes : ∀ e ∈ contents s.leaves, e.1 ≠ noInode

def Valid (lay : TreeLayout) (t : Index) : Prop := ∃ s, Represents lay t s

theorem readLeaf_eq {t : Index} {loc : Nat} {n : LeafNode} (h : t.nodes loc = some (.leaf n)) :
    t.readLeaf loc = .ok n := by
  rw [Index.readLeaf, h]

theorem readInternal_eq {t : Index} {loc level : Nat} {n : InternalNode}
    (h : t.nodes loc = some (.internal n)) (hl : n.level = level) :
    t.readInternal loc level = .ok n := by
  simp only [Index.readInternal, h, if_pos hl]

variable {n : IndexBranch} {rows : List (List IndexBranch)} {r : Nat × Nat}

section Walk

variable {σ : Type} {t : Index} (visit : σ → Nat → InternalNode → Nat → σ) {k : Nat}

theorem walk_step {A B : List IndexBranch} {l : Nat} (s : σ)
    (hn : t.nodes n.loc = some (.internal (branchNode n))) (hlevel : n.level = l + 1)
    (hasc : Ascending ((A ++ n :: B).flatMap Branch.edges)) (hk : At Branch.lo k n B) :
    ∃ E e F, n.edges = E ++ e :: F ∧ At fst k e F ∧
      t.walk visit k (l + 1) n.loc s = t.walk visit k l e.2 (visit s n.loc (branchNode n) E.length) := by
  obtain ⟨E, e, F, hE, he⟩ := exists_edge_at hasc hk.1
  refine ⟨E, e, F, hE, he, ?_⟩
  rw [Index.walk, readInternal_eq hn hlevel, ok_bind, lookupChild_at hE hasc.edges he, ok_bind,
    childPtr_at hE, ok_bind]

theorem walk_skip {d : Nat} {top mid A B : List (Nat × Nat)}
    (s : σ) (hv : ∀ n ∈ rows.flatten, ∀ i, visit s n.loc (branchNode n) i = s)
    (hst : ∀ n ∈ rows.flatten, t.nodes n.loc = some (.internal (branchNode n)))
    (h : Levels d rows top mid) (hasc : Ascending mid) (htop : top = A ++ r :: B)
    (hk : At fst k r B) :
    ∃ A' r' B', mid = A' ++ r' :: B' ∧ At fst k r' B' ∧
      t.walk visit k (d + rows.length) r.2 s = t.walk visit k d r'.2 s := by
  induction rows generalizing top A r B with
  | nil => exact ⟨A, r, B, h ▸ htop, hk, rfl⟩
  | cons row rows ih =>
    obtain ⟨rfl, hlevel, hrows⟩ := h
    obtain ⟨C, n, D, rfl, -, rfl, -, hn⟩ := hk.of_map htop
    have hmem : n ∈ C ++ n :: D := by simp
    have hflat : n ∈ ((C ++ n :: D) :: rows).flatten := by
      rw [flatten_cons]
      exact mem_append_left _ hmem
    have hrest : ∀ m ∈ rows.flatten, m ∈ ((C ++ n :: D) :: rows).flatten := by
      intro m hm
      rw [flatten_cons]
      exact mem_append_right _ hm
    have hedges := hrows.ascending hasc
    obtain ⟨E, e, F, hE, he, hwalk⟩ := walk_step visit s (hst n hflat)
      (hlevel n hmem) hedges hn
    obtain ⟨hmid, hmidk⟩ := At.descend hedges hn hE he
    obtain ⟨A', r', B', hA', hr', hw⟩ := ih (fun m hm => hv m (hrest m hm))
      (fun m hm => hst m (hrest m hm)) hrows hmid hmidk
    refine ⟨A', r', B', hA', hr', ?_⟩
    rw [hv n hflat, hw] at hwalk
    exact hwalk

end Walk

namespace Represents

variable {lay : TreeLayout} {t : Index} {s : Shape}

variable {l : IndexLeaf}

theorem stored_leaf (h : Represents lay t s) (hl : l ∈ s.leaves) :
    t.nodes l.loc = some (.leaf (leafNode l)) :=
  h.stored.stored (leafAt l) (mem_append_left _ (mem_map_of_mem hl))

theorem stored_branch (h : Represents lay t s) (hn : n ∈ s.rows.flatten) :
    t.nodes n.loc = some (.internal (branchNode n)) :=
  h.stored.stored (branchAt n) (mem_append_right _ (mem_map_of_mem hn))

theorem walk_down {σ : Type} (visit : σ → Nat → InternalNode → Nat → σ) (h : Represents lay t s)
    {U D : List (List IndexBranch)} (hrows : s.rows = U ++ D) {mid A B : List (Nat × Nat)}
    {k : Nat} (hD : Levels 0 D mid (s.leaves.map Leaf.ref))
    (hmid : mid = A ++ r :: B) (hk : At fst k r B) (u : σ)
    (hv : ∀ n ∈ D.flatten, ∀ i, visit u n.loc (branchNode n) i = u) :
    ∃ A' l B', s.leaves = A' ++ l :: B' ∧ At Leaf.lo k l B' ∧
      t.walk visit k D.length r.2 u = .ok (u, l.loc, leafNode l) := by
  have hst : ∀ n ∈ D.flatten, t.nodes n.loc = some (.internal (branchNode n)) := by
    intro n hn
    exact h.stored_branch (by rw [hrows, flatten_append]; exact mem_append_right _ hn)
  obtain ⟨A', r', B', hA', hr', hwalk⟩ := walk_skip visit u hv hst hD h.ordered.ascending_refs hmid hk
  obtain ⟨C, l, B'', hl, -, rfl, -, hlk⟩ := hr'.of_map hA'
  refine ⟨C, l, B'', hl, hlk, ?_⟩
  rw [Nat.zero_add] at hwalk
  rw [hwalk, Index.walk]
  have hmem : l ∈ s.leaves := by rw [hl]; simp
  exact congrArg (· >>= fun n => .ok (u, l.loc, n)) (readLeaf_eq (h.stored_leaf hmem))

theorem walk_leaf {σ : Type} (visit : σ → Nat → InternalNode → Nat → σ) (h : Represents lay t s)
    (k : Nat) (u : σ) (hv : ∀ n ∈ s.rows.flatten, ∀ i, visit u n.loc (branchNode n) i = u) :
    ∃ A l B, s.leaves = A ++ l :: B ∧ At Leaf.lo k l B ∧
      t.walk visit k (t.levels - 1) t.root u = .ok (u, l.loc, leafNode l) := by
  rw [h.levels_eq, Nat.add_sub_cancel]
  exact h.walk_down visit (U := []) (A := []) (B := []) rfl h.levels rfl ⟨Nat.zero_le k, by simp⟩ u hv

section

variable (h : Represents lay t s)
include h

theorem root_branch {row : List IndexBranch}
    (hrows : s.rows = row :: rows) : ∃ n, row = [n] ∧ n.loc = t.root ∧ n.lo = 0 := by
  have hlevels := h.levels
  rw [hrows] at hlevels
  obtain ⟨n, rfl, hn⟩ := map_eq_singleton_iff.mp hlevels.1
  exact ⟨n, rfl, congrArg snd hn, congrArg fst hn⟩

theorem leaf_loc_ne (hl : l ∈ s.leaves) (hn : n ∈ s.rows.flatten) : l.loc ≠ n.loc := by
  have hdist := h.stored.distinct
  rw [Shape.nodes, map_append, nodup_append, List.map_map, List.map_map] at hdist
  exact hdist.2.2 l.loc (mem_map_of_mem hl) n.loc (mem_map_of_mem hn)

theorem leaf_loc_ne_root (hrows : s.rows ≠ []) (hl : l ∈ s.leaves) : l.loc ≠ t.root := by
  obtain ⟨row, rows, hr⟩ := exists_cons_of_ne_nil hrows
  obtain ⟨n, rfl, hn, -⟩ := h.root_branch hr
  rw [← hn]
  exact h.leaf_loc_ne hl (by rw [hr]; simp)

theorem leaves_singleton (hrows : s.rows = []) :
    ∃ l, s.leaves = [l] ∧ l.loc = t.root ∧ l.lo = 0 := by
  have hlevels := h.levels
  rw [hrows] at hlevels
  obtain ⟨l, hl, href⟩ := map_eq_singleton_iff.mp hlevels.symm
  exact ⟨l, hl, congrArg snd href, congrArg fst href⟩

theorem entries_ne_nil (hmin : 1 ≤ lay.minLeafNodeEntries)
    (hl : l ∈ s.leaves) : l.entries ≠ [] := by
  by_cases hrows : s.rows = []
  · obtain ⟨m, hm, -, -⟩ := h.leaves_singleton hrows
    obtain ⟨e, rest, he, -, hspecial⟩ := h.entry
    obtain ⟨x, hx, -⟩ := mem_map.mp (hspecial 1 (by decide))
    rw [hm] at he hl
    cases he
    cases mem_singleton.mp hl
    exact ne_nil_of_mem hx
  · have hlen := (h.leafFill l hl).min_le (h.leaf_loc_ne_root hrows hl)
    exact ne_nil_of_length_pos (hmin.trans hlen)

theorem lookupEntry_eq {A B : List IndexLeaf} {k : Nat}
    (hl : s.leaves = A ++ l :: B) (hk : At Leaf.lo k l B) :
    (leafNode l).lookupEntry k = .ok ((contents s.leaves).lookup k) := by
  have hord := hl ▸ h.ordered
  have hasc : Ascending l.entries := (hord.within l (by simp)).2
  have hcontents : (contents s.leaves).lookup k = l.entries.lookup k := by
    rw [hl]
    exact hord.ascending_contents.lookup_congr hasc fun v => hord.mem_contents_iff hk
  rw [hcontents]
  obtain ⟨C, D, hC, hD, hsplit⟩ := hasc.split_at k
  rcases hsplit with hCD | ⟨v, hCD⟩
  · have hnone : l.entries.lookup k = none := by
      rw [lookup_eq_none_iff]
      intro e he
      rw [hCD, mem_append] at he
      rcases he with he | he
      · exact bne_iff_ne.mpr (hC e he).ne'
      · exact bne_iff_ne.mpr (hD e he).ne
    rw [LeafNode.lookupEntry, lookup_absent (n := leafNode l) hCD hC hD, ok_bind, hnone]
  · have hsome : l.entries.lookup k = some v := by
      rw [hasc.lookup_eq_some_iff, hCD]
      simp
    have hget : l.entries[C.length]? = some (k, v) := by
      rw [hCD, getElem?_append_right le_rfl, Nat.sub_self, getElem?_cons_zero]
    rw [LeafNode.lookupEntry, lookup_found (n := leafNode l) hCD hC hD, ok_bind, hsome]
    simp only [leafNode_entries, hget]

theorem entryLeaf_at {i : Nat} (hi : i ∈ specialInodes) :
    ∃ l rest, s.leaves = [] ++ l :: rest ∧ l.loc = t.entryLeaf ∧ At Leaf.lo i l rest := by
  obtain ⟨l, rest, hl, hloc, hspecial⟩ := h.entry
  obtain ⟨e, he, rfl⟩ := mem_map.mp (hspecial i hi)
  have hord := h.ordered
  rw [hl] at hord
  refine ⟨l, rest, hl, hloc, (hord.within l mem_cons_self).1 e he, fun b hb => ?_⟩
  exact ((pairwise_cons.mp hord.between).1 b hb).2 e he

theorem lookup_eq (k : Nat) :
    t.lookup k = .ok ((contents s.leaves).lookup k) := by
  obtain ⟨A, l, B, hl, hk, hwalk⟩ := h.walk_leaf (fun u _ _ _ => u) k () fun _ _ _ => rfl
  simp only [Index.lookup, hwalk, ok_bind]
  exact h.lookupEntry_eq hl hk

theorem lookupInEntryLeaf_eq {i : Nat} (hi : i ∈ specialInodes) :
    t.lookupInEntryLeaf i = t.lookup i := by
  obtain ⟨l, rest, hl, hloc, hk⟩ := h.entryLeaf_at hi
  have hmem : l ∈ s.leaves := by rw [hl]; simp
  rw [Index.lookupInEntryLeaf, ← hloc, readLeaf_eq (h.stored_leaf hmem), ok_bind,
    h.lookupEntry_eq hl hk, h.lookup_eq]

end

end Represents

def plainEntry (inode : Nat) : Nat × InodeEntry := (inode, { flags := 0, extentPtr := 0 })

def sampleShape : Shape :=
  { leaves :=
      [{ loc := 0, lo := 0, entries := [plainEntry 1, plainEntry 2, plainEntry 3], next := some 1 },
        { loc := 1, lo := 16, entries := [plainEntry 16, plainEntry 17, plainEntry 18], next := some 2 },
        { loc := 2, lo := 19, entries := [plainEntry 19, plainEntry 20, plainEntry 21], next := some 3 },
        { loc := 3, lo := 22, entries := [plainEntry 22, plainEntry 23, plainEntry 24], next := some 4 },
        { loc := 4, lo := 25, entries := [plainEntry 25, plainEntry 26, plainEntry 27], next := some 5 },
        { loc := 5, lo := 28, entries := [plainEntry 28, plainEntry 29, plainEntry 30], next := none }]
    rows :=
      [[{ level := 2, loc := 8, edges := [(0, 6), (22, 7)], edges_ne := by decide }],
        [{ level := 1, loc := 6, edges := [(0, 0), (16, 1), (19, 2)], edges_ne := by decide },
          { level := 1, loc := 7, edges := [(22, 3), (25, 4), (28, 5)], edges_ne := by decide }]] }

def sampleIndex : Index :=
  { nodes := fun loc => sampleShape.nodes.lookup loc, root := 8, levels := 3, entryLeaf := 0 }

def sampleLayout : TreeLayout :=
  { encodedInternalNodeLen := 108
    maxInternalNodeEntries := 6
    minInternalNodeEntries := 2
    encodedLeafNodeLen := 112
    maxLeafNodeEntries := 5
    minLeafNodeEntries := 3 }

theorem sampleLayout_new : TreeLayout.new .debug 0 0 112 112 = .ok sampleLayout := by decide

theorem sample_represents : Represents sampleLayout sampleIndex sampleShape where
  levels_eq := rfl
  levels := ⟨rfl, by decide, rfl, by decide, rfl⟩
  stored := ⟨by decide, by decide⟩
  ordered := ⟨by decide, by decide⟩
  linked := ⟨rfl, rfl, rfl, rfl, rfl, rfl, trivial⟩
  leafFill := by decide
  branchFill := by decide
  entry := ⟨_, _, rfl, rfl, by decide⟩
  inodes := by decide

end CocoonFs.IndexTree
