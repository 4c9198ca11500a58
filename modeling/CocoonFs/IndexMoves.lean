import CocoonFs.IndexEdits

namespace CocoonFs.IndexTree

open Checked LevelTree IndexNodes List
open Branch (edges lo loc ref)

/-- What a stored leaf is, with the location and the begin of its range. -/
def leafOf (loc lo : Nat) (n : LeafNode) : IndexLeaf :=
  { loc := loc, lo := lo, entries := n.entries, next := n.next }

section

variable (loc lo : Nat) (n : LeafNode)
include loc lo n

@[simp] theorem leafOf_entries :
    (leafOf loc lo n).entries = n.entries := rfl

@[simp] theorem leafOf_next : (leafOf loc lo n).next = n.next := rfl

@[simp] theorem leafOf_loc : (leafOf loc lo n).loc = loc := rfl

@[simp] theorem leafOf_lo : (leafOf loc lo n).lo = lo := rfl

end

theorem withEdges_keys_length (n : IndexBranch) (es : List (Nat × Nat)) (h : es ≠ []) :
    (n.withEdges es h).keys.length + 1 = es.length :=
  (n.withEdges es h).keys_length

theorem Placed.same {s : Shape} {locs : List Nat} (h : locs.Nodup) : Placed s locs locs :=
  ⟨h, fun _ hl => .inl hl⟩

theorem Placed.new {s : Shape} {loc new : Nat} (hloc : loc ∈ s.nodes.map Prod.fst)
    (hnew : s.Unused new) : Placed s [loc] [loc, new] := by
  have hne : loc ≠ new := fun heq => hnew (heq ▸ hloc)
  refine ⟨by simpa using hne, ?_⟩
  intro l hl
  rcases mem_pair.mp hl with rfl | rfl
  · exact .inl (mem_singleton.mpr rfl)
  · exact .inr hnew

namespace Represents

variable {lay : TreeLayout} {t : Index} {s : Shape} {l : IndexLeaf}

theorem next_eq (h : Represents lay t s) {C X D : List IndexLeaf}
    (hleaves : s.leaves = C ++ (X ++ l :: D)) : l.next = headLoc D none := by
  have hlinked := h.linked
  rw [hleaves] at hlinked
  exact (linked_append.mp (linked_append.mp hlinked).2).2.1

theorem leaf_loc_mem (hl : l ∈ s.leaves) : l.loc ∈ s.nodes.map Prod.fst := by
  rw [Shape.nodes, map_append, map_fst_leafAt]
  exact mem_append_left _ (mem_map_of_mem hl)

theorem branch_loc_mem {n : IndexBranch} (hn : n ∈ s.rows.flatten) :
    n.loc ∈ s.nodes.map Prod.fst := by
  rw [Shape.nodes, map_append, map_fst_branchAt]
  exact mem_append_right _ (mem_map_of_mem hn)

theorem setLeaf (h : Represents lay t s) {C D : List IndexLeaf} {n : LeafNode}
    (hthree : 3 ≤ lay.minLeafNodeEntries) (hleaves : s.leaves = C ++ (l :: D))
    (hnext : n.next = l.next) (hfits : Fits l.lo D n.entries)
    (hkeeps : KeepsSpecial l.entries n.entries) (hmax : n.entries.length ≤ lay.maxLeafNodeEntries)
    (hmin : l.loc ≠ t.root → lay.minLeafNodeEntries ≤ n.entries.length) :
    Represents lay (t.stage [(l.loc, .leaf n)]) ⟨C ++ (leafOf l.loc l.lo n :: D), s.rows⟩ := by
  have hord : Ordered (C ++ ([l] ++ D)) := hleaves ▸ h.ordered
  have hbehind : n.next = headLoc D none := hnext.trans (h.next_eq (X := []) hleaves)
  exact h.exchangeLeaf (leafOf l.loc l.lo n) hthree hleaves rfl
    (LeafEdit.single hord rfl hbehind hfits) hkeeps ⟨hmax, hmin⟩

variable {U D : List (List IndexBranch)} {A B G X H : List IndexBranch}
  {p x y x' y' : IndexBranch} {E F : List (Nat × Nat)}

section

variable (h : Represents lay t s)
include h

theorem nodup_branches
    (hrows : s.rows = U ++ (A ++ p :: B) :: (G ++ (X ++ H)) :: D) : (X.map loc).Nodup := by
  have hperm := Shape.nodes_perm_branches s.leaves U D A B G X H p
  rw [← hrows] at hperm
  have hdist := (h.stored.perm hperm).distinct
  rw [map_append, map_cons, List.cons_append, nodup_cons, nodup_append] at hdist
  rw [← map_fst_branchAt]
  exact hdist.2.1

theorem nodup_leaves {C Y D : List IndexLeaf}
    (hleaves : s.leaves = C ++ (Y ++ D)) : (Y.map Leaf.loc).Nodup := by
  have hdist := h.stored.distinct
  rw [Shape.nodes, map_append, nodup_append, map_fst_leafAt, hleaves, map_append,
    map_append, nodup_append, nodup_append] at hdist
  exact hdist.1.2.1.1

theorem pairBranches (hlay : lay.Balanced)
    (hrows : s.rows = U ++ (A ++ p :: B) :: (G ++ (x :: X ++ H)) :: D)
    (hfam : Family ref A p B E F G (x :: X) H) (hX : X.length ≤ 1)
    (hlo : x'.lo = x.lo) (hloc : x'.loc = x.loc)
    (hedges : x'.edges ++ y'.edges = (x :: X).flatMap edges)
    (hlevel : ∀ n ∈ [x', y'], n.level = x.level)
    (hmax : ∀ n ∈ [x', y'], n.keys.length ≤ lay.maxInternalNodeEntries)
    (hmin : ∀ n ∈ [x', y'], lay.minInternalNodeEntries ≤ n.keys.length)
    (hroom : E.length + F.length < lay.maxInternalNodeEntries)
    (hplaced : Placed s ((x :: X).map loc) [x.loc, y'.loc]) :
    Represents lay
      (t.stage [branchAt (p.withEdges (E ++ x.ref :: y'.ref :: F) (by simp)), branchAt x',
        branchAt y'])
      ⟨s.leaves, U ++ (A ++ p.withEdges (E ++ x.ref :: y'.ref :: F) (by simp) :: B) ::
        (G ++ (x' :: y' :: H)) :: D⟩ := by
  have hx : x'.ref = x.ref := by rw [ref, ref, hlo, hloc]
  have hp : p ∈ s.rows.flatten := by rw [hrows]; simp
  have hlevels := h.levels
  rw [hrows] at hlevels
  obtain ⟨mid, -, -, -, -, hxlevel, -⟩ := levels_append.mp hlevels
  refine h.exchangeBranches x' [y'] hrows hfam hlo ?_ ?_ ?_ ?_ ?_ ?_
  · simpa using hedges
  · intro n hn
    rw [hlevel n hn, hxlevel x (by simp), Nat.zero_add]
  · intro n hn
    exact ⟨hmax n hn, hlay.one_le_minInternal.trans (hmin n hn), fun _ => hmin n hn⟩
  · simp only [← hx]
    rfl
  · have hfill := h.branchFill p hp
    have hlen := p.keys_length
    have hlen' := withEdges_keys_length p (E ++ x.ref :: y'.ref :: F) (by simp)
    rw [hfam.edges] at hlen
    simp only [length_append, length_map, length_cons] at hlen hlen'
    refine ⟨by omega, by omega, fun hne => ?_⟩
    have hle := hfill.min_le hne
    omega
  · simpa [hloc] using hplaced

theorem pairLeaves {C X D : List IndexLeaf} {x : IndexLeaf}
    {l r : LeafNode} {loc key : Nat} (hlay : lay.Balanced) (hrows : s.rows = U ++ [A ++ p :: B])
    (hleaves : s.leaves = C ++ (x :: X ++ D)) (hfam : Family Leaf.ref A p B E F C (x :: X) D)
    (hX : X.length ≤ 1) (hlink : l.next = some loc) (hnext : r.next = headLoc D none)
    (hkey : key = r.headKey) (hfits : Fits x.lo D (l.entries ++ r.entries))
    (hkeeps : KeepsSpecial (contents (x :: X)) (l.entries ++ r.entries))
    (hmax : ∀ n ∈ [l, r], n.entries.length ≤ lay.maxLeafNodeEntries)
    (hmin : ∀ n ∈ [l, r], lay.minLeafNodeEntries ≤ n.entries.length)
    (hroom : E.length + F.length < lay.maxInternalNodeEntries)
    (hplaced : Placed s ((x :: X).map Leaf.loc) [x.loc, loc]) :
    Represents lay
      (t.stage [branchAt (p.withEdges (E ++ x.ref :: (key, loc) :: F) (by simp)),
        (x.loc, .leaf l), (loc, .leaf r)])
      ⟨C ++ (leafOf x.loc x.lo l :: leafOf loc key r :: D),
        U ++ [A ++ p.withEdges (E ++ x.ref :: (key, loc) :: F) (by simp) :: B]⟩ := by
  have hthree := hlay.three_le_minLeaf
  have hne : ∀ n ∈ [l, r], n.entries ≠ [] := fun n hn =>
    ne_nil_of_length_pos (by have := hmin n hn; omega)
  obtain ⟨v, es, hhead⟩ := headKey_eq (hne r (by simp))
  rw [← hkey] at hhead
  have hord := h.ordered
  rw [hleaves] at hord
  have hp : p ∈ s.rows.flatten := by rw [hrows]; simp
  refine h.exchangeLeaves (leafOf x.loc x.lo l) [leafOf loc key r] hthree hrows
    hleaves hfam rfl ?_ ?_ ?_ ?_ rfl ?_ hplaced
  · exact LeafEdit.pair hord rfl hlink hnext (hne l (by simp)) hhead hfits
  · simpa using hkeeps
  · simpa using hmax
  · simpa using hmin
  · have hfill := h.branchFill p hp
    have hlen := p.keys_length
    have hlen' := withEdges_keys_length p (E ++ x.ref :: (key, loc) :: F) (by simp)
    rw [hfam.edges] at hlen
    simp only [length_append, length_map, length_cons] at hlen hlen'
    refine ⟨by omega, by omega, fun hne => ?_⟩
    have hle := hfill.min_le hne
    omega

end

theorem walk_parent {σ : Type} (visit : σ → Nat → InternalNode → Nat → σ) (h : Represents lay t s)
    {row : List IndexBranch} (hrows : s.rows = U ++ [row]) (k : Nat) (u : σ)
    (hv : ∀ n : IndexBranch, n.level ≠ 1 → ∀ i, visit u n.loc (branchNode n) i = u) :
    ∃ A p B C l D E F, row = A ++ p :: B ∧ At lo k p B ∧ s.leaves = C ++ l :: D ∧
      At Leaf.lo k l D ∧ Family Leaf.ref A p B E F C [l] D ∧ At Prod.fst k l.ref F ∧
      t.walk visit k (t.levels - 1) t.root u =
        .ok (visit u p.loc (branchNode p) E.length, l.loc, leafNode l) := by
  have hlevels := h.levels
  rw [hrows] at hlevels
  obtain ⟨mid, hU, hrow, hlevel, hbottom⟩ := levels_append.mp hlevels
  have hmemU : ∀ n ∈ U.flatten, n ∈ s.rows.flatten := fun n hn => by simp [hrows, hn]
  have hasc : Ascending (s.leaves.map Leaf.ref) := h.ordered.ascending_refs
  have hbottom : row.flatMap edges = s.leaves.map Leaf.ref := hbottom
  have hmid : Ascending mid := hrow ▸ (hbottom ▸ hasc).row
  obtain ⟨A', r, B', hA, hr, hskip⟩ := walk_skip visit (k := k) (A := []) (B := []) u
    (fun n hn => hv n (by have := (hU.level_bounds hn).1; simp at this; omega))
    (fun n hn => h.stored_branch (hmemU n hn)) hU hmid rfl ⟨Nat.zero_le k, by simp⟩
  obtain ⟨A, p, B, rfl, -, rfl, -, hk⟩ := hr.of_map (hrow.trans hA)
  have hp : p ∈ s.rows.flatten := by rw [hrows]; simp
  obtain ⟨E, l, F, C, D, hl, hfam, hkF, hkD⟩ := exists_child_at hbottom.symm hasc hk
  refine ⟨A, p, B, C, l, D, E, F, rfl, hk, hl, hkD, hfam, hkF, ?_⟩
  have hplevel : p.level = 1 := by simpa using hlevel p (by simp)
  have hstep : t.walk visit k 1 p.loc u =
      .ok (visit u p.loc (branchNode p) E.length, l.loc, leafNode l) := by
    have hpasc : Ascending p.edges := (hbottom ▸ hasc).edges
    rw [Index.walk, readInternal_eq (h.stored_branch hp) hplevel, ok_bind,
      lookupChild_at hfam.edges hpasc hkF, ok_bind, childPtr_at hfam.edges, ok_bind, Index.walk]
    have hread := readLeaf_eq (h.stored_leaf (l := l) (by rw [hl]; simp))
    exact congrArg (· >>= fun n => .ok (visit u p.loc (branchNode p) E.length, l.loc, n)) hread
  rw [h.levels_eq, hrows, length_append, length_singleton, Nat.add_sub_cancel, Nat.add_comm]
  simpa using hskip.trans hstep

end Represents

end CocoonFs.IndexTree
