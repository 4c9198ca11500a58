import Mathlib.Data.List.Count
import CocoonFs.LevelEdits
import CocoonFs.IndexTree

namespace CocoonFs.IndexTree

open Checked LevelTree IndexNodes List
open Shape (nodes)
open Prod (fst snd)
open Branch (edges loc ref)

/-- The index with some nodes' updates staged in the transaction. -/
def Index.stage (t : Index) (ns : List (Nat × Node)) : Index :=
  { t with nodes := writes t.nodes ns }

@[simp] theorem stage_levels (t : Index) (ns : List (Nat × Node)) :
    (t.stage ns).levels = t.levels := rfl

@[simp] theorem stage_entryLeaf (t : Index) (ns : List (Nat × Node)) :
    (t.stage ns).entryLeaf = t.entryLeaf := rfl

def Shape.Unused (s : Shape) (loc : Nat) : Prop := loc ∉ s.nodes.map fst

instance (s : Shape) (loc : Nat) : Decidable (s.Unused loc) :=
  inferInstanceAs (Decidable (loc ∉ s.nodes.map fst))

theorem map_fst_branchAt (ns : List IndexBranch) :
    (ns.map branchAt).map fst = ns.map loc := List.map_map

theorem map_fst_leafAt (ls : List IndexLeaf) :
    (ls.map leafAt).map fst = ls.map Leaf.loc := List.map_map

/-- New locations are those of nodes being replaced, or unused ones. -/
structure Placed (s : Shape) (old new : List Nat) : Prop where
  nodup : new.Nodup
  placed : ∀ l ∈ new, l ∈ old ∨ s.Unused l

theorem Shape.nodes_perm_branches (ls : List IndexLeaf) (U D : List (List IndexBranch))
    (A B G X H : List IndexBranch) (p : IndexBranch) :
    (nodes ⟨ls, U ++ (A ++ p :: B) :: (G ++ (X ++ H)) :: D⟩).Perm
      ((branchAt p :: X.map branchAt) ++ nodes ⟨ls, U ++ (A ++ B) :: (G ++ H) :: D⟩) := by
  rw [perm_iff_count]
  intro a
  simp only [nodes, flatten_append, flatten_cons, map_append, map_cons,
    List.cons_append, count_append, count_cons]
  omega

theorem Shape.nodes_perm_leaves (C X D : List IndexLeaf) (U : List (List IndexBranch))
    (A B : List IndexBranch) (p : IndexBranch) :
    (nodes ⟨C ++ (X ++ D), U ++ [A ++ p :: B]⟩).Perm
      ((branchAt p :: X.map leafAt) ++ nodes ⟨C ++ D, U ++ [A ++ B]⟩) := by
  rw [perm_iff_count]
  intro a
  simp only [nodes, flatten_append, flatten_cons, map_append, map_cons,
    List.cons_append, count_append, count_cons]
  omega

theorem Shape.nodes_perm_leaf (C D : List IndexLeaf) (l : IndexLeaf)
    (rows : List (List IndexBranch)) :
    (nodes ⟨C ++ l :: D, rows⟩).Perm ([leafAt l] ++ nodes ⟨C ++ D, rows⟩) := by
  rw [perm_iff_count]
  intro a
  simp only [nodes, map_append, map_cons, List.cons_append, List.nil_append,
    count_append, count_cons]
  omega

/-- None of the special inodes gets lost, and no vacant entries are left behind. -/
structure KeepsSpecial (es es' : List (Nat × InodeEntry)) : Prop where
  inodes : ∀ e ∈ es', e.1 ≠ noInode
  special : ∀ i ∈ specialInodes, i ∈ es.map fst → i ∈ es'.map fst

theorem Ascending.length_le {es : List (Nat × InodeEntry)} {lo hi : Nat} (h : Ascending es)
    (hlo : ∀ e ∈ es, lo ≤ e.1) (hhi : ∀ e ∈ es, e.1 < hi) : es.length ≤ hi - lo := by
  induction es generalizing lo with
  | nil => exact Nat.zero_le _
  | cons e es ih =>
    obtain ⟨he, hes⟩ := pairwise_cons.mp h
    have hlt : e.1 < hi := hhi e mem_cons_self
    have hle : lo ≤ e.1 := hlo e mem_cons_self
    have hlen : es.length ≤ hi - (e.1 + 1) :=
      ih hes he fun x hx => hhi x (mem_cons_of_mem _ hx)
    rw [length_cons]
    omega

theorem entryLeaf_of_contents {ls : List IndexLeaf} {loc : Nat} (hord : Ordered ls)
    (hinodes : ∀ e ∈ contents ls, e.1 ≠ noInode) (hhead : headLoc ls none = some loc)
    (hspecial : ∀ i ∈ specialInodes, i ∈ (contents ls).map fst)
    (hlen : ∀ l ∈ ls, ls = [l] ∨ 3 ≤ l.entries.length) : EntryLeaf loc ls := by
  cases ls with
  | nil => cases hhead
  | cons l rest =>
    refine ⟨l, rest, rfl, Option.some.inj hhead, ?_⟩
    intro i hi
    obtain ⟨e, he, rfl⟩ := mem_map.mp (hspecial i hi)
    rw [contents_cons, mem_append] at he
    rcases he with he | he
    · exact mem_map_of_mem he
    · exfalso
      have hle : e.1 ≤ 3 := by
        simp only [specialInodes, mem_cons, not_mem_nil, or_false] at hi
        omega
      have hlt : ∀ x ∈ l.entries, x.1 < e.1 := by
        intro x hx
        have hasc := hord.ascending_contents
        exact (pairwise_append.mp hasc).2.2 x hx e he
      have hpos : ∀ x ∈ l.entries, 1 ≤ x.1 := fun x hx =>
        Nat.one_le_iff_ne_zero.mpr (hinodes x (by rw [contents_cons]; exact mem_append_left _ hx))
      have hasc : Ascending l.entries := (hord.within l mem_cons_self).2
      have hshort := Ascending.length_le hasc hpos hlt
      rcases hlen l mem_cons_self with hone | hthree
      · rw [(List.cons.inj hone).2] at he
        cases he
      · omega

namespace Represents

variable {lay : TreeLayout} {t : Index} {s : Shape}

section

variable (h : Represents lay t s)
include h

theorem headLoc_eq : headLoc s.leaves none = some t.entryLeaf := by
  obtain ⟨l, rest, hl, hloc, -⟩ := h.entry
  rw [hl]
  exact congrArg some hloc

theorem special_mem {i : Nat} (hi : i ∈ specialInodes) :
    i ∈ (contents s.leaves).map fst := by
  obtain ⟨l, rest, hl, -, hspecial⟩ := h.entry
  rw [hl, contents_cons, map_append]
  exact mem_append_left _ (hspecial i hi)

/-- What is stored after writing some nodes at the locations of others, or at unused ones. -/
theorem stored_stage (s' : Shape) {rest : Shape} (new : List (Nat × Node)) {old : List (Nat × Node)}
    (hold : s.nodes.Perm (old ++ rest.nodes)) (hnew : s'.nodes.Perm (new ++ rest.nodes))
    (hnodup : (new.map fst).Nodup)
    (hloc : ∀ l ∈ new.map fst, l ∈ old.map fst ∨ s.Unused l) :
    Stored (t.stage new).nodes s'.nodes := by
  have hst := (h.stored.perm hold).writes hnodup ?_
  · exact hst.perm hnew.symm
  · intro l hl
    rcases hloc l hl with hl | hl
    · exact .inl hl
    · exact .inr fun hmem => hl ((hold.map fst).mem_iff.mpr hmem)

theorem stored_family {s' rest : Shape} {p p' : IndexBranch}
    {old new : List (Nat × Node)} (hold : s.nodes.Perm ((branchAt p :: old) ++ rest.nodes))
    (hnew : s'.nodes.Perm ((branchAt p' :: new) ++ rest.nodes)) (hloc : p'.loc = p.loc)
    (hplaced : Placed s (old.map fst) (new.map fst)) :
    Stored (t.stage (branchAt p' :: new)).nodes s'.nodes := by
  have hdist := (h.stored.perm hold).distinct
  simp only [List.cons_append, map_cons, map_append, nodup_cons, mem_append,
    not_or, branchAt_fst] at hdist
  refine h.stored_stage s' _ hold hnew ?_ ?_
  · rw [map_cons, nodup_cons, branchAt_fst, hloc]
    refine ⟨fun hmem => ?_, hplaced.nodup⟩
    rcases hplaced.placed p.loc hmem with hp | hp
    · exact hdist.1.1 hp
    · exact hp ((hold.map fst).mem_iff.mpr mem_cons_self)
  · intro l hl
    rcases mem_cons.mp hl with rfl | hl
    · exact .inl (by simp [hloc])
    · rcases hplaced.placed l hl with hl | hl
      · exact .inl (mem_cons_of_mem _ hl)
      · exact .inr hl

end

variable {U D : List (List IndexBranch)} {A B G X H : List IndexBranch} {p x : IndexBranch}
  {E F : List (Nat × Nat)} {p' : IndexBranch} {l : IndexLeaf}

section

variable (h : Represents lay t s)
include h

theorem exchangeBranches (x' : IndexBranch) (X' : List IndexBranch)
    (hrows : s.rows = U ++ (A ++ p :: B) :: (G ++ (x :: X ++ H)) :: D)
    (hfam : Family ref A p B E F G (x :: X) H) (hlo : x'.lo = x.lo)
    (hedges : (x' :: X').flatMap edges = (x :: X).flatMap edges)
    (hlevel : ∀ n ∈ x' :: X', n.level = D.length + 1)
    (hfill : ∀ n ∈ x' :: X', BranchFill lay t.root n)
    (hp' : p' = p.withEdges (E ++ ((x' :: X').map ref ++ F)) (by simp))
    (hpfill : BranchFill lay t.root p')
    (hplaced : Placed s ((x :: X).map loc) ((x' :: X').map loc)) :
    Represents lay (t.stage (branchAt p' :: (x' :: X').map branchAt))
      ⟨s.leaves, U ++ (A ++ p' :: B) :: (G ++ (x' :: X' ++ H)) :: D⟩ := by
  have hloc : p'.loc = p.loc := by rw [hp', Branch.withEdges_loc]
  have hold := Shape.nodes_perm_branches s.leaves U D A B G (x :: X) H p
  rw [← hrows] at hold
  constructor
  · rw [stage_levels, h.levels_eq, hrows]
    simp only [length_append, length_cons]
  · rw [hp']
    have hlevels := h.levels
    rw [hrows] at hlevels
    exact hlevels.exchangeBranches hfam hlo hedges (by simpa only [Nat.zero_add] using hlevel) _
  · exact h.stored_family hold (Shape.nodes_perm_branches ..) hloc 
      (by simpa only [map_fst_branchAt] using hplaced)
  · exact h.ordered
  · exact h.linked
  · exact h.leafFill
  · have hb := h.branchFill
    simp only [hrows, flatten_append, flatten_cons, forall_mem_append,
      forall_mem_cons] at hb hfill ⊢
    tauto
  · exact h.entry
  · exact h.inodes

theorem leaves_exchange {C X X' D : List IndexLeaf}
    (hleaves : s.leaves = C ++ (X ++ D)) (hedit : LeafEdit X X' D)
    (hkeeps : KeepsSpecial (contents X) (contents X'))
    (hlen : ∀ l ∈ C ++ (X' ++ D), C ++ (X' ++ D) = [l] ∨ 3 ≤ l.entries.length) :
    Ordered (C ++ (X' ++ D)) ∧ Linked (C ++ (X' ++ D)) none ∧
      EntryLeaf t.entryLeaf (C ++ (X' ++ D)) ∧
      ∀ e ∈ contents (C ++ (X' ++ D)), e.1 ≠ noInode := by
  have hord : Ordered (C ++ (X' ++ D)) :=
    (hleaves ▸ h.ordered).exchange hedit.ordered hedit.lo_le hedit.lt
  have hinodes : ∀ e ∈ contents (C ++ (X' ++ D)), e.1 ≠ noInode := by
    have hold := h.inodes
    rw [hleaves] at hold
    simp only [contents_append, forall_mem_append] at hold ⊢
    exact ⟨hold.1, hkeeps.inodes, hold.2.2⟩
  refine ⟨hord, (hleaves ▸ h.linked).exchange hedit.linked hedit.head, ?_, hinodes⟩
  refine entryLeaf_of_contents hord hinodes ?_ ?_ hlen
  · have hhead := h.headLoc_eq
    rw [hleaves] at hhead
    rw [headLoc_append, headLoc_append] at hhead ⊢
    rw [hedit.head, hhead]
  · intro i hi
    have hmem := h.special_mem hi
    rw [hleaves] at hmem
    simp only [contents_append, map_append, mem_append] at hmem ⊢
    have hspecial := hkeeps.special i hi
    tauto

theorem exchangeLeaf {C D : List IndexLeaf} (l' : IndexLeaf)
    (hthree : 3 ≤ lay.minLeafNodeEntries) (hleaves : s.leaves = C ++ (l :: D))
    (hloc : l'.ref = l.ref) (hedit : LeafEdit [l] [l'] D)
    (hkeeps : KeepsSpecial l.entries l'.entries) (hfill : LeafFill lay t.root l') :
    Represents lay (t.stage [leafAt l']) ⟨C ++ (l' :: D), s.rows⟩ := by
  have hfills : ∀ a ∈ C ++ (l' :: D), LeafFill lay t.root a := by
    have hold := h.leafFill
    rw [hleaves] at hold
    simp only [forall_mem_append, forall_mem_cons] at hold ⊢
    exact ⟨hold.1, hfill, hold.2.2⟩
  have hrefs : (C ++ (l' :: D)).map Leaf.ref = s.leaves.map Leaf.ref := by
    rw [hleaves, map_append, map_append, map_cons, map_cons, hloc]
  have hleafLoc : l'.loc = l.loc := congrArg snd hloc
  have hlen : ∀ a ∈ C ++ ([l'] ++ D), C ++ ([l'] ++ D) = [a] ∨ 3 ≤ a.entries.length := by
    intro a ha
    by_cases hrows : s.rows = []
    · obtain ⟨m, hm, -, -⟩ := h.leaves_singleton hrows
      rw [hm] at hrefs
      obtain ⟨b, hb, -⟩ := map_eq_singleton_iff.mp hrefs
      rw [singleton_append, hb] at ha ⊢
      exact .inl (by rw [mem_singleton.mp ha])
    · have hroot : a.loc ≠ t.root := by
        have hmem : a.ref ∈ s.leaves.map Leaf.ref := hrefs ▸ mem_map_of_mem ha
        obtain ⟨b, hb, hba⟩ := mem_map.mp hmem
        rw [show a.loc = b.loc from (congrArg snd hba).symm]
        exact h.leaf_loc_ne_root hrows hb
      exact .inr (hthree.trans ((hfills a ha).min_le hroot))
  obtain ⟨hord, hlinked, hentry, hinodes⟩ :=
    h.leaves_exchange (X := [l]) hleaves hedit (by simpa only [contents_cons, contents_nil,
      List.append_nil] using hkeeps) hlen
  have hold := Shape.nodes_perm_leaf C D l s.rows
  rw [← hleaves] at hold
  refine ⟨h.levels_eq, hrefs ▸ h.levels, ?_, hord, hlinked, hfills, h.branchFill, hentry, hinodes⟩
  refine h.stored_stage _ _ hold (Shape.nodes_perm_leaf C D l' s.rows) (nodup_singleton _) ?_
  intro a ha
  exact .inl (by simpa [hleafLoc] using ha)

theorem exchangeLeaves {C X D : List IndexLeaf} {x : IndexLeaf}
    (x' : IndexLeaf) (X' : List IndexLeaf)
    (hthree : 3 ≤ lay.minLeafNodeEntries) (hrows : s.rows = U ++ [A ++ p :: B])
    (hleaves : s.leaves = C ++ (x :: X ++ D)) (hfam : Family Leaf.ref A p B E F C (x :: X) D)
    (hlo : x'.lo = x.lo) (hedit : LeafEdit (x :: X) (x' :: X') D)
    (hkeeps : KeepsSpecial (contents (x :: X)) (contents (x' :: X')))
    (hmax : ∀ l ∈ x' :: X', l.entries.length ≤ lay.maxLeafNodeEntries)
    (hmin : ∀ l ∈ x' :: X', lay.minLeafNodeEntries ≤ l.entries.length)
    (hp' : p' = p.withEdges (E ++ ((x' :: X').map Leaf.ref ++ F)) (by simp))
    (hpfill : BranchFill lay t.root p')
    (hplaced : Placed s ((x :: X).map Leaf.loc) ((x' :: X').map Leaf.loc)) :
    Represents lay (t.stage (branchAt p' :: (x' :: X').map leafAt))
      ⟨C ++ (x' :: X' ++ D), U ++ [A ++ p' :: B]⟩ := by
  have hlocp : p'.loc = p.loc := by rw [hp', Branch.withEdges_loc]
  have hold := Shape.nodes_perm_leaves C (x :: X) D U A B p
  rw [← hrows, ← hleaves] at hold
  have hne : s.rows ≠ [] := by simp [hrows]
  have hfills : ∀ a ∈ C ++ (x' :: X' ++ D), LeafFill lay t.root a ∧
      lay.minLeafNodeEntries ≤ a.entries.length := by
    have hothers : ∀ a ∈ C ++ (x :: X ++ D), LeafFill lay t.root a ∧
        lay.minLeafNodeEntries ≤ a.entries.length := by
      rw [← hleaves]
      intro a ha
      exact ⟨h.leafFill a ha, (h.leafFill a ha).min_le (h.leaf_loc_ne_root hne ha)⟩
    rw [forall_mem_append, forall_mem_append] at hothers ⊢
    exact ⟨hothers.1, fun a ha => ⟨⟨hmax a ha, fun _ => hmin a ha⟩, hmin a ha⟩, hothers.2.2⟩
  obtain ⟨hord, hlinked, hentry, hinodes⟩ := h.leaves_exchange hleaves hedit hkeeps
    fun a ha => .inr (hthree.trans (hfills a ha).2)
  refine ⟨?_, ?_, ?_, hord, hlinked, fun a ha => (hfills a ha).1, ?_, hentry, hinodes⟩
  · rw [stage_levels, h.levels_eq, hrows]
    simp only [length_append, length_singleton]
  · rw [hp']
    have hlevels := h.levels
    rw [hrows, hleaves] at hlevels
    exact hlevels.exchangeBottom hfam hlo _
  · exact h.stored_family hold (Shape.nodes_perm_leaves ..) hlocp
      (by simpa only [map_fst_leafAt] using hplaced)
  · have hb := h.branchFill
    simp only [hrows, flatten_append, flatten_cons, flatten_nil, List.append_nil,
      forall_mem_append, forall_mem_cons] at hb ⊢
    tauto

theorem branch_min {r n : IndexBranch} {D : List (List IndexBranch)}
    (hrows : s.rows = [r] :: D) (hn : n ∈ D.flatten) :
    lay.minInternalNodeEntries ≤ n.keys.length := by
  obtain ⟨m, hm, hroot, -⟩ := h.root_branch hrows
  cases hm
  have hmem : n ∈ s.rows.flatten := by simp [hrows, hn]
  refine (h.branchFill n hmem).min_le ?_
  have hdist := h.stored.distinct
  rw [nodes, map_append, nodup_append, hrows, flatten_cons, map_append,
    map_append, nodup_append] at hdist
  rw [← hroot]
  intro heq
  refine hdist.2.1.2.2 n.loc ?_ n.loc ?_ rfl
  · simp [heq]
  · exact mem_map.mpr ⟨branchAt n, mem_map_of_mem hn, rfl⟩

theorem leaf_min (hrows : s.rows ≠ [])
    (hl : l ∈ s.leaves) : lay.minLeafNodeEntries ≤ l.entries.length :=
  (h.leafFill l hl).min_le (h.leaf_loc_ne_root hrows hl)

theorem growLeaf {x : IndexLeaf} (x' y' : IndexLeaf) {r : IndexBranch}
    (hlay : lay.Balanced) (hrows : s.rows = []) (hleaves : s.leaves = [x]) (href : x'.ref = x.ref)
    (hedit : LeafEdit [x] [x', y'] []) (hkeeps : KeepsSpecial (contents [x]) (contents [x', y']))
    (hmax : ∀ l ∈ [x', y'], l.entries.length ≤ lay.maxLeafNodeEntries)
    (hmin : ∀ l ∈ [x', y'], lay.minLeafNodeEntries ≤ l.entries.length)
    (hr : r.edges = [x'.ref, y'.ref]) (hlevel : r.level = 1)
    (hplaced : Placed s [x.loc] [r.loc, x'.loc, y'.loc]) :
    Represents lay
      { t.stage [branchAt r, leafAt x', leafAt y'] with root := r.loc, levels := t.levels + 1 }
      ⟨[x', y'], [[r]]⟩ := by
  obtain ⟨l, hl, hroot, hzero⟩ := h.leaves_singleton hrows
  rw [hleaves] at hl
  cases hl
  have hkeys : r.keys.length = 1 := by
    have hlen := r.keys_length
    rw [hr] at hlen
    exact Nat.succ.inj hlen
  obtain ⟨hord, hlinked, hentry, hinodes⟩ := h.leaves_exchange (C := []) (X := [x]) (D := [])
    hleaves hedit hkeeps fun a ha => .inr (hlay.three_le_minLeaf.trans (hmin a ha))
  have hold : s.nodes.Perm ([leafAt x] ++ nodes ⟨[], []⟩) := by
    rw [nodes, hleaves, hrows]
    exact .refl _
  refine ⟨?_, ⟨?_, ?_, ?_⟩, ?_, hord, hlinked, ?_, ?_, hentry, hinodes⟩
  · simp [h.levels_eq, hrows]
  · have hlo : r.lo = 0 := by
      rw [Branch.lo_eq_of_edges hr, href]
      exact hzero
    simp [ref, hlo]
  · intro n hn
    rw [mem_singleton.mp hn]
    exact hlevel
  · simp [Levels, hr]
  · refine h.stored_stage ⟨[x', y'], [[r]]⟩ [branchAt r, leafAt x', leafAt y'] hold
      ?_ hplaced.nodup hplaced.placed
    rw [perm_iff_count]
    intro a
    simp [nodes, count_cons]
    omega
  · intro a ha
    exact ⟨hmax a ha, fun _ => hmin a ha⟩
  · intro n hn
    have hlt := hlay.minInternal_lt
    rw [show n = r by simpa using hn]
    exact ⟨by omega, by omega, fun hne => absurd rfl hne⟩

theorem growBranch {x x' y' r : IndexBranch}
    (hlay : lay.Balanced) (hrows : s.rows = [x] :: D) (hlo : x'.lo = x.lo)
    (hedges : x'.edges ++ y'.edges = x.edges) (hlevel : ∀ n ∈ [x', y'], n.level = x.level)
    (hmax : ∀ n ∈ [x', y'], n.keys.length ≤ lay.maxInternalNodeEntries)
    (hmin : ∀ n ∈ [x', y'], lay.minInternalNodeEntries ≤ n.keys.length)
    (hr : r.edges = [x'.ref, y'.ref]) (hrlevel : r.level = x.level + 1)
    (hplaced : Placed s [x.loc] [r.loc, x'.loc, y'.loc]) :
    Represents lay
      { t.stage [branchAt r, branchAt x', branchAt y'] with
        root := r.loc, levels := t.levels + 1 }
      ⟨s.leaves, [r] :: [x', y'] :: D⟩ := by
  obtain ⟨m, hm, hroot, hzero⟩ := h.root_branch hrows
  cases hm
  have hone := hlay.one_le_minInternal
  have hlt := hlay.minInternal_lt
  have hkeys : r.keys.length = 1 := by
    have hlen := r.keys_length
    rw [hr] at hlen
    exact Nat.succ.inj hlen
  have hlevels := h.levels
  rw [hrows] at hlevels
  obtain ⟨-, hxlevel, hD⟩ := hlevels
  have hx : x.level = D.length + 1 := by simpa using hxlevel x mem_cons_self
  refine ⟨?_, ⟨?_, ?_, ?_, ?_, ?_⟩, ?_, h.ordered, h.linked, ?_, ?_, h.entry, h.inodes⟩
  · simp [h.levels_eq, hrows]
  · have hrlo : r.lo = 0 := by
      rw [Branch.lo_eq_of_edges hr]
      exact hlo.trans hzero
    simp [ref, hrlo]
  · intro n hn
    rw [mem_singleton.mp hn, hrlevel, hx, length_cons, Nat.zero_add]
  · simp [hr]
  · intro n hn
    rw [hlevel n hn, hx, Nat.zero_add]
  · simpa only [flatMap_cons, flatMap_nil, List.append_nil, hedges] using hD
  · have hold : s.nodes.Perm ([branchAt x] ++ nodes ⟨s.leaves, D⟩) := by
      rw [nodes, hrows, perm_iff_count]
      intro a
      simp [nodes, count_cons]
      omega
    refine h.stored_stage ⟨s.leaves, [r] :: [x', y'] :: D⟩
      [branchAt r, branchAt x', branchAt y'] hold ?_ hplaced.nodup hplaced.placed
    rw [perm_iff_count]
    intro a
    simp [nodes, count_cons]
    omega
  · intro l hl
    exact ⟨(h.leafFill l hl).le_max, fun _ => h.leaf_min (by simp [hrows]) hl⟩
  · intro n hn
    rw [flatten_cons, flatten_cons, mem_append, mem_append] at hn
    rcases hn with hn | hn | hn
    · rw [mem_singleton.mp hn]
      exact ⟨by omega, by omega, fun hne => absurd rfl hne⟩
    · exact ⟨hmax n hn, hone.trans (hmin n hn), fun _ => hmin n hn⟩
    · have hfill := h.branchFill n (by simp [hrows, hn])
      exact ⟨hfill.le_max, hfill.one_le, fun _ => h.branch_min hrows hn⟩

end

end Represents

end CocoonFs.IndexTree
