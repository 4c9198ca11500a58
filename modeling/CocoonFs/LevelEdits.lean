import Mathlib.Data.List.Lookmap
import CocoonFs.LevelTree

namespace CocoonFs.LevelTree

open List
open Prod (fst snd)

variable {K L V W α : Type} {st : L → Option W} {ns : List (L × W)}

section Store

variable [BEq L] [LawfulBEq L]

def writes (st : L → Option W) (ns : List (L × W)) (l : L) : Option W :=
  (ns.lookup l).or (st l)

theorem writes_of_mem (h : (ns.map fst).Nodup)
    {p : L × W} (hp : p ∈ ns) : writes st ns p.1 = some p.2 := by
  have hlookup : ns.lookup p.1 = some p.2 := by
    induction ns with
    | nil => cases hp
    | cons q ns ih =>
      obtain ⟨hq, hns⟩ := nodup_cons.mp h
      rw [lookup_cons]
      rcases mem_cons.mp hp with rfl | hp
      · simp only [beq_self_eq_true]
      · have hne : p.1 ≠ q.1 := fun heq => hq (heq ▸ mem_map_of_mem hp)
        simp only [beq_false_of_ne hne, ih hns hp]
  rw [writes, hlookup, Option.some_or]

theorem writes_of_not_mem {l : L} (h : l ∉ ns.map fst) : writes st ns l = st l := by
  have hlookup : ns.lookup l = none := by
    rw [lookup_eq_none_iff]
    intro p hp
    exact bne_iff_ne.mpr fun heq => h (heq ▸ mem_map_of_mem hp)
  rw [writes, hlookup, Option.none_or]

/-- Some nodes are exchanged for others, written at the same locations or at new ones. -/
theorem Stored.writes {old new rest : List (L × W)}
    (h : Stored st (old ++ rest)) (hnew : (new.map fst).Nodup)
    (hloc : ∀ l ∈ new.map fst, l ∈ old.map fst ∨ l ∉ (old ++ rest).map fst) :
    Stored (writes st new) (new ++ rest) := by
  have hdist := h.distinct
  rw [map_append, nodup_append] at hdist
  refine h.exchange ⟨fun p hp => writes_of_mem hnew hp, hnew⟩
    (fun l hl => .inl (writes_of_not_mem hl)) ?_
  intro l hl hrest
  rcases hloc l hl with hold | hfresh
  · exact hdist.2.2 l hold l hrest rfl
  · exact hfresh (by rw [map_append]; exact mem_append_right _ hrest)

end Store

section Family

/-- The nodes X of the row below are children of n, with those of G left of
them and those of H right of them. -/
structure Family (ref : α → K × L) (A : List (Branch K L)) (n : Branch K L)
    (B : List (Branch K L)) (E F : List (K × L)) (G X H : List α) : Prop where
  edges : n.edges = E ++ (X.map ref ++ F)
  before : G.map ref = A.flatMap Branch.edges ++ E
  behind : H.map ref = F ++ B.flatMap Branch.edges

variable {ref : α → K × L} {A B : List (Branch K L)} {n : Branch K L} {E F : List (K × L)}
  {G X H : List α} {e : K × L} {X' : List α} {n' : Branch K L}

theorem Family.refs (h : Family ref A n B E F G X H) (hn : n'.edges = E ++ (X'.map ref ++ F)) :
    (A ++ n' :: B).flatMap Branch.edges = (G ++ (X' ++ H)).map ref := by
  simp only [flatMap_append, flatMap_cons, hn, map_append, h.before, h.behind, append_assoc]

theorem Family.left (h : Family ref A n B (E ++ [e]) F G X H) :
    ∃ G' g, G = G' ++ [g] ∧ ref g = e ∧ Family ref A n B E F G' (g :: X) H := by
  have hbefore := h.before
  rw [← append_assoc] at hbefore
  obtain ⟨G', t, rfl, hG', ht⟩ := map_eq_append_iff.mp hbefore
  obtain ⟨g, rfl, rfl⟩ := map_eq_singleton_iff.mp ht
  refine ⟨G', g, rfl, rfl, ?_, hG', h.behind⟩
  rw [h.edges, append_assoc, singleton_append, map_cons, List.cons_append]

theorem Family.right (h : Family ref A n B E (e :: F) G X H) :
    ∃ x H', H = x :: H' ∧ ref x = e ∧ Family ref A n B E F G (X ++ [x]) H' := by
  obtain ⟨x, H', rfl, rfl, hH'⟩ := map_eq_cons_iff.mp h.behind
  refine ⟨x, H', rfl, rfl, ?_, h.before, hH'⟩
  rw [h.edges, map_append, append_assoc, map_singleton, singleton_append]

theorem Family.lo_withEdges {x x' : α} (h : Family ref A n B E F G (x :: X) H)
    (hx : (ref x').1 = (ref x).1) (hne : E ++ ((x' :: X').map ref ++ F) ≠ []) :
    (n.withEdges (E ++ ((x' :: X').map ref ++ F)) hne).lo = n.lo := by
  have hedges := h.edges
  cases E with
  | nil =>
    rw [Branch.lo_eq_of_edges hedges, ← hx]
    rfl
  | cons e E =>
    rw [Branch.lo_eq_of_edges hedges]
    rfl

theorem Family.ref_withEdges {x x' : α} (h : Family ref A n B E F G (x :: X) H)
    (hx : (ref x').1 = (ref x).1) (hne : E ++ ((x' :: X').map ref ++ F) ≠ []) :
    (n.withEdges (E ++ ((x' :: X').map ref ++ F)) hne).ref = n.ref := by
  rw [Branch.ref, h.lo_withEdges hx, Branch.withEdges_loc, Branch.ref]

theorem map_ref_exchange (h : n'.ref = n.ref) :
    (A ++ n' :: B).map Branch.ref = (A ++ n :: B).map Branch.ref := by
  rw [map_append, map_append, map_cons, map_cons, h]

theorem Levels.exchangeBranches {base : Nat} {U D : List (List (Branch K L))}
    {A B G X X' H : List (Branch K L)} {n x x' : Branch K L} {E F top bottom : List (K × L)}
    (h : Levels base (U ++ (A ++ n :: B) :: (G ++ (x :: X ++ H)) :: D) top bottom)
    (hfam : Family Branch.ref A n B E F G (x :: X) H) (hlo : x'.lo = x.lo)
    (hedges : (x' :: X').flatMap Branch.edges = (x :: X).flatMap Branch.edges)
    (hlevel : ∀ m ∈ x' :: X', m.level = base + D.length + 1)
    (hne : E ++ ((x' :: X').map Branch.ref ++ F) ≠ []) :
    Levels base (U ++ (A ++ n.withEdges (E ++ ((x' :: X').map Branch.ref ++ F)) hne :: B) ::
      (G ++ (x' :: X' ++ H)) :: D) top bottom := by
  obtain ⟨mid, hU, hmid, hnlevel, hrow, hxlevel, hD⟩ := levels_append.mp h
  refine h.exchange ?_ ?_ ?_ ⟨(hfam.refs (Branch.withEdges_edges n _ hne)).symm, ?_, ?_⟩
  · exact map_ref_exchange (hfam.ref_withEdges hlo hne)
  · rw [length_cons, length_cons]
  · simp only [forall_mem_append, forall_mem_cons] at hnlevel ⊢
    exact ⟨hnlevel.1, hnlevel.2.1, hnlevel.2.2⟩
  · rw [forall_mem_append, forall_mem_append] at hxlevel ⊢
    exact ⟨hxlevel.1, hlevel, hxlevel.2.2⟩
  · simpa only [flatMap_append, hedges] using hD

theorem Levels.exchangeBottom {base : Nat} {U : List (List (Branch K L))} {top : List (K × L)}
    {x x' : α}
    (h : Levels base (U ++ [A ++ n :: B]) top ((G ++ (x :: X ++ H)).map ref))
    (hfam : Family ref A n B E F G (x :: X) H) (hx : (ref x').1 = (ref x).1)
    (hne : E ++ ((x' :: X').map ref ++ F) ≠ []) :
    Levels base (U ++ [A ++ n.withEdges (E ++ ((x' :: X').map ref ++ F)) hne :: B]) top
      ((G ++ (x' :: X' ++ H)).map ref) := by
  obtain ⟨mid, hU, hmid, hnlevel, hrow⟩ := levels_append.mp h
  refine h.exchange ?_ rfl ?_ (hfam.refs (Branch.withEdges_edges n _ hne))
  · exact map_ref_exchange (hfam.ref_withEdges hx hne)
  · simp only [forall_mem_append, forall_mem_cons] at hnlevel ⊢
    exact ⟨hnlevel.1, hnlevel.2.1, hnlevel.2.2⟩

theorem exists_child_at [LinearOrder K] {row : List α} {k : K}
    (hrow : row.map ref = (A ++ n :: B).flatMap Branch.edges) (hasc : Ascending (row.map ref))
    (hk : At Branch.lo k n B) :
    ∃ E x F G H, row = G ++ x :: H ∧ Family ref A n B E F G [x] H ∧
      At fst k (ref x) F ∧ At (fun y => (ref y).1) k x H := by
  rw [hrow] at hasc
  obtain ⟨E, e, F, hE, he⟩ := exists_edge_at hasc hk.1
  obtain ⟨hmid, hmidk⟩ := At.descend hasc hk hE he
  obtain ⟨G, x, H, rfl, hG, rfl, hH, hx⟩ := hmidk.of_map (hrow.trans hmid)
  exact ⟨E, x, F, G, H, rfl, ⟨hE, hG, hH⟩, he, hx⟩

end Family

section Leaves

variable [LinearOrder K]

/-- The entries may be stored in leaves from lo on and before the leaves B. -/
structure Fits (lo : K) (B : List (Leaf K L V)) (es : List (K × V)) : Prop where
  ascending : Ascending es
  lo_le : ∀ e ∈ es, lo ≤ e.1
  lt : ∀ e ∈ es, ∀ b ∈ B, e.1 < b.lo

variable {A B X : List (Leaf K L V)} {x : Leaf K L V} {lo k : K}

theorem Ordered.fits (h : Ordered (A ++ (x :: X ++ B))) : Fits x.lo B (contents (x :: X)) := by
  have hright := h.append_right
  refine ⟨hright.append_left.ascending_contents, ?_, ?_⟩
  · intro e he
    obtain ⟨y, hy, hey⟩ := mem_flatMap.mp he
    rcases mem_cons.mp hy with rfl | hyX
    · exact (hright.append_left.within _ mem_cons_self).1 e hey
    · have hlo : x.lo < y.lo := ((pairwise_cons.mp hright.append_left.between).1 y hyX).1
      exact hlo.le.trans ((hright.append_left.within y hy).1 e hey)
  · intro e he b hb
    obtain ⟨y, hy, hey⟩ := mem_flatMap.mp he
    exact (hright.lt_of_mem hy hb).2 e hey

theorem Fits.sublist {es fs : List (K × V)} (h : Fits lo B es) (hs : fs.Sublist es) :
    Fits lo B fs :=
  ⟨h.ascending.sublist hs, fun e he => h.lo_le e (hs.subset he), fun e he => h.lt e (hs.subset he)⟩

theorem Fits.insert {P Q : List (K × V)} {v : V} (h : Fits lo B (P ++ Q))
    (hP : ∀ e ∈ P, e.1 < k) (hQ : ∀ e ∈ Q, k < e.1) (hlo : lo ≤ k) (hB : ∀ b ∈ B, k < b.lo) :
    Fits lo B (P ++ (k, v) :: Q) := by
  have hmem : ∀ e ∈ P ++ (k, v) :: Q, e = (k, v) ∨ e ∈ P ++ Q := by
    intro e he
    simp only [mem_append, mem_cons] at he ⊢
    tauto
  obtain ⟨hPs, hQs, hPQ⟩ := pairwise_append.mp h.ascending
  constructor
  · refine pairwise_append.mpr ⟨hPs, pairwise_cons.mpr ⟨hQ, hQs⟩, ?_⟩
    intro a ha b hb
    rcases mem_cons.mp hb with rfl | hb
    · exact hP a ha
    · exact hPQ a ha b hb
  · intro e he
    rcases hmem e he with rfl | he
    · exact hlo
    · exact h.lo_le e he
  · intro e he
    rcases hmem e he with rfl | he
    · exact hB
    · exact h.lt e he

/-- Consecutive leaves X before the leaves B are to be exchanged for X'. -/
structure LeafEdit (X X' B : List (Leaf K L V)) : Prop where
  ordered : Ordered X'
  lo_le : ∀ x' ∈ X', ∃ x ∈ X, x.lo ≤ x'.lo
  lt : ∀ b ∈ B, ∀ x' ∈ X', x'.lo < b.lo ∧ ∀ e ∈ x'.entries, e.1 < b.lo
  linked : Linked X' (headLoc B none)
  head : headLoc X' (headLoc B none) = headLoc X (headLoc B none)

theorem LeafEdit.single {x' : Leaf K L V} (h : Ordered (A ++ (x :: X ++ B)))
    (href : x'.ref = x.ref) (hnext : x'.next = headLoc B none) (hfits : Fits x.lo B x'.entries) :
    LeafEdit (x :: X) [x'] B := by
  have hlo : x'.lo = x.lo := congrArg fst href
  have hloc : x'.loc = x.loc := congrArg snd href
  refine ⟨⟨pairwise_singleton _ _, ?_⟩, ?_, ?_, ⟨hnext, trivial⟩, congrArg some hloc⟩
  · intro a ha
    cases mem_singleton.mp ha
    exact ⟨fun e he => hlo ▸ hfits.lo_le e he, hfits.ascending⟩
  · intro a ha
    cases mem_singleton.mp ha
    exact ⟨x, mem_cons_self, hlo.ge⟩
  · intro b hb a ha
    cases mem_singleton.mp ha
    exact ⟨hlo ▸ (h.append_right.lt_of_mem mem_cons_self hb).1, fun e he => hfits.lt e he b hb⟩

theorem LeafEdit.pair {x' y' : Leaf K L V} {v : V} {es : List (K × V)}
    (h : Ordered (A ++ (x :: X ++ B))) (href : x'.ref = x.ref) (hlink : x'.next = some y'.loc)
    (hnext : y'.next = headLoc B none) (hx : x'.entries ≠ []) (hy : y'.entries = (y'.lo, v) :: es)
    (hfits : Fits x.lo B (x'.entries ++ y'.entries)) : LeafEdit (x :: X) [x', y'] B := by
  have hlo : x'.lo = x.lo := congrArg fst href
  have hloc : x'.loc = x.loc := congrArg snd href
  obtain ⟨hxs, hys, hxy⟩ := pairwise_append.mp hfits.ascending
  have hhead : (y'.lo, v) ∈ y'.entries := by rw [hy]; exact mem_cons_self
  have hsep : ∀ e ∈ x'.entries, e.1 < y'.lo := fun e he => hxy e he (y'.lo, v) hhead
  have hlt : x'.lo < y'.lo := by
    obtain ⟨e, he⟩ := exists_mem_of_ne_nil _ hx
    exact hlo ▸ (hfits.lo_le e (mem_append_left _ he)).trans_lt (hsep e he)
  refine ⟨⟨pairwise_pair.mpr ⟨hlt, hsep⟩, ?_⟩, ?_, ?_, ⟨hlink, hnext, trivial⟩, congrArg some hloc⟩
  · intro a ha
    rcases mem_pair.mp ha with rfl | rfl
    · exact ⟨fun e he => hlo ▸ hfits.lo_le e (mem_append_left _ he), hxs⟩
    · refine ⟨fun e he => ?_, hys⟩
      rw [hy] at he hys
      rcases mem_cons.mp he with rfl | he
      · exact le_rfl
      · exact ((pairwise_cons.mp hys).1 e he).le
  · intro a ha
    refine ⟨x, mem_cons_self, ?_⟩
    rcases mem_pair.mp ha with rfl | rfl
    · exact hlo.ge
    · exact hlo ▸ hlt.le
  · intro b hb a ha
    rcases mem_pair.mp ha with rfl | rfl
    · exact ⟨hlo ▸ (h.append_right.lt_of_mem mem_cons_self hb).1,
        fun e he => hfits.lt e (mem_append_left _ he) b hb⟩
    · exact ⟨hfits.lt _ (mem_append_right _ hhead) b hb,
        fun e he => hfits.lt e (mem_append_right _ he) b hb⟩

end Leaves

end CocoonFs.LevelTree
