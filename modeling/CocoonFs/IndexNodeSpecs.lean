import CocoonFs.IndexNodes

namespace CocoonFs.IndexNodes

open Checked LevelTree List
open Branch (lo_eq_of_edges withEdges_edges withEdges_keys)
open Prod (fst snd)

abbrev IndexBranch := Branch Nat Nat

abbrev IndexLeaf := Leaf Nat Nat InodeEntry

/-- How a branch is stored: where its own range begins is left to its parent. -/
def branchNode (n : IndexBranch) : InternalNode :=
  { level := n.level, keys := n.keys, children := n.children }

def leafNode (l : IndexLeaf) : LeafNode :=
  { entries := l.entries, next := l.next }

@[simp] theorem branchNode_keys (n : IndexBranch) : (branchNode n).keys = n.keys := rfl

@[simp] theorem branchNode_level (n : IndexBranch) : (branchNode n).level = n.level := rfl

@[simp] theorem branchNode_children (n : IndexBranch) : (branchNode n).children = n.children := rfl

theorem branchNode_withEdges (n : IndexBranch) (es : List (Nat × Nat)) (h : es ≠ []) :
    branchNode (n.withEdges es h) =
      { level := n.level, keys := separators es, children := es.map snd } := rfl

@[simp] theorem leafNode_entries (l : IndexLeaf) : (leafNode l).entries = l.entries := rfl

variable {E F : List (Nat × Nat)} {e x : Nat × Nat} {k count : Nat} {lay : TreeLayout}
    {v : InodeEntry} {A B : List (Nat × InodeEntry)}

@[simp] theorem leafNode_next (l : IndexLeaf) : (leafNode l).next = l.next := rfl

variable {n : IndexBranch}

theorem keys_of_edges (h : n.edges = E ++ e :: F) :
    n.keys = (E.map fst ++ [e.1]).tail ++ F.map fst := by
  simp only [Branch.keys, separators, h, map_append, map_cons]
  rw [← tail_append_of_ne_nil (by simp), append_assoc, singleton_append]

theorem keys_length_of_edges (h : n.edges = E ++ e :: F) : n.keys.length = E.length + F.length := by
  rw [keys_of_edges h, length_append, length_tail, length_append, length_map,
    length_map, length_singleton, Nat.add_sub_cancel]

theorem tail_length_of_edges (E : List (Nat × Nat)) (e : Nat × Nat) :
    (E.map fst ++ [e.1]).tail.length = E.length := by
  rw [length_tail, length_append, length_map, length_singleton, Nat.add_sub_cancel]

theorem lookupChild_at
    (h : n.edges = E ++ e :: F) (hasc : Ascending n.edges) (hk : At fst k e F) :
    (branchNode n).lookupChild k = .ok E.length := by
  have hF : ∀ b ∈ F.map fst, k < b := by
    intro b hb
    obtain ⟨y, hy, rfl⟩ := mem_map.mp hb
    exact hk.2 y hy
  simp only [InternalNode.lookupChild, branchNode_keys, keys_of_edges h]
  cases E with
  | nil =>
    rw [map_nil, List.nil_append, tail_cons,
      lookupKey_absent (by simp only [not_mem_nil, false_implies, implies_true]) hF]
    rfl
  | cons d E =>
    have hE : ∀ a ∈ E.map fst, a < e.1 := by
      intro a ha
      obtain ⟨y, hy, rfl⟩ := mem_map.mp ha
      rw [h, Ascending, List.cons_append] at hasc
      exact (pairwise_append.mp (pairwise_cons.mp hasc).2).2.2 y hy e
        mem_cons_self
    rw [map_cons, List.cons_append, tail_cons]
    rcases eq_or_lt_of_le hk.1 with heq | hlt
    · rw [append_assoc, singleton_append, heq,
        lookupKey_found (fun a ha => (hE a ha).trans_eq heq) hF, ok_bind, length_map, length_cons]
    · have hEk : ∀ a ∈ E.map fst ++ [e.1], a < k := by
        intro a ha
        rcases mem_append.mp ha with ha | ha
        · exact (hE a ha).trans hlt
        · exact (mem_singleton.mp ha) ▸ hlt
      rw [lookupKey_absent hEk hF, ok_bind, length_append, length_map,
        length_singleton, length_cons]

theorem childPtr_at (h : n.edges = E ++ e :: F) : (branchNode n).childPtr E.length = .ok e.2 := by
  have he : n.children[E.length]? = some e.2 := by
    rw [Branch.children, h, map_append, map_cons,
      getElem?_append_right (by rw [length_map]), length_map, Nat.sub_self,
      getElem?_cons_zero]
  simp only [InternalNode.childPtr, branchNode_children, he]

theorem separatorKey_at {y : Nat × Nat}
    (h : n.edges = E ++ x :: y :: F) : (branchNode n).separatorKey E.length = y.1 := by
  rw [InternalNode.separatorKey, branchNode_keys, keys_of_edges h, getD_eq_getElem?_getD,
    getElem?_append_right (tail_length_of_edges E x).le, tail_length_of_edges, Nat.sub_self,
    map_cons, getElem?_cons_zero, Option.getD_some]

theorem updateSeparatorKey_at {y : Nat × Nat} (h : n.edges = E ++ x :: y :: F) (k : Nat) :
    (branchNode n).updateSeparatorKey E.length k =
      branchNode (n.withEdges (E ++ x :: (k, y.2) :: F) (by simp)) := by
  have hkeys : n.keys.set E.length k = separators (E ++ x :: (k, y.2) :: F) := by
    have hnew := keys_of_edges (n := n.withEdges (E ++ x :: (k, y.2) :: F) (by simp)) rfl
    rw [withEdges_keys] at hnew
    rw [hnew, keys_of_edges h, set_append_right _ _ (tail_length_of_edges E x).le,
      tail_length_of_edges, Nat.sub_self, map_cons, set_cons_zero, map_cons]
  have hchildren : n.children = (E ++ x :: (k, y.2) :: F).map snd := by
    simp only [Branch.children, h, map_append, map_cons]
  simp only [InternalNode.updateSeparatorKey, branchNode, Branch.withEdges_level,
    withEdges_keys, Branch.withEdges_children, hkeys, hchildren]

theorem insertIdx_append_length {α : Type} (A B : List α) (x : α) :
    (A ++ B).insertIdx A.length x = A ++ x :: B := by
  induction A with
  | nil => rfl
  | cons a A ih => simp only [List.cons_append, length_cons, insertIdx_succ_cons, ih]

theorem insert_at {res : InternalNode} {c : Nat} (h : n.edges = E ++ x :: F)
    (hres : InternalNode.insert lay (branchNode n) E.length k c = .ok res) :
    n.keys.length ≠ lay.maxInternalNodeEntries ∧
      res = branchNode (n.withEdges (E ++ x :: (k, c) :: F) (by simp)) := by
  rw [InternalNode.insert] at hres
  split at hres
  · cases hres
  next hlen =>
    refine ⟨hlen, ?_⟩
    cases hres
    have hnew := keys_of_edges (n := n.withEdges (E ++ x :: (k, c) :: F) (by simp)) rfl
    have hkeys : n.keys.insertIdx E.length k = separators (E ++ x :: (k, c) :: F) := by
      rw [withEdges_keys] at hnew
      rw [hnew, keys_of_edges h]
      conv_lhs => rw [← tail_length_of_edges E x]
      rw [insertIdx_append_length, map_cons]
    have hchildren :
        n.children.insertIdx (E.length + 1) c = (E ++ x :: (k, c) :: F).map snd := by
      have hE : E.length + 1 = (E.map snd ++ [x.2]).length := by
        rw [length_append, length_map, length_singleton]
      have happ : n.children = (E.map snd ++ [x.2]) ++ F.map snd := by
        rw [Branch.children, h, map_append, map_cons, append_assoc, singleton_append]
      rw [happ, hE, insertIdx_append_length, append_assoc, singleton_append,
        map_append, map_cons, map_cons]
    simp only [branchNode, Branch.withEdges_level, withEdges_keys,
      Branch.withEdges_children, hkeys, hchildren]

/-- Two neighbours hold the same children as before, at their old places. -/
structure Regrouped (l r l' r' : IndexBranch) : Prop where
  left_level : l'.level = l.level
  left_loc : l'.loc = l.loc
  left_lo : l'.lo = l.lo
  right_level : r'.level = r.level
  right_loc : r'.loc = r.loc
  edges : l'.edges ++ r'.edges = l.edges ++ r.edges

theorem lo_withEdges_drop {i : Nat} (h : n.edges.drop (i + 1) ≠ []) :
    (n.withEdges (n.edges.drop (i + 1)) h).lo = n.keys.getD i noInode := by
  obtain ⟨c, t, hc⟩ := n.edges_eq_cons
  obtain ⟨e, u, hu⟩ := exists_cons_of_ne_nil h
  rw [lo_eq_of_edges (n := n.withEdges _ h) hu]
  have hdrop : t.drop i = e :: u := by rw [← hu, hc, drop_succ_cons]
  have hget : (t.map fst)[i]? = some e.1 := by
    rw [getElem?_map, ← head?_drop, hdrop, head?_cons, Option.map_some]
  rw [Branch.keys, separators, hc, map_cons, tail_cons, getD_eq_getElem?_getD,
    hget, Option.getD_some]

theorem lo_withEdges_append (n : IndexBranch) (es : List (Nat × Nat)) (h : n.edges ++ es ≠ []) :
    (n.withEdges (n.edges ++ es) h).lo = n.lo := by
  obtain ⟨c, t, hc⟩ := n.edges_eq_cons
  have hcons : (n.withEdges (n.edges ++ es) h).edges = (n.lo, c) :: (t ++ es) := by
    rw [withEdges_edges, hc, List.cons_append]
  rw [lo_eq_of_edges hcons]

theorem lo_withEdges_take (n : IndexBranch) {i : Nat} (h : n.edges.take (i + 1) ≠ []) :
    (n.withEdges (n.edges.take (i + 1)) h).lo = n.lo := by
  obtain ⟨c, t, hc⟩ := n.edges_eq_cons
  have hcons : (n.withEdges (n.edges.take (i + 1)) h).edges = (n.lo, c) :: t.take i := by
    rw [withEdges_edges, hc, take_succ_cons]
  rw [lo_eq_of_edges hcons]

variable {res : InternalNode × InternalNode × Nat} {l r : IndexBranch}

theorem rotateLeft_ok (hcount : count ≠ 0)
    (h : InternalNode.rotateLeft lay (branchNode l) (branchNode r) count r.lo = .ok res) :
    ∃ l' r', res = (branchNode l', branchNode r', r'.lo) ∧ Regrouped l r l' r' ∧
      l'.keys.length = l.keys.length + count ∧ r'.keys.length + count = r.keys.length ∧
      l'.keys.length ≤ lay.maxInternalNodeEntries ∧
      lay.minInternalNodeEntries ≤ r'.keys.length := by
  obtain ⟨i, rfl⟩ := Nat.exists_eq_add_one_of_ne_zero hcount
  rw [InternalNode.rotateLeft, if_neg hcount] at h
  split at h
  · cases h
  next hb =>
    simp only [branchNode_keys, not_or, not_lt] at hb
    obtain ⟨hmax, hlen, hmin⟩ := hb
    have hr := r.keys_length
    have hdrop : r.edges.drop (i + 1) ≠ [] := by
      rw [Ne, drop_eq_nil_iff]
      omega
    have hleft : l.edges ++ r.edges.take (i + 1) ≠ [] := by
      simp only [ne_eq, append_eq_nil_iff, l.edges_ne, false_and, not_false_eq_true]
    cases h
    have hkeys : l.keys ++ r.lo :: r.keys.take i =
        separators (l.edges ++ r.edges.take (i + 1)) := by
      rw [separators_append l.edges_ne, map_take, ← r.lo_cons_keys, take_succ_cons]
      rfl
    refine ⟨l.withEdges (l.edges ++ r.edges.take (i + 1)) hleft,
      r.withEdges (r.edges.drop (i + 1)) hdrop, ?_, ⟨rfl, rfl, lo_withEdges_append l _ hleft, rfl,
      rfl, ?_⟩, ?_, ?_, ?_, ?_⟩
    · rw [lo_withEdges_drop hdrop, branchNode_withEdges, branchNode_withEdges, ← hkeys,
        separators_drop]
      simp only [branchNode_level, branchNode_keys, branchNode_children, Nat.add_sub_cancel,
        Branch.children, map_append, map_take, map_drop]
      rfl
    · simp only [withEdges_edges, append_assoc, take_append_drop]
    · rw [withEdges_keys, ← hkeys, length_append, length_cons, length_take]
      omega
    · rw [withEdges_keys, separators_drop, length_drop]
      exact Nat.sub_add_cancel hlen
    · rw [withEdges_keys, ← hkeys, length_append, length_cons, length_take]
      omega
    · rw [withEdges_keys, separators_drop, length_drop]
      exact hmin

theorem rotateRight_ok (hcount : count ≠ 0)
    (h : InternalNode.rotateRight lay (branchNode l) (branchNode r) count r.lo = .ok res) :
    ∃ l' r', res = (branchNode l', branchNode r', r'.lo) ∧ Regrouped l r l' r' ∧
      l'.keys.length + count = l.keys.length ∧ r'.keys.length = r.keys.length + count ∧
      r'.keys.length ≤ lay.maxInternalNodeEntries ∧
      lay.minInternalNodeEntries ≤ l'.keys.length := by
  rw [InternalNode.rotateRight, if_neg hcount] at h
  split at h
  · cases h
  next hb =>
    simp only [branchNode_keys, not_or, not_lt] at hb
    obtain ⟨i, hi⟩ : ∃ i, i = l.keys.length - count := ⟨_, rfl⟩
    have hl := l.keys_length
    have htake : l.edges.take (i + 1) ≠ [] := by
      rw [Ne, take_eq_nil_iff, not_or]
      exact ⟨Nat.add_one_ne_zero i, l.edges_ne⟩
    have hdrop : l.edges.drop (i + 1) ≠ [] := by
      rw [Ne, drop_eq_nil_iff]
      omega
    have hright : l.edges.drop (i + 1) ++ r.edges ≠ [] := by
      simp only [ne_eq, append_eq_nil_iff, r.edges_ne, and_false, not_false_eq_true]
    simp only [branchNode_keys, ← hi] at h
    cases h
    have hkeys : l.keys.drop (i + 1) ++ r.lo :: r.keys =
        separators (l.edges.drop (i + 1) ++ r.edges) := by
      rw [separators_append hdrop, separators_drop, r.lo_cons_keys]
      rfl
    have hlo : (r.withEdges (l.edges.drop (i + 1) ++ r.edges) hright).lo =
        l.keys.getD i noInode := by
      rw [← lo_withEdges_drop hdrop]
      exact lo_withEdges_append (l.withEdges _ hdrop) r.edges hright
    refine ⟨l.withEdges (l.edges.take (i + 1)) htake,
      r.withEdges (l.edges.drop (i + 1) ++ r.edges) hright, ?_,
      ⟨rfl, rfl, lo_withEdges_take l htake, rfl, rfl, ?_⟩, ?_, ?_, ?_, ?_⟩
    · rw [hlo, branchNode_withEdges, branchNode_withEdges, ← hkeys, separators_take]
      simp only [branchNode_level, branchNode_children, Branch.children, map_append,
        map_take, map_drop]
      rfl
    · simp only [withEdges_edges, ← append_assoc, take_append_drop]
    · rw [withEdges_keys, separators_take, length_take]
      change min i l.keys.length + count = l.keys.length
      omega
    · rw [withEdges_keys, ← hkeys, length_append, length_cons, length_drop]
      omega
    · rw [withEdges_keys, ← hkeys, length_append, length_cons, length_drop]
      omega
    · rw [withEdges_keys, separators_take, length_take]
      change lay.minInternalNodeEntries ≤ min i l.keys.length
      omega

theorem split_ok (newLoc : Nat) (hone : 1 ≤ lay.minInternalNodeEntries)
    (h : InternalNode.split lay (branchNode n) = .ok res) :
    ∃ l' r' : IndexBranch, res = (branchNode l', branchNode r', r'.lo) ∧
      l'.level = n.level ∧ l'.loc = n.loc ∧ l'.lo = n.lo ∧ r'.level = n.level ∧
      r'.loc = newLoc ∧ l'.edges ++ r'.edges = n.edges ∧
      l'.keys.length + r'.keys.length + 1 = n.keys.length ∧
      lay.minInternalNodeEntries ≤ l'.keys.length ∧
      lay.minInternalNodeEntries ≤ r'.keys.length := by
  obtain ⟨i, hi⟩ : ∃ i, i = n.keys.length - n.keys.length / 2 - 1 := ⟨_, rfl⟩
  simp only [InternalNode.split, branchNode_keys, ← hi] at h
  split at h
  · cases h
  next hb =>
    simp only [not_or, not_lt] at hb
    obtain ⟨hright, hleft⟩ := hb
    have hn := n.keys_length
    have hlen : i + n.keys.length / 2 + 1 = n.keys.length := by omega
    have htake : n.edges.take (i + 1) ≠ [] := by
      rw [Ne, take_eq_nil_iff, not_or]
      exact ⟨Nat.add_one_ne_zero i, n.edges_ne⟩
    have hdrop : n.edges.drop (i + 1) ≠ [] := by
      rw [Ne, drop_eq_nil_iff, ← hn]
      omega
    have hleftKeys : (separators (n.edges.take (i + 1))).length = i := by
      rw [separators_take, length_take]
      change min i n.keys.length = i
      omega
    have hrightKeys : (separators (n.edges.drop (i + 1))).length = n.keys.length / 2 := by
      rw [separators_drop, length_drop]
      change n.keys.length - (i + 1) = n.keys.length / 2
      omega
    cases h
    refine ⟨n.withEdges (n.edges.take (i + 1)) htake,
      { level := n.level, loc := newLoc, edges := n.edges.drop (i + 1), edges_ne := hdrop }, ?_,
      rfl, rfl, lo_withEdges_take n htake, rfl, rfl, take_append_drop (i + 1) n.edges, ?_, ?_, ?_⟩
    · rw [← lo_withEdges_drop hdrop, branchNode_withEdges, separators_take]
      simp only [branchNode, Branch.keys, Branch.children, separators_drop, map_take, map_drop]
      rfl
    · change (separators (n.edges.take (i + 1))).length +
        (separators (n.edges.drop (i + 1))).length + 1 = n.keys.length
      rw [hleftKeys, hrightKeys, hlen]
    · exact hleft.trans_eq hleftKeys.symm
    · exact hright.trans_eq hrightKeys.symm

/-! ## Leaves -/

variable {n : LeafNode}

theorem lookup_found
    (h : n.entries = A ++ (k, v) :: B) (hA : ∀ a ∈ A, a.1 < k) (hB : ∀ b ∈ B, k < b.1) :
    n.lookup k = .ok (.found A.length) := by
  rw [LeafNode.lookup, h, map_append, map_cons, lookupKey_found, length_map]
  · intro a ha
    obtain ⟨e, he, rfl⟩ := mem_map.mp ha
    exact hA e he
  · intro b hb
    obtain ⟨e, he, rfl⟩ := mem_map.mp hb
    exact hB e he

theorem lookup_absent (h : n.entries = A ++ B) (hA : ∀ a ∈ A, a.1 < k) (hB : ∀ b ∈ B, k < b.1) :
    n.lookup k = .ok (.absent A.length) := by
  rw [LeafNode.lookup, h, map_append, lookupKey_absent, length_map]
  · intro a ha
    obtain ⟨e, he, rfl⟩ := mem_map.mp ha
    exact hA e he
  · intro b hb
    obtain ⟨e, he, rfl⟩ := mem_map.mp hb
    exact hB e he

theorem modify_append_length {α : Type} (A B : List α) (x : α) (f : α → α) :
    (A ++ x :: B).modify A.length f = A ++ f x :: B := by
  induction A with
  | nil => rfl
  | cons a A ih => simp only [List.cons_append, length_cons, modify_succ_cons, ih]

/-- An entry with the key is replaced, otherwise there has been room for another one. -/
theorem leafInsert_ok {n n' : LeafNode}
    (hasc : Ascending n.entries) (h : n.insert lay k v none = .ok n') :
    ∃ A B, (∀ a ∈ A, a.1 < k) ∧ (∀ b ∈ B, k < b.1) ∧ n' = { n with entries := A ++ (k, v) :: B } ∧
      ((∃ w, n.entries = A ++ (k, w) :: B) ∨
        n.entries = A ++ B ∧ n.entries.length ≠ lay.maxLeafNodeEntries) := by
  obtain ⟨A, B, hA, hB, hsplit⟩ := hasc.split_at k
  refine ⟨A, B, hA, hB, ?_⟩
  rcases hsplit with hAB | ⟨w, hAB⟩
  · simp only [LeafNode.insert, lookup_absent hAB hA hB, ok_bind] at h
    obtain ⟨hlen, h⟩ := of_ite_err h
    cases h
    exact ⟨by rw [hAB, insertIdx_append_length], .inr ⟨hAB, hlen⟩⟩
  · simp only [LeafNode.insert, lookup_found hAB hA hB, ok_bind] at h
    cases h
    exact ⟨by rw [hAB, modify_append_length], .inl ⟨w, hAB⟩⟩

theorem headKey_eq (h : n.entries ≠ []) : ∃ v t, n.entries = (n.headKey, v) :: t := by
  obtain ⟨e, t, he⟩ := exists_cons_of_ne_nil h
  exact ⟨e.2, t, by simp only [LeafNode.headKey, he]⟩

structure Spilled (l r l' r' : LeafNode) (key : Nat) : Prop where
  left_next : l'.next = l.next
  right_next : r'.next = r.next
  entries : l'.entries ++ r'.entries = l.entries ++ r.entries
  key_eq : key = r'.headKey

variable {res : LeafNode × LeafNode × Nat} {l r : LeafNode}

theorem spillLeft_ok (h : LeafNode.spillLeft lay l r count = .ok res) :
    Spilled l r res.1 res.2.1 res.2.2 ∧ res.1.entries = l.entries ++ r.entries.take count ∧
      res.1.entries.length = l.entries.length + count ∧
      res.2.1.entries.length + count = r.entries.length ∧
      res.1.entries.length ≤ lay.maxLeafNodeEntries ∧
      lay.minLeafNodeEntries ≤ res.2.1.entries.length := by
  obtain ⟨hb, h⟩ := of_ite_err h
  simp only [not_or, not_lt] at hb
  obtain ⟨hmax, hlen, hmin⟩ := hb
  cases h
  have hleft : (l.entries ++ r.entries.take count).length = l.entries.length + count := by
    rw [length_append, length_take, Nat.min_eq_left hlen]
  refine ⟨⟨rfl, rfl, ?_, rfl⟩, rfl, hleft, ?_, hleft ▸ hmax, ?_⟩
  · simp only [append_assoc, take_append_drop]
  · simp only [length_drop]
    exact Nat.sub_add_cancel hlen
  · simpa only [length_drop] using hmin

theorem spillRight_ok (h : LeafNode.spillRight lay l r count = .ok res) :
    Spilled l r res.1 res.2.1 res.2.2 ∧
      res.2.1.entries = l.entries.drop (l.entries.length - count) ++ r.entries ∧
      res.1.entries.length + count = l.entries.length ∧
      res.2.1.entries.length = r.entries.length + count ∧
      res.2.1.entries.length ≤ lay.maxLeafNodeEntries ∧
      lay.minLeafNodeEntries ≤ res.1.entries.length := by
  obtain ⟨hb, h⟩ := of_ite_err h
  simp only [not_or, not_lt] at hb
  obtain ⟨hmax, hlen, hmin⟩ := hb
  cases h
  have hleft : (l.entries.take (l.entries.length - count)).length = l.entries.length - count := by
    rw [length_take, Nat.min_eq_left (Nat.sub_le _ _)]
  have hright : (l.entries.drop (l.entries.length - count) ++ r.entries).length =
      r.entries.length + count := by
    rw [length_append, length_drop, Nat.sub_sub_self hlen, Nat.add_comm]
  refine ⟨⟨rfl, rfl, ?_, rfl⟩, rfl, ?_, hright, hright ▸ hmax, hmin.trans_eq hleft.symm⟩
  · simp only [← append_assoc, take_append_drop]
  · exact hleft.symm ▸ Nat.sub_add_cancel hlen

theorem splitInsert_ok {newLoc : Nat} (hAB : n.entries = A ++ B)
    (h : n.splitInsert lay k v A.length newLoc = .ok res) :
    res.1.entries ++ res.2.1.entries = A ++ (k, v) :: B ∧ res.1.next = some newLoc ∧
      res.2.1.next = n.next ∧ res.2.2 = res.2.1.headKey ∧
      lay.minLeafNodeEntries ≤ res.1.entries.length ∧
      lay.minLeafNodeEntries ≤ res.2.1.entries.length := by
  have hlen : n.entries.length = A.length + B.length := by rw [hAB, length_append]
  by_cases hpos : A.length ≤ n.entries.length / 2
  · simp only [LeafNode.splitInsert, if_pos hpos] at h
    obtain ⟨hb, h⟩ := of_ite_err h
    obtain ⟨kept, hkept⟩ : ∃ i, i = n.entries.length - (n.entries.length + 1) / 2 := ⟨_, rfl⟩
    simp only [← hkept, ↓reduceIte, LeafNode.insert, ok_bind] at h
    obtain ⟨l', hl', h⟩ := bind_eq_ok h
    obtain ⟨-, hl'⟩ := of_ite_err hl'
    have hle : A.length ≤ kept := by omega
    have htake : n.entries.take kept = A ++ B.take (kept - A.length) := by
      rw [hAB, List.take_append, take_of_length_le hle]
    have hdrop : n.entries.drop kept = B.drop (kept - A.length) := by
      rw [hAB, drop_append, drop_of_length_le hle, List.nil_append]
    rw [htake, insertIdx_append_length] at hl'
    cases hl'
    cases h
    refine ⟨?_, rfl, rfl, rfl, ?_, ?_⟩
    · simp only [hdrop, append_assoc, List.cons_append, take_append_drop]
    · simp only [length_append, length_cons, length_take]
      omega
    · simp only [length_drop]
      omega
  · simp only [LeafNode.splitInsert, if_neg hpos] at h
    obtain ⟨hb, h⟩ := of_ite_err h
    obtain ⟨kept, hkept⟩ : ∃ i, i = n.entries.length - (n.entries.length + 0) / 2 := ⟨_, rfl⟩
    simp only [← hkept, Nat.zero_ne_one, ↓reduceIte] at h
    have hle : kept ≤ A.length := by omega
    have htake : n.entries.take kept = A.take kept := by
      rw [hAB, take_append_of_le_length hle]
    have hdrop : n.entries.drop kept = A.drop kept ++ B := by
      rw [hAB, drop_append_of_le_length hle]
    have hins : (n.entries.drop kept).insertIdx (A.length - kept) (k, v) =
        A.drop kept ++ (k, v) :: B := by
      rw [hdrop, ← length_drop, insertIdx_append_length]
    cases h
    refine ⟨?_, rfl, rfl, rfl, ?_, ?_⟩
    · simp only [htake, hins, ← append_assoc, take_append_drop]
    · simp only [length_take]
      omega
    · simp only [hins, length_append, length_drop, length_cons]
      omega

end CocoonFs.IndexNodes
