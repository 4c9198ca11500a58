import CocoonFs.IndexTree

namespace CocoonFs.IndexEnumerate

open Checked LevelTree IndexNodes IndexTree List

/-- InodeIndexEnumerateCursor, on the inodes from first to last. -/
structure Cursor where
  first : Nat
  last : Nat
  position : Option (LeafNode × Nat)
  inFinalLeafNode : Bool
  atEnd : Bool

namespace Cursor

def new (first last : Nat) : Cursor :=
  { first := max first specialInodeMax
    last := last
    position := none
    inFinalLeafNode := false
    atEnd := false }

def exhausted (c : Cursor) : Cursor × Option (Nat × BitVec 32) :=
  ({ c with position := none, atEnd := true }, none)

/-- The cursor moves to an entry, unless that is behind the range already. -/
def moveTo (c : Cursor) (leaf : LeafNode) (i : Nat) (e : Nat × InodeEntry) :
    Cursor × Option (Nat × BitVec 32) :=
  let c := { c with position := some (leaf, i) }
  if e.1 > c.last then
    c.exhausted
  else
    ({ c with atEnd := c.atEnd || e.1 == c.last }, some (e.1, e.2.flags))

/-- ReadNextTreeLeafNode -/
def readNextLeaf (t : Index) (c : Cursor) (loc : Nat) :
    Comp (Cursor × Option (Nat × BitVec 32)) := do
  let leaf ← t.readLeaf loc
  match leaf.entries with
  | [] => formatErr .invalidIndexNode
  | e :: _ => .ok (c.moveTo leaf 0 e)

def followLeaf (t : Index) (c : Cursor) (leaf : LeafNode) (isFinal : Bool) :
    Comp (Cursor × Option (Nat × BitVec 32)) :=
  match if isFinal then none else leaf.next with
  | some loc => c.readNextLeaf t loc
  | none => .ok c.exhausted

/-- What LookupNextInodeWalkReadTreeNode finds out at an internal node. -/
def visit (last : Nat) (isFinalLeafNode : Bool) (_loc : Nat) (n : InternalNode) (childIndex : Nat) :
    Bool :=
  let nextChildNodeLevel := n.level - 1
  if nextChildNodeLevel = 1 ∧ childIndex ≠ n.keys.length ∧ n.separatorKey childIndex > last then
    true
  else
    isFinalLeafNode

/-- InodeIndexEnumerateCursorNextFuture -/
def next (pr : Profile) (t : Index) (c : Cursor) : Comp (Cursor × Option (Nat × BitVec 32)) :=
  match c.position with
  | none => do
    debugAssert pr (c.atEnd = false)
    if ¬c.first ≤ c.last then
      .ok c.exhausted
    else
      let (isFinal, _, leaf) ← t.walk (visit c.last) c.first (t.levels - 1) t.root false
      let i ← match ← leaf.lookup c.first with
        | .found i => pure i
        | .absent i => pure i
      match leaf.entries[i]? with
      | none => followLeaf t { c with position := some (leaf, i) } leaf isFinal
      | some e =>
        let inFinalLeafNode := c.inFinalLeafNode || (isFinal && e.1 ≤ c.last)
        .ok (moveTo { c with inFinalLeafNode := inFinalLeafNode } leaf i e)
  | some (leaf, i) =>
    if c.atEnd then
      .ok c.exhausted
    else
      match leaf.entries[i + 1]? with
      | none => followLeaf t { c with position := some (leaf, i + 1) } leaf c.inFinalLeafNode
      | some e => .ok (c.moveTo leaf (i + 1) e)

end Cursor

inductive Yields (pr : Profile) (t : Index) : Cursor → List (Nat × BitVec 32) → Prop
  | done {c c'} (h : c.next pr t = .ok (c', none)) : Yields pr t c []
  | more {c c' x xs} (h : c.next pr t = .ok (c', some x)) (hxs : Yields pr t c' xs) :
      Yields pr t c (x :: xs)

theorem Yields.unique {pr : Profile} {t : Index} {c : Cursor} {xs ys : List (Nat × BitVec 32)}
    (hx : Yields pr t c xs) (hy : Yields pr t c ys) : xs = ys := by
  induction hx generalizing ys with
  | done h =>
    cases hy with
    | done h' => rfl
    | more h' _ => rw [h] at h'; cases h'
  | more h hxs ih =>
    cases hy with
    | done h' => rw [h] at h'; cases h'
    | more h' hys =>
      rw [h] at h'
      cases h'
      rw [ih hys]

def upTo (last : Nat) (es : List (Nat × InodeEntry)) : List (Nat × BitVec 32) :=
  (es.filter fun e => e.1 ≤ last).map fun e => (e.1, e.2.flags)

variable {last : Nat} {es : List (Nat × InodeEntry)}

theorem upTo_eq_nil (h : ∀ e ∈ es, last < e.1) :
    upTo last es = [] := by
  rw [upTo, filter_eq_nil_iff.mpr, map_nil]
  intro e he
  simpa only [decide_eq_true_eq, not_le] using h e he

variable {e : Nat × InodeEntry}

theorem upTo_cons_of_le
    (h : e.1 ≤ last) : upTo last (e :: es) = (e.1, e.2.flags) :: upTo last es := by
  rw [upTo, filter_cons_of_pos (by simpa only [decide_eq_true_eq] using h), map_cons,
    upTo]

variable {es fs : List (Nat × InodeEntry)}

theorem upTo_ite_eq_nil {b : Bool}
    (h : ∀ e ∈ es ++ fs, last < e.1) : upTo last (es ++ if b then [] else fs) = [] := by
  apply upTo_eq_nil
  intro e he
  rcases mem_append.mp he with he | he
  · exact h e (mem_append_left fs he)
  · cases b with
    | true => cases he
    | false => exact h e (mem_append_right es he)

theorem upTo_append (last : Nat) (es fs : List (Nat × InodeEntry)) :
    upTo last (es ++ fs) = upTo last es ++ upTo last fs := by
  simp only [upTo, filter_append, map_append]

def inodesIn (s : Shape) (first last : Nat) : List (Nat × BitVec 32) :=
  upTo last ((contents s.leaves).filter fun e => first ≤ e.1)

section Moves

variable {pr : Profile} {t : Index} {c : Cursor} {leaf : LeafNode} {i : Nat}
  {e : Nat × InodeEntry}

variable (leaf i) in
theorem moveTo_of_lt (h : c.last < e.1) :
    ∃ c', c.moveTo leaf i e = (c', none) := by
  simp only [Cursor.moveTo, if_pos h, Cursor.exhausted]
  exact ⟨_, rfl⟩

theorem moveTo_of_le (h : e.1 ≤ c.last) :
    c.moveTo leaf i e =
      ({ c with position := some (leaf, i), atEnd := c.atEnd || e.1 == c.last },
        some (e.1, e.2.flags)) := by
  simp only [Cursor.moveTo, if_neg (not_lt.mpr h)]

theorem next_within (hpos : c.position = some (leaf, i)) (hend : c.atEnd = false)
    (he : leaf.entries[i + 1]? = some e) : c.next pr t = .ok (c.moveTo leaf (i + 1) e) := by
  simp only [Cursor.next, hpos, hend, Bool.false_eq_true, ↓reduceIte, he]

theorem next_atEnd (hpos : c.position = some (leaf, i)) (hend : c.atEnd = true) :
    c.next pr t = .ok c.exhausted := by
  simp only [Cursor.next, hpos, hend, ↓reduceIte]

variable (pr t) in
theorem next_behind (hpos : c.position = some (leaf, i)) (hend : c.atEnd = false)
    (hi : leaf.entries[i + 1]? = none) :
    c.next pr t =
      Cursor.followLeaf t { c with position := some (leaf, i + 1) } leaf c.inFinalLeafNode := by
  simp only [Cursor.next, hpos, hend, Bool.false_eq_true, ↓reduceIte, hi]

end Moves

variable {A B : List IndexLeaf} {l : IndexLeaf} {isFinal : Bool} {B : List IndexLeaf} {i : Nat}
  {c c' : Cursor}

section Run

variable {lay : TreeLayout} {pr : Profile} {t : Index} {s : Shape}

section

variable (h : Represents lay t s)
include h

theorem next_leaf (hl : s.leaves = A ++ l :: B) : l.next = headLoc B none := by
  have hlinked := h.linked
  rw [hl, linked_append] at hlinked
  exact hlinked.2.1

theorem followLeaf_cons (hmin : 1 ≤ lay.minLeafNodeEntries)
    {l m : IndexLeaf} (hl : s.leaves = A ++ l :: m :: B) (c : Cursor) (hfin : isFinal = false) :
    ∃ e es, m.entries = e :: es ∧
      c.followLeaf t (leafNode l) isFinal = .ok (c.moveTo (leafNode m) 0 e) := by
  have hm : m ∈ s.leaves := by rw [hl]; simp
  obtain ⟨e, es, he⟩ := exists_cons_of_ne_nil (h.entries_ne_nil hmin hm)
  refine ⟨e, es, he, ?_⟩
  simp only [Cursor.followLeaf, hfin, Bool.false_eq_true, ↓reduceIte, leafNode_next,
    next_leaf h hl, headLoc, Cursor.readNextLeaf, readLeaf_eq (h.stored_leaf hm), ok_bind, leafNode_entries, he]

theorem followLeaf_stop
    (hl : s.leaves = A ++ l :: B) (c : Cursor) (isFinal : Bool) (hB : isFinal = true ∨ B = []) :
    c.followLeaf t (leafNode l) isFinal = .ok c.exhausted := by
  rcases hB with rfl | rfl
  · simp only [Cursor.followLeaf, ↓reduceIte]
  · simp only [Cursor.followLeaf, leafNode_next, next_leaf h hl, headLoc, ite_self]

theorem ascending_from
    (hl : s.leaves = A ++ l :: B) (i : Nat) : Ascending (l.entries.drop i ++ contents B) := by
  have hasc := h.ordered.ascending_contents
  rw [hl, contents_append, contents_cons] at hasc
  exact hasc.append_right.sublist ((drop_sublist i l.entries).append_right (contents B))

end

def remaining (l : IndexLeaf) (B : List IndexLeaf) (i : Nat) (isFinal : Bool) :
    List (Nat × InodeEntry) :=
  l.entries.drop (i + 1) ++ if isFinal then [] else contents B

theorem mem_of_remaining (h : e ∈ remaining l B i isFinal) :
    e ∈ l.entries.drop (i + 1) ++ contents B := by
  cases isFinal with
  | true =>
    simp only [remaining, ↓reduceIte, List.append_nil] at h
    exact mem_append_left _ h
  | false => exact h

theorem drop_eq_cons {α : Type} {xs : List α} {x : α} (h : xs[i]? = some x) :
    xs.drop i = x :: xs.drop (i + 1) := by
  obtain ⟨hlt, rfl⟩ := List.getElem?_eq_some_iff.mp h
  exact drop_eq_getElem_cons hlt

def YieldsAt (pr : Profile) (t : Index) (l : IndexLeaf) (B : List IndexLeaf) (i : Nat) : Prop :=
  ∀ c : Cursor, c.position = some (leafNode l, i) →
    (c.atEnd = true → ∀ e ∈ l.entries.drop (i + 1) ++ contents B, c.last < e.1) →
    Yields pr t c (upTo c.last (remaining l B i c.inFinalLeafNode))

theorem YieldsAt.moveTo
    (h : YieldsAt pr t l B i) (hlt : ∀ x ∈ l.entries.drop (i + 1) ++ contents B, e.1 < x.1)
    (hnext : c.next pr t = .ok (c'.moveTo (leafNode l) i e))
    (hat : c'.atEnd = false) :
    Yields pr t c (upTo c'.last (e :: remaining l B i c'.inFinalLeafNode)) := by
  by_cases hle : e.1 ≤ c'.last
  · rw [moveTo_of_le hle] at hnext
    rw [upTo_cons_of_le hle]
    refine .more hnext (h _ rfl ?_)
    intro hlast x hx
    simp only [hat, Bool.false_or, beq_iff_eq] at hlast
    exact hlast ▸ hlt x hx
  · have hgt := not_le.mp hle
    obtain ⟨c'', hc''⟩ := moveTo_of_lt (leafNode l) i hgt
    rw [hc''] at hnext
    rw [upTo_eq_nil]
    · exact .done hnext
    · intro x hx
      rcases mem_cons.mp hx with rfl | hx
      · exact hgt
      · exact hgt.trans (hlt x (mem_of_remaining hx))

/-- Behind a leaf's last entry, the cursor yields what the leaves behind it hold. -/
theorem yields_follow (h : Represents lay t s) (hmin : 1 ≤ lay.minLeafNodeEntries)
    (hl : s.leaves = A ++ l :: B) (hnext : c.next pr t = c'.followLeaf t (leafNode l) isFinal)
    (hat : c'.atEnd = false) (hfin : c'.inFinalLeafNode = true → isFinal = true)
    (hy : ∀ m B', B = m :: B' → YieldsAt pr t m B' 0) :
    Yields pr t c (upTo c'.last (if isFinal then [] else contents B)) := by
  by_cases hstop : isFinal = true ∨ B = []
  · rw [followLeaf_stop h hl _ _ hstop] at hnext
    have hnil : (if isFinal = true then [] else contents B) = [] := by
      rcases hstop with hfinal | rfl
      · rw [if_pos hfinal]
      · rw [contents_nil, ite_self]
    rw [hnil]
    exact .done hnext
  · obtain ⟨hfinal, hB⟩ := not_or.mp hstop
    obtain ⟨m, B', rfl⟩ := exists_cons_of_ne_nil hB
    have hl' : s.leaves = (A ++ [l]) ++ m :: B' := by
      rw [hl, append_assoc, singleton_append]
    obtain ⟨e, es, hm, hfollow⟩ := followLeaf_cons h hmin hl c' (Bool.eq_false_iff.mpr hfinal)
    have hdrop : m.entries.drop (0 + 1) = es := by rw [hm, drop_one, tail_cons]
    have hasc := ascending_from h hl' 0
    rw [drop_zero, hm, List.cons_append] at hasc
    have hmove := (hy m B' rfl).moveTo (hdrop.symm ▸ (pairwise_cons.mp hasc).1)
      (hnext.trans hfollow) hat
    rw [remaining, hdrop, if_neg (hfinal ∘ hfin)] at hmove
    simpa only [hfinal, Bool.false_eq_true, ↓reduceIte, contents_cons, hm, List.cons_append]
      using hmove

theorem yieldsAt_of_length (h : Represents lay t s) (hmin : 1 ≤ lay.minLeafNodeEntries) (n : Nat) :
    ∀ (A B : List IndexLeaf) (l : IndexLeaf) (i : Nat), s.leaves = A ++ l :: B →
      (l.entries.drop (i + 1) ++ contents B).length = n → YieldsAt pr t l B i := by
  induction n using Nat.strongRecOn with
  | ind n ih =>
    intro A B l i hl hn c hpos hend
    have hasc := ascending_from h hl (i + 1)
    cases hat : c.atEnd with
    | true =>
      rw [upTo_eq_nil fun e he => hend hat e (mem_of_remaining he)]
      exact .done (next_atEnd hpos hat)
    | false =>
      cases he : l.entries[i + 1]? with
      | some e =>
        have hdrop := drop_eq_cons he
        rw [hdrop, List.cons_append] at hasc hn
        rw [remaining, hdrop, List.cons_append]
        exact (ih _ (by simp [← hn]) A B l (i + 1) hl rfl).moveTo
          (pairwise_cons.mp hasc).1 (next_within hpos hat he) hat
      | none =>
        have hdrop : l.entries.drop (i + 1) = [] := by
          rwa [drop_eq_nil_iff, ← List.getElem?_eq_none_iff]
        have hnext := next_behind pr t hpos hat he
        rw [remaining, hdrop, List.nil_append]
        refine yields_follow h hmin hl hnext hat id ?_
        rintro m B' rfl
        have hl' : s.leaves = (A ++ [l]) ++ m :: B' := by
          rw [hl, append_assoc, singleton_append]
        refine ih _ ?_ (A ++ [l]) B' m 0 hl' rfl
        have hm : m ∈ s.leaves := by rw [hl']; simp
        have hpos := length_pos_of_ne_nil (h.entries_ne_nil hmin hm)
        simp only [← hn, hdrop, List.nil_append, contents_cons, length_append, length_drop]
        omega

variable (pr) in
theorem yieldsAt (h : Represents lay t s) (hmin : 1 ≤ lay.minLeafNodeEntries)
    (hl : s.leaves = A ++ l :: B) (i : Nat) :
    YieldsAt pr t l B i :=
  yieldsAt_of_length h hmin _ A B l i hl rfl

end Run

/-- On the way to the first inode's leaf, the separator behind the child of the
node at level two is behind the range. -/
def ShortcutTaken (s : Shape) (first last : Nat) : Prop :=
  ∃ U A n B row E e f F, s.rows = U ++ [A ++ n :: B, row] ∧ At Branch.lo first n B ∧
    n.edges = E ++ e :: f :: F ∧ At Prod.fst first e (f :: F) ∧ last < f.1

section FirstCall

variable {lay : TreeLayout} {pr : Profile} {t : Index} {s : Shape}

theorem visit_of_level {n : InternalNode} (h : n.level - 1 ≠ 1)
    (loc i : Nat) : Cursor.visit last isFinal loc n i = isFinal := by
  simp only [Cursor.visit, h, false_and, ↓reduceIte]

theorem visit_at {n : IndexBranch} {E F : List (Nat × Nat)} {e : Nat × Nat}
    (hlevel : n.level = 2) (hE : n.edges = E ++ e :: F) :
    Cursor.visit last false n.loc (branchNode n) E.length = true ↔
      ∃ f G, F = f :: G ∧ last < f.1 := by
  have hlen := keys_length_of_edges hE
  cases F with
  | nil =>
    simp only [length_nil, Nat.add_zero] at hlen
    simp only [Cursor.visit, branchNode_keys, hlen, ne_eq, not_true_eq_false, false_and,
      and_false, ↓reduceIte, Bool.false_eq_true, nil_eq, reduceCtorEq, exists_false]
  | cons f G =>
    have hne : E.length ≠ n.keys.length := by
      rw [hlen, length_cons]
      omega
    simp only [Cursor.visit, branchNode_level, hlevel, branchNode_keys, hne,
      separatorKey_at hE, ne_eq, not_false_eq_true, true_and, gt_iff_lt, Nat.add_one_sub_one,
      List.cons.injEq, ite_eq_left_iff, Bool.false_eq_true, imp_false, not_not]
    constructor
    · intro hlt
      exact ⟨f, G, ⟨rfl, rfl⟩, hlt⟩
    · rintro ⟨f', G', ⟨rfl, -⟩, hlt⟩
      exact hlt

/-- The walk to the first inode's leaf sets the flag if the shortcut is taken. -/
theorem walk_visit (h : Represents lay t s) (first last : Nat) :
    ∃ A l B isFinal, s.leaves = A ++ l :: B ∧ At Leaf.lo first l B ∧
      t.walk (Cursor.visit last) first (t.levels - 1) t.root false =
        .ok (isFinal, l.loc, leafNode l) ∧
      (isFinal = true ↔ ShortcutTaken s first last) := by
  rcases Nat.lt_or_ge s.rows.length 2 with hlow | hhigh
  · have hv : ∀ n ∈ s.rows.flatten, ∀ i, Cursor.visit last false n.loc (branchNode n) i = false := by
      intro n hn
      have hlevel := (h.levels.level_bounds hn).2
      apply visit_of_level
      rw [branchNode_level]
      omega
    obtain ⟨A, l, B, hl, hk, hwalk⟩ := h.walk_leaf _ first false hv
    refine ⟨A, l, B, false, hl, hk, hwalk, ?_⟩
    simp only [Bool.false_eq_true, false_iff]
    rintro ⟨U, A', n, B', row, E, e, f, F, hrows, -⟩
    rw [hrows, length_append, length_cons, length_singleton] at hlow
    omega
  · obtain ⟨row, low, hlast⟩ : ∃ row low, s.rows.drop (s.rows.length - 2) = [row, low] := by
      apply length_eq_two.mp
      rw [length_drop]
      omega
    obtain ⟨U, hrows⟩ : ∃ U, s.rows = U ++ [row, low] :=
      ⟨s.rows.take (s.rows.length - 2), by rw [← hlast, take_append_drop]⟩
    have hst : ∀ n ∈ s.rows.flatten, t.nodes n.loc = some (.internal (branchNode n)) :=
      fun n hn => h.stored_branch hn
    have hbottom := h.ordered.ascending_refs
    obtain ⟨mid, hU, hD⟩ := levels_append.mp (hrows ▸ h.levels)
    have hmid := hD.ascending hbottom
    obtain ⟨rfl, hlevel, hlow⟩ := hD
    have hedges := hlow.ascending hbottom
    have hskip : ∀ n ∈ U.flatten, ∀ i, Cursor.visit last false n.loc (branchNode n) i = false := by
      intro n hn
      have hgt := (hU.level_bounds hn).1
      apply visit_of_level
      rw [branchNode_level]
      simp only [length_cons, length_nil] at hgt
      omega
    -- Down to level two nothing happens.
    obtain ⟨A, r, B, hA, hr, hwalk⟩ := walk_skip _ (k := first) (A := []) (B := []) false hskip
      (fun n hn => hst n (by rw [hrows, flatten_append]; exact mem_append_left _ hn))
      hU hmid rfl ⟨Nat.zero_le first, by simp⟩
    obtain ⟨A', n, B', rfl, -, rfl, -, hn⟩ := hr.of_map hA
    have hmem : n ∈ A' ++ n :: B' := by simp
    have hflat : n ∈ s.rows.flatten := by
      rw [hrows]
      simp
    obtain ⟨E, e, F, hE, he, hstep⟩ := walk_step (Cursor.visit last) (l := 1) false
      (hst n hflat) (hlevel n hmem) hedges hn
    obtain ⟨hpos, hposk⟩ := At.descend hedges hn hE he
    have hkeep : ∀ m ∈ [low].flatten, ∀ i,
        Cursor.visit last (Cursor.visit last false n.loc (branchNode n) E.length) m.loc (branchNode m) i =
          Cursor.visit last false n.loc (branchNode n) E.length := by
      intro m hm
      have hone := (hlow.level_bounds hm).2
      apply visit_of_level
      rw [branchNode_level]
      simp only [length_cons, length_nil] at hone
      omega
    obtain ⟨C, l, D, hl, hk, hdown⟩ := h.walk_down _ (U := U ++ [A' ++ n :: B'])
      (by rw [hrows, append_assoc, singleton_append]) hlow hpos hposk _ hkeep
    refine ⟨C, l, D, Cursor.visit last false n.loc (branchNode n) E.length, hl, hk, ?_, ?_⟩
    · have hlen : t.levels - 1 = 2 + U.length := by
        rw [h.levels_eq, hrows, length_append, length_cons, length_singleton]
        omega
      rw [hlen]
      exact hwalk.trans (hstep.trans hdown)
    · rw [visit_at (hlevel n hmem) hE]
      constructor
      · rintro ⟨f, G, rfl, hlt⟩
        exact ⟨U, A', n, B', low, E, e, f, G, hrows, hn, hE, he, hlt⟩
      · rintro ⟨U', A'', n', B'', row', E', e', f, G, hrows', hn', hE', he', hlt⟩
        have hrow : A' ++ n :: B' = A'' ++ n' :: B'' := by
          have heq := (append_inj' (hrows.symm.trans hrows') rfl).2
          simpa only [List.cons.injEq, and_true] using (List.cons.inj heq).1
        obtain ⟨-, rfl, -⟩ := hn.unique hn' hrow
        obtain ⟨-, -, rfl⟩ := he.unique he' (hE.symm.trans hE')
        exact ⟨f, G, rfl, hlt⟩

/-- Of all the entries, those from the first inode on are the ones from its
position in its leaf on. -/
theorem filter_contents (h : Represents lay t s)
    {C D : List (Nat × InodeEntry)} {first : Nat} (hl : s.leaves = A ++ l :: B)
    (hk : At Leaf.lo first l B) (hCD : l.entries = C ++ D) (hC : ∀ e ∈ C, e.1 < first)
    (hD : ∀ e ∈ D, first ≤ e.1) :
    (contents s.leaves).filter (fun e => first ≤ e.1) = D ++ contents B := by
  have hord := hl ▸ h.ordered
  have hA : (contents A).filter (fun e => first ≤ e.1) = [] := by
    rw [filter_eq_nil_iff]
    intro e he
    obtain ⟨a, ha, hea⟩ := mem_flatMap.mp he
    have hlt := ((hord.lt_of_mem ha mem_cons_self).2 e hea).trans_le hk.1
    simpa only [decide_eq_true_eq, not_le] using hlt
  have hC' : C.filter (fun e => first ≤ e.1) = [] := by
    rw [filter_eq_nil_iff]
    intro e he
    simpa only [decide_eq_true_eq, not_le] using hC e he
  have hDB : (D ++ contents B).filter (fun e => first ≤ e.1) = D ++ contents B := by
    rw [filter_eq_self]
    intro e he
    rw [decide_eq_true_eq]
    rcases mem_append.mp he with he | he
    · exact hD e he
    · obtain ⟨b, hb, heb⟩ := mem_flatMap.mp he
      have hlo := (hord.append_right.within b (mem_cons_of_mem l hb)).1 e heb
      exact (hk.2 b hb).le.trans hlo
  rw [hl, contents_append, contents_cons, hCD, append_assoc, filter_append, hA,
    filter_append, hC', hDB, List.nil_append, List.nil_append]

/-- A lookup of the range's first inode ends up at the first entry of the range. -/
theorem exists_first (h : Represents lay t s) (hl : l ∈ s.leaves) (first : Nat) :
    ∃ C D, l.entries = C ++ D ∧ (∀ e ∈ C, e.1 < first) ∧ (∀ e ∈ D, first ≤ e.1) ∧
      ((leafNode l).lookup first = .ok (.found C.length) ∨
        (leafNode l).lookup first = .ok (.absent C.length)) := by
  obtain ⟨C, D, hC, hD, hCD | ⟨v, hCD⟩⟩ := (h.ordered.within l hl).2.split_at first
  · exact ⟨C, D, hCD, hC, fun e he => (hD e he).le, .inr (lookup_absent hCD hC hD)⟩
  · refine ⟨C, (first, v) :: D, hCD, hC, ?_, .inl (lookup_found hCD hC hD)⟩
    intro e he
    rcases mem_cons.mp he with rfl | he
    · exact le_rfl
    · exact (hD e he).le

variable (pr) in
theorem next_new {first last : Nat} (hfirst : specialInodeMax < first) (hle : first ≤ last)
    {leaf : LeafNode} {loc i : Nat}
    (hwalk : t.walk (Cursor.visit last) first (t.levels - 1) t.root false =
      .ok (isFinal, loc, leaf))
    (hlookup : leaf.lookup first = .ok (.found i) ∨ leaf.lookup first = .ok (.absent i)) :
    (Cursor.new first last).next pr t =
      match leaf.entries[i]? with
      | none => Cursor.followLeaf t
          { Cursor.new first last with position := some (leaf, i) } leaf isFinal
      | some e => .ok (Cursor.moveTo
          { Cursor.new first last with inFinalLeafNode := isFinal && e.1 ≤ last } leaf i e) := by
  have hmax : max first specialInodeMax = first := max_eq_left hfirst.le
  rcases hlookup with hlookup | hlookup <;>
    simp only [Cursor.next, Cursor.new, hmax, debugAssert_ok, ok_bind, hle, not_true_eq_false,
      ↓reduceIte, hwalk, hlookup, pure_eq_ok, Bool.false_or]

theorem upTo_append_left :
    upTo last es = upTo last (es ++ fs) ↔ ∀ e ∈ fs, last < e.1 := by
  rw [upTo_append, self_eq_append_right, upTo, map_eq_nil_iff, filter_eq_nil_iff]
  simp only [decide_eq_true_eq, not_le]

variable (pr) in
theorem yields_new (h : Represents lay t s) (hmin : 1 ≤ lay.minLeafNodeEntries) {first : Nat}
    (last : Nat) (hfirst : specialInodeMax < first) :
    ∃ A l B D isFinal, s.leaves = A ++ l :: B ∧ At Leaf.lo first l B ∧
      (isFinal = true ↔ ShortcutTaken s first last) ∧
      inodesIn s first last = upTo last (D ++ contents B) ∧
      Yields pr t (Cursor.new first last)
        (upTo last (D ++ if isFinal then [] else contents B)) := by
  obtain ⟨A, l, B, isFinal, hl, hk, hwalk, hflag⟩ := walk_visit h first last
  have hmem : l ∈ s.leaves := by rw [hl]; simp
  obtain ⟨C, D, hCD, hC, hD, hlookup⟩ := exists_first h hmem first
  have hfilter := filter_contents h hl hk hCD hC hD
  have hdrop : l.entries.drop C.length = D := by rw [hCD, drop_left]
  have hget : (leafNode l).entries[C.length]? = D.head? := by
    rw [leafNode_entries, ← head?_drop, hdrop]
  refine ⟨A, l, B, D, isFinal, hl, hk, hflag, by rw [inodesIn, hfilter], ?_⟩
  by_cases hle : first ≤ last
  · have hnext := next_new pr hfirst hle hwalk hlookup
    rw [hget] at hnext
    cases D with
    | nil =>
      refine yields_follow h hmin hl hnext rfl (by simp [Cursor.new]) ?_
      rintro m B' rfl
      have hl' : s.leaves = (A ++ [l]) ++ m :: B' := by
        rw [hl, append_assoc, singleton_append]
      exact yieldsAt pr h hmin hl' 0
    | cons e D =>
      have hdrop' : l.entries.drop (C.length + 1) = D := by
        rw [← drop_drop, hdrop, drop_one, tail_cons]
      have hasc := ascending_from h hl C.length
      rw [hdrop, List.cons_append] at hasc
      have hlt := (pairwise_cons.mp hasc).1
      have hmove := (yieldsAt pr h hmin hl C.length).moveTo (hdrop'.symm ▸ hlt) hnext rfl
      rw [remaining, hdrop'] at hmove
      by_cases he : e.1 ≤ last
      · simp only [he, decide_true, Bool.and_true] at hmove
        exact hmove
      · have hgt : ∀ x ∈ (e :: D) ++ contents B, last < x.1 := by
          intro x hx
          rcases mem_cons.mp hx with rfl | hx
          · exact not_le.mp he
          · exact (not_le.mp he).trans (hlt x hx)
        rw [upTo_ite_eq_nil hgt]
        exact (upTo_ite_eq_nil hgt) ▸ hmove
  · have hgt : ∀ e ∈ D ++ contents B, last < e.1 := by
      intro e hmem
      rw [← hfilter, mem_filter, decide_eq_true_eq] at hmem
      exact (not_le.mp hle).trans_le hmem.2
    rw [upTo_ite_eq_nil hgt]
    have hnext : (Cursor.new first last).next pr t =
        .ok ((Cursor.new first last).exhausted.1, none) := by
      simp only [Cursor.next, Cursor.new, debugAssert_ok, ok_bind, max_eq_left hfirst.le, hle,
        not_false_eq_true, ↓reduceIte, Cursor.exhausted]
    exact .done hnext

end FirstCall

/-- If the shortcut is taken, no inode of the range is behind the first one's leaf. -/
def MissesNothing (s : Shape) (first last : Nat) : Prop :=
  ShortcutTaken s first last → ∀ A l B, s.leaves = A ++ l :: B → At Leaf.lo first l B →
    ∀ e ∈ contents B, last < e.1

/-- The cursor yields the inodes of the range if and only if the shortcut, which
looks at the separators one level too high, misses none. -/
theorem yields_inodesIn_iff {pr pr' : Profile} {leafLog2 internalLog2 leafLen internalLen : Nat}
    {lay : TreeLayout} {t : Index} {s : Shape} {first last : Nat}
    (hnew : TreeLayout.new pr' leafLog2 internalLog2 leafLen internalLen = .ok lay)
    (h : Represents lay t s) (hfirst : specialInodeMax < first) :
    Yields pr t (Cursor.new first last) (inodesIn s first last) ↔ MissesNothing s first last := by
  have hmin : 1 ≤ lay.minLeafNodeEntries := by
    have hthree := (balanced_of_new hnew).three_le_minLeaf
    omega
  obtain ⟨A, l, B, D, isFinal, hl, hk, hflag, hinodes, hyields⟩ :=
    yields_new pr h hmin last hfirst
  constructor
  · intro hy hshort A' l' B' hl' hk'
    obtain ⟨-, -, rfl⟩ := hk.unique hk' (hl.symm.trans hl')
    have heq := hyields.unique hy
    rw [hinodes, if_pos (hflag.mpr hshort), List.append_nil] at heq
    exact upTo_append_left.mp heq
  · intro hmiss
    have heq : upTo last (D ++ if isFinal then [] else contents B) = inodesIn s first last := by
      rw [hinodes]
      cases hfinal : isFinal with
      | true =>
        rw [if_pos rfl, List.append_nil]
        exact upTo_append_left.mpr (hmiss (hflag.mp hfinal) A l B hl hk)
      | false => rfl
    exact heq ▸ hyields

theorem yields_inodesIn_iff_sample :
    Yields .debug sampleIndex (Cursor.new 16 30) (inodesIn sampleShape 16 30) ↔
      MissesNothing sampleShape 16 30 :=
  yields_inodesIn_iff sampleLayout_new sample_represents (by decide)

theorem sample_yields : Yields .debug sampleIndex (Cursor.new 16 21) [(16, 0), (17, 0), (18, 0)] :=
  .more rfl (.more rfl (.more rfl (.done rfl)))

/-- Of the inodes 16 to 21 only those in the first one's leaf are found. -/
theorem sample_not_yields_inodesIn :
    Represents sampleLayout sampleIndex sampleShape ∧
      ¬Yields .debug sampleIndex (Cursor.new 16 21) (inodesIn sampleShape 16 21) := by
  refine ⟨sample_represents, fun h => ?_⟩
  have heq := sample_yields.unique h
  revert heq
  decide

end CocoonFs.IndexEnumerate
