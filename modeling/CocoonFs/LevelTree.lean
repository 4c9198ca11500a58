import Mathlib.Data.List.Nodup
import Mathlib.Data.List.Perm.Basic
import Mathlib.Order.Lattice

namespace CocoonFs.LevelTree

open List
open Prod (fst snd)

variable {K L V α : Type}

/-- A node above the leaves. An edge is where a child's range of keys begins
and where the child is stored. -/
structure Branch (K L : Type) where
  level : Nat
  loc : L
  edges : List (K × L)
  edges_ne : edges ≠ []

/-- The keys between the children; the first child's range begins where the
node's own does. -/
def separators (es : List (K × L)) : List K := (es.map fst).tail

theorem separators_append {es : List (K × L)} (h : es ≠ []) (fs : List (K × L)) :
    separators (es ++ fs) = separators es ++ fs.map fst := by
  rw [separators, separators, map_append, tail_append_of_ne_nil (by simpa using h)]

theorem separators_take (es : List (K × L)) (i : Nat) :
    separators (es.take (i + 1)) = (separators es).take i := by
  cases es with
  | nil => simp only [separators, take_nil, map_nil, tail_nil]
  | cons e es =>
    simp only [separators, take_succ_cons, map_cons, tail_cons, map_take]

theorem separators_drop (es : List (K × L)) (i : Nat) :
    separators (es.drop i) = (separators es).drop i := by
  simp only [separators, map_drop, tail_drop, drop_tail]

theorem separators_length (es : List (K × L)) : (separators es).length = es.length - 1 := by
  simp only [separators, length_tail, length_map]

variable {e : K × L}

namespace Branch

def lo (n : Branch K L) : K := (n.edges.head n.edges_ne).1

def ref (n : Branch K L) : K × L := (n.lo, n.loc)

def keys (n : Branch K L) : List K := separators n.edges

def children (n : Branch K L) : List L := n.edges.map snd

theorem edges_eq_cons (n : Branch K L) : ∃ c t, n.edges = (n.lo, c) :: t := by
  obtain ⟨e, t, h⟩ := exists_cons_of_ne_nil n.edges_ne
  exact ⟨e.2, t, by simp only [lo, h, head_cons]⟩

theorem keys_length (n : Branch K L) : n.keys.length + 1 = n.edges.length := by
  obtain ⟨c, t, h⟩ := n.edges_eq_cons
  simp only [keys, separators, h, map_cons, tail_cons, length_map, length_cons]

theorem lo_cons_keys (n : Branch K L) : n.lo :: n.keys = n.edges.map fst := by
  obtain ⟨c, t, h⟩ := n.edges_eq_cons
  simp only [keys, separators, h, map_cons, tail_cons]

theorem lo_eq_of_edges {n : Branch K L} {t : List (K × L)} (h : n.edges = e :: t) :
    n.lo = e.1 := by
  simp only [lo, h, head_cons]

def withEdges (n : Branch K L) (es : List (K × L)) (h : es ≠ []) : Branch K L :=
  { n with edges := es, edges_ne := h }

section

variable (n : Branch K L) (es : List (K × L)) (h : es ≠ [])
include n es h

@[simp] theorem withEdges_level :
    (n.withEdges es h).level = n.level := rfl

@[simp] theorem withEdges_loc :
    (n.withEdges es h).loc = n.loc := rfl

@[simp] theorem withEdges_edges :
    (n.withEdges es h).edges = es := rfl

@[simp] theorem withEdges_keys :
    (n.withEdges es h).keys = separators es := rfl

@[simp] theorem withEdges_children :
    (n.withEdges es h).children = es.map snd := rfl

end

end Branch

/-- A leaf, with where its range of keys begins and the leaf that follows it. -/
structure Leaf (K L V : Type) where
  loc : L
  lo : K
  entries : List (K × V)
  next : Option L

namespace Leaf

def ref (l : Leaf K L V) : K × L := (l.lo, l.loc)

end Leaf

def Levels (base : Nat) : List (List (Branch K L)) → List (K × L) → List (K × L) → Prop
  | [], top, bottom => top = bottom
  | row :: rows, top, bottom =>
    row.map Branch.ref = top ∧ (∀ n ∈ row, n.level = base + rows.length + 1) ∧
      Levels base rows (row.flatMap Branch.edges) bottom

variable {bottom top : List (K × L)} {base : Nat}

theorem levels_append {U D : List (List (Branch K L))} :
    Levels base (U ++ D) top bottom ↔
      ∃ mid, Levels (base + D.length) U top mid ∧ Levels base D mid bottom := by
  induction U generalizing top with
  | nil =>
    constructor
    · intro h
      exact ⟨top, rfl, h⟩
    · rintro ⟨mid, rfl, h⟩
      exact h
  | cons row U ih =>
    have hlen : base + (U ++ D).length + 1 = base + D.length + U.length + 1 := by
      rw [length_append, Nat.add_comm U.length, ← Nat.add_assoc base]
    constructor
    · rintro ⟨htop, hlevel, h⟩
      obtain ⟨mid, hU, hD⟩ := ih.mp h
      exact ⟨mid, ⟨htop, fun n hn => (hlevel n hn).trans hlen, hU⟩, hD⟩
    · rintro ⟨mid, ⟨htop, hlevel, hU⟩, hD⟩
      exact ⟨htop, fun n hn => (hlevel n hn).trans hlen.symm, ih.mpr ⟨mid, hU, hD⟩⟩

variable {rows : List (List (Branch K L))}

theorem Levels.level_bounds (h : Levels base rows top bottom) {n : Branch K L}
    (hn : n ∈ rows.flatten) : base < n.level ∧ n.level ≤ base + rows.length := by
  induction rows generalizing top with
  | nil => cases hn
  | cons row rows ih =>
    obtain ⟨-, hlevel, hrows⟩ := h
    rw [flatten_cons, mem_append] at hn
    rcases hn with hn | hn
    · rw [hlevel n hn, length_cons]
      omega
    · obtain ⟨hlo, hhi⟩ := ih hrows hn
      rw [length_cons]
      omega

theorem Levels.exchange {U D D' : List (List (Branch K L))}
    {row row' : List (Branch K L)} {bottom' : List (K × L)}
    (h : Levels base (U ++ row :: D) top bottom)
    (href : row'.map Branch.ref = row.map Branch.ref) (hlen : D'.length = D.length)
    (hlevel : ∀ n ∈ row', n.level = base + D.length + 1)
    (hD : Levels base D' (row'.flatMap Branch.edges) bottom') :
    Levels base (U ++ row' :: D') top bottom' := by
  obtain ⟨mid, hU, hmid, -, -⟩ := levels_append.mp h
  refine levels_append.mpr ⟨mid, ?_, href.trans hmid, ?_, hD⟩
  · simpa only [length_cons, hlen] using hU
  · simpa only [hlen] using hlevel

def contents (ls : List (Leaf K L V)) : List (K × V) := ls.flatMap Leaf.entries

@[simp] theorem contents_append (A B : List (Leaf K L V)) :
    contents (A ++ B) = contents A ++ contents B := flatMap_append

@[simp] theorem contents_cons (l : Leaf K L V) (A : List (Leaf K L V)) :
    contents (l :: A) = l.entries ++ contents A := flatMap_cons

@[simp] theorem contents_nil : contents ([] : List (Leaf K L V)) = [] := rfl

variable {A B : List (Leaf K L V)} {A X X' B : List (Leaf K L V)} {ls : List (Leaf K L V)}
  {xs : List (K × α)}

section Order

variable [LinearOrder K]

def Ascending (xs : List (K × α)) : Prop :=
  xs.Pairwise fun a b => a.1 < b.1

instance (xs : List (K × α)) : Decidable (Ascending xs) :=
  inferInstanceAs (Decidable (xs.Pairwise fun a b => a.1 < b.1))

def At (lo : α → K) (k : K) (x : α) (B : List α) : Prop :=
  lo x ≤ k ∧ ∀ y ∈ B, k < lo y

theorem Ascending.row {row : List (Branch K L)} (h : Ascending (row.flatMap Branch.edges)) :
    Ascending (row.map Branch.ref) := by
  have hrow := (pairwise_flatMap.mp h).2
  refine pairwise_map.mpr (hrow.imp ?_)
  intro m n hmn
  obtain ⟨c, s, hm⟩ := m.edges_eq_cons
  obtain ⟨d, t, hn⟩ := n.edges_eq_cons
  exact hmn (m.lo, c) (by simp only [hm, mem_cons, true_or]) (n.lo, d)
    (by simp only [hn, mem_cons, true_or])

theorem Levels.ascending {base : Nat}
    {top bottom : List (K × L)} (h : Levels base rows top bottom) (hb : Ascending bottom) :
    Ascending top := by
  induction rows generalizing top with
  | nil => exact h ▸ hb
  | cons row rows ih =>
    obtain ⟨rfl, -, hrows⟩ := h
    exact (ih hrows).row

theorem Ascending.append_right {A B : List (K × α)} (h : Ascending (A ++ B)) : Ascending B :=
  (pairwise_append.mp h).2.1

variable {n : Branch K L} {k : K}

theorem Ascending.edges {A B : List (Branch K L)}
    (h : Ascending ((A ++ n :: B).flatMap Branch.edges)) : Ascending n.edges :=
  (pairwise_flatMap.mp h).1 n (by simp only [mem_append, mem_cons, true_or, or_true])

/-- A key at or behind the begin of an ascending list is in some element's range. -/
theorem Ascending.exists_at {x : K × α} (h : Ascending (x :: xs))
    (hx : x.1 ≤ k) : ∃ A y B, x :: xs = A ++ y :: B ∧ At fst k y B := by
  induction xs generalizing x with
  | nil => exact ⟨[], x, [], rfl, hx, by simp only [not_mem_nil, false_implies, implies_true]⟩
  | cons z xs ih =>
    obtain ⟨hxz, hzs⟩ := pairwise_cons.mp h
    by_cases hz : z.1 ≤ k
    · obtain ⟨A, y, B, hA, hy⟩ := ih hzs hz
      exact ⟨x :: A, y, B, by rw [hA, List.cons_append], hy⟩
    · refine ⟨[], x, z :: xs, rfl, hx, ?_⟩
      have hkz : k < z.1 := not_le.mp hz
      intro y hy
      rcases mem_cons.mp hy with rfl | hy
      · exact hkz
      · exact hkz.trans ((pairwise_cons.mp hzs).1 y hy)

theorem At.unique {lo : α → K} {A A' B B' : List α} {x y : α} (hx : At lo k x B)
    (hy : At lo k y B') (h : A ++ x :: B = A' ++ y :: B') : A = A' ∧ x = y ∧ B = B' := by
  induction A generalizing A' with
  | nil =>
    cases A' with
    | nil =>
      simp only [List.nil_append, List.cons.injEq] at h
      exact ⟨rfl, h.1, h.2⟩
    | cons a A' =>
      simp only [List.nil_append, List.cons_append, List.cons.injEq] at h
      have hyB : y ∈ B := by simp only [h.2, mem_append, mem_cons, true_or, or_true]
      exact absurd hy.1 (not_le.mpr (hx.2 y hyB))
  | cons a A ih =>
    cases A' with
    | nil =>
      simp only [List.nil_append, List.cons_append, List.cons.injEq] at h
      have hxB : x ∈ B' := by
        simp only [← h.2, mem_append, mem_cons, true_or, or_true]
      exact absurd hx.1 (not_le.mpr (hy.2 x hxB))
    | cons a' A' =>
      simp only [List.cons_append, List.cons.injEq] at h
      obtain ⟨hA, hxy, hB⟩ := ih h.2
      exact ⟨by rw [h.1, hA], hxy, hB⟩

theorem Ascending.split_at (h : Ascending xs) (k : K) :
    ∃ A B, (∀ a ∈ A, a.1 < k) ∧ (∀ b ∈ B, k < b.1) ∧
      (xs = A ++ B ∨ ∃ v, xs = A ++ (k, v) :: B) := by
  induction xs with
  | nil => exact ⟨[], [], by simp, by simp, .inl rfl⟩
  | cons x xs ih =>
    obtain ⟨hx, hxs⟩ := pairwise_cons.mp h
    rcases lt_trichotomy x.1 k with hlt | heq | hgt
    · obtain ⟨A, B, hA, hB, hsplit⟩ := ih hxs
      refine ⟨x :: A, B, ?_, hB, ?_⟩
      · intro a ha
        rcases mem_cons.mp ha with rfl | ha
        · exact hlt
        · exact hA a ha
      · rcases hsplit with rfl | ⟨v, rfl⟩
        · exact .inl rfl
        · exact .inr ⟨v, rfl⟩
    · exact ⟨[], xs, by simp, fun b hb => heq ▸ hx b hb, .inr ⟨x.2, by rw [← heq]; rfl⟩⟩
    · refine ⟨[], x :: xs, by simp, ?_, .inl rfl⟩
      intro b hb
      rcases mem_cons.mp hb with rfl | hb
      · exact hgt
      · exact hgt.trans (hx b hb)

theorem exists_edge_at {A B : List (Branch K L)}
    (h : Ascending ((A ++ n :: B).flatMap Branch.edges)) (hn : n.lo ≤ k) :
    ∃ E e F, n.edges = E ++ e :: F ∧ At fst k e F := by
  obtain ⟨c, t, hc⟩ := n.edges_eq_cons
  obtain ⟨E, e, F, hE, he⟩ := (hc ▸ h.edges).exists_at (x := (n.lo, c)) hn
  exact ⟨E, e, F, hc.trans hE, he⟩

theorem At.descend {A B : List (Branch K L)} {E F : List (K × L)}
    (h : Ascending ((A ++ n :: B).flatMap Branch.edges)) (hn : At Branch.lo k n B)
    (hE : n.edges = E ++ e :: F) (he : At fst k e F) :
    (A ++ n :: B).flatMap Branch.edges =
        (A.flatMap Branch.edges ++ E) ++ e :: (F ++ B.flatMap Branch.edges) ∧
      At fst k e (F ++ B.flatMap Branch.edges) := by
  refine ⟨by simp only [flatMap_append, flatMap_cons, hE, append_assoc,
    List.cons_append], he.1, ?_⟩
  intro y hy
  rcases mem_append.mp hy with hy | hy
  · exact he.2 y hy
  · obtain ⟨b, hb, hyb⟩ := mem_flatMap.mp hy
    obtain ⟨c, t, hc⟩ := b.edges_eq_cons
    have hbasc : Ascending b.edges :=
      (pairwise_flatMap.mp h).1 b (by simp only [mem_append, mem_cons, hb, or_true])
    rw [hc] at hyb hbasc
    rcases mem_cons.mp hyb with rfl | hyt
    · exact hn.2 b hb
    · exact (hn.2 b hb).trans ((pairwise_cons.mp hbasc).1 y hyt)

theorem At.of_map {f : α → K × L} {xs : List α} {A B : List (K × L)}
    (h : xs.map f = A ++ e :: B) (he : At fst k e B) :
    ∃ A' x B', xs = A' ++ x :: B' ∧ A'.map f = A ∧ f x = e ∧ B'.map f = B ∧
      At (fun y => (f y).1) k x B' := by
  obtain ⟨A', C, rfl, hA, hC⟩ := map_eq_append_iff.mp h
  obtain ⟨x, B', rfl, hx, hB⟩ := map_eq_cons_iff.mp hC
  subst hx hB
  exact ⟨A', x, B', rfl, hA, rfl, rfl, he.1, fun y hy => he.2 (f y) (mem_map_of_mem hy)⟩

/-- The leaves' ranges and entries ascend, with each entry in its leaf's range. -/
structure Ordered (ls : List (Leaf K L V)) : Prop where
  between : ls.Pairwise fun a b => a.lo < b.lo ∧ ∀ e ∈ a.entries, e.1 < b.lo
  within : ∀ a ∈ ls, (∀ e ∈ a.entries, a.lo ≤ e.1) ∧ Ascending a.entries

theorem Ordered.ascending_refs (h : Ordered ls) :
    Ascending (ls.map Leaf.ref) :=
  pairwise_map.mpr (h.between.imp fun hab => hab.1)

theorem Ordered.ascending_contents (h : Ordered ls) :
    Ascending (contents ls) := by
  refine pairwise_flatMap.mpr ⟨fun a ha => (h.within a ha).2, ?_⟩
  refine h.between.imp_of_mem ?_
  intro a b _ hb hab x hx y hy
  exact (hab.2 x hx).trans_le ((h.within b hb).1 y hy)

theorem Ascending.lookup_eq_some_iff [BEq K] [LawfulBEq K] {xs : List (K × V)} (h : Ascending xs)
    {v : V} : xs.lookup k = some v ↔ (k, v) ∈ xs := by
  induction xs with
  | nil => simp only [lookup_nil, reduceCtorEq, not_mem_nil]
  | cons x xs ih =>
    obtain ⟨hx, hxs⟩ := pairwise_cons.mp h
    rw [lookup_cons]
    by_cases hk : k = x.1
    · subst hk
      have hnot : (x.1, v) ∉ xs := fun hmem => lt_irrefl x.1 (hx (x.1, v) hmem)
      simp only [beq_self_eq_true, Option.some.injEq, mem_cons, hnot, or_false,
        Prod.ext_iff, true_and]
      exact eq_comm
    · have hne : (k, v) ≠ x := fun he => hk (he ▸ rfl)
      simp only [beq_false_of_ne hk, ih hxs, mem_cons, hne, false_or]

theorem Ascending.lookup_congr [BEq K] [LawfulBEq K] {xs ys : List (K × V)} (hx : Ascending xs)
    (hy : Ascending ys) (h : ∀ v, (k, v) ∈ xs ↔ (k, v) ∈ ys) :
    xs.lookup k = ys.lookup k := by
  refine Option.ext fun v => ?_
  rw [hx.lookup_eq_some_iff, hy.lookup_eq_some_iff, h v]

theorem Ordered.lt_of_mem (h : Ordered (A ++ B)) {a b : Leaf K L V}
    (ha : a ∈ A) (hb : b ∈ B) : a.lo < b.lo ∧ ∀ e ∈ a.entries, e.1 < b.lo :=
  (pairwise_append.mp h.between).2.2 a ha b hb

theorem Ordered.append_left (h : Ordered (A ++ B)) : Ordered A :=
  ⟨(pairwise_append.mp h.between).1, fun a ha => h.within a (mem_append_left B ha)⟩

theorem Ordered.append_right (h : Ordered (A ++ B)) : Ordered B :=
  ⟨(pairwise_append.mp h.between).2.1, fun a ha => h.within a (mem_append_right A ha)⟩

theorem Ordered.mem_contents_iff {l : Leaf K L V}
    (h : Ordered (A ++ l :: B)) (hk : At Leaf.lo k l B) {v : V} :
    (k, v) ∈ contents (A ++ l :: B) ↔ (k, v) ∈ l.entries := by
  have hA : (k, v) ∉ contents A := by
    intro hmem
    obtain ⟨a, ha, hka⟩ := mem_flatMap.mp hmem
    exact absurd hk.1 (not_le.mpr ((h.lt_of_mem ha mem_cons_self).2 _ hka))
  have hB : (k, v) ∉ contents B := by
    intro hmem
    obtain ⟨b, hb, hkb⟩ := mem_flatMap.mp hmem
    have hlo := (h.append_right.within b (mem_cons_of_mem _ hb)).1 _ hkb
    exact absurd hlo (not_le.mpr (hk.2 b hb))
  simp only [contents_append, contents_cons, mem_append, hA, hB, false_or, or_false]

theorem Ordered.exchange (h : Ordered (A ++ (X ++ B)))
    (hX : Ordered X') (hlo : ∀ x' ∈ X', ∃ x ∈ X, x.lo ≤ x'.lo)
    (hB : ∀ b ∈ B, ∀ x' ∈ X', x'.lo < b.lo ∧ ∀ e ∈ x'.entries, e.1 < b.lo) :
    Ordered (A ++ (X' ++ B)) := by
  have hbetween : (X' ++ B).Pairwise fun a b => a.lo < b.lo ∧ ∀ e ∈ a.entries, e.1 < b.lo :=
    pairwise_append.mpr ⟨hX.between, h.append_right.append_right.between,
      fun x' hx' b hb => hB b hb x' hx'⟩
  constructor
  · refine pairwise_append.mpr ⟨h.append_left.between, hbetween, ?_⟩
    intro a ha y hy
    rcases mem_append.mp hy with hy | hy
    · obtain ⟨x, hx, hxy⟩ := hlo y hy
      obtain ⟨hal, hae⟩ := h.lt_of_mem ha (mem_append_left B hx)
      exact ⟨hal.trans_le hxy, fun e he => (hae e he).trans_le hxy⟩
    · exact h.lt_of_mem ha (mem_append_right X hy)
  · intro a ha
    rcases mem_append.mp ha with ha | ha
    · exact h.append_left.within a ha
    · rcases mem_append.mp ha with ha | ha
      · exact hX.within a ha
      · exact h.append_right.append_right.within a ha

end Order

/-- Where the first leaf is, or what comes after if there is none. -/
def headLoc : List (Leaf K L V) → Option L → Option L
  | [], after => after
  | l :: _, _ => some l.loc

/-- Each leaf refers to the one behind it, the last one to what comes after. -/
def Linked : List (Leaf K L V) → Option L → Prop
  | [], _ => True
  | l :: ls, after => l.next = headLoc ls after ∧ Linked ls after

@[simp] theorem headLoc_append (A B : List (Leaf K L V)) (after : Option L) :
    headLoc (A ++ B) after = headLoc A (headLoc B after) := by
  cases A with
  | nil => rfl
  | cons a A => rfl

theorem linked_append {after : Option L} :
    Linked (A ++ B) after ↔ Linked A (headLoc B after) ∧ Linked B after := by
  induction A with
  | nil => simp only [List.nil_append, Linked, true_and]
  | cons a A ih => simp only [List.cons_append, Linked, headLoc_append, ih, and_assoc]

theorem Linked.exchange {after : Option L}
    (h : Linked (A ++ (X ++ B)) after) (hX : Linked X' (headLoc B after))
    (hhead : headLoc X' (headLoc B after) = headLoc X (headLoc B after)) :
    Linked (A ++ (X' ++ B)) after := by
  obtain ⟨hA, hXB⟩ := linked_append.mp h
  obtain ⟨-, hB⟩ := linked_append.mp hXB
  rw [headLoc_append, ← hhead, ← headLoc_append] at hA
  exact linked_append.mpr ⟨hA, linked_append.mpr ⟨hX, hB⟩⟩

section Store

variable {W : Type}

structure Stored (st : L → Option W) (ns : List (L × W)) : Prop where
  stored : ∀ p ∈ ns, st p.1 = some p.2
  distinct : (ns.map fst).Nodup

theorem Stored.perm {st : L → Option W} {ns ns' : List (L × W)} (h : Stored st ns)
    (hp : ns.Perm ns') : Stored st ns' :=
  ⟨fun p hp' => h.stored p (hp.mem_iff.mpr hp'), (hp.map fst).nodup_iff.mp h.distinct⟩

/-- Writes at the locations of some nodes, or at new ones, leave the rest stored. -/
theorem Stored.exchange {st st' : L → Option W} {old new rest : List (L × W)}
    (h : Stored st (old ++ rest)) (hnew : Stored st' new)
    (hframe : ∀ l, l ∉ new.map fst → st' l = st l ∨ l ∈ old.map fst)
    (hloc : ∀ l ∈ new.map fst, l ∉ rest.map fst) : Stored st' (new ++ rest) := by
  have hdist := h.distinct
  rw [map_append, nodup_append] at hdist
  obtain ⟨-, hrest, hdisj⟩ := hdist
  constructor
  · intro p hp
    rcases mem_append.mp hp with hp | hp
    · exact hnew.stored p hp
    · have hmem : p.1 ∈ rest.map fst := mem_map_of_mem hp
      rcases hframe p.1 fun hn => hloc p.1 hn hmem with heq | hold
      · rw [heq]
        exact h.stored p (mem_append_right old hp)
      · exact absurd rfl (hdisj p.1 hold p.1 hmem)
  · rw [map_append, nodup_append]
    refine ⟨hnew.distinct, hrest, ?_⟩
    rintro a ha b hb rfl
    exact hloc a ha hb

end Store

end CocoonFs.LevelTree
