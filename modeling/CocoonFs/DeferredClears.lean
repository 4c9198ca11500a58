import Mathlib.Data.Fintype.Order

/-!
# Edges with deferred removals

Every node has a set of successors. A reference to a node first makes all nodes
its successors, and only later takes it out of the successors of the others. The
nodes that are exempt from that are fixed at the time of the first step, and are
nodes that have all nodes as successors by then. References overlap in any
order, so that there is a list of pending removals, each for a node and with the
nodes exempt from it.
-/

namespace CocoonFs.DeferredClears

open List

variable {α : Type*}

/-- No pending removal affects the edge from `x` to `y`. -/
def Undoomed (pending : List (α × Set α)) (x y : α) : Prop := ∀ ex, (y, ex) ∈ pending → x ∈ ex

inductive Grounded (pending : List (α × Set α)) : α → Prop where
  | intro (y : α) (ex : Set α) (hmem : (y, ex) ∈ pending) (hex : ∀ x ∈ ex, Grounded pending x) :
      Grounded pending y

section Grounded

variable {pending pending' l₁ l₂ : List (α × Set α)} {x y a : α} {ex : Set α}

theorem Grounded.mono (h : Grounded pending y) (hsub : pending ⊆ pending') : Grounded pending' y := by
  induction h with
  | intro y ex hmem _ ih => exact .intro y ex (hsub hmem) ih

/-- A removal is only needed for grounding a node if the nodes exempt from it are
grounded without it. -/
theorem Grounded.remove (h : Grounded (l₁ ++ (a, ex) :: l₂) y) :
    Grounded (l₁ ++ l₂) y ∨ ∀ x ∈ ex, Grounded (l₁ ++ l₂) x := by
  induction h with
  | intro y ex' hmem _ ih =>
    by_cases hall : ∀ x ∈ ex', Grounded (l₁ ++ l₂) x
    · rcases mem_append.mp hmem with hmem | hmem
      · exact Or.inl (.intro y ex' (mem_append_left _ hmem) hall)
      · rcases mem_cons.mp hmem with heq | hmem
        · obtain ⟨-, rfl⟩ := Prod.mk.inj heq
          exact Or.inr hall
        · exact Or.inl (.intro y ex' (mem_append_right _ hmem) hall)
    · obtain ⟨x, hx, hnot⟩ : ∃ x ∈ ex', ¬ Grounded (l₁ ++ l₂) x := by
        by_contra hnone
        exact hall (fun x hx => by_contra (fun h' => hnone ⟨x, hx, h'⟩))
      exact Or.inr ((ih x hx).resolve_left hnot)

/-- Going backwards over undoomed edges from a grounded node comes to an end. -/
theorem Grounded.acc (h : Grounded pending y) : Acc (Undoomed pending) y := by
  induction h with
  | intro y ex hmem _ ih =>
    apply Acc.intro
    intro x hx
    exact ih x (hx ex hmem)

end Grounded

variable {r : α → α → Prop}

theorem not_transGen_of_acc {x : α} (h : Acc r x) : ¬ Relation.TransGen r x x := by
  intro hcycle
  have hacc := h.transGen
  induction hacc with
  | intro x _ ih => exact ih x hcycle (h.inv_of_transGen hcycle) hcycle

/-- If only the edges of a node are new, then a cycle has to enter that node. -/
theorem not_cycle_of_entry {r r' : α → α → Prop} {a : α}
    (hold : ∀ x y, r' x y → x ≠ a → y ≠ a → r x y) (hr : ∀ x, ¬ Relation.TransGen r x x)
    (hentry : ∀ c, r' c a → ¬ Relation.TransGen r' c c) (x : α) : ¬ Relation.TransGen r' x x := by
  have hpath {x y : α} (hx : x ≠ a) (h : Relation.TransGen r' x y) :
      Relation.TransGen r x y ∧ y ≠ a ∨
        ∃ c, Relation.ReflTransGen r' x c ∧ r' c a ∧ Relation.ReflTransGen r' a y := by
    induction h with
    | single hxy =>
      rename_i y
      by_cases hy : y = a
      · subst hy
        exact Or.inr ⟨x, .refl, hxy, .refl⟩
      · exact Or.inl ⟨.single (hold _ _ hxy hx hy), hy⟩
    | tail hxb hby ih =>
      rename_i b y
      rcases ih with ⟨hxb', hb⟩ | ⟨c, hxc, hca, hab⟩
      · by_cases hy : y = a
        · subst hy
          exact Or.inr ⟨b, hxb.to_reflTransGen, hby, .refl⟩
        · exact Or.inl ⟨hxb'.tail (hold _ _ hby hb hy), hy⟩
      · exact Or.inr ⟨c, hxc, hca, hab.tail hby⟩
  intro hcycle
  by_cases hx : x = a
  · subst hx
    obtain ⟨c, hac, hca⟩ := Relation.TransGen.tail'_iff.mp hcycle
    exact hentry c hca (Relation.TransGen.head' hca hac)
  · rcases hpath hx hcycle with ⟨hcycle', -⟩ | ⟨c, hxc, hca, hax⟩
    · exact hr x hcycle'
    · exact hentry c hca (Relation.TransGen.head' hca (hax.trans hxc))

def Live (succs : α → Set α) (pending : List (α × Set α)) (x y : α) : Prop :=
  x ≠ y ∧ y ∈ succs x ∧ Undoomed pending x y

structure Settling (succs : α → Set α) (pending : List (α × Set α)) : Prop where
  grounded : ∀ x, (∀ y, y ∈ succs x) → Grounded pending x
  own : ∀ x, x ∈ succs x → ∃ ex, (x, ex) ∈ pending ∧ x ∉ ex
  acyclic : ∀ x, ¬ Relation.TransGen (Live succs pending) x x

section Steps

variable {succs : α → Set α} {pending l₁ l₂ : List (α × Set α)} {a : α} {ex : Set α}

theorem settling_nil (hown : ∀ x, x ∉ succs x)
    (h : ∀ x, ¬ Relation.TransGen (fun x y => y ∈ succs x) x x) : Settling succs [] := by
  refine ⟨?_, ?_, ?_⟩
  · intro x hall
    exact absurd (hall x) (hown x)
  · intro x hx
    exact absurd hx (hown x)
  · intro x hcycle
    exact h x (hcycle.lift id (fun _ _ hlive => hlive.2.1))

theorem Settling.reference [DecidableEq α] (h : Settling succs pending)
    (hex : ∀ c ∈ ex, ∀ y, y ∈ succs c) :
    Settling (Function.update succs a Set.univ) ((a, ex) :: pending) := by
  have hmono : ∀ x, (∀ y, y ∈ succs x) → Grounded ((a, ex) :: pending) x := fun x hx =>
    (h.grounded x hx).mono (subset_cons_self _ _)
  refine ⟨?_, ?_, ?_⟩
  · intro x hx
    by_cases hxa : x = a
    · subst hxa
      exact .intro x ex (mem_cons_self ..) (fun c hc => hmono c (hex c hc))
    · rw [Function.update_of_ne hxa] at hx
      exact hmono x hx
  · intro x hx
    by_cases hxa : x = a
    · subst hxa
      by_cases hxex : x ∈ ex
      · obtain ⟨ex', hmem, hnot⟩ := h.own x (hex x hxex x)
        exact ⟨ex', mem_cons_of_mem _ hmem, hnot⟩
      · exact ⟨ex, mem_cons_self .., hxex⟩
    · rw [Function.update_of_ne hxa] at hx
      obtain ⟨ex', hmem, hnot⟩ := h.own x hx
      exact ⟨ex', mem_cons_of_mem _ hmem, hnot⟩
  · apply not_cycle_of_entry (a := a) _ h.acyclic
    · -- An edge to the node comes from one of the nodes exempt, and these are grounded.
      intro c hca hcycle
      have hc : c ∈ ex := hca.2.2 ex (mem_cons_self ..)
      exact not_transGen_of_acc (hmono c (hex c hc)).acc (hcycle.lift id (fun _ _ hlive => hlive.2.2))
    · intro x y hlive hx _
      obtain ⟨hxy, hmem, hundoomed⟩ := hlive
      rw [Function.update_of_ne hx] at hmem
      exact ⟨hxy, hmem, fun ex' hex' => hundoomed ex' (mem_cons_of_mem _ hex')⟩

theorem Settling.remove (h : Settling succs (l₁ ++ (a, ex) :: l₂)) :
    Settling (fun x => {y | y ∈ succs x ∧ (x ∈ ex ∨ y ≠ a)}) (l₁ ++ l₂) := by
  refine ⟨?_, ?_, ?_⟩
  · intro x hx
    have hxex : x ∈ ex := (hx a).2.resolve_right (fun hne => hne rfl)
    rcases (h.grounded x (fun y => (hx y).1)).remove with hgr | hall
    · exact hgr
    · exact hall x hxex
  · rintro x ⟨hx, hkeep⟩
    obtain ⟨ex', hmem, hnot⟩ := h.own x hx
    refine ⟨ex', ?_, hnot⟩
    rcases mem_append.mp hmem with hmem | hmem
    · exact mem_append_left _ hmem
    · rcases mem_cons.mp hmem with heq | hmem
      · cases heq
        exact absurd rfl (hkeep.resolve_left hnot)
      · exact mem_append_right _ hmem
  · intro x hcycle
    apply h.acyclic x
    apply hcycle.lift id
    rintro u v ⟨huv, ⟨hmem, hkeep⟩, hundoomed⟩
    refine ⟨huv, hmem, ?_⟩
    intro ex' hex'
    rcases mem_append.mp hex' with hex' | hex'
    · exact hundoomed ex' (mem_append_left _ hex')
    · rcases mem_cons.mp hex' with heq | hex'
      · cases heq
        exact hkeep.resolve_right (fun hne => hne rfl)
      · exact hundoomed ex' (mem_append_right _ hex')

end Steps

/-- An acyclic relation on finitely many nodes leads nowhere from some node of a set. -/
theorem exists_no_succ [Finite α] (h : ∀ x, ¬ Relation.TransGen r x x)
    {nodes : Set α} (hne : nodes.Nonempty) : ∃ x ∈ nodes, ∀ y ∈ nodes, ¬ r x y := by
  have hirrefl : Std.Irrefl (fun x y => Relation.TransGen r y x) := ⟨h⟩
  have hwf := Finite.wellFounded_of_trans_of_irrefl (fun x y => Relation.TransGen r y x)
  obtain ⟨x, hx, hmin⟩ := hwf.has_min nodes hne
  exact ⟨x, hx, fun y hy hxy => hmin y hy (.single hxy)⟩

end CocoonFs.DeferredClears
