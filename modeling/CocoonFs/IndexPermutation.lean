import Mathlib.Algebra.Group.Nat.Defs
import Mathlib.Data.Fintype.Card
import Mathlib.GroupTheory.Perm.Basic
import Mathlib.Logic.Equiv.Fin.Rotate

namespace CocoonFs.IndexPermutation

open Equiv (Perm)
open Finset (mem_insert mem_insert_self)

variable {n : Nat} {α : Type}

def handledOffset : Nat := 2 ^ 63

def isHandled (i : Nat) : Bool := i &&& handledOffset != 0

def entry (slice : Fin n → α) (i : Nat) : Option α :=
  if h : i < n then some (slice ⟨i, h⟩) else none

def set (slice : Fin n → α) (i : Nat) (x : α) : Fin n → α :=
  fun j => if j.val = i then x else slice j

/-- Where the next cycle begins, among as many positions from the given one on. -/
def findCycle (indexPerm : Fin n → Nat) : Nat → Nat → Option (Option Nat)
  | 0, _ => some none
  | count + 1, position => do
    let i ← entry indexPerm position
    if isHandled i then findCycle indexPerm count (position + 1)
    else do
      if i ≠ (← entry indexPerm i) then some (some position)
      else findCycle indexPerm count (position + 1)

/-- Nothing where a debug_assert fails, or what comes of more turns than there may be. -/
def cycleLoop (mark : Nat → Nat → Nat) (isClosed : Nat → Nat → Bool) (cycleStart : Nat) :
    Nat → Nat → Nat → (Fin n → Nat) → (Fin n → α) → Option ((Fin n → Nat) × (Fin n → α))
  | 0, _, _, _, _ => none
  | turns + 1, from_, to_, indexPerm, applyTo => do
    let nextTo ← entry indexPerm to_
    if isHandled nextTo then none
    else
      let indexPerm := set indexPerm to_ (mark from_ nextTo)
      if to_ ≠ cycleStart then do
        let x ← entry applyTo from_
        let y ← entry applyTo to_
        cycleLoop mark isClosed cycleStart turns to_ nextTo indexPerm
          (set (set applyTo from_ y) to_ x)
      else do
        let i ← entry indexPerm nextTo
        if isClosed cycleStart i then some (indexPerm, applyTo) else none

def applyCycles (mark : Nat → Nat → Nat) (isClosed : Nat → Nat → Bool) :
    Nat → Nat → (Fin n → Nat) → (Fin n → α) → Option ((Fin n → Nat) × (Fin n → α))
  | 0, _, _, _ => none
  | turns + 1, cycleSearchStart, indexPerm, applyTo => do
    match ← findCycle indexPerm (n - cycleSearchStart) cycleSearchStart with
    | none => some (indexPerm, applyTo)
    | some cycleStart => do
      let to_ ← entry indexPerm cycleStart
      let (indexPerm, applyTo) ←
        cycleLoop mark isClosed cycleStart n cycleStart to_ indexPerm applyTo
      applyCycles mark isClosed turns (cycleStart + 1) indexPerm applyTo

def apply (mark : Nat → Nat → Nat) (isClosed : Nat → Nat → Bool) (indexPerm : Fin n → Nat)
    (applyTo : Fin n → α) : Option ((Fin n → Nat) × (Fin n → α)) :=
  if n < handledOffset then do
    let (indexPerm, applyTo) ← applyCycles mark isClosed (n + 1) 0 indexPerm applyTo
    if ∀ i, isHandled (indexPerm i) ∨ indexPerm i = i then
      some (fun i => indexPerm i &&& (handledOffset - 1), applyTo)
    else none
  else none

def applyAndInvertIndexPerm : (Fin n → Nat) → (Fin n → α) → Option ((Fin n → Nat) × (Fin n → α)) :=
  apply (fun from_ _ => from_ ||| handledOffset)
    (fun cycleStart i => i == cycleStart ||| handledOffset)

def applyIndexPerm : (Fin n → Nat) → (Fin n → α) → Option ((Fin n → Nat) × (Fin n → α)) :=
  apply (fun _ nextTo => nextTo ||| handledOffset) (fun _ i => isHandled i)

@[simp] theorem entry_fin (slice : Fin n → α) (x : Fin n) : entry slice x = some (slice x) :=
  dif_pos x.isLt

theorem set_fin (slice : Fin n → α) (x y : Fin n) (v : α) :
    set slice x v y = if y = x then v else slice y := by
  simp only [set, Fin.ext_iff]

theorem isHandled_of_lt {i : Nat} (h : i < handledOffset) : isHandled i = false := by
  have hand : i &&& 2 ^ 63 = 0 := by
    apply Nat.eq_of_testBit_eq
    intro j
    rw [Nat.testBit_and, Nat.testBit_two_pow, Nat.zero_testBit]
    by_cases hj : 63 = j
    · rw [← hj, Nat.testBit_lt_two_pow h, Bool.false_and]
    · rw [decide_eq_false hj, Bool.and_false]
  rw [isHandled, handledOffset, hand]
  rfl

theorem isHandled_or (i : Nat) : isHandled (i ||| handledOffset) = true := by
  refine bne_iff_ne.mpr fun heq => ?_
  have hbit := congrArg (·.testBit 63) heq
  rw [Nat.testBit_and, Nat.testBit_or, handledOffset, Nat.testBit_two_pow_self] at hbit
  simp at hbit

theorem and_clear {i : Nat} (h : i < handledOffset) : i &&& (handledOffset - 1) = i ∧
    (i ||| handledOffset) &&& (handledOffset - 1) = i := by
  rw [handledOffset] at h ⊢
  rw [Nat.and_two_pow_sub_one_eq_mod, Nat.and_two_pow_sub_one_eq_mod, Nat.or_mod_two_pow,
    Nat.mod_self, Nat.or_zero, Nat.mod_eq_of_lt h]
  exact ⟨rfl, rfl⟩

/-- The permutation with the entries at some positions handled, which are another one's then. -/
def marked (σ out : Perm (Fin n)) (handled : Finset (Fin n)) (x : Fin n) : Nat :=
  if x ∈ handled then out x ||| handledOffset else σ x

def moved (σ : Perm (Fin n)) (a : Fin n → α) (handled : Finset (Fin n)) (x : Fin n) : α :=
  if σ x ∈ handled then a (σ x) else a x

/-- What the elements are in the midst of a cycle, when the one at its begin has got up to the
last position. -/
def moving (σ : Perm (Fin n)) (a : Fin n → α) (handled : Finset (Fin n))
    (cycleStart last x : Fin n) : α :=
  if σ x ∈ handled then a (σ x) else if x = last then a cycleStart else a x

/-- Of the cycle, what comes after its begin is handled up to some position. -/
structure Handled (σ : Perm (Fin n)) (handled : Finset (Fin n)) (cycleStart last : Fin n) :
    Prop where
  start_notMem : cycleStart ∉ handled
  last_mem : last ∈ handled ∨ last = cycleStart
  iff : ∀ x, σ x ∈ handled ↔ x ∈ handled ∧ x ≠ last ∨ x = cycleStart ∧ cycleStart ≠ last

section Cycles

variable {σ out : Perm (Fin n)} {a : Fin n → α} {handled : Finset (Fin n)} {cycleStart last : Fin n}
  {mark : Nat → Nat → Nat} {isClosed : Nat → Nat → Bool} (hn : n < handledOffset)
  (hmark : ∀ x : Fin n, mark x (σ (σ x)) = (out (σ x) : Nat) ||| handledOffset)
  (hclosed : ∀ x : Fin n, isClosed x ((out (σ x) : Nat) ||| handledOffset) = true)

theorem Handled.next_notMem (h : Handled σ handled cycleStart last) : σ last ∉ handled := by
  rw [h.iff]
  rintro (⟨-, hne⟩ | ⟨heq, hne⟩)
  · exact hne rfl
  · exact hne heq.symm

theorem Handled.next (h : Handled σ handled cycleStart last) (hne : σ last ≠ cycleStart) :
    Handled σ (insert (σ last) handled) cycleStart (σ last) := by
  have hstart := h.start_notMem
  have hfrom := h.last_mem
  have hnext := h.next_notMem
  refine ⟨?_, .inl (mem_insert_self _ _), fun x => ?_⟩
  · rw [mem_insert]
    exact fun hmem => hmem.elim (fun heq => hne heq.symm) hstart
  · rw [mem_insert, mem_insert, h.iff, σ.injective.eq_iff]
    grind

theorem Handled.closed (h : Handled σ handled cycleStart last) (heq : σ last = cycleStart)
    (x : Fin n) : σ x ∈ insert cycleStart handled ↔ x ∈ insert cycleStart handled := by
  have hfrom := h.last_mem
  have hstart := h.start_notMem
  rw [mem_insert, mem_insert, h.iff, ← heq, σ.injective.eq_iff]
  grind

theorem set_marked (x y : Fin n) : set (marked σ out handled) x (out x ||| handledOffset) y =
    marked σ out (insert x handled) y := by
  rw [set_fin, marked, marked]
  grind

theorem marked_lt (σ out : Perm (Fin n)) (hn : n < handledOffset) {x : Fin n} (hx : x ∉ handled) :
    marked σ out handled x = σ x ∧ isHandled (σ x) = false :=
  ⟨if_neg hx, isHandled_of_lt ((σ x).isLt.trans hn)⟩

include hn hmark hclosed

theorem cycleLoop_eq (turns : Nat) (h : Handled σ handled cycleStart last)
    (hturns : n ≤ turns + handled.card) : ∃ handled', cycleStart ∈ handled' ∧ handled ⊆ handled' ∧
      (∀ x, σ x ∈ handled' ↔ x ∈ handled') ∧
      cycleLoop mark isClosed cycleStart turns last (σ last) (marked σ out handled)
          (moving σ a handled cycleStart last) =
        some (marked σ out handled', moved σ a handled') := by
  induction turns generalizing handled last with
  | zero =>
    have hcard := Finset.card_lt_univ_of_notMem h.start_notMem
    rw [Fintype.card_fin] at hcard
    omega
  | succ turns ih =>
    have hnext := h.next_notMem
    obtain ⟨hentry, hlt⟩ := marked_lt σ out hn hnext
    have hset : set (marked σ out handled) (σ last) (mark last (σ (σ last))) =
        marked σ out (insert (σ last) handled) := by
      funext y
      rw [hmark, set_marked]
    rw [cycleLoop, entry_fin]
    dsimp only [bind, Option.bind]
    rw [hentry, hlt, if_neg Bool.false_ne_true, hset, entry_fin]
    by_cases heq : σ last = cycleStart
    · have hclosed' := h.closed heq
      have hmem : σ cycleStart ∈ insert cycleStart handled :=
        (hclosed' _).mpr (mem_insert_self _ _)
      refine ⟨insert cycleStart handled, mem_insert_self _ _, Finset.subset_insert _ _,
        hclosed', ?_⟩
      have hlast : marked σ out (insert cycleStart handled) (σ cycleStart) =
          (out (σ cycleStart) : Nat) ||| handledOffset := if_pos hmem
      rw [heq, if_neg (by simp), entry_fin, hlast]
      dsimp only
      rw [hclosed, if_pos rfl]
      congr 2
      funext x
      simp only [moving, moved, mem_insert, ← heq, σ.injective.eq_iff]
      grind
    · obtain ⟨handled', hstart, hsub, hclosed', hloop⟩ := ih (h.next heq)
        (by rw [Finset.card_insert_of_notMem hnext]; omega)
      refine ⟨handled', hstart, (Finset.subset_insert _ _).trans hsub, hclosed', ?_⟩
      rw [if_pos (by rwa [ne_eq, Fin.val_inj]), entry_fin, ← hloop]
      dsimp only
      congr 1
      have hnotLast : σ last ≠ last := by
        intro hfix
        rw [hfix] at hnext heq
        exact hnext (h.last_mem.resolve_right heq)
      have hnotNext : σ (σ last) ∉ handled := by
        rw [h.iff]
        exact fun hmem => hmem.elim (fun hmem => hnext hmem.1) fun hmem => heq hmem.1
      funext x
      rw [set_fin, set_fin]
      simp only [moving, mem_insert, σ.injective.eq_iff]
      grind

variable (out) in
omit hmark hclosed in
theorem findCycle_eq (hclosed : ∀ x, σ x ∈ handled ↔ x ∈ handled) (count position : Nat)
    (hcount : position + count = n) : ∃ found : Option (Fin n),
      findCycle (marked σ out handled) count position = some (found.map Fin.val) ∧
      (∀ x : Fin n, position ≤ x → (∀ c ∈ found, x < c) → x ∈ handled ∨ σ x = x) ∧
      ∀ c ∈ found, position ≤ c ∧ c ∉ handled := by
  induction count generalizing position with
  | zero => exact ⟨none, rfl, fun x hx => by omega, nofun⟩
  | succ count ih =>
    obtain ⟨found, hfind, hnone, hsome⟩ := ih (position + 1) (by omega)
    obtain ⟨y, rfl⟩ : ∃ y : Fin n, position = y := ⟨⟨position, by omega⟩, rfl⟩
    have hskip (hy : y ∈ handled ∨ σ y = y) : (∀ x : Fin n, y ≤ x → (∀ c ∈ found, x < c) →
        x ∈ handled ∨ σ x = x) ∧ ∀ c ∈ found, y ≤ c ∧ c ∉ handled := by
      refine ⟨fun x hx hlt => ?_, fun c hc => ⟨?_, (hsome c hc).2⟩⟩
      · rcases hx.eq_or_lt with rfl | hx
        · exact hy
        · exact hnone x hx hlt
      · have := (hsome c hc).1
        omega
    rw [findCycle, entry_fin]
    dsimp only [bind, Option.bind]
    by_cases hy : y ∈ handled
    · have hentry : marked σ out handled y = (out y : Nat) ||| handledOffset := if_pos hy
      rw [hentry, isHandled_or, if_pos rfl]
      exact ⟨found, hfind, hskip (.inl hy)⟩
    · obtain ⟨hentry, hlt⟩ := marked_lt σ out hn hy
      obtain ⟨hentry', -⟩ := marked_lt σ out hn (mt (hclosed y).mp hy)
      rw [hentry, hlt, if_neg Bool.false_ne_true, entry_fin, hentry']
      dsimp only
      by_cases hfix : σ y = y
      · rw [if_neg (by rw [hfix, hfix]; simp)]
        exact ⟨found, hfind, hskip (.inr hfix)⟩
      · rw [if_pos (by rwa [ne_eq, Fin.val_inj, σ.injective.eq_iff, eq_comm])]
        refine ⟨some y, rfl, fun x hx hlt => ?_, ?_⟩
        · exact absurd (hlt y rfl) (not_lt_of_ge hx)
        · rintro _ ⟨⟩
          exact ⟨le_refl _, hy⟩

theorem applyCycles_eq (turns position : Nat) (hposition : position ≤ n)
    (hturns : n < turns + position) (hclosed' : ∀ x, σ x ∈ handled ↔ x ∈ handled)
    (hbefore : ∀ x : Fin n, x < position → x ∈ handled ∨ σ x = x) : ∃ handled',
      (∀ x, x ∈ handled' ∨ σ x = x) ∧ (∀ x, σ x ∈ handled' ↔ x ∈ handled') ∧
      applyCycles mark isClosed turns position (marked σ out handled) (moved σ a handled) =
        some (marked σ out handled', moved σ a handled') := by
  induction turns generalizing position handled with
  | zero => omega
  | succ turns ih =>
    obtain ⟨found, hfind, hnone, hsome⟩ :=
      findCycle_eq out hn hclosed' (n - position) position (by omega)
    have hchecked (x : Fin n) (hx : ∀ c ∈ found, x < c) : x ∈ handled ∨ σ x = x := by
      by_cases hlt : x < position
      · exact hbefore x hlt
      · exact hnone x (Nat.le_of_not_lt hlt) hx
    rw [applyCycles, hfind]
    dsimp only [bind, Option.bind]
    cases found with
    | none => exact ⟨handled, fun x => hchecked x nofun, hclosed', rfl⟩
    | some cycleStart =>
      obtain ⟨hle, hnot⟩ := hsome cycleStart rfl
      obtain ⟨hentry, -⟩ := marked_lt σ out hn hnot
      have hstart : Handled σ handled cycleStart cycleStart :=
        ⟨hnot, .inr rfl, fun x => by rw [hclosed']; grind⟩
      have hmoving : moving σ a handled cycleStart cycleStart = moved σ a handled := by
        funext x
        rw [moving, moved]
        grind
      obtain ⟨handled', hmem, hsub, hclosed'', hloop⟩ :=
        cycleLoop_eq (a := a) hn hmark hclosed n hstart (by omega)
      rw [hmoving] at hloop
      dsimp only [Option.map]
      rw [entry_fin]
      dsimp only
      rw [hentry, hloop]
      refine ih (cycleStart + 1) cycleStart.isLt (by omega) hclosed'' fun x hx => ?_
      rcases Nat.lt_succ_iff_lt_or_eq.mp hx with hlt | heq
      · exact (hchecked x fun c hc => by cases hc; exact hlt).imp_left fun hmem => hsub hmem
      · exact .inl (Fin.ext heq ▸ hmem)

theorem apply_eq (hout : ∀ x, σ x = x → out x = x) :
    apply mark isClosed (fun x => (σ x : Nat)) a =
      some (fun x => (out x : Nat), fun x => a (σ x)) := by
  obtain ⟨handled, hall, hclosed', hcycles⟩ := applyCycles_eq (a := a) hn hmark hclosed
    (n + 1) 0 (Nat.zero_le n) (Nat.lt_succ_self n)
    (show ∀ x, σ x ∈ (∅ : Finset (Fin n)) ↔ x ∈ (∅ : Finset (Fin n)) by simp) nofun
  have hchecked (x : Fin n) : (isHandled (marked σ out handled x) ∨ marked σ out handled x = x) ∧
      marked σ out handled x &&& (handledOffset - 1) = out x := by
    by_cases hx : x ∈ handled
    · rw [marked, if_pos hx]
      exact ⟨.inl (isHandled_or _), (and_clear ((out x).isLt.trans hn)).2⟩
    · have hfix := (hall x).resolve_left hx
      rw [marked, if_neg hx, hfix, hout x hfix]
      exact ⟨.inr rfl, (and_clear (x.isLt.trans hn)).1⟩
  have hcycles : applyCycles mark isClosed (n + 1) 0 (fun x => (σ x : Nat)) a = _ := hcycles
  rw [apply, if_pos hn, hcycles]
  dsimp only [bind, Option.bind]
  rw [if_pos fun x => (hchecked x).1]
  congr 2
  · funext x
    exact (hchecked x).2
  · funext x
    rw [moved, ite_eq_left_iff]
    intro hx
    rw [(hall x).resolve_left ((hclosed' x).not.mp hx)]

end Cycles

/-- Whatever the permutation, all assertions hold and both loops come to their ends. -/
theorem applyPerm_correct (hn : n < handledOffset) (σ : Perm (Fin n)) (a : Fin n → α) :
    applyAndInvertIndexPerm (fun x => (σ x : Nat)) a =
        some (fun x => (σ.symm x : Nat), fun x => a (σ x)) ∧
      applyIndexPerm (fun x => (σ x : Nat)) a = some (fun x => (σ x : Nat), fun x => a (σ x)) := by
  constructor
  · refine apply_eq hn (fun x => ?_) (fun x => ?_) fun x hx => ?_
    · rw [Equiv.symm_apply_apply]
    · rw [Equiv.symm_apply_apply, beq_self_eq_true]
    · rw [Equiv.symm_apply_eq, hx]
  · exact apply_eq hn (fun x => rfl) (fun x => isHandled_or _) fun x => id

theorem applyPerm_correct_cycle :
    applyAndInvertIndexPerm (fun x => (finRotate 3 x : Nat)) (fun x => x) =
        some (fun x => ((finRotate 3).symm x : Nat), fun x => finRotate 3 x) ∧
      applyIndexPerm (fun x => (finRotate 3 x : Nat)) (fun x => x) =
        some (fun x => (finRotate 3 x : Nat), fun x => finRotate 3 x) :=
  applyPerm_correct (by decide) (finRotate 3) fun x => x

end CocoonFs.IndexPermutation
