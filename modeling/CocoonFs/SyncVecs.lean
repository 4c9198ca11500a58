import CocoonFs.Runs
import Mathlib.Algebra.BigOperators.Group.List.Basic
import Mathlib.Algebra.GroupWithZero.Nat
import Mathlib.Data.List.Basic

namespace CocoonFs.SyncVecs

open Runs
open List (length_append map_cons sum_cons take_succ_cons)

variable {α : Type}

structure Vec (α : Type) where
  elems : List α
  capacity : Nat
  le_capacity : elems.length ≤ capacity

namespace Vec

def withCapacity (α : Type) (capacity : Nat) : Vec α := ⟨[], capacity, Nat.zero_le capacity⟩

/-- Nothing if it took a reallocation. -/
def append (v : Vec α) (other : List α) : Option (Vec α) :=
  if h : v.elems.length + other.length ≤ v.capacity then
    some ⟨v.elems ++ other, v.capacity, by rwa [length_append]⟩
  else none

def remove (v : Vec α) (index : Nat) : Vec α :=
  ⟨v.elems.eraseIdx index, v.capacity,
    Nat.le_trans (v.elems.length_eraseIdx_le index) v.le_capacity⟩

end Vec

structure SyncVec (α : Type) where
  v : Vec α
  pendingReservationsAdditionalCapacity : Nat

inductive Reserve where
  | ready
  | reallocate (reallocatedCapacity : Nat)
  | failed
  deriving DecidableEq

/-- What is left is under the lock, up to where it is dropped for the allocation, if at all. -/
def tryReserveBegin (s : SyncVec α) (additionalCapacity : Nat) : Reserve × SyncVec α :=
  let reallocatedCapacity :=
    s.v.elems.length + s.pendingReservationsAdditionalCapacity + additionalCapacity
  if 2 ^ 64 ≤ reallocatedCapacity then (.failed, s)
  else if reallocatedCapacity ≤ s.v.capacity then (.ready, s)
  else (.reallocate reallocatedCapacity,
    ⟨s.v, s.pendingReservationsAdditionalCapacity + additionalCapacity⟩)

def retract (s : SyncVec α) (additionalCapacity : Nat) : Option (SyncVec α) :=
  if additionalCapacity ≤ s.pendingReservationsAdditionalCapacity then
    some ⟨s.v, s.pendingReservationsAdditionalCapacity - additionalCapacity⟩
  else none

/-- The part after the lock has been reacquired, with the capacity of what has been allocated in
the meantime, if it has, which is all that `try_reserve` and `try_reserve_exact` differ in. The
outcome is whether the reservation has been successful. -/
def tryReserveEnd (s : SyncVec α) (additionalCapacity reallocatedCapacity : Nat) :
    Option Nat → Option (Bool × SyncVec α)
  | none => (retract s additionalCapacity).map (false, ·)
  | some capacity =>
    if 2 ^ 64 ≤ s.v.elems.length + s.pendingReservationsAdditionalCapacity then none
    else if min reallocatedCapacity (s.v.elems.length + s.pendingReservationsAdditionalCapacity) ≤
        s.v.capacity then
      -- Someone else has installed an allocation with enough room in it.
      (retract s additionalCapacity).map (true, ·)
    else if reallocatedCapacity ≤ s.v.elems.length then none
    else do
      let v ← (Vec.withCapacity α capacity).append s.v.elems
      (retract ⟨v, s.pendingReservationsAdditionalCapacity⟩ additionalCapacity).map (true, ·)

structure InFlight where
  additionalCapacity : Nat
  reallocatedCapacity : Nat
  deriving DecidableEq

/-- The vector, and the reservations whose allocations are being made, in the order they have
been announced in. -/
structure System (α : Type) where
  vec : SyncVec α
  inFlight : List InFlight

inductive Action (α : Type) where
  | reserve (additionalCapacity : Nat) (pushed : List α)
  | finish (i : Nat) (allocated : Option Nat) (pushed : List α)
  | remove (index : Nat)

def push (vec : SyncVec α) (pushed : List α) : Option (SyncVec α) :=
  (vec.v.append pushed).map (⟨·, vec.pendingReservationsAdditionalCapacity⟩)

namespace System

/-- There's no capacity at the beginning, unless the elements are of size zero. -/
def new (α : Type) (capacity : Nat) : System α := ⟨⟨.withCapacity α capacity, 0⟩, []⟩

/-- No more is pushed than has been reserved, and the allocator provides for what it has been
asked for. -/
def Allowed (sys : System α) : Action α → Prop
  | .reserve additionalCapacity pushed => pushed.length ≤ additionalCapacity
  | .finish i allocated pushed => ∃ r, sys.inFlight[i]? = some r ∧
      pushed.length ≤ r.additionalCapacity ∧
        ∀ capacity ∈ allocated, r.reallocatedCapacity ≤ capacity
  | .remove _ => True

/-- One critical section, with what is pushed under the same guard. -/
def step (sys : System α) : Action α → Option (System α)
  | .reserve additionalCapacity pushed =>
    match tryReserveBegin sys.vec additionalCapacity with
    | (.ready, vec) => (push vec pushed).map (⟨·, sys.inFlight⟩)
    | (.reallocate capacity, vec) => some ⟨vec, sys.inFlight ++ [⟨additionalCapacity, capacity⟩]⟩
    | (.failed, vec) => some ⟨vec, sys.inFlight⟩
  | .finish i allocated pushed => do
    let r ← sys.inFlight[i]?
    let (reserved, vec) ← tryReserveEnd sys.vec r.additionalCapacity r.reallocatedCapacity allocated
    let vec ← if reserved then push vec pushed else some vec
    some ⟨vec, sys.inFlight.eraseIdx i⟩
  | .remove index =>
    some ⟨⟨sys.vec.v.remove index, sys.vec.pendingReservationsAdditionalCapacity⟩, sys.inFlight⟩

end System

def announced (inFlight : List InFlight) : Nat := (inFlight.map InFlight.additionalCapacity).sum

/-- The elements there are and the reservations up to any one of those in flight take no more
room than there is, or than the one is about to provide. -/
def Covered (capacity : Nat) : Nat → List InFlight → Prop
  | _, [] => True
  | used, r :: rs => used + r.additionalCapacity ≤ max capacity r.reallocatedCapacity ∧
      Covered capacity (used + r.additionalCapacity) rs

inductive Inv : System α → Prop where
  | intro (v : Vec α) (rs : List InFlight) (hbounded : v.elems.length + announced rs < 2 ^ 64)
      (hcovered : Covered v.capacity v.elems.length rs) : Inv ⟨⟨v, announced rs⟩, rs⟩

section Covered

variable {capacity capacity' used used' i p : Nat} {rs : List InFlight} {r : InFlight}

@[simp] theorem announced_append (r : InFlight) :
    announced (rs ++ [r]) = announced rs + r.additionalCapacity := by
  simp [announced]

theorem Covered.mono (h : Covered capacity used rs) (hused : used' ≤ used)
    (hcap : capacity ≤ capacity') : Covered capacity' used' rs := by
  induction rs generalizing used used' with
  | nil => trivial
  | cons r rs ih =>
    exact ⟨by have := h.1; omega, ih h.2 (by omega)⟩

theorem covered_of_le (h : used + announced rs ≤ capacity) : Covered capacity used rs := by
  induction rs generalizing used with
  | nil => trivial
  | cons r rs ih =>
    simp only [announced, map_cons, sum_cons] at h
    exact ⟨by omega, ih (by rw [announced]; omega)⟩

theorem Covered.append (h : Covered capacity used rs)
    (hr : used + announced rs + r.additionalCapacity ≤ r.reallocatedCapacity) :
    Covered capacity used (rs ++ [r]) := by
  induction rs generalizing used with
  | nil => exact ⟨by simp [announced] at hr; omega, trivial⟩
  | cons r' rs ih =>
    refine ⟨h.1, ih h.2 ?_⟩
    simp only [announced, map_cons, sum_cons] at hr ⊢
    omega

theorem Covered.get (h : Covered capacity used rs) (hr : rs[i]? = some r) :
    used + announced (rs.take (i + 1)) ≤ max capacity r.reallocatedCapacity := by
  induction rs generalizing used i with
  | nil => cases hr
  | cons r' rs ih =>
    cases i with
    | zero =>
      cases hr
      simpa [announced] using h.1
    | succ i =>
      have hle := ih h.2 hr
      simp only [announced, take_succ_cons, map_cons, sum_cons] at hle ⊢
      omega

theorem announced_eraseIdx (hr : rs[i]? = some r) :
    announced (rs.eraseIdx i) + r.additionalCapacity = announced rs ∧
      r.additionalCapacity ≤ announced (rs.take (i + 1)) ∧
      announced (rs.take (i + 1)) ≤ announced rs := by
  induction rs generalizing i with
  | nil => cases hr
  | cons r' rs ih =>
    cases i with
    | zero =>
      cases hr
      simp only [announced, List.eraseIdx_zero, List.tail_cons, zero_add, take_succ_cons,
        List.take_zero, map_cons, List.map_nil, sum_cons, List.sum_nil]
      omega
    | succ i =>
      have hih := ih hr
      simp only [announced, List.eraseIdx_cons_succ, take_succ_cons, map_cons,
        sum_cons] at hih ⊢
      omega

/-- As much may be pushed as has been reserved, once there's room for what has been announced
before. -/
theorem Covered.eraseIdx (h : Covered capacity used rs) (hr : rs[i]? = some r)
    (hp : p ≤ r.additionalCapacity) (hcap : capacity ≤ capacity')
    (hroom : p = 0 ∨ used + announced (rs.take (i + 1)) ≤ capacity') :
    Covered capacity' (used + p) (rs.eraseIdx i) := by
  induction rs generalizing used i with
  | nil => cases hr
  | cons r' rs ih =>
    cases i with
    | zero =>
      cases hr
      exact h.2.mono (by omega) hcap
    | succ i =>
      have hle := (announced_eraseIdx (show rs[i]? = some r from hr)).2.1
      simp only [announced, take_succ_cons, map_cons, sum_cons] at hle hroom
      refine ⟨by have := h.1; omega, ?_⟩
      rw [Nat.add_right_comm]
      exact ih h.2 hr (by rw [announced]; omega)

end Covered

section Steps

variable {v : Vec α} {rs : List InFlight} {r : InFlight} {i : Nat} {pushed : List α}

theorem push_eq (pending : Nat) (v : Vec α) (pushed : List α)
    (h : v.elems.length + pushed.length ≤ v.capacity) :
    ∃ v', push ⟨v, pending⟩ pushed = some ⟨v', pending⟩ ∧ v'.elems = v.elems ++ pushed ∧
      v'.capacity = v.capacity := by
  rw [push, Vec.append, dif_pos h]
  exact ⟨_, rfl, rfl, rfl⟩

theorem tryReserveEnd_eq (hbounded : v.elems.length + announced rs < 2 ^ 64)
    (hcovered : Covered v.capacity v.elems.length rs) (hr : rs[i]? = some r)
    (allocated : Option Nat) (halloc : ∀ capacity ∈ allocated, r.reallocatedCapacity ≤ capacity) :
    ∃ v', tryReserveEnd ⟨v, announced rs⟩ r.additionalCapacity r.reallocatedCapacity allocated =
        some (allocated.isSome, ⟨v', announced (rs.eraseIdx i)⟩) ∧ v'.elems = v.elems ∧
      v.capacity ≤ v'.capacity ∧ (allocated.isSome →
        v.elems.length + announced (rs.take (i + 1)) ≤ v'.capacity) := by
  have hroom := hcovered.get hr
  obtain ⟨herase, -, hle⟩ := announced_eraseIdx hr
  have hcap := v.le_capacity
  have hretract (v : Vec α) : retract ⟨v, announced rs⟩ r.additionalCapacity =
      some ⟨v, announced (rs.eraseIdx i)⟩ := by
    rw [retract, if_pos (by dsimp only; omega), ← herase, Nat.add_sub_cancel]
  cases allocated with
  | none =>
    refine ⟨v, ?_, rfl, Nat.le_refl _, nofun⟩
    rw [tryReserveEnd, hretract]
    rfl
  | some capacity =>
    have hprovided := halloc capacity rfl
    rw [tryReserveEnd, if_neg (by dsimp only; omega)]
    dsimp only
    by_cases hskip : min r.reallocatedCapacity (v.elems.length + announced rs) ≤ v.capacity
    · rw [if_pos hskip, hretract]
      exact ⟨v, rfl, rfl, Nat.le_refl _, fun _ => by omega⟩
    · rw [if_neg hskip, if_neg (by omega), Vec.append, dif_pos (by simp [Vec.withCapacity]; omega)]
      dsimp only [bind, Option.bind]
      rw [hretract]
      refine ⟨⟨v.elems, capacity, by omega⟩, rfl, rfl, ?_, fun _ => ?_⟩
      · dsimp only
        omega
      · dsimp only
        omega

theorem Inv.step {sys : System α} {a : Action α} (h : Inv sys) (hallowed : sys.Allowed a) :
    ∃ sys', sys.step a = some sys' ∧ Inv sys' := by
  obtain ⟨v, rs, hbounded, hcovered⟩ := h
  cases a with
  | reserve additionalCapacity pushed =>
    have hpushed : pushed.length ≤ additionalCapacity := hallowed
    rw [System.step, tryReserveBegin]
    dsimp only
    split_ifs with hfailed hready
    · exact ⟨_, rfl, .intro v rs hbounded hcovered⟩
    · obtain ⟨v', hv', helems, hcap⟩ := push_eq (announced rs) v pushed (by omega)
      have hlen : v'.elems.length = v.elems.length + pushed.length := by
        rw [helems, length_append]
      dsimp only
      rw [hv']
      exact ⟨_, rfl, .intro v' rs (by omega) (covered_of_le (by omega))⟩
    · rw [← announced_append ⟨additionalCapacity, _⟩]
      refine ⟨_, rfl, .intro v _ ?_ (hcovered.append (Nat.le_refl _))⟩
      rw [announced_append]
      dsimp only
      omega
  | finish i allocated pushed =>
    obtain ⟨r, hr, hpushed, halloc⟩ := hallowed
    dsimp only at hr
    obtain ⟨v', hv', helems, hcap, hroom⟩ := tryReserveEnd_eq hbounded hcovered hr allocated halloc
    obtain ⟨herase, hle, -⟩ := announced_eraseIdx hr
    rw [System.step]
    dsimp only [bind, Option.bind]
    rw [hr]
    dsimp only
    rw [hv']
    dsimp only
    cases hreserved : allocated.isSome with
    | false =>
      refine ⟨_, rfl, .intro v' _ (by rw [helems]; omega) ?_⟩
      rw [helems]
      exact hcovered.eraseIdx hr (Nat.zero_le _) hcap (.inl rfl)
    | true =>
      have hroom := hroom hreserved
      obtain ⟨v'', hv'', helems', hcap'⟩ := push_eq (announced (rs.eraseIdx i)) v' pushed
        (by rw [helems]; omega)
      have hlen : v''.elems.length = v.elems.length + pushed.length := by
        rw [helems', helems, length_append]
      rw [if_pos rfl, hv'']
      refine ⟨_, rfl, .intro v'' _ (by omega) ?_⟩
      rw [hlen, hcap']
      exact hcovered.eraseIdx hr hpushed hcap (.inr hroom)
  | remove index =>
    have hle := v.elems.length_eraseIdx_le index
    exact ⟨_, rfl, .intro (v.remove index) rs
      (Nat.lt_of_le_of_lt (Nat.add_le_add_right hle _) hbounded) (hcovered.mono hle (Nat.le_refl _))⟩

/-- Whatever of the others comes in between, a reservation that succeeds makes room for what has
been asked for, and the elements stay as they are. -/
structure Sound (sys : System α) : Prop where
  pending : sys.vec.pendingReservationsAdditionalCapacity = announced sys.inFlight
  ready : ∀ additionalCapacity vec, tryReserveBegin sys.vec additionalCapacity = (.ready, vec) →
    vec.v = sys.vec.v ∧ additionalCapacity ≤ vec.v.capacity - vec.v.elems.length
  finish : ∀ (i : Nat) (r : InFlight) (allocated : Option Nat), sys.inFlight[i]? = some r →
    (∀ capacity ∈ allocated, r.reallocatedCapacity ≤ capacity) → ∃ vec,
      tryReserveEnd sys.vec r.additionalCapacity r.reallocatedCapacity allocated =
        some (allocated.isSome, vec) ∧ vec.v.elems = sys.vec.v.elems ∧
      (allocated.isSome → r.additionalCapacity ≤ vec.v.capacity - vec.v.elems.length)
  step : ∀ a, sys.Allowed a → ∃ sys', sys.step a = some sys'

theorem Inv.sound {sys : System α} (h : Inv sys) : Sound sys := by
  have hstep {a : Action α} (hallowed : sys.Allowed a) := (h.step hallowed).imp fun _ => And.left
  obtain ⟨v, rs, hbounded, hcovered⟩ := h
  refine ⟨rfl, ?_, ?_, fun _ => hstep⟩
  · intro additionalCapacity vec hready
    rw [tryReserveBegin] at hready
    split_ifs at hready
    · cases hready
    · cases hready
      exact ⟨rfl, by omega⟩
    · cases hready
  · intro i r allocated hr halloc
    obtain ⟨v', hv', helems, -, hroom⟩ := tryReserveEnd_eq hbounded hcovered hr allocated halloc
    obtain ⟨-, hle, -⟩ := announced_eraseIdx hr
    refine ⟨_, hv', helems, fun hreserved => ?_⟩
    have hroom := hroom hreserved
    dsimp only at hle hroom ⊢
    rw [helems]
    omega

theorem reservations_sound {capacity : Nat} {sys : System α}
    (hr : Reached System.step System.Allowed (System.new α capacity) sys) : Sound sys := by
  have hstart : Inv (System.new α capacity) := .intro _ [] (Nat.two_pow_pos 64) trivial
  refine (hr.invariant hstart fun s a t hs hallowed hstep => ?_).sound
  obtain ⟨t', hstep', ht⟩ := hs.step hallowed
  rw [hstep] at hstep'
  cases hstep'
  exact ht

/-- The second reservation's allocation comes first, and does for both. -/
theorem reservations_sound_overlapping :
    @Sound Nat ⟨⟨⟨[7], 3, by decide⟩, 1⟩, [⟨1, 1⟩]⟩ := by
  refine @reservations_sound _ 0 _ (reached_of_execute _ _
    [.reserve 1 [5], .reserve 2 [7, 8], .finish 1 (some 3) [7]] rfl ?_)
  refine ⟨Nat.le_refl 1, fun t ht => ?_⟩
  cases ht
  refine ⟨Nat.le_refl 2, fun t ht => ?_⟩
  cases ht
  exact ⟨⟨_, rfl, by decide, by rintro _ ⟨⟩; decide⟩, fun _ _ => trivial⟩

end Steps

end CocoonFs.SyncVecs
