import CocoonFs.Semaphore
import Mathlib.Algebra.BigOperators.Group.Multiset.Basic
import Mathlib.Algebra.Order.BigOperators.Group.Multiset
import Mathlib.Tactic.Ring

namespace CocoonFs.SemaphoreLoop

open Semaphore Semaphore.State

variable {s t : State} {i p w : Nat} {e : QueueEntry} {r : LeaseGrantCount}

theorem addUsize_eq {a b : Nat} (h : a + b < usize) : addUsize a b = a + b := if_pos h

theorem subUsize_eq {a b : Nat} (h : b ≤ a) : subUsize a b = a - b := if_pos h

theorem exceeds_iff {m : Nat} : r.exceeds m = true ↔ m < r.count := by
  simp [LeaseGrantCount.exceeds]

theorem not_exceeds_iff {m : Nat} : r.exceeds m = false ↔ r.count ≤ m := by
  simp [LeaseGrantCount.exceeds]

theorem note_of_not {b : Bool} (h : b = false) : s.note b = s := by
  subst h
  simp [note]

/-- The parts of the state that only the queue's own operations change. -/
structure SameQueue (s t : State) : Prop where
  queue : t.queue = s.queue
  maxLeases : t.maxLeases = s.maxLeases
  lastWaiterId : t.lastWaiterId = s.lastWaiterId
  enqueuedTrivial : t.enqueuedTrivialLeaseWaiters = s.enqueuedTrivialLeaseWaiters
  enqueuedExclusive : t.enqueuedExclusiveAllWaiters = s.enqueuedExclusiveAllWaiters

theorem sameQueue_tryGrantOne (s : State) (r : LeaseGrantCount) (p : Nat) :
    SameQueue s (s.tryGrantOne r p).2 := by
  cases r <;> dsimp only [tryGrantOne] <;> split <;> exact ⟨rfl, rfl, rfl, rfl, rfl⟩

theorem wakeTurn_cases (i : Nat) (s : State) :
    (s.queue[i]? = none ∧ wakeTurn i s = .stop s) ∨
    ∃ e, s.queue[i]? = some e ∧
      ((e.leasesRequested.exceeds s.maxLeases = true ∧ wakeTurn i s = .next (i + 1) s) ∨
      (e.leasesRequested.exceeds s.maxLeases = false ∧
        ((∃ t, s.tryGrantOne e.leasesRequested i = (true, t) ∧ wakeTurn i s =
          .next i (if e.leasesRequested = .exclusiveAll
            then ((t.wake e.waker).removeEntry i).acquireExclusiveAllEnd
            else (t.wake e.waker).removeEntry i)) ∨
        ∃ t, s.tryGrantOne e.leasesRequested i = (false, t) ∧
          ((e.leasesRequested ≠ .exclusiveAll ∧ t.isExclusiveAllGranted = false ∧
              t.hasTrivialLeaseWaiters = true ∧ wakeTurn i s = .next (i + 1) t) ∨
            ((e.leasesRequested = .exclusiveAll ∨ t.isExclusiveAllGranted = true ∨
              t.hasTrivialLeaseWaiters = false) ∧ wakeTurn i s = .stop t))))) := by
  cases hq : s.queue[i]? with
  | none => exact .inl ⟨rfl, by simp only [wakeTurn, hq]⟩
  | some e =>
    refine .inr ⟨e, rfl, ?_⟩
    cases hf : e.leasesRequested.exceeds s.maxLeases with
    | true => exact .inl ⟨rfl, by simp only [wakeTurn, hq, hf, if_true]⟩
    | false =>
      refine .inr ⟨rfl, ?_⟩
      rcases hg : s.tryGrantOne e.leasesRequested i with ⟨b, t⟩
      cases b with
      | true =>
        refine .inl ⟨t, rfl, ?_⟩
        simp [wakeTurn, hq, hf, hg, beq_iff_eq]
      | false =>
        refine .inr ⟨t, rfl, ?_⟩
        by_cases hx : e.leasesRequested = .exclusiveAll
        · rw [hx] at hf hg
          exact .inr ⟨.inl hx, by simp [wakeTurn, hq, hf, hg, hx]⟩
        cases hgr : t.isExclusiveAllGranted with
        | true => exact .inr ⟨.inr (.inl rfl), by simp [wakeTurn, hq, hf, hg, hgr]⟩
        | false =>
          cases htr : t.hasTrivialLeaseWaiters with
          | true => exact .inl ⟨hx, rfl, rfl, by simp [wakeTurn, hq, hf, hg, hgr, htr, hx]⟩
          | false =>
            exact .inr ⟨.inr (.inr rfl), by simp [wakeTurn, hq, hf, hg, hgr, htr]⟩

@[simp] theorem queue_removeEntry (s : State) (i : Nat) :
    (s.removeEntry i).queue = s.queue.eraseIdx i := by
  dsimp only [removeEntry]
  split <;> rfl

@[simp] theorem queue_acquireExclusiveAllEnd (s : State) :
    s.acquireExclusiveAllEnd.queue = s.queue := by
  unfold acquireExclusiveAllEnd
  split <;> rfl

theorem sameQueue_acquireExclusiveAllEnd (s : State) : SameQueue s s.acquireExclusiveAllEnd := by
  unfold acquireExclusiveAllEnd
  split <;> exact ⟨rfl, rfl, rfl, rfl, rfl⟩

theorem getElem?_bound {α : Type} {l : List α} {i : Nat} {a : α} (h : l[i]? = some a) :
    i < l.length := by
  obtain ⟨hi, _⟩ := List.getElem?_eq_some_iff.1 h
  exact hi

theorem length_wakeTurn {j : Nat} (h : wakeTurn i s = .next j t) :
    t.queue.length + i + 1 = s.queue.length + j := by
  rcases wakeTurn_cases i s with ⟨_, h'⟩ | ⟨e, hq, ⟨_, h'⟩ | ⟨_, ⟨u, hu, h'⟩ | ⟨u, hu, ⟨_, _, _, h'⟩ | ⟨_, h'⟩⟩⟩⟩
  · rw [h'] at h
    cases h
  · rw [h'] at h
    cases h
    omega
  · rw [h'] at h
    have hsame := sameQueue_tryGrantOne s e.leasesRequested i
    rw [hu] at hsame
    have hi := getElem?_bound hq
    have hlen : ((u.wake e.waker).removeEntry i).queue.length + 1 = s.queue.length := by
      rw [queue_removeEntry, show (u.wake e.waker).queue = u.queue from rfl, hsame.queue,
        List.length_eraseIdx_of_lt hi]
      omega
    cases h
    by_cases hx : e.leasesRequested = .exclusiveAll
    · rw [if_pos hx, queue_acquireExclusiveAllEnd]
      omega
    · rw [if_neg hx]
      omega
  · rw [h'] at h
    have hsame := sameQueue_tryGrantOne s e.leasesRequested i
    rw [hu] at hsame
    cases h
    rw [hsame.queue]
    omega
  · rw [h'] at h
    cases h

variable {P : Nat → State → Prop} {Q : State → Prop}

/-- What every turn preserves and a last turn turns into Q, the loop ends with. -/
theorem wakeLoop_induct (hnext : ∀ i s j t, P i s → wakeTurn i s = .next j t → P j t)
    (hstop : ∀ i s t, P i s → wakeTurn i s = .stop t → Q t) (n i : Nat) (s : State) (h : P i s)
    (hn : s.queue.length ≤ i + n) : Q (wakeLoop n i s) := by
  induction n generalizing i s with
  | zero =>
    have hnone : s.queue[i]? = none := List.getElem?_eq_none_iff.2 (by omega)
    rw [wakeLoop]
    exact hstop i s s h (by simp only [wakeTurn, hnone])
  | succ n ih =>
    rw [wakeLoop]
    cases ht : wakeTurn i s with
    | stop t => exact hstop i s t h ht
    | next j t =>
      have hlen := length_wakeTurn ht
      exact ih j t (hnext i s j t h ht) (by omega)

theorem wakeCompletedWaiters_induct (hnext : ∀ i s j t, P i s → wakeTurn i s = .next j t → P j t)
    (hstop : ∀ i s t, P i s → wakeTurn i s = .stop t → Q t) (h : P 0 s) :
    Q s.wakeCompletedWaiters :=
  wakeLoop_induct hnext hstop s.queue.length 0 s h (by omega)

end CocoonFs.SemaphoreLoop
