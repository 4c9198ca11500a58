import CocoonFs.SemaphoreLoop

namespace CocoonFs.SemaphoreAccounts

open Semaphore Semaphore.State SemaphoreLoop
open LeaseGrantCount (exclusiveAll trivialLease)
open Multiset (card_cons count_cons_of_ne count_cons_self count_le_card)

variable {s t : State} {i p w offset pending : Nat} {e : QueueEntry} {r : LeaseGrantCount}
  {held : Multiset LeaseGrantCount}

def leaseSum (held : Multiset LeaseGrantCount) : Nat := (held.map LeaseGrantCount.count).sum

@[simp] theorem leaseSum_zero : leaseSum 0 = 0 := rfl

@[simp] theorem leaseSum_cons (r : LeaseGrantCount) (held : Multiset LeaseGrantCount) :
    leaseSum (r ::ₘ held) = r.count + leaseSum held := by
  simp [leaseSum]

@[simp] theorem leaseSum_singleton (r : LeaseGrantCount) : leaseSum {r} = r.count := by
  simp [leaseSum]

def requests (queue : List QueueEntry) : Multiset LeaseGrantCount :=
  queue.map QueueEntry.leasesRequested

@[simp] theorem requests_nil : requests [] = 0 := rfl

theorem requests_eraseIdx {queue : List QueueEntry} (h : queue[i]? = some e) :
    requests queue = e.leasesRequested ::ₘ requests (queue.eraseIdx i) := by
  obtain ⟨hi, rfl⟩ := List.getElem?_eq_some_iff.1 h
  exact Multiset.coe_eq_coe.2 ((List.getElem_cons_eraseIdx_perm hi).map _).symm

/-- The counters say what the grants held and the queue say. The offset is on
the trivial leases' counter, and pending exclusive requests are counted before
they are on the queue. The capacity leaves room for adding a request to the
leases granted. -/
structure Accounts (s : State) (offset pending : Nat) (held : Multiset LeaseGrantCount) : Prop where
  capacity : s.maxLeases < 2 ^ 63
  leases_le : leaseSum held ≤ s.maxLeases
  alone : exclusiveAll ∈ held → held = {exclusiveAll}
  leasesGranted : s.leasesGranted =
    if exclusiveAll ∈ held then s.maxLeases + 1 else leaseSum held
  trivialLeasesGranted : s.trivialLeasesGranted = held.count .trivialLease + offset
  enqueuedTrivial : s.enqueuedTrivialLeaseWaiters = (requests s.queue).count .trivialLease
  enqueuedExclusive :
    s.enqueuedExclusiveAllWaiters = (requests s.queue).count .exclusiveAll + pending
  wrapped : s.wrapped = false

def offsetOf (s : State) : Nat := if s.enqueuedExclusiveAllWaiters = 0 then 1 else 0

theorem Accounts.isExclusiveAllGranted (h : Accounts s offset pending held) :
    s.isExclusiveAllGranted = true ↔ exclusiveAll ∈ held := by
  have hlg := h.leasesGranted
  have hle := h.leases_le
  rw [State.isExclusiveAllGranted, beq_iff_eq, hlg]
  by_cases hx : exclusiveAll ∈ held
  · simp [hx]
  · simp only [hx, if_false, iff_false]
    omega

theorem Accounts.leasesGranted_le (h : Accounts s offset pending held) :
    s.leasesGranted ≤ s.maxLeases + 1 := by
  have hle := h.leases_le
  rw [h.leasesGranted]
  split <;> omega

theorem leaseSum_eq_zero (h : leaseSum held = 0) (hx : exclusiveAll ∉ held)
    (ht : held.count .trivialLease = 0) : held = 0 := by
  rw [Multiset.eq_zero_iff_forall_notMem]
  intro r hr
  cases r with
  | trivialLease => exact Multiset.count_eq_zero.1 ht hr
  | exclusiveAll => exact hx hr
  | leases count =>
    have hmem := Multiset.mem_map_of_mem LeaseGrantCount.count hr
    have hle := Multiset.single_le_sum (fun _ _ => Nat.zero_le _) _ hmem
    have hcount : LeaseGrantCount.count (.leases count) = count.1 := rfl
    rw [← leaseSum, h, hcount] at hle
    exact absurd count.2 (by omega)

def Blocked (s : State) : LeaseGrantCount → Prop
  | .trivialLease => s.isExclusiveAllGranted = true
  | .leases count => s.maxLeases < s.leasesGranted + count
  | .exclusiveAll => s.leasesGranted ≠ 0 ∨ s.trivialLeasesGranted ≠ 0

theorem tryGrantOne_false (h : Accounts s offset pending held)
    (hfit : r.exceeds s.maxLeases = false) (ht : s.tryGrantOne r p = (false, t)) :
    t = s ∧ Blocked s r := by
  cases r with
  | trivialLease =>
    by_cases hx : s.isExclusiveAllGranted = true
    · simp only [tryGrantOne, hx] at ht
      exact ⟨by simpa using ht.symm, hx⟩
    · simp [tryGrantOne, hx] at ht
  | exclusiveAll =>
    by_cases hz : s.leasesGranted = 0 ∧ s.trivialLeasesGranted = 0
    · simp [tryGrantOne, hz] at ht
    · simp only [tryGrantOne, if_neg hz, Prod.mk.injEq, true_and] at ht
      exact ⟨ht.symm, by simpa only [Blocked, ne_eq, ← not_and_or] using hz⟩
  | leases count =>
    have hle := h.leasesGranted_le
    have hcap := h.capacity
    have hc : count.1 ≤ s.maxLeases := not_exceeds_iff.1 hfit
    have hlt : s.leasesGranted + count.1 < usize := by
      simp only [usize]
      omega
    by_cases hm : s.leasesGranted + count.1 ≤ s.maxLeases
    · simp [tryGrantOne, addUsize_eq hlt, note_of_not (decide_eq_false (not_le.2 hlt)), hm] at ht
    · simp only [tryGrantOne, addUsize_eq hlt, note_of_not (decide_eq_false (not_le.2 hlt)),
        if_neg hm, Prod.mk.injEq, true_and] at ht
      exact ⟨ht.symm, not_le.1 hm⟩

theorem incTrivialLeasesGranted_eq (h : s.trivialLeasesGranted + 1 < usize) :
    s.incTrivialLeasesGranted = { s with trivialLeasesGranted := s.trivialLeasesGranted + 1 } := by
  simp [State.incTrivialLeasesGranted, note, addUsize_eq h, h]

theorem decTrivialLeasesGranted_eq (h : 1 ≤ s.trivialLeasesGranted) :
    s.decTrivialLeasesGranted = { s with trivialLeasesGranted := s.trivialLeasesGranted - 1 } := by
  simp [State.decTrivialLeasesGranted, note, subUsize_eq h, Nat.ne_of_gt h]

theorem incEnqueuedTrivial_eq (h : s.enqueuedTrivialLeaseWaiters + 1 < usize) :
    s.incEnqueuedTrivial =
      { s with enqueuedTrivialLeaseWaiters := s.enqueuedTrivialLeaseWaiters + 1 } := by
  simp [incEnqueuedTrivial, note, addUsize_eq h, h]

theorem decEnqueuedTrivial_eq (h : 1 ≤ s.enqueuedTrivialLeaseWaiters) :
    s.decEnqueuedTrivial =
      { s with enqueuedTrivialLeaseWaiters := s.enqueuedTrivialLeaseWaiters - 1 } := by
  simp [decEnqueuedTrivial, note, subUsize_eq h, Nat.ne_of_gt h]

theorem incEnqueuedExclusive_eq (h : s.enqueuedExclusiveAllWaiters + 1 < usize) :
    s.incEnqueuedExclusive =
      { s with enqueuedExclusiveAllWaiters := s.enqueuedExclusiveAllWaiters + 1 } := by
  simp [incEnqueuedExclusive, note, addUsize_eq h, h]

theorem decEnqueuedExclusive_eq (h : 1 ≤ s.enqueuedExclusiveAllWaiters) :
    s.decEnqueuedExclusive =
      { s with enqueuedExclusiveAllWaiters := s.enqueuedExclusiveAllWaiters - 1 } := by
  simp [decEnqueuedExclusive, note, subUsize_eq h, Nat.ne_of_gt h]

theorem Accounts.incTrivialLeasesGranted (h : Accounts s offset pending held)
    (hlt : s.trivialLeasesGranted + 1 < usize) :
    Accounts s.incTrivialLeasesGranted (offset + 1) pending held := by
  have htriv := h.trivialLeasesGranted
  rw [incTrivialLeasesGranted_eq hlt]
  exact { h with trivialLeasesGranted := by dsimp only; omega }

theorem Accounts.decTrivialLeasesGranted (h : Accounts s (offset + 1) pending held) :
    Accounts s.decTrivialLeasesGranted offset pending held := by
  have htriv := h.trivialLeasesGranted
  rw [decTrivialLeasesGranted_eq (by omega)]
  exact { h with trivialLeasesGranted := by dsimp only; omega }

theorem Accounts.issue (h : Accounts s offset pending held) (r : LeaseGrantCount) (p : Nat) :
    Accounts (s.issue r p) offset pending held :=
  { h with }

theorem Accounts.wake (h : Accounts s offset pending held) (w : Option Nat) :
    Accounts (s.wake w) offset pending held :=
  { h with }

theorem Accounts.trivial_cons (h : Accounts s (offset + 1) pending held)
    (hx : exclusiveAll ∉ held) :
    Accounts s offset pending (.trivialLease ::ₘ held) := by
  have htriv := h.trivialLeasesGranted
  have hlg := h.leasesGranted
  refine ⟨h.capacity, ?_, ?_, ?_, ?_, h.enqueuedTrivial, h.enqueuedExclusive, h.wrapped⟩
  · simpa [LeaseGrantCount.count] using h.leases_le
  · intro hmem
    simp [hx] at hmem
  · simpa [hx, LeaseGrantCount.count] using hlg
  · rw [count_cons_self]
    omega

theorem Accounts.trivial_uncons (h : Accounts s offset pending (.trivialLease ::ₘ held)) :
    Accounts s (offset + 1) pending held := by
  have htriv := h.trivialLeasesGranted
  have hlg := h.leasesGranted
  have hx : exclusiveAll ∉ held := by
    intro hmem
    have hsing := h.alone (Multiset.mem_cons_of_mem hmem)
    have hself := Multiset.mem_cons_self trivialLease held
    rw [hsing] at hself
    simp at hself
  refine ⟨h.capacity, ?_, ?_, ?_, ?_, h.enqueuedTrivial, h.enqueuedExclusive, h.wrapped⟩
  · simpa [LeaseGrantCount.count] using h.leases_le
  · intro hmem
    exact absurd hmem hx
  · simpa [hx, LeaseGrantCount.count] using hlg
  · rw [count_cons_self] at htriv
    omega

theorem tryGrantOne_true (h : Accounts s offset pending held)
    (hfit : r.exceeds s.maxLeases = false) (hcard : held.card + offset + 1 < usize)
    (ht : s.tryGrantOne r p = (true, t)) : Accounts t offset pending (r ::ₘ held) := by
  cases r with
  | trivialLease =>
    have hcount := count_le_card trivialLease held
    have htriv := h.trivialLeasesGranted
    by_cases hx : s.isExclusiveAllGranted = true
    · simp [tryGrantOne, hx] at ht
    · have hxn : exclusiveAll ∉ held := fun hmem =>
        hx (h.isExclusiveAllGranted.2 hmem)
      obtain rfl : s.incTrivialLeasesGranted.issue .trivialLease p = t := by
        simpa [tryGrantOne, hx] using ht
      exact ((h.incTrivialLeasesGranted (by omega)).trivial_cons hxn).issue _ _
  | exclusiveAll =>
    have hcap := h.capacity
    by_cases hz : s.leasesGranted = 0 ∧ s.trivialLeasesGranted = 0
    · have hlt : s.maxLeases + 1 < usize := by
        simp only [usize]
        omega
      have hlg := h.leasesGranted
      have htriv := h.trivialLeasesGranted
      rw [hz.1] at hlg
      have hx : exclusiveAll ∉ held := by
        intro hmem
        simp [hmem] at hlg
      rw [if_neg hx] at hlg
      obtain rfl := leaseSum_eq_zero hlg.symm hx (by omega)
      obtain rfl : State.issue { s with leasesGranted := s.maxLeases + 1 } .exclusiveAll p = t := by
        simpa [tryGrantOne, hz, addUsize_eq hlt, note_of_not (decide_eq_false (not_le.2 hlt))] using ht
      have hacc : Accounts { s with leasesGranted := s.maxLeases + 1 } offset pending
          (exclusiveAll ::ₘ 0) :=
        ⟨h.capacity, by simp [LeaseGrantCount.count], fun _ => rfl, by simp,
          by simpa using h.trivialLeasesGranted, h.enqueuedTrivial, h.enqueuedExclusive, h.wrapped⟩
      exact hacc.issue _ _
    · simp [tryGrantOne, hz] at ht
  | leases count =>
    have hle := h.leasesGranted_le
    have hcap := h.capacity
    have hlg := h.leasesGranted
    have hc : count.1 ≤ s.maxLeases := not_exceeds_iff.1 hfit
    have hlt : s.leasesGranted + count.1 < usize := by
      simp only [usize]
      omega
    by_cases hm : s.leasesGranted + count.1 ≤ s.maxLeases
    · have hx : exclusiveAll ∉ held := by
        intro hmem
        rw [if_pos hmem] at hlg
        omega
      rw [if_neg hx] at hlg
      obtain rfl : State.issue { s with leasesGranted := s.leasesGranted + count.1 } (.leases count) p = t := by
        simpa [tryGrantOne, addUsize_eq hlt, note_of_not (decide_eq_false (not_le.2 hlt)), hm] using ht
      have hacc : Accounts { s with leasesGranted := s.leasesGranted + count.1 } offset pending
          (LeaseGrantCount.leases count ::ₘ held) := by
        refine ⟨h.capacity, ?_, ?_, ?_, ?_, h.enqueuedTrivial, h.enqueuedExclusive, h.wrapped⟩
        · simp only [leaseSum_cons, LeaseGrantCount.count]
          omega
        · intro hmem
          simp [hx] at hmem
        · simp only [Multiset.mem_cons, hx, reduceCtorEq, or_self, if_false, leaseSum_cons,
            LeaseGrantCount.count]
          omega
        · simpa using h.trivialLeasesGranted
      exact hacc.issue _ _
    · simp [tryGrantOne, addUsize_eq hlt, note_of_not (decide_eq_false (not_le.2 hlt)), hm] at ht

theorem Accounts.removeEntry (h : Accounts s offset pending held) (hq : s.queue[i]? = some e) :
    Accounts (s.removeEntry i) offset pending held := by
  have hreq := requests_eraseIdx hq
  have htriv := h.enqueuedTrivial
  have hexcl := h.enqueuedExclusive
  obtain ⟨r, w, id⟩ := e
  cases r with
  | trivialLease =>
    simp only [hreq, count_cons_self, count_cons_of_ne, ne_eq, reduceCtorEq,
      not_false_eq_true] at htriv hexcl
    have hle : 1 ≤ s.enqueuedTrivialLeaseWaiters := by omega
    have hst : s.removeEntry i = { s with
        queue := s.queue.eraseIdx i
        enqueuedTrivialLeaseWaiters := s.enqueuedTrivialLeaseWaiters - 1 } := by
      simp [State.removeEntry, hq, decEnqueuedTrivial_eq hle]
    rw [hst]
    exact { h with
      enqueuedTrivial := by dsimp only; omega
      enqueuedExclusive := hexcl }
  | leases count =>
    simp only [hreq, count_cons_of_ne, ne_eq, reduceCtorEq,
      not_false_eq_true] at htriv hexcl
    have hst : s.removeEntry i = { s with queue := s.queue.eraseIdx i } := by
      simp [State.removeEntry, hq]
    rw [hst]
    exact { h with enqueuedTrivial := htriv, enqueuedExclusive := hexcl }
  | exclusiveAll =>
    simp only [hreq, count_cons_self, count_cons_of_ne, ne_eq, reduceCtorEq,
      not_false_eq_true] at htriv hexcl
    have hle : 1 ≤ s.enqueuedExclusiveAllWaiters := by omega
    have hst : s.removeEntry i = { s with
        queue := s.queue.eraseIdx i
        enqueuedExclusiveAllWaiters := s.enqueuedExclusiveAllWaiters - 1 } := by
      simp [State.removeEntry, hq, decEnqueuedExclusive_eq hle]
    rw [hst]
    exact { h with
      enqueuedTrivial := htriv
      enqueuedExclusive := by dsimp only; omega }

theorem Accounts.acquireExclusiveAllEnd (h : Accounts s 0 pending held)
    (hcard : held.card + 1 < usize) :
    Accounts s.acquireExclusiveAllEnd (offsetOf s.acquireExclusiveAllEnd) pending held := by
  have hsame := sameQueue_acquireExclusiveAllEnd s
  have hcount := count_le_card trivialLease held
  have htriv := h.trivialLeasesGranted
  rw [offsetOf, hsame.enqueuedExclusive]
  by_cases hz : s.enqueuedExclusiveAllWaiters = 0
  · rw [if_pos hz]
    simp only [State.acquireExclusiveAllEnd, hasExclusiveAllWaiters, hz, bne_self_eq_false,
      Bool.not_false, if_true]
    exact h.incTrivialLeasesGranted (by omega)
  · rw [if_neg hz]
    simpa [State.acquireExclusiveAllEnd, hasExclusiveAllWaiters, hz] using h

theorem Accounts.acquireExclusiveAllBegin (h : Accounts s (offsetOf s) pending held) :
    Accounts s.acquireExclusiveAllBegin 0 pending held := by
  by_cases hz : s.enqueuedExclusiveAllWaiters = 0
  · rw [offsetOf, if_pos hz] at h
    simp only [State.acquireExclusiveAllBegin, hasExclusiveAllWaiters, hz, bne_self_eq_false,
      Bool.not_false, if_true]
    exact h.decTrivialLeasesGranted
  · rw [offsetOf, if_neg hz] at h
    simpa [State.acquireExclusiveAllBegin, hasExclusiveAllWaiters, hz] using h

theorem sameQueue_acquireExclusiveAllBegin (s : State) : SameQueue s s.acquireExclusiveAllBegin := by
  unfold State.acquireExclusiveAllBegin
  split <;> exact ⟨rfl, rfl, rfl, rfl, rfl⟩

theorem offsetOf_congr (h : SameQueue s t) : offsetOf t = offsetOf s := by
  rw [offsetOf, offsetOf, h.enqueuedExclusive]

/-- The keys of the queued requests: what their futures know of them. -/
def keys (queue : List QueueEntry) : List (Nat × LeaseGrantCount) :=
  queue.map fun entry => (entry.waiterId, entry.leasesRequested)

theorem requests_eq_keys (queue : List QueueEntry) :
    requests queue = ((keys queue).map Prod.snd : List LeaseGrantCount) := by
  simp [requests, keys, Function.comp_def]

/-- Requests are granted from the queue: together with the grants held, the
queue stays the same. -/
structure Granting (pending : Nat) (total : Multiset LeaseGrantCount) (s t : State) : Prop where
  accounts : ∃ held, Accounts t (offsetOf t) pending held ∧ held + requests t.queue = total
  keys : (keys t.queue).Sublist (keys s.queue)
  maxLeases : t.maxLeases = s.maxLeases
  lastWaiterId : t.lastWaiterId = s.lastWaiterId

theorem keys_eraseIdx (queue : List QueueEntry) (i : Nat) :
    (keys (queue.eraseIdx i)).Sublist (keys queue) :=
  (List.eraseIdx_sublist queue i).map _

theorem maxLeases_removeEntry (s : State) (i : Nat) : (s.removeEntry i).maxLeases = s.maxLeases := by
  dsimp only [State.removeEntry]
  split <;> rfl

theorem lastWaiterId_removeEntry (s : State) (i : Nat) :
    (s.removeEntry i).lastWaiterId = s.lastWaiterId := by
  dsimp only [State.removeEntry]
  split <;> rfl

theorem enqueuedExclusive_removeEntry (hq : s.queue[i]? = some e)
    (hx : e.leasesRequested ≠ .exclusiveAll) :
    (s.removeEntry i).enqueuedExclusiveAllWaiters = s.enqueuedExclusiveAllWaiters := by
  obtain ⟨r, w, id⟩ := e
  cases r with
  | trivialLease => simp [State.removeEntry, hq, decEnqueuedTrivial, note]
  | leases count => simp [State.removeEntry, hq]
  | exclusiveAll => exact absurd rfl hx

theorem accounts_grantEntry (h : Accounts s (offsetOf s) pending held) (hq : s.queue[i]? = some e)
    (hfit : e.leasesRequested.exceeds s.maxLeases = false)
    (hcard : (held + requests s.queue).card ≤ maxReferences)
    (ht : s.tryGrantOne e.leasesRequested i = (true, t)) :
    let u := (t.wake e.waker).removeEntry i
    let v := if e.leasesRequested = .exclusiveAll then u.acquireExclusiveAllEnd else u
    Accounts v (offsetOf v) pending (e.leasesRequested ::ₘ held) := by
  intro u v
  have hsame := sameQueue_tryGrantOne s e.leasesRequested i
  rw [ht] at hsame
  have hreq := requests_eraseIdx hq
  simp only [Multiset.card_add, hreq, card_cons, maxReferences] at hcard
  have hoff : offsetOf s ≤ 1 := by
    unfold offsetOf
    split <;> omega
  have hg := tryGrantOne_true h hfit (by simp only [usize]; omega) ht
  have hqt : (t.wake e.waker).queue[i]? = some e := by
    rw [← hq, ← hsame.queue]
    rfl
  have hu : Accounts u (offsetOf s) pending (e.leasesRequested ::ₘ held) :=
    (hg.wake e.waker).removeEntry hqt
  by_cases hx : e.leasesRequested = .exclusiveAll
  · have hpos : s.enqueuedExclusiveAllWaiters ≠ 0 := by
      rw [h.enqueuedExclusive, hreq, hx, count_cons_self]
      omega
    rw [offsetOf, if_neg hpos] at hu
    rw [show v = u.acquireExclusiveAllEnd from if_pos hx]
    exact hu.acquireExclusiveAllEnd (by simp only [card_cons, usize]; omega)
  · rw [show v = u from if_neg hx]
    have henq : offsetOf u = offsetOf s := by
      have hu' : u.enqueuedExclusiveAllWaiters = t.enqueuedExclusiveAllWaiters :=
        enqueuedExclusive_removeEntry hqt hx
      rw [offsetOf, offsetOf, hu', hsame.enqueuedExclusive]
    rwa [henq]

variable {total : Multiset LeaseGrantCount} {s₀ : State}

theorem granting_wakeTurn {j : Nat}
    (hcard : total.card ≤ maxReferences) (h : Granting pending total s₀ s)
    (ht : wakeTurn i s = .next j t) : Granting pending total s₀ t := by
  obtain ⟨held, hacc, htotal⟩ := h.accounts
  rcases wakeTurn_cases i s with ⟨_, h'⟩ | ⟨e, hq, ⟨_, h'⟩ | ⟨hfit, ⟨u, hu, h'⟩ | ⟨u, hu, ⟨_, _, _, h'⟩ | ⟨_, h'⟩⟩⟩⟩
  · rw [h'] at ht
    cases ht
  · rw [h'] at ht
    cases ht
    exact h
  · rw [h'] at ht
    cases ht
    have hsame := sameQueue_tryGrantOne s e.leasesRequested i
    rw [hu] at hsame
    have hnew := accounts_grantEntry hacc hq hfit (by rwa [htotal]) hu
    have hqueue : ((u.wake e.waker).removeEntry i).queue = s.queue.eraseIdx i := by
      rw [queue_removeEntry, ← hsame.queue]
      rfl
    have hframe : SameQueue ((u.wake e.waker).removeEntry i)
        (if e.leasesRequested = .exclusiveAll then
          ((u.wake e.waker).removeEntry i).acquireExclusiveAllEnd
          else (u.wake e.waker).removeEntry i) := by
      split
      · exact sameQueue_acquireExclusiveAllEnd _
      · exact ⟨rfl, rfl, rfl, rfl, rfl⟩
    refine ⟨⟨_, hnew, ?_⟩, ?_, ?_, ?_⟩
    · rw [hframe.queue, hqueue, ← htotal, requests_eraseIdx hq, Multiset.cons_add, Multiset.add_cons]
    · rw [hframe.queue, hqueue]
      exact (keys_eraseIdx _ _).trans h.keys
    · rw [hframe.maxLeases, maxLeases_removeEntry, ← h.maxLeases, ← hsame.maxLeases]
      rfl
    · rw [hframe.lastWaiterId, lastWaiterId_removeEntry, ← h.lastWaiterId, ← hsame.lastWaiterId]
      rfl
  · rw [h'] at ht
    cases ht
    obtain ⟨rfl, _⟩ := tryGrantOne_false hacc hfit hu
    exact h
  · rw [h'] at ht
    cases ht

theorem granting_stop (h : Granting pending total s₀ s) (ht : wakeTurn i s = .stop t) : t = s := by
  obtain ⟨held, hacc, _⟩ := h.accounts
  rcases wakeTurn_cases i s with ⟨_, h'⟩ | ⟨e, hq, ⟨_, h'⟩ | ⟨hfit, ⟨u, hu, h'⟩ | ⟨u, hu, ⟨_, _, _, h'⟩ | ⟨_, h'⟩⟩⟩⟩
  · rw [h'] at ht
    cases ht
    rfl
  · rw [h'] at ht
    cases ht
  · rw [h'] at ht
    cases ht
  · rw [h'] at ht
    cases ht
  · rw [h'] at ht
    cases ht
    exact (tryGrantOne_false hacc hfit hu).1

theorem granting_wakeCompletedWaiters
    (hcard : total.card ≤ maxReferences) (h : Granting pending total s₀ s) :
    Granting pending total s₀ s.wakeCompletedWaiters := by
  refine wakeCompletedWaiters_induct (P := fun _ s => Granting pending total s₀ s)
    (fun i s j t hP ht => granting_wakeTurn hcard hP ht) (fun i s t hP ht => ?_) h
  rw [granting_stop hP ht]
  exact hP

end CocoonFs.SemaphoreAccounts
