import CocoonFs.SemaphoreAccounts

namespace CocoonFs.SemaphoreOps

open Semaphore Semaphore.State SemaphoreLoop SemaphoreAccounts List
open Multiset (card_add card_cons coe_add count_le_card mem_cons_self)

variable {s t : State} {i p w n offset pending : Nat} {e : QueueEntry} {r : LeaseGrantCount}
  {held : Multiset LeaseGrantCount}

theorem granting_of_accounts (h : Accounts t (offsetOf t) pending held)
    (hkeys : keys t.queue = keys s.queue) (hmax : t.maxLeases = s.maxLeases)
    (hlast : t.lastWaiterId = s.lastWaiterId) :
    Granting pending (held + requests t.queue) s t :=
  ⟨⟨held, h, rfl⟩, by rw [hkeys], hmax, hlast⟩

theorem requests_congr {queue queue' : List QueueEntry} (h : keys queue = keys queue') :
    requests queue = requests queue' := by
  rw [requests_eq_keys, requests_eq_keys, h]

variable {count : { n : Nat // 0 < n }}

theorem Accounts.leases_uncons (h : Accounts s offset pending (.leases count ::ₘ held)) :
    LeaseGrantCount.exclusiveAll ∉ held ∧ s.leasesGranted = count.1 + leaseSum held := by
  have hx : LeaseGrantCount.exclusiveAll ∉ LeaseGrantCount.leases count ::ₘ held := by
    intro hmem
    have hself := mem_cons_self (LeaseGrantCount.leases count) held
    rw [h.alone hmem] at hself
    simp at hself
  have hlg := h.leasesGranted
  rw [if_neg hx, leaseSum_cons] at hlg
  exact ⟨fun hmem => hx (Multiset.mem_cons_of_mem hmem), hlg⟩

theorem Accounts.returnLeases
    (h : Accounts s offset pending (.leases count ::ₘ held)) {m : Nat} (hm : m ≤ s.maxLeases)
    (hle : leaseSum held ≤ m) :
    Accounts { s with maxLeases := m, leasesGranted := s.leasesGranted - count.1 }
      offset pending held := by
  obtain ⟨hx, hlg⟩ := leases_uncons h
  have hcap := h.capacity
  refine ⟨?_, hle, fun hmem => absurd hmem hx, ?_, ?_, h.enqueuedTrivial, h.enqueuedExclusive,
    h.wrapped⟩
  · dsimp only
    omega
  · rw [if_neg hx]
    dsimp only
    omega
  · simpa using h.trivialLeasesGranted

theorem Accounts.exclusive_uncons (h : Accounts s offset pending (.exclusiveAll ::ₘ held)) :
    held = 0 := by
  have hsing := h.alone (mem_cons_self _ _)
  exact (Multiset.cons_inj_right _).1 hsing

theorem Accounts.leaveExclusive (h : Accounts s offset pending (.exclusiveAll ::ₘ held)) :
    Accounts { s with leasesGranted := 0 } offset pending held := by
  obtain rfl := exclusive_uncons h
  have htriv := h.trivialLeasesGranted
  exact ⟨h.capacity, by simp, by simp, by simp, by simpa using htriv, h.enqueuedTrivial,
    h.enqueuedExclusive, h.wrapped⟩

theorem granting_decTrivialLeasesGranted
    (h : Accounts s (offsetOf s) pending (.trivialLease ::ₘ held)) :
    Granting pending (held + requests s.queue) s s.decTrivialLeasesGranted := by
  have hdec : Accounts s.decTrivialLeasesGranted (offsetOf s.decTrivialLeasesGranted) pending held :=
    h.trivial_uncons.decTrivialLeasesGranted
  exact granting_of_accounts hdec rfl rfl rfl

theorem returnGrant_leases (h : Accounts s (offsetOf s) pending (.leases count ::ₘ held)) :
    s.returnGrant (.leases count) = State.wakeCompletedWaiters
        { s with leasesGranted := s.leasesGranted - count.1 } ∧
      Granting pending (held + requests s.queue) s
        { s with leasesGranted := s.leasesGranted - count.1 } := by
  obtain ⟨hx, hlg⟩ := Accounts.leases_uncons h
  have hle := h.leases_le
  rw [leaseSum_cons] at hle
  have hret := Accounts.returnLeases h (Nat.le_refl s.maxLeases) (by omega)
  have hst : { s.note (decide (s.leasesGranted < count.1)) with
      leasesGranted := subUsize s.leasesGranted count } =
      { s with leasesGranted := s.leasesGranted - count.1 } := by
    rw [subUsize_eq (by omega), note_of_not (decide_eq_false (by omega))]
  rw [returnGrant, hst]
  exact ⟨rfl, granting_of_accounts hret rfl rfl rfl⟩

theorem granting_returnGrant (h : Accounts s (offsetOf s) pending (r ::ₘ held))
    (hcard : (held + requests s.queue).card ≤ maxReferences) :
    Granting pending (held + requests s.queue) s (s.returnGrant r) := by
  cases r with
  | trivialLease =>
    have hg := granting_decTrivialLeasesGranted h
    rcases hb : s.returnTrivialLeaseGrant with ⟨b, t⟩
    obtain rfl : t = s.decTrivialLeasesGranted := by
      simp only [returnTrivialLeaseGrant, Prod.mk.injEq] at hb
      exact hb.2.symm
    cases b with
    | true =>
      simp only [returnGrant, hb]
      exact granting_wakeCompletedWaiters hcard hg
    | false =>
      simp only [returnGrant, hb]
      exact hg
  | leases count =>
    obtain ⟨hreturn, hg⟩ := returnGrant_leases h
    rw [hreturn]
    exact granting_wakeCompletedWaiters hcard hg
  | exclusiveAll =>
    exact granting_wakeCompletedWaiters hcard
      (granting_of_accounts (Accounts.leaveExclusive h) rfl rfl rfl)

theorem waiterPosition_some (h : s.waiterPosition w = some i) :
    ∃ e, s.queue[i]? = some e ∧ e.waiterId = w := by
  obtain ⟨hi, he, _⟩ := findIdx?_eq_some_iff_getElem.1 h
  exact ⟨s.queue[i], getElem?_eq_getElem hi, by simpa using he⟩

theorem waiterPosition_none (h : s.waiterPosition w = none) : w ∉ (keys s.queue).map Prod.fst := by
  have hnone := findIdx?_eq_none_iff.1 h
  intro hmem
  simp only [SemaphoreAccounts.keys, List.map_map, mem_map] at hmem
  obtain ⟨e, he, heq⟩ := hmem
  have hne := hnone e he
  simp only [Function.comp_apply] at heq
  simp [heq] at hne

theorem not_mem_keys_eraseIdx {queue : List QueueEntry} (hnodup : ((keys queue).map Prod.fst).Nodup)
    (hq : queue[i]? = some e) : e.waiterId ∉ (keys (queue.eraseIdx i)).map Prod.fst := by
  obtain ⟨hi, rfl⟩ := List.getElem?_eq_some_iff.1 hq
  have hperm := (getElem_cons_eraseIdx_perm hi).map fun entry => entry.waiterId
  have hkeys : ∀ l : List QueueEntry, (keys l).map Prod.fst = l.map fun entry => entry.waiterId := by
    intro l
    simp [SemaphoreAccounts.keys, Function.comp_def]
  rw [hkeys] at hnodup ⊢
  exact (nodup_cons.1 (hperm.nodup_iff.2 hnodup)).1

section

variable (h : Accounts s (offsetOf s) pending held) (hq : s.queue[i]? = some e)
include h hq

theorem Accounts.dropEntry (hx : e.leasesRequested ≠ .exclusiveAll) :
    Granting pending (held + requests (s.queue.eraseIdx i)) (s.removeEntry i) (s.removeEntry i) := by
  have hrem := h.removeEntry hq
  have hoff : offsetOf (s.removeEntry i) = offsetOf s := by
    rw [offsetOf, offsetOf, enqueuedExclusive_removeEntry hq hx]
  rw [← hoff] at hrem
  rw [← queue_removeEntry]
  exact granting_of_accounts hrem rfl rfl rfl

theorem Accounts.dropExclusiveEntry (hx : e.leasesRequested = .exclusiveAll)
    (hcard : held.card + 1 < usize) :
    Granting pending (held + requests (s.queue.eraseIdx i)) (s.removeEntry i)
      (s.removeEntry i).acquireExclusiveAllEnd := by
  have hpos : s.enqueuedExclusiveAllWaiters ≠ 0 := by
    rw [h.enqueuedExclusive, requests_eraseIdx hq, hx, Multiset.count_cons_self]
    omega
  have hrem := h.removeEntry hq
  rw [offsetOf, if_neg hpos] at hrem
  have hsame := sameQueue_acquireExclusiveAllEnd (s.removeEntry i)
  rw [← queue_removeEntry, ← hsame.queue]
  exact granting_of_accounts (hrem.acquireExclusiveAllEnd hcard) (by rw [hsame.queue]) hsame.maxLeases
    hsame.lastWaiterId

end

theorem card_eraseIdx (hq : s.queue[i]? = some e)
    (hcard : (held + requests s.queue).card ≤ maxReferences) :
    (held + requests (s.queue.eraseIdx i)).card ≤ maxReferences ∧ held.card + 1 < usize := by
  simp only [card_add, requests_eraseIdx hq, card_cons, maxReferences] at hcard ⊢
  simp only [usize]
  omega

theorem granting_cancelWaiter (h : Accounts s (offsetOf s) pending held)
    (hpos : s.waiterPosition w = some i) (hq : s.queue[i]? = some e) (hr : e.leasesRequested = r)
    (hcard : (held + requests s.queue).card ≤ maxReferences) :
    Granting pending (held + requests (s.queue.eraseIdx i)) (s.removeEntry i) (s.cancelWaiter w r) := by
  subst hr
  obtain ⟨hle, hlt⟩ := card_eraseIdx hq hcard
  rw [State.cancelWaiter, hpos]
  cases hr : e.leasesRequested with
  | trivialLease => exact Accounts.dropEntry h hq (by simp [hr])
  | leases count =>
    have hdrop := Accounts.dropEntry h hq (by simp [hr])
    dsimp only
    split
    · exact granting_wakeCompletedWaiters hle hdrop
    · exact hdrop
  | exclusiveAll =>
    exact granting_wakeCompletedWaiters hle (Accounts.dropExclusiveEntry h hq hr hlt)

theorem keys_failEntry (m : Nat) (queue : List QueueEntry) :
    keys (queue.map (failEntry m)) = keys queue := by
  simp only [SemaphoreAccounts.keys, List.map_map]
  apply map_congr_left
  intro entry _
  simp only [Function.comp_apply, failEntry]
  split <;> rfl

theorem Accounts.setQueue (h : Accounts s offset pending held) (queue : List QueueEntry)
    (woken : List Nat) (hkeys : keys queue = keys s.queue) :
    Accounts { s with queue := queue, woken := woken } offset pending held := by
  have hreq := requests_congr hkeys
  exact { h with
    enqueuedTrivial := by rw [hreq]; exact h.enqueuedTrivial
    enqueuedExclusive := by rw [hreq]; exact h.enqueuedExclusive }

def failedWoken (s : State) : State :=
  { s with
    queue := s.queue.map (failEntry s.maxLeases)
    woken := s.woken ++
      (s.queue.filter fun entry => entry.leasesRequested.exceeds s.maxLeases).filterMap (·.waker) }

theorem granting_wakeFailedWaiters (h : Accounts s (offsetOf s) pending held)
    (hcard : (held + requests s.queue).card ≤ maxReferences) :
    Granting pending (held + requests s.queue) s s.wakeFailedWaiters := by
  have hkeys : keys (failedWoken s).queue = keys s.queue := keys_failEntry s.maxLeases s.queue
  have hset : Accounts (failedWoken s) (offsetOf (failedWoken s)) pending held :=
    Accounts.setQueue h _ _ hkeys
  have hg : Granting pending (held + requests (failedWoken s).queue) s (failedWoken s) :=
    granting_of_accounts hset hkeys rfl rfl
  rw [← requests_congr hkeys] at hcard ⊢
  rw [wakeFailedWaiters, ← failedWoken]
  split
  · exact hg
  · exact granting_wakeCompletedWaiters hcard hg

theorem keys_setWaker (s : State) (i w : Nat) : keys (s.setWaker i w).queue = keys s.queue := by
  simp only [SemaphoreAccounts.keys, State.setWaker]
  apply ext_getElem?
  intro j
  simp only [getElem?_map, getElem?_modify]
  by_cases hij : i = j <;> cases s.queue[j]? <;> simp [hij]

theorem Accounts.setWaker (h : Accounts s (offsetOf s) pending held) (i w : Nat) :
    Accounts (s.setWaker i w) (offsetOf (s.setWaker i w)) pending held :=
  Accounts.setQueue h _ _ (keys_setWaker s i w)

/-- The state and the capacity of a leak before anybody is woken. -/
def leaked (s : State) (count : Nat) : State :=
  { s with
    maxLeases := s.maxLeases - count
    leasesGranted := s.leasesGranted - count }

theorem leaked_eq (hacc : Accounts s offset pending (.leases count ::ₘ held)) :
    { s.note (decide (s.maxLeases < count.1 ∨ s.leasesGranted < count.1)) with
      maxLeases := subUsize s.maxLeases count
      leasesGranted := subUsize s.leasesGranted count } = leaked s count ∧
    Accounts (leaked s count) offset pending held := by
  obtain ⟨hx, hlg⟩ := Accounts.leases_uncons hacc
  have hle := hacc.leases_le
  rw [leaseSum_cons] at hle
  have hcount : LeaseGrantCount.count (.leases count) = count.1 := rfl
  refine ⟨?_, Accounts.returnLeases hacc (Nat.sub_le s.maxLeases count.1) (by omega)⟩
  rw [subUsize_eq (by omega), subUsize_eq (by omega), note_of_not (decide_eq_false (by omega))]
  rfl

theorem granting_leakLeases (h : Accounts s (offsetOf s) pending (.leases count ::ₘ held))
    (hcard : (held + requests s.queue).card ≤ maxReferences) :
    Granting pending (held + requests s.queue) (leaked s count) (s.leakLeases count) := by
  obtain ⟨hst, hret⟩ := leaked_eq h
  have hfailed := granting_wakeFailedWaiters hret hcard
  rw [leakLeases, hst]
  split
  · exact granting_wakeCompletedWaiters hcard hfailed
  · exact hfailed

def resized (s : State) (m : Nat) : State :=
  { s with
    maxLeases := m
    leasesGranted := m + 1 }

theorem accounts_resized {m : Nat} (hm : m < 2 ^ 63)
    (h : Accounts s (offsetOf s) pending (.exclusiveAll ::ₘ held)) :
    Accounts (resized s m) (offsetOf (resized s m)) pending (.exclusiveAll ::ₘ held) := by
  obtain rfl := Accounts.exclusive_uncons h
  exact ⟨hm, by simp [LeaseGrantCount.count], fun _ => rfl, by simp [resized],
    h.trivialLeasesGranted, h.enqueuedTrivial, h.enqueuedExclusive, h.wrapped⟩

theorem granting_resizeFuture {m : Nat} (hm : m < 2 ^ 63)
    (h : Accounts s (offsetOf s) pending (.exclusiveAll ::ₘ held))
    (hcard : (.exclusiveAll ::ₘ held + requests s.queue).card ≤ maxReferences) :
    Granting pending (.exclusiveAll ::ₘ held + requests s.queue) (resized s m) (s.resizeFuture m) := by
  have hacc := accounts_resized hm h
  dsimp only [State.resizeFuture]
  split
  · exact granting_wakeFailedWaiters hacc hcard
  · exact granting_of_accounts hacc rfl rfl rfl

def downgraded (s : State) : State :=
  let t := { s with leasesGranted := s.maxLeases }
  if s.maxLeases = 0 then t.incTrivialLeasesGranted else t

theorem accounts_downgraded (h : Accounts s (offsetOf s) pending (.exclusiveAll ::ₘ held)) :
    Accounts (downgraded s) (offsetOf (downgraded s)) pending (.ofUsize s.maxLeases ::ₘ held) := by
  obtain rfl := Accounts.exclusive_uncons h
  have htriv := h.trivialLeasesGranted
  have hoff : offsetOf s ≤ 1 := by
    unfold offsetOf
    split <;> omega
  have hsmall : s.trivialLeasesGranted + 1 < usize := by
    simp only [Multiset.count_cons_of_ne, ne_eq, reduceCtorEq, not_false_eq_true,
      Multiset.count_zero] at htriv
    simp only [usize]
    omega
  have hleave := Accounts.leaveExclusive h
  by_cases hz : s.maxLeases = 0
  · have hst : downgraded s = State.incTrivialLeasesGranted { s with leasesGranted := 0 } := by
      simp [downgraded, hz]
    have hof : LeaseGrantCount.ofUsize s.maxLeases = .trivialLease := by simp [LeaseGrantCount.ofUsize, hz]
    rw [hst, hof]
    exact (hleave.incTrivialLeasesGranted hsmall).trivial_cons (by simp)
  · have hst : downgraded s = { s with leasesGranted := s.maxLeases } := by simp [downgraded, hz]
    have hof : LeaseGrantCount.ofUsize s.maxLeases = .leases ⟨s.maxLeases, by omega⟩ := by
      simp [LeaseGrantCount.ofUsize, Nat.pos_of_ne_zero hz]
    rw [hst, hof]
    exact ⟨h.capacity, by simp [LeaseGrantCount.count], by simp,
      by simp [LeaseGrantCount.count], by simpa [offsetOf] using htriv, h.enqueuedTrivial,
      h.enqueuedExclusive, h.wrapped⟩

theorem sameQueue_downgraded (s : State) : SameQueue s (downgraded s) := by
  unfold downgraded
  split <;> exact ⟨rfl, rfl, rfl, rfl, rfl⟩

theorem granting_downgrade (h : Accounts s (offsetOf s) pending (.exclusiveAll ::ₘ held))
    (hcard : (.ofUsize s.maxLeases ::ₘ held + requests s.queue).card ≤ maxReferences) :
    Granting pending (.ofUsize s.maxLeases ::ₘ held + requests s.queue) s s.downgrade := by
  have hsame := sameQueue_downgraded s
  have hg := granting_of_accounts (s := s) (accounts_downgraded h) (by rw [hsame.queue]) hsame.maxLeases
    hsame.lastWaiterId
  rw [hsame.queue] at hg
  rw [State.downgrade, ← downgraded]
  split
  · exact granting_wakeCompletedWaiters hcard hg
  · exact hg

def exclusives (r : LeaseGrantCount) : Nat := if r = .exclusiveAll then 1 else 0

structure SameKeys (s t : State) : Prop where
  keys : keys t.queue = keys s.queue
  lastWaiterId : t.lastWaiterId = s.lastWaiterId

theorem SameKeys.of_sameQueue (h : SameQueue s t) : SameKeys s t :=
  ⟨by rw [h.queue], h.lastWaiterId⟩

theorem SameKeys.trans {u : State} (h : SameKeys s t) (h' : SameKeys t u) : SameKeys s u :=
  ⟨h'.keys.trans h.keys, h'.lastWaiterId.trans h.lastWaiterId⟩

theorem offsetOf_le (s : State) : offsetOf s ≤ 1 := by
  unfold offsetOf
  split <;> omega

theorem accounts_tryGrantOne (h : Accounts s (offsetOf s) pending held)
    (hfit : r.exceeds s.maxLeases = false) (hcard : held.card + 1 ≤ maxReferences)
    (ht : s.tryGrantOne r p = (true, t)) : Accounts t (offsetOf t) pending (r ::ₘ held) := by
  have hsame := sameQueue_tryGrantOne s r p
  rw [ht] at hsame
  have hoff := offsetOf_le s
  rw [offsetOf_congr hsame]
  simp only [maxReferences] at hcard
  exact tryGrantOne_true h hfit (by simp only [usize]; omega) ht

theorem ofUsize_zero : LeaseGrantCount.ofUsize 0 = .trivialLease := rfl

theorem ofUsize_fits {m : Nat} (h : n ≤ m) : (LeaseGrantCount.ofUsize n).exceeds m = false := by
  rw [not_exceeds_iff]
  unfold LeaseGrantCount.ofUsize
  split
  · exact h
  · exact Nat.zero_le m

/-- Leases are granted at once where nobody waits ahead, a trivial one where
nobody waits for exclusiveness. -/
theorem tryAcquireLeasesLocked_cases {b : Bool} (h : s.tryAcquireLeasesLocked n = .ok (b, t)) :
    (LeaseGrantCount.ofUsize n).exceeds s.maxLeases = false ∧
    ((s.tryGrantOne (.ofUsize n) s.queue.length = (b, t) ∧
        if n = 0 then s.hasExclusiveAllWaiters = false else s.hasUncancelledWaiters = false) ∨
      (b = false ∧ t = s ∧
        if n = 0 then s.hasExclusiveAllWaiters = true else s.hasUncancelledWaiters = true)) := by
  by_cases hn : n = 0
  · subst hn
    refine ⟨rfl, ?_⟩
    cases hx : s.hasExclusiveAllWaiters with
    | true =>
      simp only [tryAcquireLeasesLocked, tryAcquireTrivialLease, hx] at h
      refine .inr ⟨?_, ?_, rfl⟩ <;> simp_all
    | false =>
      rw [ofUsize_zero]
      exact .inl ⟨by simpa [tryAcquireLeasesLocked, tryAcquireTrivialLease, hx] using h, rfl⟩
  · by_cases hmax : s.maxLeases < n
    · simp [tryAcquireLeasesLocked, hn, hmax] at h
    refine ⟨ofUsize_fits (Nat.not_lt.1 hmax), ?_⟩
    simp only [hn, if_false]
    cases hu : s.hasUncancelledWaiters with
    | true =>
      simp only [tryAcquireLeasesLocked, hn, hmax, hu] at h
      refine .inr ⟨?_, ?_, rfl⟩ <;> simp_all
    | false => exact .inl ⟨by simpa [tryAcquireLeasesLocked, hn, hmax, hu] using h, rfl⟩

theorem tryAcquireLeasesLocked_true (h : Accounts s (offsetOf s) pending held)
    (hcard : held.card + 1 ≤ maxReferences) (ht : s.tryAcquireLeasesLocked n = .ok (true, t)) :
    SameQueue s t ∧ Accounts t (offsetOf t) pending (.ofUsize n ::ₘ held) := by
  obtain ⟨hfit, ⟨htry, _⟩ | ⟨hb, _⟩⟩ := tryAcquireLeasesLocked_cases ht
  · have hsame := sameQueue_tryGrantOne s (.ofUsize n) s.queue.length
    rw [htry] at hsame
    exact ⟨hsame, accounts_tryGrantOne h hfit hcard htry⟩
  · cases hb

theorem tryAcquireLeasesLocked_false (h : Accounts s (offsetOf s) pending held)
    (ht : s.tryAcquireLeasesLocked n = .ok (false, t)) : t = s := by
  obtain ⟨hfit, ⟨htry, _⟩ | ⟨_, hts, _⟩⟩ := tryAcquireLeasesLocked_cases ht
  · exact (tryGrantOne_false h hfit htry).1
  · exact hts

theorem tryAcquireExclusiveAllLocked_cases {b : Bool} (h : s.tryAcquireExclusiveAllLocked = (b, t)) :
    (s.tryGrantOne .exclusiveAll s.queue.length = (b, t) ∧ s.hasUncancelledWaiters = false) ∨
      (b = false ∧ t = s ∧ s.hasUncancelledWaiters = true) := by
  cases hu : s.hasUncancelledWaiters with
  | true =>
    simp only [tryAcquireExclusiveAllLocked, hu] at h
    refine .inr ⟨?_, ?_, rfl⟩ <;> simp_all
  | false => exact .inl ⟨by simpa [tryAcquireExclusiveAllLocked, hu] using h, rfl⟩

theorem tryAcquireExclusiveAllLocked_true (h : Accounts s 0 pending held)
    (hcard : held.card + 1 ≤ maxReferences) (ht : s.tryAcquireExclusiveAllLocked = (true, t)) :
    SameQueue s t ∧ Accounts t 0 pending (.exclusiveAll ::ₘ held) := by
  rcases tryAcquireExclusiveAllLocked_cases ht with ⟨htry, _⟩ | ⟨hb, _⟩
  · have hsame := sameQueue_tryGrantOne s .exclusiveAll s.queue.length
    rw [htry] at hsame
    simp only [maxReferences] at hcard
    exact ⟨hsame, tryGrantOne_true h rfl (by simp only [usize]; omega) htry⟩
  · cases hb

theorem tryAcquireExclusiveAllLocked_false (h : Accounts s 0 pending held)
    (ht : s.tryAcquireExclusiveAllLocked = (false, t)) : t = s := by
  rcases tryAcquireExclusiveAllLocked_cases ht with ⟨htry, _⟩ | ⟨_, hts, _⟩
  · exact (tryGrantOne_false h rfl htry).1
  · exact hts

theorem keys_pushWaiter (s : State) (r : LeaseGrantCount) :
    keys (s.pushWaiter r).queue = keys s.queue ++ [(s.lastWaiterId + 1, r)] := by
  simp [SemaphoreAccounts.keys, pushWaiter]

theorem requests_pushWaiter (s : State) (r : LeaseGrantCount) :
    requests (s.pushWaiter r).queue = r ::ₘ requests s.queue := by
  simp [requests, pushWaiter, ← coe_add, add_comm]

@[simp] theorem enqueuedTrivial_pushWaiter (s : State) (r : LeaseGrantCount) :
    (s.pushWaiter r).enqueuedTrivialLeaseWaiters = s.enqueuedTrivialLeaseWaiters := rfl

@[simp] theorem enqueuedExclusive_pushWaiter (s : State) (r : LeaseGrantCount) :
    (s.pushWaiter r).enqueuedExclusiveAllWaiters = s.enqueuedExclusiveAllWaiters := rfl

theorem accounts_enqueueReady (h : Accounts s (offsetOf s) (pending + exclusives r) held)
    (hcard : (requests s.queue).card + 1 < usize) :
    Accounts (s.enqueueReady r) (offsetOf (s.enqueueReady r)) pending held := by
  have hreq := requests_pushWaiter s r
  have htriv := h.enqueuedTrivial
  have hexcl := h.enqueuedExclusive
  cases r with
  | trivialLease =>
    have hcount := count_le_card LeaseGrantCount.trivialLease (requests s.queue)
    have hinc : (s.pushWaiter .trivialLease).incEnqueuedTrivial =
        { s.pushWaiter .trivialLease with
          enqueuedTrivialLeaseWaiters := s.enqueuedTrivialLeaseWaiters + 1 } :=
      incEnqueuedTrivial_eq (by
        rw [enqueuedTrivial_pushWaiter]
        omega)
    rw [enqueueReady, hinc]
    refine { h with enqueuedTrivial := ?_, enqueuedExclusive := ?_ }
    · simp only [hreq, Multiset.count_cons_self]
      omega
    · simp only [hreq, Multiset.count_cons_of_ne, ne_eq, reduceCtorEq, not_false_eq_true]
      simpa [exclusives] using hexcl
  | leases count =>
    refine { h with enqueuedTrivial := ?_, enqueuedExclusive := ?_ }
    · simpa [enqueueReady, hreq] using htriv
    · simpa [enqueueReady, hreq, exclusives] using hexcl
  | exclusiveAll =>
    refine { h with enqueuedTrivial := ?_, enqueuedExclusive := ?_ }
    · simpa [enqueueReady, hreq] using htriv
    · simp only [exclusives, if_true] at hexcl
      simp only [enqueueReady, hreq, Multiset.count_cons_self, enqueuedExclusive_pushWaiter]
      omega

theorem accounts_enqueueFailed (h : Accounts s (offsetOf s) (pending + exclusives r) held)
    (hcard : held.card + 1 < usize) :
    Accounts (s.enqueueFailed r) (offsetOf (s.enqueueFailed r)) pending held := by
  cases r with
  | trivialLease => exact h
  | leases count => exact h
  | exclusiveAll =>
    have hexcl := h.enqueuedExclusive
    simp only [exclusives, if_true] at hexcl
    have hdec := decEnqueuedExclusive_eq (s := s) (by omega)
    have hoff : offsetOf s = 0 := by
      rw [offsetOf, if_neg (by omega)]
    rw [hoff] at h
    have hacc : Accounts s.decEnqueuedExclusive 0 pending held := by
      rw [hdec]
      refine { h with enqueuedExclusive := ?_ }
      dsimp only
      omega
    exact hacc.acquireExclusiveAllEnd hcard

theorem sameKeys_enqueueFailed (s : State) (r : LeaseGrantCount) : SameKeys s (s.enqueueFailed r) := by
  cases r with
  | trivialLease => exact ⟨rfl, rfl⟩
  | leases count => exact ⟨rfl, rfl⟩
  | exclusiveAll =>
    have hsame := sameQueue_acquireExclusiveAllEnd s.decEnqueuedExclusive
    exact ⟨by rw [enqueueFailed, hsame.queue]; rfl, hsame.lastWaiterId⟩

theorem keys_enqueueReady (s : State) (r : LeaseGrantCount) :
    keys (s.enqueueReady r).queue = keys s.queue ++ [(s.lastWaiterId + 1, r)] := by
  cases r <;> exact keys_pushWaiter s _

theorem lastWaiterId_enqueueReady (s : State) (r : LeaseGrantCount) :
    (s.enqueueReady r).lastWaiterId = s.lastWaiterId + 1 := by
  cases r <;> rfl

def Acquired (pending : Nat) (held : Multiset LeaseGrantCount) (r : LeaseGrantCount) (s t : State) :
    Prepared → Prop
  | .granted => SameKeys s t ∧ Accounts t (offsetOf t) pending (r ::ₘ held)
  | .enqueued waiterId => waiterId = s.lastWaiterId + 1 ∧ t.lastWaiterId = s.lastWaiterId + 1 ∧
      keys t.queue = keys s.queue ++ [(waiterId, r)] ∧ Accounts t (offsetOf t) pending held
  | .reallocating _ => SameKeys s t ∧ Accounts t (offsetOf t) (pending + exclusives r) held
  | .failed _ => SameKeys s t ∧ Accounts t (offsetOf t) pending held

theorem acquired_enqueueWaiter (h : Accounts s (offsetOf s) (pending + exclusives r) held)
    (hheld : held.card + 1 < usize) (hqueue : (requests s.queue).card + 1 < usize) :
    Acquired pending held r s (s.enqueueWaiter r).2 (s.enqueueWaiter r).1 := by
  unfold enqueueWaiter
  cases s.tryReserve with
  | ready =>
    exact ⟨rfl, lastWaiterId_enqueueReady s r, keys_enqueueReady s r, accounts_enqueueReady h hqueue⟩
  | reallocate capacity =>
    have hann : Accounts s.announceReservation (offsetOf s.announceReservation)
        (pending + exclusives r) held :=
      { h with }
    exact ⟨⟨rfl, rfl⟩, hann⟩
  | failed => exact ⟨sameKeys_enqueueFailed s r, accounts_enqueueFailed h hheld⟩

theorem exclusives_ofUsize (n : Nat) : exclusives (.ofUsize n) = 0 := by
  unfold exclusives LeaseGrantCount.ofUsize
  split <;> simp

theorem Acquired.of_sameKeys {u : State} {prepared : Prepared} (hsame : SameKeys s t)
    (h : Acquired pending held r t u prepared) : Acquired pending held r s u prepared := by
  cases prepared with
  | granted => exact ⟨hsame.trans h.1, h.2⟩
  | enqueued waiterId =>
    obtain ⟨hid, hlast, hkeys, hacc⟩ := h
    rw [hsame.lastWaiterId] at hid hlast
    rw [hsame.keys] at hkeys
    exact ⟨hid, hlast, hkeys, hacc⟩
  | reallocating capacity => exact ⟨hsame.trans h.1, h.2⟩
  | failed error => exact ⟨hsame.trans h.1, h.2⟩

/-- The grants held are fewer than the references where the outcome is a new
grant. -/
theorem acquired_prepareAcquireLeases (h : Accounts s (offsetOf s) pending held)
    (hcard : (held + requests s.queue).card ≤ maxReferences)
    (hroom : (s.prepareAcquireLeases n).1 = .granted → held.card + 1 ≤ maxReferences) :
    Acquired pending held (.ofUsize n) s (s.prepareAcquireLeases n).2 (s.prepareAcquireLeases n).1 := by
  rw [card_add] at hcard
  simp only [maxReferences] at hcard
  unfold prepareAcquireLeases at hroom ⊢
  rcases ht : s.tryAcquireLeasesLocked n with error | ⟨b, t⟩
  · exact ⟨⟨rfl, rfl⟩, h⟩
  cases b with
  | true =>
    simp only [ht, forall_const] at hroom
    obtain ⟨hsame, hacc⟩ := tryAcquireLeasesLocked_true h hroom ht
    exact ⟨(.of_sameQueue hsame), hacc⟩
  | false =>
    obtain rfl := tryAcquireLeasesLocked_false h ht
    apply acquired_enqueueWaiter
    · rwa [exclusives_ofUsize]
    · simp only [usize]
      omega
    · simp only [usize]
      omega

theorem accounts_incEnqueuedExclusive (h : Accounts s 0 pending held)
    (hcard : (requests s.queue).card + pending + 1 < usize) :
    Accounts s.incEnqueuedExclusive (offsetOf s.incEnqueuedExclusive)
      (pending + exclusives .exclusiveAll) held := by
  have hcount := count_le_card LeaseGrantCount.exclusiveAll (requests s.queue)
  have hex := h.enqueuedExclusive
  rw [incEnqueuedExclusive_eq (by omega)]
  refine { h with trivialLeasesGranted := ?_, enqueuedExclusive := ?_ }
  · simpa [offsetOf] using h.trivialLeasesGranted
  · simp only [exclusives, if_true]
    omega

/-- An exclusive grant that is made right away. -/
theorem accounts_exclusiveGranted (h : Accounts s (offsetOf s) pending held)
    (hroom : held.card + 1 ≤ maxReferences)
    (ht : s.acquireExclusiveAllBegin.tryAcquireExclusiveAllLocked = (true, t)) :
    SameKeys s t.acquireExclusiveAllEnd ∧ Accounts t.acquireExclusiveAllEnd
      (offsetOf t.acquireExclusiveAllEnd) pending (.exclusiveAll ::ₘ held) := by
  obtain ⟨hsame, hacc⟩ := tryAcquireExclusiveAllLocked_true h.acquireExclusiveAllBegin hroom ht
  refine ⟨(SameKeys.of_sameQueue (sameQueue_acquireExclusiveAllBegin s)).trans
    ((SameKeys.of_sameQueue hsame).trans (.of_sameQueue (sameQueue_acquireExclusiveAllEnd t))),
    hacc.acquireExclusiveAllEnd ?_⟩
  simp only [maxReferences] at hroom
  simp only [card_cons, usize]
  omega

theorem acquired_prepareAcquireExclusiveAll (h : Accounts s (offsetOf s) pending held)
    (hcard : (held + requests s.queue).card + pending ≤ maxReferences)
    (hroom : s.prepareAcquireExclusiveAll.1 = .granted → held.card + 1 ≤ maxReferences) :
    Acquired pending held .exclusiveAll s s.prepareAcquireExclusiveAll.2 s.prepareAcquireExclusiveAll.1 := by
  rw [card_add] at hcard
  simp only [maxReferences] at hcard
  have hbegin := h.acquireExclusiveAllBegin
  have hsame := sameQueue_acquireExclusiveAllBegin s
  unfold prepareAcquireExclusiveAll at hroom ⊢
  rcases ht : s.acquireExclusiveAllBegin.tryAcquireExclusiveAllLocked with ⟨b, t⟩
  cases b with
  | true =>
    simp only [ht, forall_const] at hroom
    exact accounts_exclusiveGranted h hroom ht
  | false =>
    obtain rfl := tryAcquireExclusiveAllLocked_false hbegin ht
    have hinc := accounts_incEnqueuedExclusive hbegin (by
      rw [hsame.queue]
      simp only [usize]
      omega)
    have hkeys : SameKeys s s.acquireExclusiveAllBegin.incEnqueuedExclusive :=
      (SameKeys.of_sameQueue hsame).trans ⟨rfl, rfl⟩
    apply Acquired.of_sameKeys hkeys
    apply acquired_enqueueWaiter hinc
    · simp only [usize]
      omega
    · rw [requests_congr hkeys.keys]
      simp only [usize]
      omega

theorem accounts_tryAcquireExclusiveAll (h : Accounts s (offsetOf s) pending held)
    (hcard : held.card ≤ maxReferences)
    (hroom : s.tryAcquireExclusiveAll.1 = true → held.card + 1 ≤ maxReferences) :
    SameKeys s s.tryAcquireExclusiveAll.2 ∧
      Accounts s.tryAcquireExclusiveAll.2 (offsetOf s.tryAcquireExclusiveAll.2) pending
        (if s.tryAcquireExclusiveAll.1 then .exclusiveAll ::ₘ held else held) := by
  have hbegin := h.acquireExclusiveAllBegin
  have hsame := sameQueue_acquireExclusiveAllBegin s
  simp only [maxReferences] at hcard
  unfold tryAcquireExclusiveAll at hroom ⊢
  rcases ht : s.acquireExclusiveAllBegin.tryAcquireExclusiveAllLocked with ⟨b, t⟩
  cases b with
  | true =>
    simp only [ht, forall_const] at hroom
    exact accounts_exclusiveGranted h hroom ht
  | false =>
    obtain rfl := tryAcquireExclusiveAllLocked_false hbegin ht
    refine ⟨(SameKeys.of_sameQueue hsame).trans
      (.of_sameQueue (sameQueue_acquireExclusiveAllEnd _)), hbegin.acquireExclusiveAllEnd ?_⟩
    simp only [usize]
    omega

theorem acquired_finishEnqueue (capacity : Nat) (allocated : Option Nat)
    (h : Accounts s (offsetOf s) (pending + exclusives r) held)
    (hcard : (held + requests s.queue).card ≤ maxReferences) :
    match s.finishEnqueue r capacity allocated with
    | (some waiterId, t) => Acquired pending held r s t (.enqueued waiterId)
    | (none, t) => Acquired pending held r s t (.failed .memoryAllocationFailure) := by
  rw [card_add] at hcard
  simp only [maxReferences] at hcard
  rcases ht : s.tryReserveEnd capacity allocated with ⟨b, t⟩
  have hst : ∃ c : Nat, t = { s with
      pendingReservations := s.pendingReservations - 1
      capacity := c } := by
    cases allocated with
    | none =>
      simp only [tryReserveEnd, Prod.mk.injEq] at ht
      exact ⟨s.capacity, ht.2.symm⟩
    | some c =>
      simp only [tryReserveEnd] at ht
      split at ht
      · simp only [Prod.mk.injEq] at ht
        exact ⟨s.capacity, ht.2.symm⟩
      · simp only [Prod.mk.injEq] at ht
        exact ⟨c, ht.2.symm⟩
  obtain ⟨c, rfl⟩ := hst
  have hacc : Accounts { s with
      pendingReservations := s.pendingReservations - 1
      capacity := c } (offsetOf s) (pending + exclusives r) held :=
    { h with }
  unfold State.finishEnqueue
  rw [ht]
  cases b with
  | true =>
    exact ⟨rfl, lastWaiterId_enqueueReady _ r, keys_enqueueReady _ r,
      accounts_enqueueReady hacc (by simp only [usize]; omega)⟩
  | false =>
    have hkeys := sameKeys_enqueueFailed { s with
      pendingReservations := s.pendingReservations - 1
      capacity := c } r
    exact ⟨⟨hkeys.keys, hkeys.lastWaiterId⟩,
      accounts_enqueueFailed hacc (by simp only [usize]; omega)⟩

end CocoonFs.SemaphoreOps
