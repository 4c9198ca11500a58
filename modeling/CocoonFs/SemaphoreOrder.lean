import CocoonFs.SemaphoreWakeups

namespace CocoonFs.SemaphoreOrder

open Runs Semaphore Semaphore.State SemaphoreLoop SemaphoreAccounts SemaphoreOps SemaphoreGrants List
open SemaphoreWaiters

variable {s t : State} {i j p w n m g offset pending : Nat} {e : QueueEntry} {r : LeaseGrantCount}
  {a : Action} {o : Owner} {held total : Multiset LeaseGrantCount} {after rest : List Owner}
  {l : List LeaseGrantCount}

/-- First come, first served for one grant: which requests may still have been
waiting ahead of it. One that no longer fits the capacity has failed and does
not wait any more. -/
def InOrder (grant : Issued) : Prop :=
  match grant.request with
  | .trivialLease => ∀ e ∈ grant.ahead, e.leasesRequested ≠ .exclusiveAll
  | .leases _ => ∀ e ∈ grant.ahead,
      e.leasesRequested = .trivialLease ∨ e.leasesRequested.exceeds grant.maxLeases = true
  | .exclusiveAll => ∀ e ∈ grant.ahead, e.leasesRequested.exceeds grant.maxLeases = true

/-- Behind a request for more leases than are free, and not behind an exclusive
one, comes a request for fewer, and the trivial requests yet to come keep the
loop going up to it. -/
def smallerBehind (m g : Nat) : List LeaseGrantCount → Bool
  | [] => false
  | .trivialLease :: l => smallerBehind m g l
  | .exclusiveAll :: _ => false
  | .leases count :: l =>
    if m < count.1 then smallerBehind m g l
    else decide (g + count.1 ≤ m) || (l.contains .trivialLease && smallerBehind m g l)

/-- Granting as many requests from the front as fit into the capacity m, g
leases of which are granted, the loop would meet one that does not and then
grant a smaller one from behind it. -/
def overtaking (m : Nat) : Nat → List LeaseGrantCount → Bool
  | _, [] => false
  | g, .trivialLease :: l => overtaking m g l
  | _, .exclusiveAll :: _ => false
  | g, .leases count :: l =>
    if m < count.1 then overtaking m g l
    else if g + count.1 ≤ m then overtaking m (g + count.1) l
    else l.contains .trivialLease && smallerBehind m g l

theorem smallerBehind_of_full (h : m ≤ g) : smallerBehind m g l = false := by
  induction l with
  | nil => rfl
  | cons r l ih =>
    cases r with
    | trivialLease => exact ih
    | exclusiveAll => rfl
    | leases count =>
      have hgt : ¬ g + count.1 ≤ m := by omega
      rw [smallerBehind]
      split
      · exact ih
      · simp [hgt, ih]

theorem overtaking_of_full (h : m ≤ g) : overtaking m g l = false := by
  induction l with
  | nil => rfl
  | cons r l ih =>
    cases r with
    | trivialLease => exact ih
    | exclusiveAll => rfl
    | leases count =>
      rw [overtaking]
      split
      · exact ih
      · rw [if_neg (by omega), smallerBehind_of_full h, Bool.and_false]

theorem smallerBehind_cons_failed (h : r.exceeds m = true) :
    smallerBehind m g (r :: l) = smallerBehind m g l := by
  rw [exceeds_iff] at h
  cases r with
  | trivialLease => rfl
  | exclusiveAll => exact absurd h (Nat.not_lt_zero _)
  | leases count => exact if_pos h

theorem overtaking_cons_failed (h : r.exceeds m = true) :
    overtaking m g (r :: l) = overtaking m g l := by
  rw [exceeds_iff] at h
  cases r with
  | trivialLease => rfl
  | exclusiveAll => exact absurd h (Nat.not_lt_zero _)
  | leases count => exact if_pos h

/-- Where the loop is with regard to the order: before anything it could
overtake, or past a request that waits, with only trivial ones left to grant. -/
inductive Position (i : Nat) (s : State) : Prop where
  | front (hahead : ∀ r ∈ (asked s).take i, r.exceeds s.maxLeases = true)
      (horder : overtaking s.maxLeases s.leasesGranted ((asked s).drop i) = false)
  | behind (hahead : ∀ r ∈ (asked s).take i, r ≠ .trivialLease ∧ r ≠ .exclusiveAll)
      (hlg : s.leasesGranted ≠ 0)
      (horder : smallerBehind s.maxLeases s.leasesGranted ((asked s).drop i) = false)

def AllInOrder (s : State) : Prop := ∀ grant ∈ s.issued, InOrder grant

theorem issued_tryGrantOne (ht : s.tryGrantOne r p = (true, t)) :
    t.issued = s.issued ++ [⟨r, s.queue.take p, s.maxLeases⟩] := by
  cases r with
  | trivialLease =>
    by_cases hx : s.isExclusiveAllGranted = true
    · simp [tryGrantOne, hx] at ht
    · obtain rfl : s.incTrivialLeasesGranted.issue .trivialLease p = t := by
        simpa [tryGrantOne, hx] using ht
      rfl
  | leases count =>
    simp only [tryGrantOne] at ht
    split at ht
    · simp only [Prod.mk.injEq, true_and] at ht
      rw [← ht]
      rfl
    · simp at ht
  | exclusiveAll =>
    simp only [tryGrantOne] at ht
    split at ht
    · simp only [Prod.mk.injEq, true_and] at ht
      rw [← ht]
      rfl
    · simp at ht

theorem allInOrder_tryGrantOne (h : AllInOrder s) (ht : s.tryGrantOne r p = (true, t))
    (hnew : InOrder ⟨r, s.queue.take p, s.maxLeases⟩) : AllInOrder t := by
  intro grant hmem
  rw [issued_tryGrantOne ht, mem_append, mem_singleton] at hmem
  rcases hmem with hmem | rfl
  · exact h grant hmem
  · exact hnew

theorem mem_take_asked {e : QueueEntry} (h : e ∈ s.queue.take i) :
    e.leasesRequested ∈ (asked s).take i := by
  rw [asked, ← map_take]
  exact mem_map_of_mem h

theorem exceeds_ne_exclusive (h : r.exceeds m = true) : r ≠ .trivialLease ∧ r ≠ .exclusiveAll := by
  constructor
  · rintro rfl
    exact absurd (exceeds_iff.1 h) (Nat.not_lt_zero _)
  · rintro rfl
    exact absurd (exceeds_iff.1 h) (Nat.not_lt_zero _)

theorem inOrder_of_failed {ahead : List QueueEntry}
    (h : ∀ e ∈ ahead, e.leasesRequested.exceeds m = true) : InOrder ⟨r, ahead, m⟩ := by
  cases r with
  | trivialLease => exact fun e he => (exceeds_ne_exclusive (h e he)).2
  | leases count => exact fun e he => .inr (h e he)
  | exclusiveAll => exact h

theorem drop_asked (hq : s.queue[i]? = some e) :
    (asked s).drop i = e.leasesRequested :: (asked s).drop (i + 1) := by
  obtain ⟨hi, he⟩ := List.getElem?_eq_some_iff.1 (asked_getElem? hq)
  rw [← he]
  exact drop_eq_getElem_cons hi

theorem contains_trivial (hacc : Accounts s offset pending held) (hq : s.queue[i]? = some e)
    (hne : e.leasesRequested ≠ .trivialLease) (hahead : ∀ r ∈ (asked s).take i, r ≠ .trivialLease)
    (hhas : s.hasTrivialLeaseWaiters = true) : ((asked s).drop (i + 1)).contains .trivialLease = true := by
  have hcount := hacc.enqueuedTrivial
  have hmem : LeaseGrantCount.trivialLease ∈ asked s := by
    rw [← Multiset.mem_coe, coe_asked, ← Multiset.count_pos, ← hcount]
    simp only [hasTrivialLeaseWaiters, bne_iff_ne] at hhas
    omega
  rw [← take_append_drop i (asked s), drop_asked hq, mem_append, mem_cons] at hmem
  rcases hmem with hmem | hmem | hmem
  · exact absurd rfl (hahead _ hmem)
  · exact absurd hmem.symm hne
  · simpa using hmem

theorem passed_leases (hacc : Accounts s offset pending held)
    (hfit : e.leasesRequested.exceeds s.maxLeases = false)
    (hu : s.tryGrantOne e.leasesRequested i = (false, t)) (hx : e.leasesRequested ≠ .exclusiveAll)
    (hng : t.isExclusiveAllGranted = false) :
    ∃ count, e.leasesRequested = .leases count ∧ s.maxLeases < s.leasesGranted + count.1 ∧
      count.1 ≤ s.maxLeases := by
  obtain ⟨rfl, hb⟩ := tryGrantOne_false hacc hfit hu
  cases hr : e.leasesRequested with
  | trivialLease =>
    rw [hr, Blocked, hng] at hb
    exact absurd hb Bool.false_ne_true
  | exclusiveAll => exact absurd hr hx
  | leases count =>
    rw [hr] at hb hfit
    exact ⟨count, rfl, hb, not_exceeds_iff.1 hfit⟩

theorem Position.skip (h : Position i s) (hq : s.queue[i]? = some e)
    (hex : e.leasesRequested.exceeds s.maxLeases = true) : Position (i + 1) s := by
  have hdrop := drop_asked hq
  have htake := take_succ_asked hq
  cases h with
  | front hahead hord =>
    rw [hdrop, overtaking_cons_failed hex] at hord
    refine .front (fun r hr => ?_) hord
    rw [htake, mem_append, mem_singleton] at hr
    rcases hr with hr | rfl
    · exact hahead r hr
    · exact hex
  | behind hahead hlg hord =>
    rw [hdrop, smallerBehind_cons_failed hex] at hord
    refine .behind (fun r hr => ?_) hlg hord
    rw [htake, mem_append, mem_singleton] at hr
    rcases hr with hr | rfl
    · exact hahead r hr
    · exact exceeds_ne_exclusive hex

variable {count : { n : Nat // 0 < n }}

theorem Position.pass (h : Position i s)
    (hacc : Accounts s offset pending held) (hq : s.queue[i]? = some e)
    (hr : e.leasesRequested = .leases count) (hb : s.maxLeases < s.leasesGranted + count.1)
    (hc : count.1 ≤ s.maxLeases) (htw : s.hasTrivialLeaseWaiters = true) : Position (i + 1) s := by
  have hdrop := drop_asked hq
  have htake := take_succ_asked hq
  rw [hr] at hdrop htake
  have hnt : ∀ r ∈ (asked s).take i, r ≠ .trivialLease ∧ r ≠ .exclusiveAll := by
    cases h with
    | front hahead _ => exact fun r hr => exceeds_ne_exclusive (hahead r hr)
    | behind hahead _ _ => exact hahead
  have hcontains := contains_trivial hacc hq (by simp [hr]) (fun r hr => (hnt r hr).1) htw
  have hord' : smallerBehind s.maxLeases s.leasesGranted ((asked s).drop (i + 1)) = false := by
    cases h with
    | front _ hord =>
      rw [hdrop, overtaking, if_neg (not_lt.2 hc), if_neg (not_le.2 hb), hcontains,
        Bool.true_and] at hord
      exact hord
    | behind _ _ hord =>
      rw [hdrop, smallerBehind, if_neg (not_lt.2 hc), hcontains, Bool.true_and,
        Bool.or_eq_false_iff] at hord
      exact hord.2
  refine .behind (fun r hmem => ?_) (by omega) hord'
  rw [htake, mem_append, mem_singleton] at hmem
  rcases hmem with hmem | rfl
  · exact hnt r hmem
  · simp

theorem Position.grant {u v : State} (h : Position i s) (hq : s.queue[i]? = some e)
    (hfit : e.leasesRequested.exceeds s.maxLeases = false) (htakes : Takes s u e.leasesRequested)
    (hasked : asked v = (asked s).eraseIdx i) (hmax : v.maxLeases = s.maxLeases)
    (hlg' : v.leasesGranted = u.leasesGranted) :
    Position i v ∧ InOrder ⟨e.leasesRequested, s.queue.take i, s.maxLeases⟩ := by
  have hdrop := drop_asked hq
  have hc := not_exceeds_iff.1 hfit
  have htake : (asked v).take i = (asked s).take i := by
    rw [hasked]
    exact take_eraseIdx_eq_take_of_le _ _ _ (le_refl i)
  have hdrop' : (asked v).drop i = (asked s).drop (i + 1) := by
    have hi := getElem?_bound (asked_getElem? hq)
    rw [hasked, eraseIdx_eq_take_drop_succ, drop_append_of_le_length]
    · simp
    · rw [length_take]
      omega
  cases h with
  | front hahead hord =>
    refine ⟨.front ?_ ?_, inOrder_of_failed fun x hx => hahead _ (mem_take_asked hx)⟩
    · rw [htake, hmax]
      exact hahead
    · rw [hdrop', hmax, hlg']
      rw [hdrop] at hord
      cases hr : e.leasesRequested with
      | trivialLease =>
        rw [hr] at hord htakes
        rw [htakes.1]
        exact hord
      | leases count =>
        rw [hr] at hord htakes hc
        have hcount : ¬ s.maxLeases < count.1 := not_lt.2 hc
        rw [overtaking, if_neg hcount, if_pos htakes.2] at hord
        rw [htakes.1]
        exact hord
      | exclusiveAll =>
        rw [hr] at htakes
        exact overtaking_of_full (by rw [htakes.1]; omega)
  | behind hahead hlg hord =>
    rw [hdrop] at hord
    cases hr : e.leasesRequested with
    | trivialLease =>
      rw [hr] at hord htakes
      refine ⟨.behind ?_ ?_ ?_, fun x hx => (hahead _ (mem_take_asked hx)).2⟩
      · rw [htake]
        exact hahead
      · rw [hlg', htakes.1]
        exact hlg
      · rw [hdrop', hmax, hlg', htakes.1]
        exact hord
    | leases count =>
      rw [hr] at hord htakes hc
      have hcount : ¬ s.maxLeases < count.1 := not_lt.2 hc
      rw [smallerBehind, if_neg hcount] at hord
      simp [htakes.2] at hord
    | exclusiveAll =>
      rw [hr] at htakes
      exact absurd htakes.2 hlg

variable {s₀ : State}

theorem position_wakeTurn (h : Granting pending total s₀ s) (hpos : Position i s)
    (horder : AllInOrder s) (ht : wakeTurn i s = .next j t) : Position j t ∧ AllInOrder t := by
  obtain ⟨held, hacc, _⟩ := h.accounts
  rcases wakeTurn_cases i s with ⟨_, h'⟩ | ⟨e, hq, ⟨hex, h'⟩ | ⟨hfit, ⟨u, hu, h'⟩ | ⟨u, hu, ⟨hx, hng, htw, h'⟩ | ⟨_, h'⟩⟩⟩⟩
  · rw [h'] at ht
    cases ht
  · rw [h'] at ht
    cases ht
    exact ⟨hpos.skip hq hex, horder⟩
  · rw [h'] at ht
    cases ht
    obtain ⟨hasked, hmax, hlg', hissued, _⟩ := grantEntry_frame hu
    obtain ⟨hpos', hnew⟩ := hpos.grant hq hfit (takes_tryGrantOne hacc hfit hu) hasked hmax hlg'
    refine ⟨hpos', ?_⟩
    intro grant hmem
    rw [hissued] at hmem
    exact allInOrder_tryGrantOne horder hu hnew grant hmem
  · rw [h'] at ht
    cases ht
    obtain ⟨count, hr, hb, hc⟩ := passed_leases hacc hfit hu hx hng
    obtain ⟨rfl, _⟩ := tryGrantOne_false hacc hfit hu
    exact ⟨hpos.pass hacc hq hr hb hc htw, horder⟩
  · rw [h'] at ht
    cases ht

theorem allInOrder_wakeCompletedWaiters (hcard : total.card ≤ maxReferences)
    (h : Granting pending total s₀ s) (horder : AllInOrder s)
    (hno : overtaking s.maxLeases s.leasesGranted (asked s) = false) :
    AllInOrder s.wakeCompletedWaiters := by
  refine wakeCompletedWaiters_induct
    (P := fun i s => Granting pending total s₀ s ∧ Position i s ∧ AllInOrder s)
    (fun i s j t hP ht => ⟨granting_wakeTurn hcard hP.1 ht, position_wakeTurn hP.1 hP.2.1 hP.2.2 ht⟩)
    (fun i s t hP ht => ?_) ⟨h, .front (by simp) hno, horder⟩
  rw [granting_stop hP.1 ht]
  exact hP.2.2

theorem tryGrantOne_of_blocked (hacc : Accounts s offset pending held)
    (hfit : (LeaseGrantCount.leases count).exceeds s.maxLeases = false)
    (hb : Blocked s (.leases count)) : s.tryGrantOne (.leases count) p = (false, s) := by
  rcases ht : s.tryGrantOne (.leases count) p with ⟨b, t⟩
  cases b with
  | false => rw [(tryGrantOne_false hacc hfit ht).1]
  | true =>
    have htakes := takes_tryGrantOne hacc hfit ht
    simp only [Takes, Blocked] at htakes hb
    omega

/-- Over what it has walked past the loop goes the same way again, changing
nothing. -/
theorem wakeLoop_of_walked (hacc : Accounts s offset pending held) (hw : Walked i s)
    (hstop : wakeTurn i s = .stop s) (n j : Nat) (hj : j ≤ i) : wakeLoop n j s = s := by
  induction n generalizing j with
  | zero => rfl
  | succ n ih =>
    rw [wakeLoop]
    by_cases hij : j = i
    · rw [hij, hstop]
    have hlt : j < i := Nat.lt_of_le_of_ne hj hij
    rcases wakeTurn_cases j s with ⟨_, h'⟩ | ⟨e, hq, ⟨_, h'⟩ | ⟨hfit, hcase⟩⟩
    · rw [h']
    · rw [h']
      exact ih (j + 1) hlt
    · have hmem : e.leasesRequested ∈ (asked s).take i := by
        have hget : ((asked s).take i)[j]? = some e.leasesRequested := by
          rw [getElem?_take_of_lt hlt]
          exact asked_getElem? hq
        exact mem_of_getElem? hget
      obtain ⟨count, hr, hb⟩ := (hw _ hmem).resolve_left (by rw [hfit]; exact Bool.false_ne_true)
      have hgrant : s.tryGrantOne e.leasesRequested j = (false, s) := by
        rw [hr] at hfit hb ⊢
        exact tryGrantOne_of_blocked hacc hfit hb
      rcases hcase with ⟨t, ht, _⟩ | ⟨t, ht, hcase⟩
      · rw [hgrant] at ht
        simp at ht
      · obtain rfl : s = t := by
          rw [hgrant] at ht
          simpa using ht
        rcases hcase with ⟨_, _, _, h'⟩ | ⟨_, h'⟩
        · rw [h']
          exact ih (j + 1) hlt
        · rw [h']

theorem wakeCompletedWaiters_idem (hcard : total.card ≤ maxReferences)
    (h : Granting pending total s₀ s) :
    s.wakeCompletedWaiters.wakeCompletedWaiters = s.wakeCompletedWaiters := by
  refine wakeCompletedWaiters_induct (P := fun i s => Granting pending total s₀ s ∧ Walked i s)
    (Q := fun t => t.wakeCompletedWaiters = t)
    (fun i s j t hP ht => ⟨granting_wakeTurn hcard hP.1 ht, walked_wakeTurn hP.1 hP.2 ht⟩)
    (fun i s t hP ht => ?_) ⟨h, by simp [Walked]⟩
  obtain rfl := granting_stop hP.1 ht
  obtain ⟨held, hacc, _⟩ := hP.1.accounts
  exact wakeLoop_of_walked hacc hP.2 ht _ 0 (Nat.zero_le i)

theorem AllInOrder.congr (h : AllInOrder s) (hissued : t.issued = s.issued) : AllInOrder t := by
  intro grant hmem
  rw [hissued] at hmem
  exact h grant hmem

theorem issued_acquireExclusiveAllEnd (s : State) : s.acquireExclusiveAllEnd.issued = s.issued := by
  unfold State.acquireExclusiveAllEnd
  split <;> rfl

theorem issued_acquireExclusiveAllBegin (s : State) : s.acquireExclusiveAllBegin.issued = s.issued := by
  unfold State.acquireExclusiveAllBegin
  split <;> rfl

theorem failed_of_no_uncancelled (h : s.hasUncancelledWaiters = false) :
    ∀ e ∈ s.queue.take s.queue.length, e.leasesRequested.exceeds s.maxLeases = true := by
  intro e he
  rw [take_length] at he
  simpa using any_eq_false.1 h e he

theorem allInOrder_tryAcquireLeasesLocked (h : AllInOrder s) (hacc : Accounts s offset pending held)
    (ht : s.tryAcquireLeasesLocked n = .ok (true, t)) : AllInOrder t := by
  obtain ⟨hfit, ⟨htry, hwait⟩ | ⟨hb, _⟩⟩ := tryAcquireLeasesLocked_cases ht
  · refine allInOrder_tryGrantOne h htry ?_
    by_cases hn : n = 0
    · subst hn
      intro e he hx
      have hpos := exclusive_asked_pos hacc (hx ▸ mem_map_of_mem (mem_of_mem_take he))
      simp [hasExclusiveAllWaiters, hpos] at hwait
    · rw [if_neg hn] at hwait
      exact inOrder_of_failed (failed_of_no_uncancelled hwait)
  · cases hb

theorem allInOrder_tryAcquireExclusiveAllLocked (h : AllInOrder s)
    (ht : s.tryAcquireExclusiveAllLocked = (true, t)) : AllInOrder t := by
  rcases tryAcquireExclusiveAllLocked_cases ht with ⟨htry, hwait⟩ | ⟨hb, _⟩
  · exact allInOrder_tryGrantOne h htry (inOrder_of_failed (failed_of_no_uncancelled hwait))
  · cases hb

theorem issued_enqueueReady (s : State) (r : LeaseGrantCount) : (s.enqueueReady r).issued = s.issued := by
  cases r <;> rfl

theorem issued_enqueueFailed (s : State) (r : LeaseGrantCount) : (s.enqueueFailed r).issued = s.issued := by
  cases r with
  | trivialLease => rfl
  | leases count => rfl
  | exclusiveAll => exact issued_acquireExclusiveAllEnd _

theorem issued_enqueueWaiter (s : State) (r : LeaseGrantCount) :
    (s.enqueueWaiter r).2.issued = s.issued := by
  unfold enqueueWaiter
  cases s.tryReserve with
  | ready => exact issued_enqueueReady s r
  | reallocate capacity => rfl
  | failed => exact issued_enqueueFailed s r

theorem issued_finishEnqueue (s : State) (r : LeaseGrantCount) (capacity : Nat) (allocated : Option Nat) :
    (s.finishEnqueue r capacity allocated).2.issued = s.issued := by
  rcases ht : s.tryReserveEnd capacity allocated with ⟨b, t⟩
  have hissued : t.issued = s.issued := by
    cases allocated with
    | none =>
      simp only [tryReserveEnd, Prod.mk.injEq] at ht
      rw [← ht.2]
    | some c =>
      simp only [tryReserveEnd] at ht
      split at ht <;> simp only [Prod.mk.injEq] at ht <;> rw [← ht.2]
  unfold State.finishEnqueue
  rw [ht]
  cases b with
  | true => exact (issued_enqueueReady t r).trans hissued
  | false => exact (issued_enqueueFailed t r).trans hissued

theorem allInOrder_onSemaphore (h : AllInOrder s) (hstands : Stands s held [] rest)
    (hp : System.onSemaphore s a = some (t, after)) : AllInOrder t := by
  have hacc : Accounts s (offsetOf s) (pendingExclusives rest) held := hstands.accounts
  have hbegin := hacc.acquireExclusiveAllBegin
  cases a with
  | acquireLeases n =>
    simp only [System.onSemaphore, prepareAcquireLeases] at hp
    rcases ht : s.tryAcquireLeasesLocked n with error | ⟨b, u⟩
    · simp only [ht, Option.some.injEq, Prod.mk.injEq] at hp
      exact hp.1 ▸ h
    · cases b with
      | true =>
        simp only [ht, Option.some.injEq, Prod.mk.injEq] at hp
        exact hp.1 ▸ allInOrder_tryAcquireLeasesLocked h hacc ht
      | false =>
        simp only [ht, Option.some.injEq, Prod.mk.injEq] at hp
        obtain rfl := tryAcquireLeasesLocked_false hacc ht
        exact hp.1 ▸ h.congr (issued_enqueueWaiter _ _)
  | acquireExclusiveAll =>
    simp only [System.onSemaphore, prepareAcquireExclusiveAll] at hp
    have hb := h.congr (issued_acquireExclusiveAllBegin s)
    rcases ht : s.acquireExclusiveAllBegin.tryAcquireExclusiveAllLocked with ⟨b, u⟩
    cases b with
    | true =>
      simp only [ht, Option.some.injEq, Prod.mk.injEq] at hp
      have hu := allInOrder_tryAcquireExclusiveAllLocked hb ht
      exact hp.1 ▸ hu.congr (issued_acquireExclusiveAllEnd u)
    | false =>
      simp only [ht, Option.some.injEq, Prod.mk.injEq] at hp
      obtain rfl := tryAcquireExclusiveAllLocked_false hbegin ht
      exact hp.1 ▸ hb.congr (issued_enqueueWaiter _ _)
  | tryAcquireLeases n =>
    rcases ht : s.tryAcquireLeasesLocked n with error | ⟨b, u⟩
    · simp only [System.onSemaphore, ht, Option.some.injEq, Prod.mk.injEq] at hp
      exact hp.1 ▸ h
    · simp only [System.onSemaphore, ht, Option.some.injEq, Prod.mk.injEq] at hp
      obtain ⟨rfl, _⟩ := hp
      cases b with
      | true => exact allInOrder_tryAcquireLeasesLocked h hacc ht
      | false =>
        obtain rfl := tryAcquireLeasesLocked_false hacc ht
        exact h
  | tryAcquireExclusiveAll =>
    simp only [System.onSemaphore, tryAcquireExclusiveAll] at hp
    have hb := h.congr (issued_acquireExclusiveAllBegin s)
    rcases ht : s.acquireExclusiveAllBegin.tryAcquireExclusiveAllLocked with ⟨b, u⟩
    simp only [ht, Option.some.injEq, Prod.mk.injEq] at hp
    obtain ⟨rfl, _⟩ := hp
    refine AllInOrder.congr ?_ (issued_acquireExclusiveAllEnd u)
    cases b with
    | true => exact allInOrder_tryAcquireExclusiveAllLocked hb ht
    | false =>
      obtain rfl := tryAcquireExclusiveAllLocked_false hbegin ht
      exact hb
  | _ => simp [System.onSemaphore] at hp

/-- The capacity, the leases granted and the queued requests with which a step
enters the loop: the ones it begins with, the returned grant or the cancelled
request taken off. -/
def wakingReturn (s : State) : LeaseGrantCount → Option (Nat × Nat × List LeaseGrantCount)
  | .trivialLease =>
    if s.trivialLeasesGranted = 1 ∧ s.leasesGranted = 0 then some (s.maxLeases, 0, asked s) else none
  | .leases count => some (s.maxLeases, s.leasesGranted - count.1, asked s)
  | .exclusiveAll => some (s.maxLeases, 0, asked s)

def wakingCancel (s : State) (index : Nat) : LeaseGrantCount → Option (Nat × Nat × List LeaseGrantCount)
  | .trivialLease => none
  | .leases count =>
    if 1 < count.1 then some (s.maxLeases, s.leasesGranted, (asked s).eraseIdx index) else none
  | .exclusiveAll => some (s.maxLeases, s.leasesGranted, (asked s).eraseIdx index)

def wakingLeak (s : State) (count : Nat) : Option (Nat × Nat × List LeaseGrantCount) :=
  if s.hasExclusiveAllWaiters || (asked s).any fun r => r.exceeds (s.maxLeases - count) then
    some (s.maxLeases - count, s.leasesGranted - count, asked s)
  else none

def waking (s : State) (owner : Owner) : Action → Option (Nat × Nat × List LeaseGrantCount)
  | .drop _ =>
    match owner with
    | .enqueued waiterId leasesRequested =>
      match s.waiterPosition waiterId with
      | some index => wakingCancel s index leasesRequested
      | none => wakingReturn s leasesRequested
    | .granted leasesGranted => wakingReturn s leasesGranted
    | .guard .trivialLease => none
    | .guard leasesGranted => wakingReturn s leasesGranted
    | _ => none
  | .continueReturn _ =>
    if owner = .returning .wake then some (s.maxLeases, s.leasesGranted, asked s) else none
  | .leak _ =>
    match owner with
    | .guard (.leases count) => wakingLeak s count
    | _ => none
  | _ => none

/-- The step's loop, if it has one, would not overtake. -/
def Orderly (view : Option (Nat × Nat × List LeaseGrantCount)) : Prop :=
  ∀ v, view = some v → overtaking v.1 v.2.1 v.2.2 = false

def KeepsOrder (sys : System) (a : Action) : Prop :=
  ∀ i o, System.target a = some i → sys.owners[i]? = some o → Orderly (waking sys.sem o a)

theorem allInOrder_returnGrant (h : AllInOrder s) (hacc : Accounts s (offsetOf s) pending (r ::ₘ held))
    (hcard : (held + requests s.queue).card ≤ maxReferences) (hview : Orderly (wakingReturn s r)) :
    AllInOrder (s.returnGrant r) := by
  cases r with
  | trivialLease =>
    have hg := granting_decTrivialLeasesGranted hacc
    have hissued : s.decTrivialLeasesGranted.issued = s.issued := rfl
    cases hb : (s.trivialLeasesGranted == 1 && s.leasesGranted == 0) with
    | true =>
      have hz : s.trivialLeasesGranted = 1 ∧ s.leasesGranted = 0 := by simpa using hb
      have hno := hview (s.maxLeases, 0, asked s) (if_pos hz)
      rw [returnGrant, returnTrivialLeaseGrant, hb]
      refine allInOrder_wakeCompletedWaiters hcard hg (h.congr hissued) ?_
      rw [← hz.2] at hno
      exact hno
    | false =>
      rw [returnGrant, returnTrivialLeaseGrant, hb]
      exact h.congr hissued
  | leases count =>
    obtain ⟨hreturn, hg⟩ := returnGrant_leases hacc
    rw [hreturn]
    exact allInOrder_wakeCompletedWaiters hcard hg h (hview _ rfl)
  | exclusiveAll =>
    have hg : Granting pending (held + requests s.queue) s { s with leasesGranted := 0 } :=
      granting_of_accounts (Accounts.leaveExclusive hacc) rfl rfl rfl
    exact allInOrder_wakeCompletedWaiters hcard hg h (hview _ rfl)

theorem allInOrder_cancelWaiter (h : AllInOrder s) (hstands : Stands s held [.enqueued w r] rest)
    (hview : Orderly (waking s (.enqueued w r) (.drop n))) : AllInOrder (s.cancelWaiter w r) := by
  cases hpos : s.waiterPosition w with
  | none =>
    have hany : (s.queue.any fun entry => entry.waiterId == w) = false := by
      rw [← Bool.not_eq_true, any_waiterId_iff]
      exact waiterPosition_none hpos
    obtain ⟨held', rfl⟩ := hstands.held_cons (r := r) (by simp [grantOf, hany])
    simp only [waking, hpos] at hview
    rw [State.cancelWaiter, hpos]
    exact allInOrder_returnGrant h (hstands.accounts_rest rfl) (hstands.card_cons rfl) hview
  | some i =>
    obtain ⟨e, hq, hid, hr⟩ := hstands.entry_eq hpos
    have hacc := hstands.accounts_rest rfl
    obtain ⟨hle, hlt⟩ := card_eraseIdx hq hstands.card_queue
    obtain ⟨hlg, _, hissued, hasked⟩ := removeEntry_frame s i
    have hmax := maxLeases_removeEntry s i
    simp only [waking, hpos] at hview
    rw [State.cancelWaiter, hpos]
    cases r with
    | trivialLease => exact h.congr hissued
    | leases count =>
      dsimp only
      split
      · rename_i hlt
        have hno := hview _ (if_pos hlt)
        refine allInOrder_wakeCompletedWaiters hle (Accounts.dropEntry hacc hq (by simp [hr]))
          (h.congr hissued) ?_
        rw [hmax, hlg, hasked]
        exact hno
      · exact h.congr hissued
    | exclusiveAll =>
      have hsame := sameQueue_acquireExclusiveAllEnd (s.removeEntry i)
      have hlg' : (s.removeEntry i).acquireExclusiveAllEnd.leasesGranted = s.leasesGranted := by
        rw [← hlg]
        unfold State.acquireExclusiveAllEnd
        split <;> rfl
      refine allInOrder_wakeCompletedWaiters hle (Accounts.dropExclusiveEntry hacc hq hr hlt)
        (h.congr ((issued_acquireExclusiveAllEnd _).trans hissued)) ?_
      rw [hsame.maxLeases, hmax, hlg', asked_sameQueue hsame, hasked]
      exact hview _ rfl

theorem allInOrder_wakeFailedWaiters (h : AllInOrder s) (hacc : Accounts s (offsetOf s) pending held)
    (hcard : (held + requests s.queue).card ≤ maxReferences)
    (hno : (¬ ∀ r ∈ asked s, r.exceeds s.maxLeases = false) →
      overtaking s.maxLeases s.leasesGranted (asked s) = false) : AllInOrder s.wakeFailedWaiters := by
  by_cases hfit : ∀ r ∈ asked s, r.exceeds s.maxLeases = false
  · rw [wakeFailedWaiters_of_fit hfit]
    exact h
  · rw [wakeFailedWaiters_of_not_fit hfit]
    refine allInOrder_wakeCompletedWaiters hcard (granting_failedWoken hacc) h ?_
    rw [asked_congr (keys_failEntry s.maxLeases s.queue)]
    exact hno hfit

theorem allInOrder_leakLeases (h : AllInOrder s)
    (hacc : Accounts s (offsetOf s) pending (.leases count ::ₘ held))
    (hcard : (held + requests s.queue).card ≤ maxReferences) (hview : Orderly (wakingLeak s count.1)) :
    AllInOrder (s.leakLeases count) := by
  obtain ⟨hst, hret⟩ := leaked_eq hacc
  have hg := granting_failedWoken hret
  have hasked : asked (failedWoken (leaked s count)) = asked s :=
    asked_congr (keys_failEntry _ s.queue)
  have hloop : (s.hasExclusiveAllWaiters || (asked s).any fun r => r.exceeds (s.maxLeases - count.1)) = true →
      AllInOrder (failedWoken (leaked s count)).wakeCompletedWaiters := by
    intro hwake
    refine allInOrder_wakeCompletedWaiters hcard hg h ?_
    rw [hasked]
    exact hview _ (if_pos hwake)
  rw [leakLeases, hst]
  by_cases hfit : ∀ r ∈ asked s, r.exceeds (leaked s count).maxLeases = false
  · rw [wakeFailedWaiters_of_fit hfit]
    split
    · rename_i hx
      apply hloop
      rw [show s.hasExclusiveAllWaiters = true from hx, Bool.true_or]
    · exact h
  · rw [wakeFailedWaiters_of_not_fit hfit, wakeCompletedWaiters_idem hcard hg, ite_self]
    apply hloop
    rw [Bool.or_eq_true]
    refine .inr (List.any_eq_true.2 ?_)
    simpa [leaked] using hfit

theorem allInOrder_resizeFuture {m : Nat} (h : AllInOrder s) (hm : m < 2 ^ 63)
    (hacc : Accounts s (offsetOf s) pending (.exclusiveAll ::ₘ held))
    (hcard : (.exclusiveAll ::ₘ held + requests s.queue).card ≤ maxReferences) :
    AllInOrder (s.resizeFuture m) := by
  have hacc' := accounts_resized hm hacc
  have hr : AllInOrder (resized s m) := h
  rw [State.resizeFuture, ← resized]
  split
  · exact allInOrder_wakeFailedWaiters hr hacc' hcard fun _ => overtaking_of_full (Nat.le_succ m)
  · exact hr

theorem allInOrder_downgrade (h : AllInOrder s)
    (hacc : Accounts s (offsetOf s) pending (.exclusiveAll ::ₘ held))
    (hcard : (.ofUsize s.maxLeases ::ₘ held + requests s.queue).card ≤ maxReferences) :
    AllInOrder s.downgrade := by
  have hsame := sameQueue_downgraded s
  have hg := granting_of_accounts (s := s) (accounts_downgraded hacc) (by rw [hsame.queue]) hsame.maxLeases
    hsame.lastWaiterId
  rw [hsame.queue] at hg
  have hframe : (downgraded s).issued = s.issued ∧ (downgraded s).leasesGranted = s.maxLeases := by
    unfold downgraded
    split <;> exact ⟨rfl, rfl⟩
  rw [State.downgrade, ← downgraded]
  split
  · refine allInOrder_wakeCompletedWaiters hcard hg (h.congr hframe.1) (overtaking_of_full ?_)
    rw [hframe.2, hsame.maxLeases]
  · exact h.congr hframe.1

theorem issued_pollFuture (s : State) (w waker : Nat) (r : LeaseGrantCount) :
    (s.pollFuture w r waker).2.issued = s.issued := by
  unfold pollFuture
  cases s.waiterPosition w with
  | none => rfl
  | some i =>
    dsimp only
    split
    · exact (removeEntry_frame _ i).2.2.1
    · rfl

theorem allInOrder_onOwner (h : AllInOrder s) (hstands : Stands s held [o] rest)
    (hcap : ∀ i m, a = .resizeFuture i m → m < 2 ^ 63) (hview : Orderly (waking s o a))
    (hp : System.onOwner s o a = some (t, after)) : AllInOrder t := by
  cases a with
  | finishEnqueue i allocated =>
    cases o with
    | enqueueing r capacity =>
      have hissued := issued_finishEnqueue s r capacity allocated
      simp only [System.onOwner] at hp
      split at hp
      · rcases hf : s.finishEnqueue r capacity allocated with ⟨_ | w, u⟩ <;>
        · simp only [hf, Option.some.injEq, Prod.mk.injEq] at hp
          rw [hf] at hissued
          exact hp.1 ▸ h.congr hissued
      · simp at hp
    | _ => simp [System.onOwner] at hp
  | poll i waker =>
    cases o with
    | enqueued w r =>
      have hissued := issued_pollFuture s w waker r
      rcases hpoll : s.pollFuture w r waker with ⟨_ | _ | _, u⟩ <;>
      · simp only [System.onOwner, System.pollOwner, hpoll, Option.some.injEq, Prod.mk.injEq] at hp
        rw [hpoll] at hissued
        exact hp.1 ▸ h.congr hissued
    | granted r =>
      simp only [System.onOwner, System.pollOwner, Option.some.injEq, Prod.mk.injEq] at hp
      exact hp.1 ▸ h
    | _ => simp [System.onOwner, System.pollOwner] at hp
  | drop i =>
    cases o with
    | enqueueing r c => simp [System.onOwner, System.dropOwner] at hp
    | returning at_ => simp [System.onOwner, System.dropOwner] at hp
    | enqueued w r =>
      simp only [System.onOwner, System.dropOwner, Option.some.injEq, Prod.mk.injEq] at hp
      exact hp.1 ▸ allInOrder_cancelWaiter h hstands hview
    | granted r =>
      simp only [System.onOwner, System.dropOwner, Option.some.injEq, Prod.mk.injEq] at hp
      obtain ⟨held', rfl⟩ := hstands.held_cons (r := r) rfl
      exact hp.1 ▸ allInOrder_returnGrant h (hstands.accounts_rest rfl) (hstands.card_cons rfl) hview
    | guard r =>
      obtain ⟨held', rfl⟩ := hstands.held_cons (r := r) rfl
      have hacc := hstands.accounts_rest rfl
      cases r with
      | trivialLease =>
        simp only [System.onOwner, System.dropOwner, System.dropTrivialGuard, Option.some.injEq,
          Prod.mk.injEq] at hp
        exact hp.1 ▸ h
      | _ =>
        simp only [System.onOwner, System.dropOwner, Option.some.injEq, Prod.mk.injEq] at hp
        exact hp.1 ▸ allInOrder_returnGrant h hacc (hstands.card_cons rfl) hview
  | continueReturn i =>
    cases o with
    | returning at_ =>
      cases at_ with
      | wake =>
        simp only [System.onOwner, System.continueReturn, Option.some.injEq, Prod.mk.injEq] at hp
        exact hp.1 ▸ allInOrder_wakeCompletedWaiters hstands.card_queue (hstands.granting rfl) h
          (hview _ rfl)
      | _ =>
        simp only [System.onOwner, System.continueReturn, Option.some.injEq, Prod.mk.injEq] at hp
        exact hp.1 ▸ h
    | _ => simp [System.onOwner] at hp
  | splitLeases i leases =>
    cases o with
    | guard r =>
      cases r with
      | exclusiveAll => simp [System.onOwner, System.splitLeases] at hp
      | _ =>
        simp only [System.onOwner, System.splitLeases] at hp
        split at hp
        · simp only [Option.some.injEq, Prod.mk.injEq] at hp
          exact hp.1 ▸ h
        · obtain ⟨rfl, _⟩ := hp
          split <;> exact h
    | _ => simp [System.onOwner, System.splitLeases] at hp
  | spawnTrivialLease i =>
    cases o with
    | guard r =>
      cases r with
      | exclusiveAll => simp [System.onOwner] at hp
      | _ =>
        simp only [System.onOwner, Option.some.injEq, Prod.mk.injEq] at hp
        exact hp.1 ▸ h
    | _ => simp [System.onOwner] at hp
  | leak i =>
    cases o with
    | guard r =>
      cases r with
      | exclusiveAll => simp [System.onOwner, System.leak] at hp
      | trivialLease =>
        simp only [System.onOwner, System.leak, System.dropTrivialGuard, Option.some.injEq,
          Prod.mk.injEq] at hp
        exact hp.1 ▸ h
      | leases count =>
        simp only [System.onOwner, System.leak, Option.some.injEq, Prod.mk.injEq] at hp
        obtain ⟨held', rfl⟩ := hstands.held_cons (r := .leases count) rfl
        exact hp.1 ▸ allInOrder_leakLeases h (hstands.accounts_rest rfl) (hstands.card_cons rfl) hview
    | _ => simp [System.onOwner, System.leak] at hp
  | resizeFuture i m =>
    cases o with
    | guard r =>
      cases r with
      | exclusiveAll =>
        simp only [System.onOwner] at hp
        split at hp
        · simp only [Option.some.injEq, Prod.mk.injEq] at hp
          obtain ⟨held', rfl⟩ := hstands.held_cons (r := .exclusiveAll) rfl
          exact hp.1 ▸ allInOrder_resizeFuture h (hcap i m rfl) (hstands.accounts_rest rfl)
            hstands.card_queue
        · simp at hp
      | _ => simp [System.onOwner] at hp
    | _ => simp [System.onOwner] at hp
  | downgrade i =>
    cases o with
    | guard r =>
      cases r with
      | exclusiveAll =>
        simp only [System.onOwner, Option.some.injEq, Prod.mk.injEq] at hp
        obtain ⟨held', rfl⟩ := hstands.held_cons (r := .exclusiveAll) rfl
        have hcard := hstands.card_queue
        rw [Multiset.cons_add, Multiset.card_cons, ← Multiset.card_cons (.ofUsize s.maxLeases),
          ← Multiset.cons_add] at hcard
        exact hp.1 ▸ allInOrder_downgrade h (hstands.accounts_rest rfl) hcard
      | _ => simp [System.onOwner] at hp
    | _ => simp [System.onOwner] at hp
  | _ => simp [System.onOwner] at hp

theorem allInOrder_step {sys sys' : System} (hinv : Inv sys) (h : AllInOrder sys.sem)
    (hsmall : SmallCapacity sys a) (hkeeps : KeepsOrder sys a) (hst : sys.step a = some sys') :
    AllInOrder sys'.sem := by
  obtain ⟨_, ⟨new, hon, _⟩ | ⟨i, o, new, htarget, ho, hon, _⟩⟩ := step_cases hst
  · exact allInOrder_onSemaphore h (stands_of_inv hinv (.refl _)) hon
  · have hview := hkeeps i o htarget ho
    obtain ⟨hi, rfl⟩ := List.getElem?_eq_some_iff.1 ho
    have hbefore : sys.owners.Perm ([sys.owners[i]] ++ sys.owners.eraseIdx i) :=
      (getElem_cons_eraseIdx_perm hi).symm
    exact allInOrder_onOwner h (stands_of_inv hinv hbefore) hsmall hview hon

theorem first_come_first_served (m : Nat) (hm : m < 2 ^ 63) (sys : System)
    (h : Reached System.step (fun sys a => SmallCapacity sys a ∧ KeepsOrder sys a) (System.new m) sys) :
    ∀ grant ∈ sys.sem.issued, InOrder grant := by
  have hall : Inv sys ∧ AllInOrder sys.sem :=
    h.invariant (P := fun sys => Inv sys ∧ AllInOrder sys.sem)
      ⟨inv_new hm, by simp [AllInOrder, System.new, State.new]⟩ fun s a t hs hallowed hst =>
      ⟨inv_step hs.1 hallowed.1 hst, allInOrder_step hs.1 hs.2 hallowed.1 hallowed.2 hst⟩
  exact hall.2

/-- The requests for two leases and for one stand behind the exclusive grant. -/
theorem served_in_order : ∃ sys, Reached System.step
      (fun sys a => SmallCapacity sys a ∧ KeepsOrder sys a) (System.new 3) sys ∧
    sys.sem.issued.length = 3 ∧ ∀ grant ∈ sys.sem.issued, InOrder grant := by
  have h₁ : Reached System.step (fun sys a => SmallCapacity sys a ∧ KeepsOrder sys a) (System.new 3) _ :=
    .next .tryAcquireExclusiveAll .start ⟨by simp [SmallCapacity], by simp [KeepsOrder, System.target]⟩ rfl
  have h₂ := h₁.next (.acquireLeases 2) ⟨by simp [SmallCapacity], by simp [KeepsOrder, System.target]⟩ rfl
  have h₃ := h₂.next (.finishEnqueue 1 (some 4)) ⟨by simp [SmallCapacity], by
    intro i o _ _ v hv
    cases hv⟩ rfl
  have h₄ := h₃.next (.acquireLeases 1) ⟨by simp [SmallCapacity], by simp [KeepsOrder, System.target]⟩ rfl
  have h₅ := h₄.next (.drop 0) ⟨by simp [SmallCapacity], by
    intro i o hi ho v hv
    cases hi
    cases ho
    cases hv
    decide⟩ rfl
  exact ⟨_, h₅, rfl, first_come_first_served 3 (by decide) _ h₅⟩

/-- With a trivial request queued behind it, the one for three leases is
overtaken by the one for a single lease. -/
theorem overtaken_behind_trivial : ∃ sys, execute System.step (System.new 3)
    [.tryAcquireExclusiveAll, .acquireLeases 2, .finishEnqueue 1 (some 4), .acquireLeases 3,
      .acquireLeases 0, .acquireLeases 1, .drop 0] = some sys ∧
    ¬ ∀ grant ∈ sys.sem.issued, InOrder grant := by
  refine ⟨_, rfl, ?_⟩
  intro h
  have hlast := h ⟨.leases ⟨1, by decide⟩, [⟨.leases ⟨3, by decide⟩, none, 2⟩], 3⟩ (by decide)
    ⟨.leases ⟨3, by decide⟩, none, 2⟩ (by decide)
  revert hlast
  decide

end CocoonFs.SemaphoreOrder
