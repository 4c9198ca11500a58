import CocoonFs.SemaphoreGrants
import Mathlib.Data.List.TakeWhile

namespace CocoonFs.SemaphoreWaiters

open Semaphore Semaphore.State SemaphoreLoop SemaphoreAccounts SemaphoreOps SemaphoreGrants List
open State (isExclusiveAllGranted removeEntry)

variable {s t : State} {i j p w n offset pending : Nat} {e : QueueEntry} {r : LeaseGrantCount}
  {held total : Multiset LeaseGrantCount} {returning : Prop}

def asked (s : State) : List LeaseGrantCount := s.queue.map QueueEntry.leasesRequested

theorem coe_asked (s : State) : (asked s : Multiset LeaseGrantCount) = requests s.queue := rfl

def firstFitting (s : State) : Option LeaseGrantCount :=
  (asked s).find? fun r => !r.exceeds s.maxLeases

def TrivialsBehind (l : List LeaseGrantCount) : Prop :=
  ∀ r ∈ l.takeWhile (fun r => decide (r ≠ .exclusiveAll)), r ≠ .trivialLease

/-- Nobody on the queue can be granted. An exclusive request that has become
grantable by the last trivial lease's return is still to be woken by it. -/
structure Settled (s : State) (returning : Prop) : Prop where
  first : ∀ r, firstFitting s = some r → Blocked s r ∨ (r = .exclusiveAll ∧ returning)
  trivials : s.isExclusiveAllGranted = true ∨ TrivialsBehind (asked s)

theorem Settled.mono {returning' : Prop} (h : Settled s returning) (himp : returning → returning') :
    Settled s returning' :=
  ⟨fun r hr => (h.first r hr).imp_right fun hx => ⟨hx.1, himp hx.2⟩, h.trivials⟩

/-- What the loop has walked past: failed requests and requests for more leases
than are free. -/
def Walked (i : Nat) (s : State) : Prop :=
  ∀ r ∈ (asked s).take i, r.exceeds s.maxLeases = true ∨ ∃ count, r = .leases count ∧ Blocked s r

def Takes (s t : State) : LeaseGrantCount → Prop
  | .trivialLease => t.leasesGranted = s.leasesGranted ∧ s.isExclusiveAllGranted = false
  | .leases count => t.leasesGranted = s.leasesGranted + count.1 ∧
      s.leasesGranted + count.1 ≤ s.maxLeases
  | .exclusiveAll => t.leasesGranted = s.maxLeases + 1 ∧ s.leasesGranted = 0

theorem takes_tryGrantOne (h : Accounts s offset pending held)
    (hfit : r.exceeds s.maxLeases = false) (ht : s.tryGrantOne r p = (true, t)) : Takes s t r := by
  have hle := h.leasesGranted_le
  have hcap := h.capacity
  cases r with
  | trivialLease =>
    cases hx : s.isExclusiveAllGranted with
    | true => simp [tryGrantOne, hx] at ht
    | false =>
      obtain rfl : s.incTrivialLeasesGranted.issue .trivialLease p = t := by
        simpa [tryGrantOne, hx] using ht
      exact ⟨rfl, hx⟩
  | leases count =>
    have hc : count.1 ≤ s.maxLeases := not_exceeds_iff.1 hfit
    have hlt : s.leasesGranted + count.1 < usize := by
      simp only [usize]
      omega
    by_cases hm : s.leasesGranted + count.1 ≤ s.maxLeases
    · obtain rfl : State.issue { s with leasesGranted := s.leasesGranted + count.1 } (.leases count) p = t := by
        simpa [tryGrantOne, addUsize_eq hlt, note_of_not (decide_eq_false (not_le.2 hlt)), hm] using ht
      exact ⟨rfl, hm⟩
    · simp [tryGrantOne, addUsize_eq hlt, note_of_not (decide_eq_false (not_le.2 hlt)), hm] at ht
  | exclusiveAll =>
    by_cases hz : s.leasesGranted = 0 ∧ s.trivialLeasesGranted = 0
    · have hlt : s.maxLeases + 1 < usize := by
        simp only [usize]
        omega
      simp only [tryGrantOne, if_pos hz, addUsize_eq hlt, Prod.mk.injEq, true_and] at ht
      rw [← ht]
      exact ⟨rfl, hz.1⟩
    · simp [tryGrantOne, hz] at ht

theorem Takes.mono (h : Takes s t r) :
    s.leasesGranted ≤ t.leasesGranted ∧ s.isExclusiveAllGranted = false := by
  cases r with
  | trivialLease => exact ⟨le_of_eq h.1.symm, h.2⟩
  | leases count =>
    simp only [Takes] at h
    simp only [isExclusiveAllGranted, beq_eq_false_iff_ne]
    omega
  | exclusiveAll =>
    simp only [Takes] at h
    simp only [isExclusiveAllGranted, beq_eq_false_iff_ne]
    omega

theorem leasesGranted_tryGrantOne (h : Accounts s offset pending held)
    (hfit : r.exceeds s.maxLeases = false) (ht : s.tryGrantOne r p = (true, t)) :
    s.leasesGranted ≤ t.leasesGranted ∧ s.isExclusiveAllGranted = false :=
  (takes_tryGrantOne h hfit ht).mono

theorem asked_congr (h : keys t.queue = keys s.queue) : asked t = asked s := by
  have hk : ∀ q : List QueueEntry, q.map QueueEntry.leasesRequested = (keys q).map Prod.snd := by
    intro q
    simp [SemaphoreAccounts.keys, Function.comp_def]
  rw [asked, asked, hk, hk, h]

theorem asked_getElem? (hq : s.queue[i]? = some e) : (asked s)[i]? = some e.leasesRequested := by
  simp [asked, hq]

variable {l : List LeaseGrantCount}

theorem Walked.grow (h : Walked i s) (htake : l.take i = (asked s).take i)
    (hasked : asked t = l) (hmax : t.maxLeases = s.maxLeases)
    (hle : s.leasesGranted ≤ t.leasesGranted) : Walked i t := by
  intro r hr
  rw [hasked, htake] at hr
  rcases h r hr with hex | ⟨count, rfl, hb⟩
  · exact .inl (by rwa [hmax])
  · refine .inr ⟨count, rfl, ?_⟩
    simp only [Blocked] at hb ⊢
    omega

theorem take_succ_asked (hq : s.queue[i]? = some e) :
    (asked s).take (i + 1) = (asked s).take i ++ [e.leasesRequested] := by
  rw [take_add_one, asked_getElem? hq]
  rfl

theorem grantEntry_frame {u : State} (hu : s.tryGrantOne e.leasesRequested i = (true, u)) :
    let v := if e.leasesRequested = .exclusiveAll
      then ((u.wake e.waker).removeEntry i).acquireExclusiveAllEnd
      else (u.wake e.waker).removeEntry i
    asked v = (asked s).eraseIdx i ∧ v.maxLeases = s.maxLeases ∧ v.leasesGranted = u.leasesGranted ∧
      v.issued = u.issued ∧ v.queue = s.queue.eraseIdx i := by
  intro v
  have hsame := sameQueue_tryGrantOne s e.leasesRequested i
  rw [hu] at hsame
  have hrem : ((u.wake e.waker).removeEntry i).queue = s.queue.eraseIdx i := by
    rw [queue_removeEntry, ← hsame.queue]
    rfl
  have hlg : ((u.wake e.waker).removeEntry i).leasesGranted = u.leasesGranted := by
    dsimp only [removeEntry]
    split <;> rfl
  have his : ((u.wake e.waker).removeEntry i).issued = u.issued := by
    dsimp only [removeEntry]
    split <;> rfl
  have hend : ∀ x : State, x.acquireExclusiveAllEnd.leasesGranted = x.leasesGranted ∧
      x.acquireExclusiveAllEnd.issued = x.issued := by
    intro x
    unfold State.acquireExclusiveAllEnd
    split <;> exact ⟨rfl, rfl⟩
  have hv : v.queue = s.queue.eraseIdx i ∧ v.maxLeases = s.maxLeases ∧
      v.leasesGranted = u.leasesGranted ∧ v.issued = u.issued := by
    have hmax : ((u.wake e.waker).removeEntry i).maxLeases = s.maxLeases := by
      rw [maxLeases_removeEntry, ← hsame.maxLeases]
      rfl
    by_cases hx : e.leasesRequested = .exclusiveAll
    · have hv : v = ((u.wake e.waker).removeEntry i).acquireExclusiveAllEnd := if_pos hx
      have hsame' := sameQueue_acquireExclusiveAllEnd ((u.wake e.waker).removeEntry i)
      rw [hv, hsame'.queue, hsame'.maxLeases, (hend _).1, (hend _).2]
      exact ⟨hrem, hmax, hlg, his⟩
    · have hv : v = (u.wake e.waker).removeEntry i := if_neg hx
      rw [hv]
      exact ⟨hrem, hmax, hlg, his⟩
  refine ⟨?_, hv.2.1, hv.2.2.1, hv.2.2.2, hv.1⟩
  rw [asked, hv.1, asked, eraseIdx_map]

variable {s₀ : State} {α : Type}

theorem walked_wakeTurn (h : Granting pending total s₀ s) (hw : Walked i s)
    (ht : wakeTurn i s = .next j t) : Walked j t := by
  obtain ⟨held, hacc, _⟩ := h.accounts
  rcases wakeTurn_cases i s with ⟨_, h'⟩ | ⟨e, hq, ⟨hex, h'⟩ | ⟨hfit, ⟨u, hu, h'⟩ | ⟨u, hu, ⟨hx, hng, _, h'⟩ | ⟨_, h'⟩⟩⟩⟩
  · rw [h'] at ht
    cases ht
  · rw [h'] at ht
    cases ht
    intro r hr
    rw [take_succ_asked hq, mem_append, mem_singleton] at hr
    rcases hr with hr | rfl
    · exact hw r hr
    · exact .inl hex
  · rw [h'] at ht
    cases ht
    have hframe := grantEntry_frame hu
    have hmono := leasesGranted_tryGrantOne hacc hfit hu
    refine hw.grow ?_ hframe.1 hframe.2.1 (by rw [hframe.2.2.1]; exact hmono.1)
    exact take_eraseIdx_eq_take_of_le _ _ _ (le_refl i)
  · rw [h'] at ht
    cases ht
    obtain ⟨rfl, hb⟩ := tryGrantOne_false hacc hfit hu
    intro r hr
    rw [take_succ_asked hq, mem_append, mem_singleton] at hr
    rcases hr with hr | rfl
    · exact hw r hr
    · cases hr : e.leasesRequested with
      | trivialLease =>
        rw [hr, Blocked, hng] at hb
        exact absurd hb Bool.false_ne_true
      | leases count => exact .inr ⟨count, rfl, hr ▸ hb⟩
      | exclusiveAll => exact absurd hr hx
  · rw [h'] at ht
    cases ht

theorem takeWhile_subset {q : α → Bool} {as bs : List α} {b x : α} (hb : q b = false)
    (hx : x ∈ (as ++ b :: bs).takeWhile q) : x ∈ as := by
  induction as with
  | nil => simp [hb] at hx
  | cons a as ih =>
    rw [List.cons_append, takeWhile_cons] at hx
    split at hx
    · rcases mem_cons.1 hx with rfl | hx
      · exact mem_cons_self
      · exact mem_cons_of_mem _ (ih hx)
    · simp at hx

theorem not_mem_asked (h : Accounts s offset pending held) (hno : s.hasTrivialLeaseWaiters = false) :
    LeaseGrantCount.trivialLease ∉ asked s := by
  have hcount := h.enqueuedTrivial
  simp only [hasTrivialLeaseWaiters, bne_eq_false_iff_eq] at hno
  rw [hno, ← coe_asked] at hcount
  exact fun hmem => Multiset.count_eq_zero.1 hcount.symm (Multiset.mem_coe.2 hmem)

theorem walked_not_trivial (hw : Walked i s) (hr : r ∈ (asked s).take i) : r ≠ .trivialLease := by
  rintro rfl
  rcases hw _ hr with hex | ⟨count, hc, _⟩
  · simp [LeaseGrantCount.exceeds, LeaseGrantCount.count] at hex
  · cases hc

theorem settled_stop (h : Granting pending total s₀ s) (hw : Walked i s)
    (ht : wakeTurn i s = .stop t) : Settled t False := by
  obtain ⟨held, hacc, _⟩ := h.accounts
  have hsplit := take_append_drop i (asked s)
  have hfirst : ∀ r, ((asked s).take i).find? (fun r => !r.exceeds s.maxLeases) = some r → Blocked s r := by
    intro r hr
    have hfit := find?_some hr
    rcases hw r (mem_of_find?_eq_some hr) with hex | ⟨count, _, hb⟩
    · simp [hex] at hfit
    · exact hb
  rcases wakeTurn_cases i s with ⟨hq, h'⟩ | ⟨e, hq, ⟨_, h'⟩ | ⟨hfit, ⟨u, hu, h'⟩ | ⟨u, hu, ⟨_, _, _, h'⟩ | ⟨hstop, h'⟩⟩⟩⟩
  · rw [h'] at ht
    cases ht
    have htake : (asked s).take i = asked s := by
      apply take_of_length_le
      simpa [asked] using List.getElem?_eq_none_iff.1 hq
    rw [htake] at hfirst
    refine ⟨fun r hr => .inl (hfirst r hr), .inr ?_⟩
    intro r hr
    exact walked_not_trivial (i := i) hw (by rw [htake]; exact (List.takeWhile_subset _) hr)
  · rw [h'] at ht
    cases ht
  · rw [h'] at ht
    cases ht
  · rw [h'] at ht
    cases ht
  · rw [h'] at ht
    cases ht
    obtain ⟨rfl, hb⟩ := tryGrantOne_false hacc hfit hu
    obtain ⟨hi, he⟩ := List.getElem?_eq_some_iff.1 (asked_getElem? hq)
    have hdrop : (asked t).drop i = e.leasesRequested :: (asked t).drop (i + 1) := by
      rw [← he]
      exact drop_eq_getElem_cons hi
    refine ⟨fun r hr => .inl ?_, ?_⟩
    · rw [firstFitting, ← hsplit, find?_append] at hr
      cases hpre : ((asked t).take i).find? (fun r => !r.exceeds t.maxLeases) with
      | some r' =>
        rw [hpre] at hr
        obtain rfl : r' = r := by simpa using hr
        exact hfirst _ hpre
      | none =>
        rw [hpre, hdrop, find?_cons] at hr
        simp only [hfit, Bool.not_false, Option.none_or, Option.some.injEq] at hr
        exact hr ▸ hb
    · rcases hstop with hx | hg | hno
      · refine .inr ?_
        intro r hr
        rw [← hsplit, hdrop] at hr
        exact walked_not_trivial hw (takeWhile_subset (by simp [hx]) hr)
      · exact .inl hg
      · refine .inr ?_
        intro r hr
        rintro rfl
        exact not_mem_asked hacc hno (List.takeWhile_subset _ hr)

theorem settled_wakeCompletedWaiters (hcard : total.card ≤ maxReferences)
    (h : Granting pending total s₀ s) : Settled s.wakeCompletedWaiters returning := by
  have hloop : Settled s.wakeCompletedWaiters False :=
    wakeCompletedWaiters_induct (P := fun i s => Granting pending total s₀ s ∧ Walked i s)
      (fun i s j t hP ht => ⟨granting_wakeTurn hcard hP.1 ht, walked_wakeTurn hP.1 hP.2 ht⟩)
      (fun i s t hP ht => settled_stop hP.1 hP.2 ht) ⟨h, by simp [Walked]⟩
  exact hloop.mono False.elim

/-- Requests stay blocked where the queue is the same and grants only come to. -/
theorem Settled.grow (h : Settled s returning) (hasked : asked t = asked s)
    (hmax : t.maxLeases = s.maxLeases) (hle : s.leasesGranted ≤ t.leasesGranted)
    (htriv : LeaseGrantCount.exclusiveAll ∈ asked s → s.trivialLeasesGranted ≠ 0 →
      t.trivialLeasesGranted ≠ 0)
    (hx : s.isExclusiveAllGranted = true → t.isExclusiveAllGranted = true) : Settled t returning := by
  have hfirst : firstFitting t = firstFitting s := by
    rw [firstFitting, firstFitting, hasked, hmax]
  refine ⟨?_, ?_⟩
  · intro r hr
    rw [hfirst] at hr
    refine (h.first r hr).imp_left fun hb => ?_
    cases r with
    | trivialLease => exact hx hb
    | leases count =>
      simp only [Blocked] at hb ⊢
      omega
    | exclusiveAll =>
      have hmem := mem_of_find?_eq_some hr
      rcases hb with hb | hb
      · exact .inl (by omega)
      · exact .inr (htriv hmem hb)
  · rw [hasked]
    exact h.trivials.imp_left hx

theorem asked_sameQueue (h : SameQueue s t) : asked t = asked s := by
  rw [asked, asked, h.queue]

theorem settled_tryGrantOne (h : Settled s returning) (hacc : Accounts s offset pending held)
    (hfit : r.exceeds s.maxLeases = false) (hcard : held.card + offset + 1 < usize)
    (ht : s.tryGrantOne r p = (true, t)) : Settled t returning := by
  have hsame := sameQueue_tryGrantOne s r p
  rw [ht] at hsame
  obtain ⟨hle, hng⟩ := leasesGranted_tryGrantOne hacc hfit ht
  have hacc' := tryGrantOne_true hacc hfit hcard ht
  refine h.grow (asked_sameQueue hsame) hsame.maxLeases hle (fun _ hne => ?_) fun hg => ?_
  · have hcount := Multiset.count_le_count_cons LeaseGrantCount.trivialLease r held
    rw [hacc'.trivialLeasesGranted]
    rw [hacc.trivialLeasesGranted] at hne
    omega
  · rw [hng] at hg
    exact absurd hg Bool.false_ne_true

theorem exclusive_asked_pos (h : Accounts s offset pending held)
    (hmem : LeaseGrantCount.exclusiveAll ∈ asked s) : s.enqueuedExclusiveAllWaiters ≠ 0 := by
  have hpos := Multiset.count_pos.2 (Multiset.mem_coe.2 hmem)
  rw [coe_asked] at hpos
  rw [h.enqueuedExclusive]
  omega

theorem settled_acquireExclusiveAllBegin (h : Settled s returning)
    (hacc : Accounts s offset pending held) : Settled s.acquireExclusiveAllBegin returning := by
  have hsame := sameQueue_acquireExclusiveAllBegin s
  have hlg : s.acquireExclusiveAllBegin.leasesGranted = s.leasesGranted := by
    unfold State.acquireExclusiveAllBegin
    split <;> rfl
  refine h.grow (asked_sameQueue hsame) hsame.maxLeases (le_of_eq hlg.symm) (fun hmem hne => ?_) fun hg => ?_
  · have hpos := exclusive_asked_pos hacc hmem
    simpa [State.acquireExclusiveAllBegin, hasExclusiveAllWaiters, hpos] using hne
  · rw [isExclusiveAllGranted, hsame.maxLeases, hlg]
    exact hg

theorem settled_incTrivialLeasesGranted (h : Settled s returning)
    (hlt : s.trivialLeasesGranted + 1 < usize) : Settled s.incTrivialLeasesGranted returning := by
  rw [incTrivialLeasesGranted_eq hlt]
  exact h.grow rfl rfl (le_refl _) (fun _ _ => Nat.succ_ne_zero _) fun hg => hg

theorem settled_acquireExclusiveAllEnd (h : Settled s returning) (hacc : Accounts s 0 pending held)
    (hcard : held.card + 1 < usize) : Settled s.acquireExclusiveAllEnd returning := by
  have hcount := Multiset.count_le_card LeaseGrantCount.trivialLease held
  have htriv := hacc.trivialLeasesGranted
  unfold State.acquireExclusiveAllEnd
  split
  · exact settled_incTrivialLeasesGranted h (by omega)
  · exact h

/-- The test that decided to wait would still fail for the request. -/
def StillBlocked (s : State) (returning : Prop) : LeaseGrantCount → Prop
  | .trivialLease => s.isExclusiveAllGranted = true ∨ LeaseGrantCount.exclusiveAll ∈ asked s
  | .leases count => s.hasUncancelledWaiters = true ∨ s.maxLeases < s.leasesGranted + count
  | .exclusiveAll => s.hasUncancelledWaiters = true ∨ s.leasesGranted ≠ 0 ∨
      s.trivialLeasesGranted ≠ 0 ∨ returning

theorem firstFitting_none_iff : firstFitting s = none ↔ s.hasUncancelledWaiters = false := by
  simp [firstFitting, asked, hasUncancelledWaiters, find?_eq_none]

theorem exclusive_fits {m : Nat} : LeaseGrantCount.exceeds m .exclusiveAll = false := rfl

theorem hasUncancelled_of_exclusive (h : LeaseGrantCount.exclusiveAll ∈ asked s) :
    s.hasUncancelledWaiters = true := by
  rw [← Bool.not_eq_false, ← firstFitting_none_iff]
  intro hnone
  have hfit := find?_eq_none.1 hnone _ h
  simp [exclusive_fits] at hfit

theorem trivialsBehind_append (h : TrivialsBehind l)
    (hr : r = .trivialLease → LeaseGrantCount.exclusiveAll ∈ l) : TrivialsBehind (l ++ [r]) := by
  intro x hx
  rw [takeWhile_append] at hx
  split at hx
  · rename_i hlen
    have hself : l.takeWhile (fun r => decide (r ≠ .exclusiveAll)) = l :=
      ( takeWhile_prefix _).eq_of_length hlen
    rcases mem_append.1 hx with hx | hx
    · exact h x (by rw [hself]; exact hx)
    · obtain rfl := mem_singleton.1 (List.takeWhile_subset _ hx)
      rintro rfl
      have hmem := hr rfl
      rw [← hself] at hmem
      simpa using mem_takeWhile_imp hmem
  · exact h x hx

/-- A request put on the queue while it is blocked leaves nobody to be granted. -/
theorem settled_pushWaiter (h : Settled s returning) (hb : StillBlocked s returning r)
    (hasked : asked t = asked s ++ [r]) (hmax : t.maxLeases = s.maxLeases)
    (hlg : t.leasesGranted = s.leasesGranted) (htriv : t.trivialLeasesGranted = s.trivialLeasesGranted) :
    Settled t returning := by
  have hgr : t.isExclusiveAllGranted = s.isExclusiveAllGranted := by
    rw [isExclusiveAllGranted, isExclusiveAllGranted, hmax, hlg]
  have hblocked : ∀ x, Blocked s x → Blocked t x := by
    intro x hx
    cases x <;> simpa [Blocked, hgr, hmax, hlg, htriv] using hx
  refine ⟨?_, ?_⟩
  · intro x hx
    rw [firstFitting, hasked, hmax, find?_append] at hx
    cases hf : firstFitting s with
    | some y =>
      rw [firstFitting] at hf
      rw [hf] at hx
      obtain rfl : y = x := by simpa using hx
      exact (h.first y hf).imp_left (hblocked y)
    | none =>
      have hno := firstFitting_none_iff.1 hf
      rw [firstFitting] at hf
      rw [hf, Option.none_or] at hx
      have hxr : x = r := mem_singleton.1 (mem_of_find?_eq_some hx)
      subst hxr
      cases x with
      | trivialLease =>
        rcases hb with hb | hb
        · exact .inl (hblocked .trivialLease hb)
        · rw [hasUncancelled_of_exclusive hb] at hno
          exact absurd hno.symm Bool.false_ne_true
      | leases count =>
        rcases hb with hb | hb
        · rw [hb] at hno
          exact absurd hno.symm Bool.false_ne_true
        · exact .inl (hblocked (.leases count) hb)
      | exclusiveAll =>
        rcases hb with hb | hb | hb | hb
        · rw [hb] at hno
          exact absurd hno.symm Bool.false_ne_true
        · exact .inl (hblocked .exclusiveAll (.inl hb))
        · exact .inl (hblocked .exclusiveAll (.inr hb))
        · exact .inr ⟨rfl, hb⟩
  · rw [hgr, hasked]
    rcases h.trivials with hg | hbehind
    · exact .inl hg
    · by_cases hg : s.isExclusiveAllGranted = true
      · exact .inl hg
      · refine .inr (trivialsBehind_append hbehind ?_)
        rintro rfl
        exact hb.resolve_left hg

theorem asked_enqueueReady (s : State) (r : LeaseGrantCount) :
    asked (s.enqueueReady r) = asked s ++ [r] := by
  cases r <;> simp [asked, enqueueReady, pushWaiter, incEnqueuedTrivial, note]

theorem settled_enqueueReady (h : Settled s returning) (hb : StillBlocked s returning r) :
    Settled (s.enqueueReady r) returning := by
  cases r <;> exact settled_pushWaiter h hb (asked_enqueueReady s _) rfl rfl rfl

section

variable (h : Settled s returning) (hacc : Accounts s (offsetOf s) (pending + exclusives r) held)
  (hcard : held.card + 1 < usize)
include h hacc hcard

theorem settled_enqueueFailed :
    Settled (s.enqueueFailed r) returning := by
  have hcount := Multiset.count_le_card LeaseGrantCount.trivialLease held
  cases r with
  | trivialLease => exact h
  | leases count => exact h
  | exclusiveAll =>
    have hexcl := hacc.enqueuedExclusive
    have htriv := hacc.trivialLeasesGranted
    simp only [exclusives, if_true] at hexcl
    rw [offsetOf, if_neg (by omega)] at htriv
    have hdec : Settled s.decEnqueuedExclusive returning :=
      h.grow rfl rfl (le_refl _) (fun _ hne => hne) fun hg => hg
    rw [enqueueFailed, State.acquireExclusiveAllEnd]
    split
    · apply settled_incTrivialLeasesGranted hdec
      rw [show s.decEnqueuedExclusive.trivialLeasesGranted = s.trivialLeasesGranted from rfl]
      omega
    · exact hdec

theorem settled_enqueueWaiter (hb : s.tryReserve = .ready → StillBlocked s returning r) :
    Settled (s.enqueueWaiter r).2 returning := by
  unfold enqueueWaiter
  cases hres : s.tryReserve with
  | ready => exact settled_enqueueReady h (hb hres)
  | reallocate capacity => exact h.grow rfl rfl (le_refl _) (fun _ hne => hne) fun hg => hg
  | failed => exact settled_enqueueFailed h hacc hcard

end

theorem stillBlocked_of_blocked (h : Blocked s r) : StillBlocked s returning r := by
  cases r with
  | trivialLease => exact .inl h
  | leases count => exact .inr h
  | exclusiveAll => exact .inr (h.imp_right .inl)

theorem settled_tryAcquireLeasesLocked (h : Settled s returning)
    (hacc : Accounts s (offsetOf s) pending held) (hroom : held.card + 1 ≤ maxReferences)
    (ht : s.tryAcquireLeasesLocked n = .ok (true, t)) : Settled t returning := by
  have hoff := offsetOf_le s
  simp only [maxReferences] at hroom
  obtain ⟨hfit, ⟨htry, _⟩ | ⟨hb, _⟩⟩ := tryAcquireLeasesLocked_cases ht
  · exact settled_tryGrantOne h hacc hfit (by simp only [usize]; omega) htry
  · cases hb

/-- A trivial request on the queue on account of an exclusive one that is only
about to be enqueued would not be blocked. -/
theorem settled_prepareAcquireLeases (h : Settled s returning)
    (hacc : Accounts s (offsetOf s) pending held)
    (hcard : (held + requests s.queue).card ≤ maxReferences)
    (hroom : (s.prepareAcquireLeases n).1 = .granted → held.card + 1 ≤ maxReferences)
    (hput : n = 0 → s.hasExclusiveAllWaiters = true → s.tryReserve = .ready →
      StillBlocked s returning .trivialLease) :
    Settled (s.prepareAcquireLeases n).2 returning := by
  rw [Multiset.card_add] at hcard
  simp only [maxReferences] at hcard
  unfold prepareAcquireLeases at hroom ⊢
  rcases ht : s.tryAcquireLeasesLocked n with error | ⟨b, t⟩
  · exact h
  cases b with
  | true =>
    simp only [ht, forall_const] at hroom
    exact settled_tryAcquireLeasesLocked h hacc hroom ht
  | false =>
    obtain rfl := tryAcquireLeasesLocked_false hacc ht
    refine settled_enqueueWaiter h (by rwa [exclusives_ofUsize]) (by simp only [usize]; omega) fun hready => ?_
    obtain ⟨hfit, ⟨htry, _⟩ | ⟨_, _, hwait⟩⟩ := tryAcquireLeasesLocked_cases ht
    · exact stillBlocked_of_blocked (tryGrantOne_false hacc hfit htry).2
    · by_cases hn : n = 0
      · subst hn
        exact hput rfl (by simpa using hwait) hready
      · rw [if_neg hn] at hwait
        rw [ofUsize_pos (pos_of_ne_zero hn)]
        exact .inl hwait

theorem settled_exclusiveGranted (h : Settled s returning)
    (hacc : Accounts s (offsetOf s) pending held) (hroom : held.card + 1 ≤ maxReferences)
    (ht : s.acquireExclusiveAllBegin.tryAcquireExclusiveAllLocked = (true, t)) :
    Settled t.acquireExclusiveAllEnd returning := by
  have hbegin := hacc.acquireExclusiveAllBegin
  obtain ⟨_, hacc'⟩ := tryAcquireExclusiveAllLocked_true hbegin hroom ht
  simp only [maxReferences] at hroom
  rcases tryAcquireExclusiveAllLocked_cases ht with ⟨htry, _⟩ | ⟨hb, _⟩
  · have hgranted := settled_tryGrantOne (settled_acquireExclusiveAllBegin h hacc) hbegin rfl
      (by simp only [usize]; omega) htry
    exact settled_acquireExclusiveAllEnd hgranted hacc'
      (by simp only [Multiset.card_cons, usize]; omega)
  · cases hb

theorem settled_prepareAcquireExclusiveAll (h : Settled s returning)
    (hacc : Accounts s (offsetOf s) pending held)
    (hcard : (held + requests s.queue).card + pending ≤ maxReferences)
    (hroom : s.prepareAcquireExclusiveAll.1 = .granted → held.card + 1 ≤ maxReferences) :
    Settled s.prepareAcquireExclusiveAll.2 returning := by
  rw [Multiset.card_add] at hcard
  simp only [maxReferences] at hcard
  have hbegin := hacc.acquireExclusiveAllBegin
  have hsettled := settled_acquireExclusiveAllBegin h hacc
  have hsame := sameQueue_acquireExclusiveAllBegin s
  unfold prepareAcquireExclusiveAll at hroom ⊢
  rcases ht : s.acquireExclusiveAllBegin.tryAcquireExclusiveAllLocked with ⟨b, t⟩
  cases b with
  | true =>
    simp only [ht, forall_const] at hroom
    exact settled_exclusiveGranted h hacc hroom ht
  | false =>
    obtain rfl := tryAcquireExclusiveAllLocked_false hbegin ht
    have hinc := accounts_incEnqueuedExclusive hbegin (by
      rw [hsame.queue]
      simp only [usize]
      omega)
    have hsettled' : Settled s.acquireExclusiveAllBegin.incEnqueuedExclusive returning :=
      hsettled.grow rfl rfl (le_refl _) (fun _ hne => hne) fun hg => hg
    refine settled_enqueueWaiter hsettled' hinc (by simp only [usize]; omega) fun _ => ?_
    rcases tryAcquireExclusiveAllLocked_cases ht with ⟨htry, _⟩ | ⟨_, _, hwait⟩
    · have hb := (tryGrantOne_false hbegin rfl htry).2
      exact .inr (hb.imp_right .inl)
    · exact .inl hwait

theorem settled_tryAcquireExclusiveAll (h : Settled s returning)
    (hacc : Accounts s (offsetOf s) pending held) (hcard : held.card ≤ maxReferences)
    (hroom : s.tryAcquireExclusiveAll.1 = true → held.card + 1 ≤ maxReferences) :
    Settled s.tryAcquireExclusiveAll.2 returning := by
  simp only [maxReferences] at hcard
  have hbegin := hacc.acquireExclusiveAllBegin
  have hsettled := settled_acquireExclusiveAllBegin h hacc
  unfold tryAcquireExclusiveAll at hroom ⊢
  rcases ht : s.acquireExclusiveAllBegin.tryAcquireExclusiveAllLocked with ⟨b, t⟩
  cases b with
  | true =>
    simp only [ht, forall_const] at hroom
    exact settled_exclusiveGranted h hacc hroom ht
  | false =>
    obtain rfl := tryAcquireExclusiveAllLocked_false hbegin ht
    exact settled_acquireExclusiveAllEnd hsettled hbegin (by simp only [usize]; omega)

theorem blocked_of_granted (h : s.isExclusiveAllGranted = true) (r : LeaseGrantCount) : Blocked s r := by
  have hlg : s.leasesGranted = s.maxLeases + 1 := by simpa [isExclusiveAllGranted] using h
  cases r with
  | trivialLease => exact h
  | leases count =>
    simp only [Blocked]
    omega
  | exclusiveAll => exact .inl (by omega)

theorem settled_of_granted (h : s.isExclusiveAllGranted = true) : Settled s returning :=
  ⟨fun r _ => .inl (blocked_of_granted h r), .inl h⟩

/-- The last trivial lease gone, an exclusive request needs somebody to wake it. -/
theorem settled_decTrivialLeasesGranted {returning' : Prop} (h : Settled s returning)
    (hacc : Accounts s offset pending (.trivialLease ::ₘ held)) (himp : returning → returning')
    (hlast : s.trivialLeasesGranted = 1 → s.leasesGranted = 0 → returning') :
    Settled s.decTrivialLeasesGranted returning' := by
  have htriv := hacc.trivialLeasesGranted
  rw [Multiset.count_cons_self] at htriv
  rw [decTrivialLeasesGranted_eq (by omega)]
  refine ⟨?_, h.trivials⟩
  intro r hr
  rcases h.first r hr with hb | ⟨hx, hret⟩
  · cases r with
    | trivialLease => exact .inl hb
    | leases count => exact .inl hb
    | exclusiveAll =>
      by_cases hz : s.leasesGranted = 0
      · by_cases hone : s.trivialLeasesGranted = 1
        · exact .inr ⟨rfl, hlast hone hz⟩
        · refine .inl (.inr ?_)
          dsimp only
          omega
      · exact .inl (.inl hz)
  · exact .inr ⟨hx, himp hret⟩

theorem settled_returnGrant (h : Settled s returning)
    (hacc : Accounts s (offsetOf s) pending (r ::ₘ held))
    (hcard : (held + requests s.queue).card ≤ maxReferences) : Settled (s.returnGrant r) returning := by
  cases r with
  | trivialLease =>
    have hg := granting_decTrivialLeasesGranted hacc
    cases hb : (s.trivialLeasesGranted == 1 && s.leasesGranted == 0) with
    | true =>
      rw [returnGrant, returnTrivialLeaseGrant, hb]
      exact settled_wakeCompletedWaiters hcard hg
    | false =>
      rw [returnGrant, returnTrivialLeaseGrant, hb]
      refine settled_decTrivialLeasesGranted h hacc id fun hone hz => ?_
      simp [hone, hz] at hb
  | leases count =>
    obtain ⟨hreturn, hg⟩ := returnGrant_leases hacc
    rw [hreturn]
    exact settled_wakeCompletedWaiters hcard hg
  | exclusiveAll =>
    exact settled_wakeCompletedWaiters hcard
      (granting_of_accounts (s := s) (Accounts.leaveExclusive hacc) rfl rfl rfl)

theorem takeWhile_erase_subset {q : α → Bool} {as bs : List α} {b x : α} (hb : q b = true)
    (hx : x ∈ (as ++ bs).takeWhile q) : x ∈ (as ++ b :: bs).takeWhile q := by
  induction as with
  | nil =>
    rw [List.nil_append, takeWhile_cons, if_pos hb]
    exact mem_cons_of_mem _ hx
  | cons a as ih =>
    rw [List.cons_append, takeWhile_cons] at hx ⊢
    split at hx
    · rename_i ha
      rw [if_pos ha]
      rcases mem_cons.1 hx with rfl | hx
      · exact mem_cons_self
      · exact mem_cons_of_mem _ (ih hx)
    · simp at hx

/-- The first element with the one property comes before any with the other,
which implies it. -/
theorem mem_takeWhile_of_find? {q f : α → Bool} {l : List α} {x : α}
    (himp : ∀ a, q a = false → f a = true) (hfind : l.find? f = some x) (hx : q x = true) :
    x ∈ l.takeWhile q := by
  induction l with
  | nil => simp at hfind
  | cons a l ih =>
    rw [find?_cons] at hfind
    rw [takeWhile_cons]
    cases ha : f a with
    | true =>
      rw [ha] at hfind
      obtain rfl : a = x := by simpa using hfind
      rw [if_pos hx]
      exact mem_cons_self
    | false =>
      rw [ha] at hfind
      have hqa : q a = true := by
        rw [← Bool.not_eq_false]
        intro hq
        rw [himp a hq] at ha
        cases ha
      rw [if_pos hqa]
      exact mem_cons_of_mem _ (ih hfind)

theorem granted_of_firstFitting_trivial (h : Settled s returning)
    (hf : (asked s).find? (fun r => !r.exceeds s.maxLeases) = some .trivialLease) :
    s.isExclusiveAllGranted = true := by
  rcases h.trivials with hg | hb
  · exact hg
  · refine absurd rfl (hb _ (mem_takeWhile_of_find? (fun a ha => ?_) hf (by simp)))
    have hax : a = .exclusiveAll := by simpa using ha
    rw [hax, exclusive_fits]
    rfl

theorem removeEntry_frame (s : State) (i : Nat) :
    (s.removeEntry i).leasesGranted = s.leasesGranted ∧
      (s.removeEntry i).trivialLeasesGranted = s.trivialLeasesGranted ∧
      (s.removeEntry i).issued = s.issued ∧ asked (s.removeEntry i) = (asked s).eraseIdx i := by
  refine ⟨?_, ?_, ?_, ?_⟩
  · dsimp only [removeEntry]
    split <;> rfl
  · dsimp only [removeEntry]
    split <;> rfl
  · dsimp only [removeEntry]
    split <;> rfl
  · rw [asked, queue_removeEntry, asked, eraseIdx_map]

/-- Taking a request off that has failed, is trivial or asks for one lease lets
nobody else in. -/
theorem settled_removeEntry (h : Settled s returning) (hq : s.queue[i]? = some e)
    (hr : e.leasesRequested.exceeds s.maxLeases = true ∨ e.leasesRequested = .trivialLease ∨
      ∃ count, e.leasesRequested = .leases count ∧ count.1 = 1) :
    Settled (s.removeEntry i) returning := by
  obtain ⟨hlg, htriv, _, hasked⟩ := removeEntry_frame s i
  have hmax := maxLeases_removeEntry s i
  have hgr : (s.removeEntry i).isExclusiveAllGranted = s.isExclusiveAllGranted := by
    rw [isExclusiveAllGranted, isExclusiveAllGranted, hmax, hlg]
  have hblocked : ∀ x, Blocked (s.removeEntry i) x ↔ Blocked s x := by
    intro x
    cases x <;> simp [Blocked, hgr, hmax, hlg, htriv]
  obtain ⟨hi, he⟩ := List.getElem?_eq_some_iff.1 (asked_getElem? hq)
  have hsplit : asked s = (asked s).take i ++ e.leasesRequested :: (asked s).drop (i + 1) := by
    rw [← he, ← drop_eq_getElem_cons hi, take_append_drop]
  rw [eraseIdx_eq_take_drop_succ] at hasked
  have hne : decide (e.leasesRequested ≠ .exclusiveAll) = true := by
    rcases hr with hr | hr | ⟨count, hr, _⟩
    · rw [decide_eq_true_eq]
      intro hx
      rw [hx, exclusive_fits] at hr
      cases hr
    · simp [hr]
    · simp [hr]
  have hsub : ∀ x ∈ (asked (s.removeEntry i)).takeWhile (fun r => decide (r ≠ .exclusiveAll)),
      x ∈ (asked s).takeWhile (fun r => decide (r ≠ .exclusiveAll)) := by
    intro x hx
    rw [hasked] at hx
    rw [hsplit]
    exact takeWhile_erase_subset hne hx
  refine ⟨?_, ?_⟩
  · intro x hx
    rw [hblocked]
    have hx' := hx
    rw [firstFitting, hasked, hmax, find?_append] at hx
    have hfirst : firstFitting s = (((asked s).take i).find? fun r => !r.exceeds s.maxLeases).or
        ((e.leasesRequested :: (asked s).drop (i + 1)).find? fun r => !r.exceeds s.maxLeases) := by
      rw [firstFitting, ← find?_append, ← hsplit]
    cases hpre : ((asked s).take i).find? fun r => !r.exceeds s.maxLeases with
    | some y =>
      rw [hpre, Option.some_or] at hx hfirst
      obtain rfl : y = x := by simpa using hx
      exact h.first y hfirst
    | none =>
      rw [hpre, Option.none_or] at hx hfirst
      rw [find?_cons] at hfirst
      cases hex : e.leasesRequested.exceeds s.maxLeases with
      | true =>
        rw [hex] at hfirst
        exact h.first x (hfirst.trans hx)
      | false =>
        rw [hex] at hfirst
        rcases hr with hr | hr | ⟨count, hr, hone⟩
        · rw [hex] at hr
          cases hr
        · rw [hr] at hfirst
          exact .inl (blocked_of_granted (granted_of_firstFitting_trivial h hfirst) x)
        · have hb : Blocked s e.leasesRequested := by
            refine (h.first _ hfirst).resolve_right ?_
            rintro ⟨hx, _⟩
            rw [hr] at hx
            cases hx
          have hc := not_exceeds_iff.1 hex
          rw [hr] at hb hc
          simp only [Blocked, LeaseGrantCount.count] at hb hc
          refine .inl ?_
          cases x with
          | leases count' =>
            simp only [Blocked]
            omega
          | exclusiveAll => exact .inl (by omega)
          | trivialLease =>
            rcases h.trivials with hg | hbehind
            · exact hg
            · refine absurd rfl (hbehind .trivialLease (hsub _ ?_))
              refine mem_takeWhile_of_find? (fun a ha => ?_) hx' (by simp)
              have hax : a = .exclusiveAll := by simpa using ha
              rw [hax, exclusive_fits]
              rfl
  · rw [hgr]
    exact h.trivials.imp_right fun hbehind x hx => hbehind x (hsub x hx)

theorem settled_cancelWaiter (h : Settled s returning) {rest : List Owner}
    (hstands : Stands s held [.enqueued w r] rest) : Settled (s.cancelWaiter w r) returning := by
  cases hpos : s.waiterPosition w with
  | none =>
    have hany : (s.queue.any fun entry => entry.waiterId == w) = false := by
      rw [← Bool.not_eq_true, any_waiterId_iff]
      exact waiterPosition_none hpos
    obtain ⟨held', rfl⟩ := hstands.held_cons (r := r) (by simp [grantOf, hany])
    rw [State.cancelWaiter, hpos]
    exact settled_returnGrant h (hstands.accounts_rest rfl) (hstands.card_cons rfl)
  | some i =>
    obtain ⟨e, hq, hid, hr⟩ := hstands.entry_eq hpos
    have hacc := hstands.accounts_rest rfl
    obtain ⟨hle, hlt⟩ := card_eraseIdx hq hstands.card_queue
    rw [State.cancelWaiter, hpos]
    cases r with
    | trivialLease => exact settled_removeEntry h hq (.inr (.inl hr))
    | leases count =>
      dsimp only
      split
      · exact settled_wakeCompletedWaiters hle (Accounts.dropEntry hacc hq (by simp [hr]))
      · exact settled_removeEntry h hq (.inr (.inr ⟨count, hr, by omega⟩))
    | exclusiveAll =>
      exact settled_wakeCompletedWaiters hle (Accounts.dropExclusiveEntry hacc hq hr hlt)

theorem settled_setWaker (h : Settled s returning) (i w : Nat) : Settled (s.setWaker i w) returning :=
  h.grow (asked_congr (keys_setWaker s i w)) rfl (le_refl _) (fun _ hne => hne) fun hg => hg

theorem settled_pollFuture {rest : List Owner} (h : Settled s returning)
    (hstands : Stands s held [.enqueued w r] rest) (waker : Nat) :
    Settled (s.pollFuture w r waker).2 returning := by
  cases hpos : s.waiterPosition w with
  | none => simpa only [pollFuture, hpos] using h
  | some i =>
    obtain ⟨e, hq, hid, hr⟩ := hstands.entry_eq hpos
    have hset := settled_setWaker h i waker
    have hq' : (s.setWaker i waker).queue[i]? = some { e with waker := some waker } := by
      simp [State.setWaker, hq]
    simp only [pollFuture, hpos]
    split
    · rename_i hex
      exact settled_removeEntry hset hq' (.inl (by rwa [hr]))
    · exact hset

theorem wakeFailedWaiters_of_fit (h : ∀ r ∈ asked s, r.exceeds s.maxLeases = false) :
    s.wakeFailedWaiters = failedWoken s := by
  rw [wakeFailedWaiters, ← failedWoken]
  refine if_pos (filter_eq_nil_iff.2 fun entry hentry => ?_)
  rw [h _ (mem_map_of_mem hentry)]
  exact Bool.false_ne_true

theorem wakeFailedWaiters_of_not_fit (h : ¬ ∀ r ∈ asked s, r.exceeds s.maxLeases = false) :
    s.wakeFailedWaiters = (failedWoken s).wakeCompletedWaiters := by
  rw [wakeFailedWaiters, ← failedWoken]
  refine if_neg fun hnone => h fun r hr => ?_
  obtain ⟨entry, hentry, rfl⟩ := mem_map.1 hr
  simpa using filter_eq_nil_iff.1 hnone entry hentry

theorem granting_failedWoken (hacc : Accounts s (offsetOf s) pending held) :
    Granting pending (held + requests s.queue) s (failedWoken s) := by
  have hkeys : keys (failedWoken s).queue = keys s.queue := keys_failEntry s.maxLeases s.queue
  have hset : Accounts (failedWoken s) (offsetOf (failedWoken s)) pending held :=
    Accounts.setQueue hacc _ _ hkeys
  rw [← requests_congr hkeys]
  exact granting_of_accounts hset hkeys rfl rfl

theorem settled_failedWoken (h : Settled s returning) : Settled (failedWoken s) returning :=
  h.grow (asked_congr (keys_failEntry s.maxLeases s.queue)) rfl (le_refl _) (fun _ hne => hne)
    fun hg => hg

theorem find?_eq_head? {f : α → Bool} {l : List α} (h : ∀ a ∈ l, f a = true) :
    l.find? f = l.head? := by
  cases l with
  | nil => rfl
  | cons a l => simp [h a mem_cons_self]

variable {count : { n : Nat // 0 < n }}

theorem settled_leaked (h : Settled s returning)
    (hacc : Accounts s (offsetOf s) pending (.leases count ::ₘ held))
    (hfit : ∀ r ∈ asked s, r.exceeds (leaked s count).maxLeases = false)
    (hx : LeaseGrantCount.exclusiveAll ∉ asked s) : Settled (leaked s count) returning := by
  have hng : s.isExclusiveAllGranted ≠ true := by
    rw [Ne, hacc.isExclusiveAllGranted]
    exact exclusive_not_mem hacc (by simp)
  have hfit' : ∀ r ∈ asked s, r.exceeds s.maxLeases = false := by
    intro r hr
    have hr' := not_exceeds_iff.1 (hfit r hr)
    simp only [leaked] at hr'
    rw [not_exceeds_iff]
    omega
  have hfirst : firstFitting (leaked s count) = firstFitting s := by
    have hs : firstFitting s = (asked s).head? :=
      find?_eq_head? fun r hr => by simp [hfit' r hr]
    have ht : firstFitting (leaked s count) = (asked s).head? :=
      find?_eq_head? fun r hr => by simp [hfit r hr]
    rw [hs, ht]
  refine ⟨?_, .inr (h.trivials.resolve_left hng)⟩
  intro r hr
  rw [hfirst] at hr
  have hmem := mem_of_find?_eq_some hr
  rcases h.first r hr with hb | ⟨rfl, _⟩
  · refine .inl ?_
    cases r with
    | trivialLease => exact absurd hb hng
    | leases count' =>
      simp only [Blocked, leaked] at hb ⊢
      omega
    | exclusiveAll => exact absurd hmem hx
  · exact absurd hmem hx

theorem settled_leakLeases (h : Settled s returning)
    (hacc : Accounts s (offsetOf s) pending (.leases count ::ₘ held))
    (hcard : (held + requests s.queue).card ≤ maxReferences) :
    Settled (s.leakLeases count) returning := by
  obtain ⟨hst, hret⟩ := leaked_eq hacc
  have hg := granting_wakeFailedWaiters hret hcard
  rw [leakLeases, hst]
  split
  · exact settled_wakeCompletedWaiters hcard hg
  · rename_i hno
    by_cases hfit : ∀ r ∈ asked s, r.exceeds (leaked s count).maxLeases = false
    · rw [wakeFailedWaiters_of_fit hfit] at hno ⊢
      refine settled_failedWoken (settled_leaked h hacc hfit fun hmem => hno ?_)
      have hpos := exclusive_asked_pos hacc hmem
      simpa [failedWoken, leaked, hasExclusiveAllWaiters] using hpos
    · rw [wakeFailedWaiters_of_not_fit hfit]
      exact settled_wakeCompletedWaiters hcard (granting_failedWoken hret)

theorem settled_resizeFuture {m : Nat} (hm : m < 2 ^ 63)
    (hacc : Accounts s (offsetOf s) pending (.exclusiveAll ::ₘ held))
    (hcard : (.exclusiveAll ::ₘ held + requests s.queue).card ≤ maxReferences) :
    Settled (s.resizeFuture m) returning := by
  have hacc' := accounts_resized hm hacc
  have hgranted : Settled (resized s m) returning :=
    settled_of_granted (by simp [isExclusiveAllGranted, resized])
  rw [State.resizeFuture, ← resized]
  split
  · by_cases hfit : ∀ r ∈ asked (resized s m), r.exceeds (resized s m).maxLeases = false
    · rw [wakeFailedWaiters_of_fit hfit]
      exact settled_failedWoken hgranted
    · rw [wakeFailedWaiters_of_not_fit hfit]
      exact settled_wakeCompletedWaiters hcard (granting_failedWoken hacc')
  · exact hgranted

theorem settled_downgrade (hacc : Accounts s (offsetOf s) pending (.exclusiveAll ::ₘ held))
    (hcard : (.ofUsize s.maxLeases ::ₘ held + requests s.queue).card ≤ maxReferences) :
    Settled s.downgrade returning := by
  have hsame := sameQueue_downgraded s
  have hacc' := accounts_downgraded hacc
  have hg := granting_of_accounts (s := s) hacc' (by rw [hsame.queue]) hsame.maxLeases hsame.lastWaiterId
  rw [hsame.queue] at hg
  rw [State.downgrade, ← downgraded]
  split
  · exact settled_wakeCompletedWaiters hcard hg
  · rename_i hno
    have hnot := not_mem_asked hacc' (by simpa using hno)
    have hlg : (downgraded s).leasesGranted = s.maxLeases := by
      unfold downgraded
      split <;> rfl
    refine ⟨fun r hr => .inl ?_, .inr fun r hr hrt => hnot (hrt ▸ List.takeWhile_subset _ hr)⟩
    cases r with
    | trivialLease => exact absurd (mem_of_find?_eq_some hr) hnot
    | leases count =>
      simp only [Blocked, hsame.maxLeases, hlg]
      omega
    | exclusiveAll =>
      by_cases hz : s.maxLeases = 0
      · refine .inr ?_
        rw [hacc'.trivialLeasesGranted, hz, ofUsize_zero, Multiset.count_cons_self]
        omega
      · exact .inl (by rwa [hlg])

end CocoonFs.SemaphoreWaiters
