import CocoonFs.SemaphoreWaiters

namespace CocoonFs.SemaphoreWakeups

open Runs Semaphore Semaphore.State SemaphoreLoop SemaphoreAccounts SemaphoreOps SemaphoreGrants List
open SemaphoreWaiters
open LeaseGrantCount (exclusiveAll leases trivialLease)

variable {s t : State} {i w n : Nat} {r : LeaseGrantCount} {a : Action} {o : Owner}
  {held : Multiset LeaseGrantCount} {after rest owners : List Owner} {returning : Prop}

def Returning (owners : List Owner) : Prop := ∃ at_, Owner.returning at_ ∈ owners

/-- A request is put on the queue only while it is still blocked: by the
outstanding grants or by requests that are queued already. Steps that put
nothing on the queue always meet this, and so do those that decide to wait and
enqueue in one, but for a trivial request that waits for an exclusive one which
is itself still being enqueued. -/
def PutWhileBlocked (sys : System) : Action → Prop
  | .finishEnqueue i (some _) => ∀ r capacity, sys.owners[i]? = some (.enqueueing r capacity) →
      StillBlocked sys.sem (Returning sys.owners) r
  | .acquireLeases n => n = 0 → sys.sem.hasExclusiveAllWaiters = true → sys.sem.tryReserve = .ready →
      StillBlocked sys.sem (Returning sys.owners) .trivialLease
  | _ => True

theorem settled_onSemaphore (h : Settled s returning) (hstands : Stands s held [] rest)
    (hle : (after ++ rest).length ≤ maxReferences)
    (hput : ∀ n, a = .acquireLeases n → n = 0 → s.hasExclusiveAllWaiters = true → s.tryReserve = .ready →
      StillBlocked s returning .trivialLease)
    (hp : System.onSemaphore s a = some (t, after)) : Settled t returning := by
  have hacc : Accounts s (offsetOf s) (pendingExclusives rest) held := hstands.accounts
  have hroom : (ownerRequests after).card = 1 → held.card + 1 ≤ maxReferences :=
    fun hcard => hstands.room hle hcard
  cases a with
  | acquireLeases n =>
    rcases hprep : s.prepareAcquireLeases n with ⟨prepared, u⟩
    simp only [System.onSemaphore, hprep] at hp
    cases hp
    have hs := settled_prepareAcquireLeases h hacc hstands.card_queue (n := n) (fun hg => by
      rw [hprep] at hg
      subst hg
      exact hroom rfl) (hput n rfl)
    rwa [hprep] at hs
  | acquireExclusiveAll =>
    rcases hprep : s.prepareAcquireExclusiveAll with ⟨prepared, u⟩
    simp only [System.onSemaphore, hprep] at hp
    cases hp
    have hs := settled_prepareAcquireExclusiveAll h hacc hstands.card_le fun hg => by
      rw [hprep] at hg
      subst hg
      exact hroom rfl
    rwa [hprep] at hs
  | tryAcquireLeases n =>
    rcases htry : s.tryAcquireLeasesLocked n with error | ⟨b, u⟩
    · simp only [System.onSemaphore, htry] at hp
      cases hp
      exact h
    · simp only [System.onSemaphore, htry] at hp
      cases hp
      cases b with
      | true => exact settled_tryAcquireLeasesLocked h hacc (hroom rfl) htry
      | false =>
        obtain rfl := tryAcquireLeasesLocked_false hacc htry
        exact h
  | tryAcquireExclusiveAll =>
    rcases htry : s.tryAcquireExclusiveAll with ⟨b, u⟩
    simp only [System.onSemaphore, htry] at hp
    cases hp
    have hcard := hstands.card_queue
    rw [Multiset.card_add] at hcard
    have hs := settled_tryAcquireExclusiveAll h hacc (by omega) fun hg => by
      rw [htry] at hg
      subst hg
      exact hroom rfl
    rwa [htry] at hs
  | _ => simp [System.onSemaphore] at hp

theorem settled_finishEnqueue {capacity : Nat} {allocated : Option Nat} (h : Settled s returning)
    (hstands : Stands s held [.enqueueing r capacity] rest)
    (hb : allocated.isSome = true → StillBlocked s returning r) :
    Settled (s.finishEnqueue r capacity allocated).2 returning := by
  have hacc := hstands.accounts
  have hcard := hstands.card_queue
  rw [Multiset.card_add] at hcard
  simp only [maxReferences] at hcard
  cases allocated with
  | none =>
    have hset : Settled { s with pendingReservations := s.pendingReservations - 1 } returning :=
      h.grow rfl rfl (Nat.le_refl _) (fun _ hne => hne) fun hg => hg
    have hacc' : Accounts { s with pendingReservations := s.pendingReservations - 1 } (offsetOf s)
        ((rest.map pendingExclusive).sum + exclusives r) held :=
      { hacc with }
    exact settled_enqueueFailed hset hacc' (by simp only [usize]; omega)
  | some c =>
    have hready : ∀ c', Settled (State.enqueueReady { s with
        pendingReservations := s.pendingReservations - 1
        capacity := c' } r) returning := by
      intro c'
      refine settled_enqueueReady (h.grow rfl rfl (Nat.le_refl _) (fun _ hne => hne) fun hg => hg) ?_
      have hb' := hb rfl
      cases r <;> exact hb'
    unfold State.finishEnqueue tryReserveEnd
    dsimp only
    split
    · rename_i heq
      split at heq <;> simp only [Prod.mk.injEq] at heq <;> obtain ⟨_, rfl⟩ := heq
      · exact hready s.capacity
      · exact hready c
    · rename_i heq
      split at heq <;> simp at heq

theorem returning_append_left (h : Returning rest) : Returning (after ++ rest) := by
  obtain ⟨at_, hmem⟩ := h
  exact ⟨at_, mem_append_right _ hmem⟩

theorem settled_dropTrivialGuard (h : Settled s (Returning rest))
    (hstands : Stands s held [.guard .trivialLease] rest)
    (hp : System.dropTrivialGuard s = (t, after)) : Settled t (Returning (after ++ rest)) := by
  cases hp
  obtain ⟨held', rfl⟩ := hstands.held_cons (r := .trivialLease) rfl
  refine settled_decTrivialLeasesGranted h (hstands.accounts_rest rfl) returning_append_left fun hone _ => ?_
  rw [if_pos hone]
  exact ⟨.firstLoad, mem_cons_self⟩

theorem settled_dropOwner (h : Settled s (Returning rest)) (hstands : Stands s held [o] rest)
    (hp : System.dropOwner s o = some (t, after)) : Settled t (Returning (after ++ rest)) := by
  cases o with
  | enqueueing r c => simp [System.dropOwner] at hp
  | returning at_ => simp [System.dropOwner] at hp
  | enqueued w r =>
    cases hp
    exact settled_cancelWaiter h hstands
  | granted r =>
    cases hp
    obtain ⟨held', rfl⟩ := hstands.held_cons (r := r) rfl
    exact settled_returnGrant h (hstands.accounts_rest rfl) (hstands.card_cons rfl)
  | guard r =>
    obtain ⟨held', rfl⟩ := hstands.held_cons (r := r) rfl
    have hacc := hstands.accounts_rest rfl
    cases r with
    | trivialLease =>
      simp only [System.dropOwner, Option.some.injEq] at hp
      exact settled_dropTrivialGuard h hstands hp
    | leases count =>
      cases hp
      exact settled_returnGrant h hacc (hstands.card_cons rfl)
    | exclusiveAll =>
      cases hp
      exact settled_returnGrant h hacc (hstands.card_cons rfl)

theorem settled_continueReturn {at_ : Return} (h : Settled s (Returning ([.returning at_] ++ rest)))
    (hstands : Stands s held [.returning at_] rest)
    (hp : System.continueReturn s at_ = (t, after)) : Settled t (Returning (after ++ rest)) := by
  cases at_ with
  | firstLoad =>
    cases hp
    exact h.mono fun _ => ⟨_, mem_cons_self⟩
  | secondLoad =>
    cases hp
    by_cases hz : s.leasesGranted = 0
    · rw [if_pos hz]
      exact h.mono fun _ => ⟨_, mem_cons_self⟩
    · rw [if_neg hz]
      refine ⟨fun r hr => .inl ?_, h.trivials⟩
      rcases h.first r hr with hb | ⟨rfl, _⟩
      · exact hb
      · exact .inl hz
  | wake =>
    cases hp
    exact settled_wakeCompletedWaiters hstands.card_queue (hstands.granting rfl)

theorem settled_pollOwner {waker : Nat} (h : Settled s returning) (hstands : Stands s held [o] rest)
    (hp : System.pollOwner s waker o = some (t, after)) : Settled t returning := by
  cases o with
  | enqueueing r c => simp [System.pollOwner] at hp
  | guard r => simp [System.pollOwner] at hp
  | returning at_ => simp [System.pollOwner] at hp
  | granted r =>
    cases hp
    exact h
  | enqueued w r =>
    have hs := settled_pollFuture h hstands waker
    rcases hpoll : s.pollFuture w r waker with ⟨_ | _ | _, u⟩ <;>
    · simp only [System.pollOwner, hpoll] at hp
      cases hp
      rwa [hpoll] at hs

theorem Stands.incTrivial_lt (hstands : Stands s held [o] rest) (hpend : pendingExclusive o = 0)
    (hroom : held.card + 1 ≤ maxReferences) : s.trivialLeasesGranted + 1 < usize := by
  have hcount := Multiset.count_le_card trivialLease held
  have hoff := offsetOf_le s
  simp only [maxReferences] at hroom
  rw [(hstands.accounts_rest hpend).trivialLeasesGranted]
  simp only [usize]
  omega

theorem settled_splitLeases {leases : Nat} (h : Settled s returning) (hstands : Stands s held [o] rest)
    (hle : (after ++ rest).length ≤ maxReferences)
    (hp : System.splitLeases s leases o = some (t, after)) : Settled t returning := by
  cases o with
  | enqueueing r c => simp [System.splitLeases] at hp
  | returning at_ => simp [System.splitLeases] at hp
  | enqueued w r => simp [System.splitLeases] at hp
  | granted r => simp [System.splitLeases] at hp
  | guard r =>
    cases r with
    | exclusiveAll => simp [System.splitLeases] at hp
    | _ =>
      simp only [System.splitLeases] at hp
      split at hp
      · cases hp
        exact h
      · cases hp
        split
        · exact settled_incTrivialLeasesGranted h (Stands.incTrivial_lt hstands rfl (hstands.room hle rfl))
        · exact h

theorem not_returning_singleton (ho : ∀ at_, o ≠ .returning at_)
    (h : Settled s (Returning ([o] ++ rest))) : Settled s (Returning rest) := by
  refine h.mono ?_
  rintro ⟨at_, hmem⟩
  rcases mem_cons.1 hmem with heq | hmem
  · exact absurd heq.symm (ho at_)
  · exact ⟨at_, hmem⟩

theorem settled_onOwner (h : Settled s (Returning ([o] ++ rest))) (hstands : Stands s held [o] rest)
    (hle : (after ++ rest).length ≤ maxReferences) (hcap : ∀ i m, a = .resizeFuture i m → m < 2 ^ 63)
    (hput : ∀ i capacity r c, a = .finishEnqueue i (some c) → o = .enqueueing r capacity →
      StillBlocked s (Returning ([o] ++ rest)) r)
    (hp : System.onOwner s o a = some (t, after)) : Settled t (Returning (after ++ rest)) := by
  cases a with
  | finishEnqueue i allocated =>
    cases o with
    | enqueueing r capacity =>
      have hs : Settled (s.finishEnqueue r capacity allocated).2 (Returning rest) := by
        refine not_returning_singleton (by simp)
          (settled_finishEnqueue h hstands fun hsome => ?_)
        obtain ⟨c, rfl⟩ := Option.isSome_iff_exists.1 hsome
        exact hput i capacity r c rfl rfl
      simp only [System.onOwner] at hp
      split at hp
      · rcases hf : s.finishEnqueue r capacity allocated with ⟨_ | w, u⟩
        · simp only [hf] at hp
          cases hp
          rw [hf] at hs
          exact hs.mono returning_append_left
        · simp only [hf] at hp
          cases hp
          rw [hf] at hs
          exact hs.mono returning_append_left
      · simp at hp
    | _ => simp [System.onOwner] at hp
  | continueReturn i =>
    cases o with
    | returning at_ => exact settled_continueReturn h hstands (Option.some.inj hp)
    | _ => simp [System.onOwner] at hp
  | poll i waker =>
    have hnr : ∀ at_, o ≠ .returning at_ := by
      rintro at_ rfl
      simp [System.onOwner, System.pollOwner] at hp
    exact (settled_pollOwner (not_returning_singleton hnr h) hstands hp).mono returning_append_left
  | drop i =>
    have hnr : ∀ at_, o ≠ .returning at_ := by
      rintro at_ rfl
      simp [System.onOwner, System.dropOwner] at hp
    exact settled_dropOwner (not_returning_singleton hnr h) hstands hp
  | splitLeases i leases =>
    have hnr : ∀ at_, o ≠ .returning at_ := by
      rintro at_ rfl
      simp [System.onOwner, System.splitLeases] at hp
    exact (settled_splitLeases (not_returning_singleton hnr h) hstands hle hp).mono returning_append_left
  | spawnTrivialLease i =>
    cases o with
    | guard r =>
      have hs := not_returning_singleton (by simp) h
      cases r with
      | exclusiveAll => simp [System.onOwner] at hp
      | _ =>
        cases hp
        have hlt := Stands.incTrivial_lt hstands rfl (hstands.room hle rfl)
        exact (settled_incTrivialLeasesGranted hs hlt).mono returning_append_left
    | _ => simp [System.onOwner] at hp
  | leak i =>
    cases o with
    | guard r =>
      have hs := not_returning_singleton (by simp) h
      cases r with
      | exclusiveAll => simp [System.onOwner, System.leak] at hp
      | trivialLease =>
        simp only [System.onOwner, System.leak, Option.some.injEq] at hp
        exact settled_dropTrivialGuard hs hstands hp
      | leases count =>
        cases hp
        obtain ⟨held', rfl⟩ := hstands.held_cons (r := .leases count) rfl
        exact settled_leakLeases hs (hstands.accounts_rest rfl) (hstands.card_cons rfl)
    | _ => simp [System.onOwner, System.leak] at hp
  | resizeFuture i m =>
    cases o with
    | guard r =>
      cases r with
      | exclusiveAll =>
        simp only [System.onOwner] at hp
        split at hp
        · cases hp
          obtain ⟨held', rfl⟩ := hstands.held_cons (r := .exclusiveAll) rfl
          exact settled_resizeFuture (hcap i m rfl) (hstands.accounts_rest rfl) hstands.card_queue
        · simp at hp
      | _ => simp [System.onOwner] at hp
    | _ => simp [System.onOwner] at hp
  | downgrade i =>
    cases o with
    | guard r =>
      cases r with
      | exclusiveAll =>
        cases hp
        obtain ⟨held', rfl⟩ := hstands.held_cons (r := .exclusiveAll) rfl
        have hcard := hstands.card_queue
        rw [Multiset.cons_add, Multiset.card_cons, ← Multiset.card_cons (.ofUsize s.maxLeases),
          ← Multiset.cons_add] at hcard
        exact settled_downgrade (hstands.accounts_rest rfl) hcard
      | _ => simp [System.onOwner] at hp
    | _ => simp [System.onOwner] at hp
  | _ => simp [System.onOwner] at hp

theorem returning_perm {owners' : List Owner} (h : owners.Perm owners') :
    Returning owners ↔ Returning owners' :=
  exists_congr fun _ => h.mem_iff

theorem settled_step {sys sys' : System} (hinv : Inv sys) (h : Settled sys.sem (Returning sys.owners))
    (hsmall : SmallCapacity sys a) (hput : PutWhileBlocked sys a) (hst : sys.step a = some sys') :
    Settled sys'.sem (Returning sys'.owners) := by
  obtain ⟨hle, ⟨new, hon, howners⟩ | ⟨i, o, new, htarget, ho, hon, howners⟩⟩ := step_cases hst
  · have hafter : sys'.owners.Perm (new ++ sys.owners) := howners ▸ perm_append_comm
    have hs := settled_onSemaphore h (stands_of_inv hinv (.refl _)) (hafter.length_eq ▸ hle)
      (fun n ha hn => by
        subst ha
        exact hput hn) hon
    exact hs.mono fun hret => (returning_perm hafter).2 (returning_append_left hret)
  · obtain ⟨hi, rfl⟩ := List.getElem?_eq_some_iff.1 ho
    have hbefore : sys.owners.Perm ([sys.owners[i]] ++ sys.owners.eraseIdx i) :=
      (getElem_cons_eraseIdx_perm hi).symm
    have hafter : sys'.owners.Perm (new ++ sys.owners.eraseIdx i) := howners ▸ perm_append_comm
    have hs := settled_onOwner (h.mono (returning_perm hbefore).1) (stands_of_inv hinv hbefore)
      (hafter.length_eq ▸ hle) hsmall (fun j capacity r c ha hown => by
        subst ha
        obtain rfl : j = i := by simpa [System.target] using htarget
        have hb := hput r capacity (by rw [ho, hown])
        cases r with
        | trivialLease => exact hb
        | leases count => exact hb
        | exclusiveAll => exact hb.imp_right (Or.imp_right (Or.imp_right (returning_perm hbefore).1))) hon
    exact hs.mono (returning_perm hafter).2

def quiet (sys : System) : Bool :=
  sys.owners.all fun
    | .enqueueing _ _ => false
    | .returning _ => false
    | _ => true

/-- The first queued request that fits the capacity faces the outstanding
grants, and a trivial one an exclusive grant or request ahead. -/
structure NoneGrantable (sys : System) : Prop where
  leases : ∀ count, firstFitting sys.sem = some (.leases count) →
    exclusiveAll ∈ outstanding sys ∨
      sys.sem.maxLeases < ((outstanding sys).map LeaseGrantCount.count).sum + count
  exclusive : firstFitting sys.sem = some .exclusiveAll → outstanding sys ≠ []
  trivials : ∀ j : Nat, (asked sys.sem)[j]? = some trivialLease →
    exclusiveAll ∈ outstanding sys ∨
      ∃ i : Nat, i < j ∧ (asked sys.sem)[i]? = some exclusiveAll

theorem exists_exclusive_ahead {l : List LeaseGrantCount} {j : Nat} (h : TrivialsBehind l)
    (hj : l[j]? = some .trivialLease) : ∃ i, i < j ∧ l[i]? = some .exclusiveAll := by
  induction l generalizing j with
  | nil => simp at hj
  | cons a l ih =>
    by_cases ha : a = .exclusiveAll
    · subst ha
      cases j with
      | zero => simp at hj
      | succ j => exact ⟨0, Nat.succ_pos j, rfl⟩
    · have hcons : TrivialsBehind l ∧ a ≠ .trivialLease := by
        simp only [TrivialsBehind, takeWhile_cons, ha, ne_eq, not_false_eq_true, decide_true,
          if_true, mem_cons, forall_eq_or_imp] at h
        exact ⟨h.2, h.1⟩
      cases j with
      | zero => exact absurd (by simpa using hj) hcons.2
      | succ j =>
        obtain ⟨i, hi, hx⟩ := ih hcons.1 (by simpa using hj)
        exact ⟨i + 1, Nat.succ_lt_succ hi, by simpa using hx⟩

theorem noneGrantable_of_settled {sys : System} (hinv : Inv sys) (h : Settled sys.sem False) :
    NoneGrantable sys := by
  have hsound := sound_of_inv hinv
  have hblocked : ∀ r, firstFitting sys.sem = some r → Blocked sys.sem r := fun r hr =>
    (h.first r hr).resolve_right fun hx => hx.2
  refine ⟨?_, ?_, ?_⟩
  · intro count hf
    have hb := hblocked _ hf
    by_cases hx : exclusiveAll ∈ outstanding sys
    · exact .inl hx
    · refine .inr ?_
      have hlg := hsound.leasesGranted
      rw [if_neg hx] at hlg
      simpa only [Blocked, hlg] using hb
  · intro hf hnone
    have hmem := mem_of_find?_eq_some hf
    have hpos := exclusive_asked_pos hinv.accounts hmem
    have hlg := hsound.leasesGranted
    have htriv := hsound.trivialLeasesGranted
    rw [hnone] at hlg htriv
    rw [if_neg hpos] at htriv
    rcases hblocked _ hf with hb | hb
    · exact hb (by simpa using hlg)
    · exact hb (by simpa using htriv)
  · intro j hj
    rcases h.trivials with hg | hb
    · exact .inl (Multiset.mem_coe.1 (hinv.accounts.isExclusiveAllGranted.1 hg))
    · exact .inr (exists_exclusive_ahead hb hj)

theorem settled_new (m : Nat) : Settled (State.new m) returning :=
  ⟨by simp [firstFitting, asked, State.new], .inr (by simp [TrivialsBehind, asked, State.new])⟩

theorem not_returning_of_quiet {sys : System} (h : quiet sys = true) : ¬ Returning sys.owners := by
  rintro ⟨at_, hmem⟩
  have hall := all_eq_true.1 h _ hmem
  cases hall

theorem no_lost_wakeup (m : Nat) (hm : m < 2 ^ 63) (sys : System)
    (h : Reached System.step (fun sys a => SmallCapacity sys a ∧ PutWhileBlocked sys a)
      (System.new m) sys) (hquiet : quiet sys = true) : NoneGrantable sys := by
  have hall : Inv sys ∧ Settled sys.sem (Returning sys.owners) :=
    h.invariant (P := fun sys => Inv sys ∧ Settled sys.sem (Returning sys.owners))
      ⟨inv_new hm, settled_new m⟩ fun s a t hs hallowed hst =>
      ⟨inv_step hs.1 hallowed.1 hst, settled_step hs.1 hs.2 hallowed.1 hallowed.2 hst⟩
  exact noneGrantable_of_settled hall.1 (hall.2.mono (not_returning_of_quiet hquiet))

/-- A request that is enqueued with nothing in between waits for the lease. -/
theorem no_lost_wakeup_held : ∃ sys, Reached System.step
      (fun sys a => SmallCapacity sys a ∧ PutWhileBlocked sys a) (System.new 1) sys ∧
    quiet sys = true ∧ sys.sem.queue ≠ [] ∧ NoneGrantable sys := by
  have h₁ : Reached System.step (fun sys a => SmallCapacity sys a ∧ PutWhileBlocked sys a)
      (System.new 1) _ :=
    .next (.tryAcquireLeases 1) .start ⟨by simp [SmallCapacity], trivial⟩ rfl
  have h₂ := h₁.next (.acquireLeases 1) ⟨by simp [SmallCapacity], by simp [PutWhileBlocked]⟩ rfl
  have h₃ := h₂.next (.finishEnqueue 1 (some 4)) ⟨by simp [SmallCapacity], by
    rintro r capacity hr
    obtain rfl : leases ⟨1, by decide⟩ = r := by
      cases hr
      rfl
    exact .inr (by decide)⟩ rfl
  exact ⟨_, h₃, rfl, by decide, no_lost_wakeup 1 (by decide) _ h₃ rfl⟩

/-- The lease is returned while the request that waits for it is being enqueued. -/
theorem wakeup_lost_while_enqueueing : ∃ sys, execute System.step (System.new 1)
    [.tryAcquireLeases 1, .acquireLeases 1, .drop 0, .finishEnqueue 0 (some 4)] = some sys ∧
    quiet sys = true ∧ outstanding sys = [] ∧ ¬ NoneGrantable sys := by
  refine ⟨_, rfl, rfl, rfl, ?_⟩
  intro h
  have hleases := h.leases ⟨1, by decide⟩ rfl
  revert hleases
  decide

end CocoonFs.SemaphoreWakeups
