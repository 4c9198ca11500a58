import CocoonFs.SemaphoreOps

namespace CocoonFs.SemaphoreGrants

open Runs Semaphore Semaphore.State SemaphoreLoop SemaphoreAccounts SemaphoreOps List
open LeaseGrantCount (exceeds ofUsize trivialLease)
open Multiset (add_cons card_add coe_add coe_singleton cons_add map_add map_coe mem_coe mem_of_le
  nodup_of_le singleton_add zero_le)
open Prod (fst snd)
open State (new setWaker)

variable {s t : State} {i w n pending : Nat} {e : QueueEntry} {r : LeaseGrantCount}
  {held : Multiset LeaseGrantCount} {owners before after rest : List Owner} {queue : List QueueEntry}

/-- What is granted to an owner: a future counts from when its request has left
the queue. -/
def grantOf (queue : List QueueEntry) : Owner → Option LeaseGrantCount
  | .enqueued waiterId leasesRequested =>
    if queue.any fun entry => entry.waiterId == waiterId then none else some leasesRequested
  | .granted leasesGranted => some leasesGranted
  | .guard leasesGranted => some leasesGranted
  | _ => none

def outstanding (s : System) : List LeaseGrantCount := s.owners.filterMap (grantOf s.sem.queue)

structure Sound (s : System) : Prop where
  leases_le : ((outstanding s).map LeaseGrantCount.count).sum ≤ s.sem.maxLeases
  exclusive_le : (outstanding s).count .exclusiveAll ≤ 1
  exclusive_alone :
    LeaseGrantCount.exclusiveAll ∈ outstanding s → outstanding s = [LeaseGrantCount.exclusiveAll]
  leasesGranted : s.sem.leasesGranted =
    if LeaseGrantCount.exclusiveAll ∈ outstanding s then s.sem.maxLeases + 1
    else ((outstanding s).map LeaseGrantCount.count).sum
  trivialLeasesGranted : s.sem.trivialLeasesGranted =
    (outstanding s).count .trivialLease + if s.sem.enqueuedExclusiveAllWaiters = 0 then 1 else 0
  wrapped : s.sem.wrapped = false

def ownerKey : Owner → Option (Nat × LeaseGrantCount)
  | .enqueued waiterId leasesRequested => some (waiterId, leasesRequested)
  | _ => none

def ownerKeys (owners : List Owner) : Multiset (Nat × LeaseGrantCount) := owners.filterMap ownerKey

def ownerRequest : Owner → Option LeaseGrantCount
  | .enqueued _ leasesRequested => some leasesRequested
  | .granted leasesGranted => some leasesGranted
  | .guard leasesGranted => some leasesGranted
  | _ => none

def ownerRequests (owners : List Owner) : Multiset LeaseGrantCount := owners.filterMap ownerRequest

def pendingExclusive : Owner → Nat
  | .enqueueing leasesRequested _ => exclusives leasesRequested
  | _ => 0

def pendingExclusives (owners : List Owner) : Nat := (owners.map pendingExclusive).sum

@[simp] theorem ownerRequests_nil : ownerRequests [] = 0 := rfl

@[simp] theorem ownerRequests_cons (o : Owner) (owners : List Owner) :
    ownerRequests (o :: owners) = (ownerRequest o).toList + ownerRequests owners := by
  cases ho : ownerRequest o <;> simp [ownerRequests, ho]

theorem ownerKeys_append (owners owners' : List Owner) :
    ownerKeys (owners ++ owners') = ownerKeys owners + ownerKeys owners' := by
  simp [ownerKeys, filterMap_append]

theorem ownerRequests_append (owners owners' : List Owner) :
    ownerRequests (owners ++ owners') = ownerRequests owners + ownerRequests owners' := by
  simp [ownerRequests, filterMap_append]

theorem pendingExclusives_append (owners owners' : List Owner) :
    pendingExclusives (owners ++ owners') = pendingExclusives owners + pendingExclusives owners' := by
  simp [pendingExclusives]

theorem ownerKeys_perm (h : owners.Perm before) : ownerKeys owners = ownerKeys before :=
  Multiset.coe_eq_coe.2 (h.filterMap _)

theorem ownerRequests_perm (h : owners.Perm before) : ownerRequests owners = ownerRequests before :=
  Multiset.coe_eq_coe.2 (h.filterMap _)

theorem pendingExclusives_perm (h : owners.Perm before) :
    pendingExclusives owners = pendingExclusives before :=
  (h.map _).sum_eq

/-- The futures own the queued requests, each under an id of its own. -/
structure Matched (owners : List Owner) (queue : List QueueEntry) (lastWaiterId : Nat) : Prop where
  nodup : ((ownerKeys owners).map fst).Nodup
  queued : (keys queue : Multiset (Nat × LeaseGrantCount)) ≤ ownerKeys owners
  le_last : ∀ k ∈ ownerKeys owners, k.1 ≤ lastWaiterId

theorem Matched.nodup_keys (h : Matched owners queue n) : ((keys queue).map fst).Nodup := by
  have hle := Multiset.map_le_map h.queued (f := fst)
  exact Multiset.coe_nodup.1 (nodup_of_le hle h.nodup)

theorem any_waiterId_iff : (queue.any fun entry => entry.waiterId == w) = true ↔
    w ∈ (keys queue).map fst := by
  simp [SemaphoreAccounts.keys]

theorem Matched.mem_of_id (h : Matched owners queue n) (hk : (w, r) ∈ ownerKeys owners)
    (hw : w ∈ (keys queue).map fst) : (w, r) ∈ keys queue := by
  obtain ⟨k, hmem, rfl⟩ := mem_map.1 hw
  have hin : k ∈ ownerKeys owners := mem_of_le h.queued (Multiset.mem_coe.2 hmem)
  have heq : (k.1, r) = k := Multiset.inj_on_of_nodup_map h.nodup _ hk _ hin rfl
  rwa [heq]

theorem grants_perm_requests (queue : List QueueEntry) (owners : List Owner) :
    (owners.filterMap (grantOf queue) ++
      ((owners.filterMap ownerKey).filter fun k => k.1 ∈ (keys queue).map fst).map snd).Perm
      (owners.filterMap ownerRequest) := by
  induction owners with
  | nil => exact .refl _
  | cons o owners ih =>
    cases o with
    | enqueueing r c => simpa [filterMap_cons, ownerKey, ownerRequest, grantOf] using ih
    | returning at_ => simpa [filterMap_cons, ownerKey, ownerRequest, grantOf] using ih
    | granted r => simpa [filterMap_cons, ownerKey, ownerRequest, grantOf] using ih
    | guard r => simpa [filterMap_cons, ownerKey, ownerRequest, grantOf] using ih
    | enqueued w r =>
      by_cases hw : w ∈ (keys queue).map fst
      · have hany := any_waiterId_iff.2 hw
        simp only [filterMap_cons, grantOf, hany, if_true, ownerKey, ownerRequest,
          filter_cons, hw, decide_true, map_cons]
        exact perm_middle.trans (ih.cons r)
      · have hany : (queue.any fun entry => entry.waiterId == w) = false := by
          rw [← Bool.not_eq_true, any_waiterId_iff]
          exact hw
        simp only [filterMap_cons, grantOf, hany, ownerKey, ownerRequest,
          filter_cons, hw, decide_false]
        exact ih.cons r

theorem Matched.filter_ownerKeys (h : Matched owners queue n) :
    (ownerKeys owners).filter (fun k => k.1 ∈ (keys queue).map fst) = keys queue := by
  have hnodup := h.nodup.of_map
  refine (Multiset.Nodup.ext (hnodup.filter _) (nodup_of_le h.queued hnodup)).2 ?_
  intro k
  rw [Multiset.mem_filter, mem_coe]
  constructor
  · rintro ⟨hk, hw⟩
    exact h.mem_of_id hk hw
  · intro hk
    exact ⟨mem_of_le h.queued (Multiset.mem_coe.2 hk), mem_map_of_mem hk⟩

variable {sys sys' : System} {o : Owner} {m : Nat} {a : Action}

theorem Matched.outstanding_add_requests (h : Matched sys.owners sys.sem.queue n) :
    (outstanding sys : Multiset LeaseGrantCount) + requests sys.sem.queue = ownerRequests sys.owners := by
  have hperm := Multiset.coe_eq_coe.2 (grants_perm_requests sys.sem.queue sys.owners)
  have hfilter := congrArg (Multiset.map snd) h.filter_ownerKeys
  rw [ownerKeys, Multiset.filter_coe, map_coe, map_coe] at hfilter
  rw [← coe_add, hfilter, ← requests_eq_keys] at hperm
  exact hperm

structure Inv (sys : System) : Prop where
  accounts : Accounts sys.sem (offsetOf sys.sem) (pendingExclusives sys.owners) (outstanding sys)
  matched : Matched sys.owners sys.sem.queue sys.sem.lastWaiterId
  owners_le : sys.owners.length ≤ maxReferences

theorem card_ownerRequests_le (owners : List Owner) :
    (ownerRequests owners).card + pendingExclusives owners ≤ owners.length := by
  induction owners with
  | nil => exact le_refl _
  | cons o owners ih =>
    have hle : ((ownerRequest o).toList.length) + pendingExclusive o ≤ 1 := by
      cases o with
      | enqueueing r c =>
        simp only [ownerRequest, pendingExclusive, exclusives, Option.toList_none, length_nil]
        split <;> omega
      | _ => simp [ownerRequest, pendingExclusive]
    rw [ownerRequests_cons, card_add, Multiset.coe_card]
    simp only [pendingExclusives, map_cons, sum_cons, length_cons] at ih ⊢
    omega

/-- A step as the semaphore sees it, from the owner it is about to what replaces
it. -/
structure Effect (s t : State) (held : Multiset LeaseGrantCount) (before after rest : List Owner) :
    Prop where
  accounts : ∃ held', Accounts t (offsetOf t) (pendingExclusives rest + pendingExclusives after) held' ∧
    held' + requests t.queue + ownerRequests before = held + requests s.queue + ownerRequests after
  matched : Matched (after ++ rest) t.queue t.lastWaiterId

theorem Matched.perm (h : Matched owners queue n) (hperm : owners.Perm before) :
    Matched before queue n := by
  have hkeys := ownerKeys_perm hperm
  exact ⟨hkeys ▸ h.nodup, hkeys ▸ h.queued, hkeys ▸ h.le_last⟩

theorem inv_of_effect (h : Inv sys) (hbefore : sys.owners.Perm (before ++ rest))
    (hafter : sys'.owners.Perm (after ++ rest)) (hle : sys'.owners.length ≤ maxReferences)
    (heff : Effect sys.sem sys'.sem (outstanding sys) before after rest) :
    Inv sys' := by
  obtain ⟨held', hacc, heq⟩ := heff.accounts
  have hmatched := heff.matched.perm hafter.symm
  have hout := hmatched.outstanding_add_requests
  have hpend := pendingExclusives_perm hafter
  rw [pendingExclusives_append, add_comm] at hpend
  have hheld : (outstanding sys' : Multiset LeaseGrantCount) = held' := by
    have hreq := ownerRequests_perm hbefore
    have hreq' := ownerRequests_perm hafter
    rw [ownerRequests_append] at hreq hreq'
    rw [hreq'] at hout
    rw [h.matched.outstanding_add_requests, hreq] at heq
    have hsum : held' + requests sys'.sem.queue + ownerRequests before =
        (outstanding sys' : Multiset LeaseGrantCount) + requests sys'.sem.queue + ownerRequests before := by
      rw [heq, hout]
      ac_rfl
    exact (add_right_cancel (add_right_cancel hsum)).symm
  refine ⟨?_, hmatched, hle⟩
  rw [hheld, hpend]
  exact hacc

/-- What a step may rely on, with the owner it is about set apart. -/
structure Stands (s : State) (held : Multiset LeaseGrantCount) (before rest : List Owner) : Prop where
  accounts : Accounts s (offsetOf s) (pendingExclusives rest + pendingExclusives before) held
  matched : Matched (before ++ rest) s.queue s.lastWaiterId
  grants : ∀ o ∈ before, ∀ r, grantOf s.queue o = some r → r ∈ held
  sum_eq : held + requests s.queue = ownerRequests (before ++ rest)
  owners_le : (before ++ rest).length ≤ maxReferences

theorem stands_of_inv (h : Inv sys) (hperm : sys.owners.Perm (before ++ rest)) :
    Stands sys.sem (outstanding sys) before rest := by
  have hpend := pendingExclusives_perm hperm
  refine ⟨?_, h.matched.perm hperm, ?_, ?_, ?_⟩
  · rw [pendingExclusives_append, add_comm] at hpend
    rw [← hpend]
    exact h.accounts
  · intro o ho r hr
    have hmem : o ∈ sys.owners := hperm.mem_iff.2 (mem_append_left _ ho)
    exact Multiset.mem_coe.2 (mem_filterMap.2 ⟨o, hmem, hr⟩)
  · rw [h.matched.outstanding_add_requests, ownerRequests_perm hperm]
  · rw [← hperm.length_eq]
    exact h.owners_le

theorem Matched.replace (h : Matched (before ++ rest) queue n) {queue' : List QueueEntry}
    (hkeys : (keys queue').Sublist (keys queue)) (hafter : ownerKeys after = 0)
    (hgone : ∀ k ∈ ownerKeys before, k ∉ keys queue') : Matched (after ++ rest) queue' n := by
  obtain ⟨hnodup, hqueued, hlast⟩ := h
  rw [ownerKeys_append] at hnodup hqueued hlast
  have hrest : ownerKeys (after ++ rest) = ownerKeys rest := by
    rw [ownerKeys_append, hafter, zero_add]
  refine ⟨?_, ?_, ?_⟩
  · rw [hrest]
    rw [map_add] at hnodup
    exact (Multiset.nodup_add.1 hnodup).2.1
  · rw [hrest, Multiset.le_iff_count]
    intro k
    have hle := Multiset.le_iff_count.1 ((Multiset.coe_le.2 hkeys.subperm).trans hqueued) k
    rw [Multiset.count_add] at hle
    by_cases hk : k ∈ ownerKeys before
    · rw [Multiset.count_eq_zero.2 (fun hmem => hgone k hk (Multiset.mem_coe.1 hmem))]
      exact Nat.zero_le _
    · rwa [Multiset.count_eq_zero.2 hk, zero_add] at hle
  · rw [hrest]
    intro k hk
    exact hlast k (Multiset.mem_add.2 (.inr hk))

variable {held' : Multiset LeaseGrantCount}

section

variable (h : Stands s held before rest)
include h

theorem effect_of_granting {s₀ : State} {total : Multiset LeaseGrantCount}
    (hg : Granting (pendingExclusives rest) total s₀ t)
    (hkeys : (keys s₀.queue).Sublist (keys s.queue)) (hlast : s₀.lastWaiterId = s.lastWaiterId)
    (htotal : total + ownerRequests before = held + requests s.queue + ownerRequests after)
    (hafter : ownerKeys after = 0) (hpend : pendingExclusives after = 0)
    (hgone : ∀ k ∈ ownerKeys before, k ∉ keys t.queue) : Effect s t held before after rest := by
  obtain ⟨held', hacc, hsum⟩ := hg.accounts
  refine ⟨⟨held', ?_, ?_⟩, ?_⟩
  · rw [hpend]
    exact hacc
  · rw [hsum, htotal]
  · rw [hg.lastWaiterId, hlast]
    exact h.matched.replace (hg.keys.trans hkeys) hafter hgone

theorem effect_of_accounts
    (hacc : Accounts t (offsetOf t) (pendingExclusives rest + pendingExclusives after) held')
    (hsame : SameKeys s t) (hheld : held' + ownerRequests before = held + ownerRequests after)
    (hbefore : ownerKeys before = 0) (hafter : ownerKeys after = 0) :
    Effect s t held before after rest := by
  refine ⟨⟨held', hacc, ?_⟩, ?_⟩
  · rw [requests_congr hsame.keys, add_right_comm, hheld, add_right_comm]
  · rw [hsame.lastWaiterId]
    refine h.matched.replace (by rw [hsame.keys]) hafter ?_
    simp [hbefore]

theorem effect_of_acquired {prepared : Prepared}
    (ha : Acquired (pendingExclusives rest) held r s t prepared) (hbefore : ownerKeys before = 0)
    (hreq : ownerRequests before = 0) :
    Effect s t held before (System.owned r prepared) rest := by
  cases prepared with
  | granted =>
    refine effect_of_accounts h (by simpa [System.owned, pendingExclusives, pendingExclusive] using ha.2)
      ha.1 ?_ hbefore rfl
    rw [hreq]
    simp only [System.owned, ownerRequests_cons, ownerRequests_nil, ownerRequest, add_zero]
    rw [add_comm]
    rfl
  | reallocating capacity =>
    refine effect_of_accounts h (by simpa [System.owned, pendingExclusives, pendingExclusive] using ha.2)
      ha.1 ?_ hbefore rfl
    rw [hreq]
    simp [System.owned, ownerRequest]
  | failed error =>
    refine effect_of_accounts h (by simpa [System.owned, pendingExclusives] using ha.2)
      ha.1 ?_ hbefore rfl
    rw [hreq]
    simp [System.owned]
  | enqueued waiterId =>
    obtain ⟨hid, hlast, hkeys, hacc⟩ := ha
    obtain ⟨hnodup, hqueued, hle⟩ := h.matched
    rw [ownerKeys_append, hbefore, zero_add] at hnodup hqueued hle
    have hafter : ownerKeys (System.owned r (.enqueued waiterId) ++ rest) =
        (waiterId, r) ::ₘ ownerKeys rest := by
      simp [System.owned, ownerKeys, ownerKey]
    refine ⟨⟨held, by simpa [System.owned, pendingExclusives, pendingExclusive] using hacc, ?_⟩, ?_, ?_, ?_⟩
    · rw [requests_eq_keys, hkeys, requests_eq_keys, hreq]
      simp [System.owned, ownerRequest, ← coe_add]
      ac_rfl
    · rw [hafter, Multiset.map_cons, Multiset.nodup_cons]
      refine ⟨?_, hnodup⟩
      intro hmem
      obtain ⟨k, hk, hkid⟩ := Multiset.mem_map.1 hmem
      have hkle := hle k hk
      omega
    · rw [hafter, hkeys, ← coe_add, add_comm]
      exact Multiset.cons_le_cons _ hqueued
    · rw [hafter, hlast]
      intro k hk
      rcases Multiset.mem_cons.1 hk with rfl | hk
      · exact le_of_eq hid
      · exact (hle k hk).trans (Nat.le_succ _)

end

theorem Stands.held_cons (h : Stands s held [o] rest) (ho : grantOf s.queue o = some r) :
    ∃ held', held = r ::ₘ held' :=
  Multiset.exists_cons_of_mem (h.grants o (mem_singleton.2 rfl) r ho)

theorem Stands.granting (h : Stands s held [o] rest) (hpend : pendingExclusive o = 0) :
    Granting (pendingExclusives rest) (held + requests s.queue) s s := by
  have hacc := h.accounts
  simp only [pendingExclusives, map_cons, map_nil, sum_cons, sum_nil, hpend, add_zero] at hacc
  exact granting_of_accounts hacc rfl rfl rfl

theorem Stands.accounts_rest (h : Stands s held [o] rest) (hpend : pendingExclusive o = 0) :
    Accounts s (offsetOf s) (pendingExclusives rest) held := by
  have hacc := h.accounts
  simpa [pendingExclusives, hpend] using hacc

section

variable (h : Stands s held before rest)
include h

theorem Stands.card_le :
    (held + requests s.queue).card + pendingExclusives (before ++ rest) ≤ maxReferences := by
  rw [h.sum_eq]
  exact (card_ownerRequests_le _).trans h.owners_le

theorem Stands.card_queue :
    (held + requests s.queue).card ≤ maxReferences :=
  (Nat.le_add_right _ _).trans h.card_le

theorem Stands.room (hle : (after ++ rest).length ≤ maxReferences)
    (hcard : (ownerRequests after).card = (ownerRequests before).card + 1) :
    held.card + 1 ≤ maxReferences := by
  have hlen := card_ownerRequests_le (after ++ rest)
  have hsum := congrArg Multiset.card h.sum_eq
  simp only [ownerRequests_append, card_add] at hlen hsum
  omega

theorem Stands.card_cons
    (hheld : held = r ::ₘ held') : (held' + requests s.queue).card ≤ maxReferences := by
  have hcard := h.card_queue
  rw [hheld, cons_add, Multiset.card_cons] at hcard
  omega

end

theorem Stands.entry_eq (h : Stands s held [.enqueued w r] rest) (hpos : s.waiterPosition w = some i) :
    ∃ e, s.queue[i]? = some e ∧ e.waiterId = w ∧ e.leasesRequested = r := by
  obtain ⟨e, hq, hid⟩ := waiterPosition_some hpos
  have hmem : (e.waiterId, e.leasesRequested) ∈ keys s.queue :=
    mem_map.2 ⟨e, mem_of_getElem? hq, rfl⟩
  have hin := mem_of_le h.matched.queued (Multiset.mem_coe.2 hmem)
  have hown : (w, r) ∈ ownerKeys ([Owner.enqueued w r] ++ rest) := by
    simp [ownerKeys, ownerKey]
  have heq := Multiset.inj_on_of_nodup_map h.matched.nodup _ hin _ hown hid
  exact ⟨e, hq, hid, congrArg snd heq⟩

theorem not_mem_of_sublist {l l' : List (Nat × LeaseGrantCount)} (h : l.Sublist l')
    (hw : w ∉ l'.map fst) : (w, r) ∉ l :=
  fun hmem => hw (mem_map.2 ⟨(w, r), h.subset hmem, rfl⟩)

/-- Granting what a future waits for, or a guard holds, back to the semaphore. -/
theorem effect_returnGrant (h : Stands s held [o] rest) (ho : grantOf s.queue o = some r)
    (hreq : ownerRequest o = some r) (hpend : pendingExclusive o = 0)
    (hgone : ∀ k ∈ ownerKeys [o], k.1 ∉ (keys s.queue).map fst) :
    Effect s (s.returnGrant r) held [o] [] rest := by
  obtain ⟨held', hheld⟩ := h.held_cons ho
  have hacc := h.accounts_rest hpend
  rw [hheld] at hacc
  have hg := granting_returnGrant hacc (h.card_cons hheld)
  refine effect_of_granting h hg (.refl _) rfl ?_ rfl rfl ?_
  · simp only [ownerRequests_cons, hreq, ownerRequests_nil, add_zero, hheld, cons_add]
    exact add_comm _ _
  · intro k hk
    exact not_mem_of_sublist hg.keys (hgone k hk)

theorem effect_cancelWaiter (h : Stands s held [.enqueued w r] rest) :
    Effect s (s.cancelWaiter w r) held [.enqueued w r] [] rest := by
  cases hpos : s.waiterPosition w with
  | none =>
    have hw := waiterPosition_none hpos
    have hany : (s.queue.any fun entry => entry.waiterId == w) = false := by
      rw [← Bool.not_eq_true, any_waiterId_iff]
      exact hw
    rw [State.cancelWaiter, hpos]
    refine effect_returnGrant h (by simp [grantOf, hany]) rfl rfl ?_
    intro k hk
    obtain rfl := Multiset.mem_singleton.1 hk
    exact hw
  | some i =>
    obtain ⟨e, hq, hid, hr⟩ := h.entry_eq hpos
    have hg := granting_cancelWaiter (h.accounts_rest rfl) hpos hq hr h.card_queue
    have hreq := requests_eraseIdx hq
    rw [hr] at hreq
    have hgone := not_mem_keys_eraseIdx h.matched.nodup_keys hq
    rw [hid] at hgone
    have hkeys : keys (s.removeEntry i).queue = keys (s.queue.eraseIdx i) := by
      rw [queue_removeEntry]
    refine effect_of_granting h hg ?_ (lastWaiterId_removeEntry s i) ?_ rfl rfl ?_
    · rw [hkeys]
      exact keys_eraseIdx _ _
    · rw [hreq]
      simp only [ownerRequests_cons, ownerRequest, ownerRequests_nil, add_zero, add_cons]
      exact add_comm _ _
    · intro k hk
      obtain rfl := Multiset.mem_singleton.1 hk
      exact not_mem_of_sublist (hkeys ▸ hg.keys) hgone

theorem effect_pollOwner {waker : Nat} (h : Stands s held [o] rest)
    (hp : System.pollOwner s waker o = some (t, after)) : Effect s t held [o] after rest := by
  cases o with
  | enqueueing r c => simp [System.pollOwner] at hp
  | guard r => simp [System.pollOwner] at hp
  | returning at_ => simp [System.pollOwner] at hp
  | granted r =>
    cases hp
    exact effect_of_accounts h (h.accounts_rest rfl) ⟨rfl, rfl⟩ rfl rfl rfl
  | enqueued w r =>
    cases hpos : s.waiterPosition w with
    | none =>
      simp only [System.pollOwner, pollFuture, hpos] at hp
      cases hp
      refine effect_of_granting h (h.granting rfl) (.refl _) rfl rfl rfl rfl ?_
      intro k hk
      obtain rfl := Multiset.mem_singleton.1 hk
      exact not_mem_of_sublist (.refl _) (waiterPosition_none hpos)
    | some i =>
      obtain ⟨e, hq, hid, hr⟩ := h.entry_eq hpos
      have hkeys := keys_setWaker s i waker
      have hacc := Accounts.setWaker (h.accounts_rest rfl) i waker
      have hq' : (s.setWaker i waker).queue[i]? = some { e with waker := some waker } := by
        simp [setWaker, hq]
      cases hex : r.exceeds s.maxLeases with
      | true =>
        have hpolled : s.pollFuture w r waker = (.failed, (s.setWaker i waker).removeEntry i) := by
          simp only [pollFuture, hpos]
          exact if_pos hex
        simp only [System.pollOwner, hpolled] at hp
        cases hp
        have hx : r ≠ .exclusiveAll := by
          rintro rfl
          simp [exceeds, LeaseGrantCount.count] at hex
        have hg := Accounts.dropEntry hacc hq' (by rwa [hr])
        have hreq := requests_eraseIdx hq'
        rw [requests_congr hkeys] at hreq
        have hgone := not_mem_keys_eraseIdx (hkeys ▸ h.matched.nodup_keys) hq'
        have hkeys' : keys ((s.setWaker i waker).removeEntry i).queue =
            keys ((s.setWaker i waker).queue.eraseIdx i) := by
          rw [queue_removeEntry]
        refine effect_of_granting h hg ?_ (lastWaiterId_removeEntry _ i) ?_ rfl rfl ?_
        · rw [hkeys', ← hkeys]
          exact keys_eraseIdx _ _
        · rw [hreq]
          simp only [ownerRequests_cons, ownerRequest, ownerRequests_nil, add_zero,
            add_cons, hr]
          exact add_comm _ _
        · intro k hk
          obtain rfl := Multiset.mem_singleton.1 hk
          rw [← hid]
          exact not_mem_of_sublist (.refl _) (hkeys' ▸ hgone)
      | false =>
        have hpolled : s.pollFuture w r waker = (.pending, s.setWaker i waker) := by
          simp only [pollFuture, hpos]
          exact if_neg (by simp [setWaker, hex])
        simp only [System.pollOwner, hpolled] at hp
        cases hp
        refine ⟨⟨held, hacc, ?_⟩, h.matched.nodup, ?_, h.matched.le_last⟩
        · rw [requests_congr hkeys]
        · rw [hkeys]
          exact h.matched.queued

theorem effect_dropTrivialGuard (h : Stands s held [.guard .trivialLease] rest)
    (hp : System.dropTrivialGuard s = (t, after)) :
    Effect s t held [.guard .trivialLease] after rest := by
  cases hp
  obtain ⟨held', rfl⟩ := h.held_cons (r := .trivialLease) rfl
  have hdec := (h.accounts_rest rfl).trivial_uncons.decTrivialLeasesGranted
  split
  · refine effect_of_accounts h hdec ⟨rfl, rfl⟩ ?_ rfl rfl
    simp [ownerRequest, add_comm held']
  · refine effect_of_accounts h hdec ⟨rfl, rfl⟩ ?_ rfl rfl
    simp [ownerRequest, add_comm held']

theorem effect_dropOwner (h : Stands s held [o] rest)
    (hp : System.dropOwner s o = some (t, after)) : Effect s t held [o] after rest := by
  cases o with
  | enqueueing r c => simp [System.dropOwner] at hp
  | returning at_ => simp [System.dropOwner] at hp
  | enqueued w r =>
    cases hp
    exact effect_cancelWaiter h
  | granted r =>
    cases hp
    exact effect_returnGrant h rfl rfl rfl (by simp [ownerKeys, ownerKey])
  | guard r =>
    cases r with
    | trivialLease =>
      simp only [System.dropOwner, Option.some.injEq] at hp
      exact effect_dropTrivialGuard h hp
    | leases count =>
      cases hp
      exact effect_returnGrant h rfl rfl rfl (by simp [ownerKeys, ownerKey])
    | exclusiveAll =>
      cases hp
      exact effect_returnGrant h rfl rfl rfl (by simp [ownerKeys, ownerKey])

theorem effect_continueReturn {at_ : Return} (h : Stands s held [.returning at_] rest)
    (hp : System.continueReturn s at_ = (t, after)) :
    Effect s t held [.returning at_] after rest := by
  have hacc := h.accounts_rest rfl
  cases at_ with
  | firstLoad =>
    cases hp
    exact effect_of_accounts h hacc ⟨rfl, rfl⟩ rfl rfl rfl
  | secondLoad =>
    cases hp
    split <;> exact effect_of_accounts h hacc ⟨rfl, rfl⟩ rfl rfl rfl
  | wake =>
    cases hp
    have hg := granting_wakeCompletedWaiters h.card_queue (h.granting rfl)
    refine effect_of_granting h hg (.refl _) rfl rfl rfl rfl ?_
    simp [ownerKeys, ownerKey]

theorem Accounts.addTrivial (h : Accounts s (offsetOf s) pending held)
    (hroom : held.card + 1 ≤ maxReferences) (hx : LeaseGrantCount.exclusiveAll ∉ held) :
    Accounts s.incTrivialLeasesGranted (offsetOf s.incTrivialLeasesGranted) pending
      (.trivialLease ::ₘ held) := by
  have hcount := Multiset.count_le_card trivialLease held
  have htriv := h.trivialLeasesGranted
  have hoff := offsetOf_le s
  simp only [maxReferences] at hroom
  exact (h.incTrivialLeasesGranted (by simp only [usize]; omega)).trivial_cons hx

theorem exclusive_not_mem (h : Accounts s offset pending (r ::ₘ held)) (hr : r ≠ .exclusiveAll) :
    LeaseGrantCount.exclusiveAll ∉ r ::ₘ held := by
  intro hmem
  have hself := Multiset.mem_cons_self r held
  rw [h.alone hmem] at hself
  exact hr (Multiset.mem_singleton.1 hself)

theorem Accounts.splitLeases {count count₁ count₂ : { n : Nat // 0 < n }}
    (h : Accounts s offset pending (.leases count ::ₘ held)) (hsum : count.1 = count₁.1 + count₂.1) :
    Accounts s offset pending (.leases count₁ ::ₘ .leases count₂ ::ₘ held) := by
  have hx := exclusive_not_mem h (by simp)
  have hx' : LeaseGrantCount.exclusiveAll ∉ LeaseGrantCount.leases count₁ ::ₘ .leases count₂ ::ₘ held := by
    simpa using hx
  have hsum' : leaseSum (.leases count₁ ::ₘ .leases count₂ ::ₘ held) =
      leaseSum (.leases count ::ₘ held) := by
    simp only [leaseSum_cons, LeaseGrantCount.count]
    omega
  refine ⟨h.capacity, by rw [hsum']; exact h.leases_le, fun hmem => absurd hmem hx', ?_, ?_,
    h.enqueuedTrivial, h.enqueuedExclusive, h.wrapped⟩
  · rw [if_neg hx', hsum']
    simpa [hx] using h.leasesGranted
  · simpa using h.trivialLeasesGranted

theorem ofUsize_pos {n : Nat} (h : 0 < n) : ofUsize n = .leases ⟨n, h⟩ := by
  simp [ofUsize, h]

theorem ofUsize_count (hr : r ≠ .exclusiveAll) : ofUsize r.count = r := by
  cases r with
  | trivialLease => rfl
  | leases count => exact ofUsize_pos count.2
  | exclusiveAll => exact absurd rfl hr

theorem accounts_split {leases : Nat} (h : Accounts s (offsetOf s) pending (r ::ₘ held))
    (hr : r ≠ .exclusiveAll) (hle : leases ≤ r.count) (hroom : (r ::ₘ held).card + 1 ≤ maxReferences) :
    let t := if leases = 0 ∨ leases = r.count then s.incTrivialLeasesGranted else s
    Accounts t (offsetOf t) pending (.ofUsize (r.count - leases) ::ₘ .ofUsize leases ::ₘ held) := by
  intro t
  have hx := exclusive_not_mem h hr
  have hadd := Accounts.addTrivial h hroom hx
  by_cases hz : leases = 0
  · subst hz
    rw [show t = s.incTrivialLeasesGranted from if_pos (.inl rfl), Nat.sub_zero, ofUsize_count hr,
      ofUsize_zero, Multiset.cons_swap]
    exact hadd
  by_cases hc : leases = r.count
  · subst hc
    rw [show t = s.incTrivialLeasesGranted from if_pos (.inr rfl), Nat.sub_self, ofUsize_count hr,
      ofUsize_zero]
    exact hadd
  · rw [show t = s from if_neg (by simp [hz, hc])]
    cases r with
    | trivialLease => exact absurd (Nat.le_zero.1 hle) hz
    | exclusiveAll => exact absurd rfl hr
    | leases count =>
      have hlt : leases < count.1 := Nat.lt_of_le_of_ne hle hc
      have hcount : LeaseGrantCount.count (.leases count) = count.1 := rfl
      rw [hcount, ofUsize_pos (Nat.sub_pos_of_lt hlt), ofUsize_pos (pos_of_ne_zero hz)]
      exact Accounts.splitLeases h (by dsimp only; omega)

theorem effect_splitLeases {leases : Nat} (h : Stands s held [o] rest)
    (hle : (after ++ rest).length ≤ maxReferences)
    (hp : System.splitLeases s leases o = some (t, after)) : Effect s t held [o] after rest := by
  cases o with
  | enqueueing r c => simp [System.splitLeases] at hp
  | returning at_ => simp [System.splitLeases] at hp
  | enqueued w r => simp [System.splitLeases] at hp
  | granted r => simp [System.splitLeases] at hp
  | guard r =>
    by_cases hr : r = .exclusiveAll
    · subst hr
      simp [System.splitLeases] at hp
    have hsplit : System.splitLeases s leases (.guard r) =
        if r.count < leases then some (s, [.guard r])
        else some (if leases = 0 ∨ leases = r.count then s.incTrivialLeasesGranted else s,
          [.guard (.ofUsize (r.count - leases)), .guard (.ofUsize leases)]) := by
      cases r with
      | trivialLease => rfl
      | leases count => rfl
      | exclusiveAll => exact absurd rfl hr
    rw [hsplit] at hp
    by_cases hlt : r.count < leases
    · rw [if_pos hlt] at hp
      cases hp
      exact effect_of_accounts h (h.accounts_rest rfl) ⟨rfl, rfl⟩ rfl rfl rfl
    · rw [if_neg hlt] at hp
      cases hp
      obtain ⟨held', rfl⟩ := h.held_cons (r := r) rfl
      have hroom := h.room hle rfl
      have hacc := accounts_split (h.accounts_rest rfl) hr (not_lt.1 hlt) hroom
      refine effect_of_accounts h hacc ?_ ?_ rfl rfl
      · split <;> exact ⟨rfl, rfl⟩
      · simp only [ownerRequests_cons, ownerRequest, ownerRequests_nil, add_zero, Option.toList_some,
          coe_singleton, ← singleton_add]
        ac_rfl

theorem effect_spawnTrivialLease (h : Stands s held [.guard r] rest) (hr : r ≠ .exclusiveAll)
    (hle : ([Owner.guard r, .guard .trivialLease] ++ rest).length ≤ maxReferences) :
    Effect s s.incTrivialLeasesGranted held [.guard r] [.guard r, .guard .trivialLease] rest := by
  obtain ⟨held', rfl⟩ := h.held_cons (r := r) rfl
  have hroom := h.room hle rfl
  have hacc := h.accounts_rest rfl
  refine effect_of_accounts h (Accounts.addTrivial hacc hroom (exclusive_not_mem hacc hr)) ⟨rfl, rfl⟩ ?_ rfl rfl
  simp only [ownerRequests_cons, ownerRequest, ownerRequests_nil, add_zero, Option.toList_some,
    coe_singleton, ← singleton_add]
  ac_rfl

theorem effect_leak (h : Stands s held [o] rest)
    (hp : System.leak s o = some (t, after)) : Effect s t held [o] after rest := by
  cases o with
  | enqueueing r c => simp [System.leak] at hp
  | returning at_ => simp [System.leak] at hp
  | enqueued w r => simp [System.leak] at hp
  | granted r => simp [System.leak] at hp
  | guard r =>
    cases r with
    | exclusiveAll => simp [System.leak] at hp
    | trivialLease =>
      simp only [System.leak, Option.some.injEq] at hp
      exact effect_dropTrivialGuard h hp
    | leases count =>
      cases hp
      obtain ⟨held', rfl⟩ := h.held_cons (r := .leases count) rfl
      have hg := granting_leakLeases (h.accounts_rest rfl) (h.card_cons rfl)
      refine effect_of_granting h hg (.refl _) rfl ?_ rfl rfl (by simp [ownerKeys, ownerKey])
      simp only [ownerRequests_cons, ownerRequest, ownerRequests_nil, add_zero, cons_add]
      exact add_comm _ _

theorem effect_resizeFuture (hm : m < 2 ^ 63) (h : Stands s held [.guard .exclusiveAll] rest) :
    Effect s (s.resizeFuture m) held [.guard .exclusiveAll] [.guard .exclusiveAll] rest := by
  obtain ⟨held', rfl⟩ := h.held_cons (r := .exclusiveAll) rfl
  have hg := granting_resizeFuture hm (h.accounts_rest rfl) h.card_queue
  exact effect_of_granting h hg (.refl _) rfl rfl rfl rfl (by simp [ownerKeys, ownerKey])

theorem effect_downgrade (h : Stands s held [.guard .exclusiveAll] rest) :
    Effect s s.downgrade held [.guard .exclusiveAll] [.guard (.ofUsize s.maxLeases)] rest := by
  obtain ⟨held', rfl⟩ := h.held_cons (r := .exclusiveAll) rfl
  have hcard := h.card_queue
  rw [cons_add, Multiset.card_cons, ← Multiset.card_cons (.ofUsize s.maxLeases), ← cons_add] at hcard
  have hg := granting_downgrade (h.accounts_rest rfl) hcard
  refine effect_of_granting h hg (.refl _) rfl ?_ rfl rfl (by simp [ownerKeys, ownerKey])
  simp only [ownerRequests_cons, ownerRequest, ownerRequests_nil, add_zero, Option.toList_some,
    coe_singleton, ← singleton_add]
  ac_rfl

theorem effect_finishEnqueue {capacity : Nat} {allocated : Option Nat}
    (h : Stands s held [.enqueueing r capacity] rest) {waiterId : Option Nat}
    (hp : s.finishEnqueue r capacity allocated = (waiterId, t)) :
    Effect s t held [.enqueueing r capacity] (waiterId.elim [] fun w => [.enqueued w r]) rest := by
  have hacc := h.accounts
  have ha := acquired_finishEnqueue capacity allocated hacc h.card_queue
  rw [hp] at ha
  cases waiterId with
  | none => exact effect_of_acquired h ha rfl rfl
  | some w => exact effect_of_acquired h ha rfl rfl

theorem effect_onSemaphore (h : Stands s held [] rest)
    (hle : (after ++ rest).length ≤ maxReferences)
    (hp : System.onSemaphore s a = some (t, after)) : Effect s t held [] after rest := by
  have hacc : Accounts s (offsetOf s) (pendingExclusives rest) held := h.accounts
  have hroom : (ownerRequests after).card = 1 → held.card + 1 ≤ maxReferences :=
    fun hcard => h.room hle hcard
  cases a with
  | acquireLeases n =>
    rcases hprep : s.prepareAcquireLeases n with ⟨prepared, u⟩
    simp only [System.onSemaphore, hprep] at hp
    cases hp
    have ha := acquired_prepareAcquireLeases (n := n) hacc h.card_queue fun hg => by
      rw [hprep] at hg
      subst hg
      exact hroom rfl
    rw [hprep] at ha
    exact effect_of_acquired h ha rfl rfl
  | acquireExclusiveAll =>
    rcases hprep : s.prepareAcquireExclusiveAll with ⟨prepared, u⟩
    simp only [System.onSemaphore, hprep] at hp
    cases hp
    have ha := acquired_prepareAcquireExclusiveAll hacc h.card_le fun hg => by
      rw [hprep] at hg
      subst hg
      exact hroom rfl
    rw [hprep] at ha
    exact effect_of_acquired h ha rfl rfl
  | tryAcquireLeases n =>
    rcases htry : s.tryAcquireLeasesLocked n with error | ⟨b, u⟩
    · simp only [System.onSemaphore, htry] at hp
      cases hp
      exact effect_of_accounts h hacc ⟨rfl, rfl⟩ rfl rfl rfl
    · simp only [System.onSemaphore, htry] at hp
      cases hp
      cases b with
      | true =>
        obtain ⟨hsame, hacc'⟩ := tryAcquireLeasesLocked_true hacc (hroom rfl) htry
        refine effect_of_accounts h hacc' (.of_sameQueue hsame) ?_ rfl rfl
        simp [ownerRequest, add_comm held]
      | false =>
        obtain rfl := tryAcquireLeasesLocked_false hacc htry
        exact effect_of_accounts h hacc ⟨rfl, rfl⟩ rfl rfl rfl
  | tryAcquireExclusiveAll =>
    rcases htry : s.tryAcquireExclusiveAll with ⟨b, u⟩
    simp only [System.onSemaphore, htry] at hp
    cases hp
    have hcard := h.card_queue
    rw [card_add] at hcard
    have ha := accounts_tryAcquireExclusiveAll hacc (by omega) fun hg => by
      rw [htry] at hg
      subst hg
      exact hroom rfl
    rw [htry] at ha
    cases b with
    | true =>
      refine effect_of_accounts h ha.2 ha.1 ?_ rfl rfl
      simp [ownerRequest, add_comm held]
    | false => exact effect_of_accounts h ha.2 ha.1 rfl rfl rfl
  | _ => simp [System.onSemaphore] at hp

theorem effect_onOwner (h : Stands s held [o] rest)
    (hle : (after ++ rest).length ≤ maxReferences) (hcap : ∀ i m, a = .resizeFuture i m → m < 2 ^ 63)
    (hp : System.onOwner s o a = some (t, after)) : Effect s t held [o] after rest := by
  cases a with
  | finishEnqueue i allocated =>
    cases o with
    | enqueueing r capacity =>
      simp only [System.onOwner] at hp
      split at hp
      · rcases hf : s.finishEnqueue r capacity allocated with ⟨_ | w, u⟩
        · simp only [hf] at hp
          cases hp
          exact effect_finishEnqueue h hf
        · simp only [hf] at hp
          cases hp
          exact effect_finishEnqueue h hf
      · simp at hp
    | _ => simp [System.onOwner] at hp
  | poll i waker => exact effect_pollOwner h hp
  | drop i => exact effect_dropOwner h hp
  | continueReturn i =>
    cases o with
    | returning at_ => exact effect_continueReturn h (Option.some.inj hp)
    | _ => simp [System.onOwner] at hp
  | splitLeases i leases => exact effect_splitLeases h hle hp
  | spawnTrivialLease i =>
    cases o with
    | guard r =>
      cases r with
      | exclusiveAll => simp [System.onOwner] at hp
      | trivialLease =>
        cases hp
        exact effect_spawnTrivialLease h (by simp) hle
      | leases count =>
        cases hp
        exact effect_spawnTrivialLease h (by simp) hle
    | _ => simp [System.onOwner] at hp
  | leak i => exact effect_leak h hp
  | resizeFuture i m =>
    cases o with
    | guard r =>
      cases r with
      | exclusiveAll =>
        simp only [System.onOwner] at hp
        split at hp
        · cases hp
          exact effect_resizeFuture (hcap i m rfl) h
        · simp at hp
      | _ => simp [System.onOwner] at hp
    | _ => simp [System.onOwner] at hp
  | downgrade i =>
    cases o with
    | guard r =>
      cases r with
      | exclusiveAll =>
        cases hp
        exact effect_downgrade h
      | _ => simp [System.onOwner] at hp
    | _ => simp [System.onOwner] at hp
  | _ => simp [System.onOwner] at hp

theorem step_cases (h : sys.step a = some sys') :
    sys'.owners.length ≤ maxReferences ∧
    ((∃ new, System.onSemaphore sys.sem a = some (sys'.sem, new) ∧ sys'.owners = sys.owners ++ new) ∨
    ∃ i o new, System.target a = some i ∧ sys.owners[i]? = some o ∧
      System.onOwner sys.sem o a = some (sys'.sem, new) ∧
      sys'.owners = sys.owners.eraseIdx i ++ new) := by
  obtain ⟨hres, hle⟩ := Option.filter_eq_some_iff.1 h
  refine ⟨by simpa using hle, ?_⟩
  cases ht : System.target a with
  | none =>
    rw [ht] at hres
    obtain ⟨⟨t, new⟩, hon, rfl⟩ := Option.map_eq_some_iff.1 hres
    exact .inl ⟨new, hon, rfl⟩
  | some i =>
    rw [ht] at hres
    obtain ⟨o, ho, hres⟩ := Option.bind_eq_some_iff.1 hres
    obtain ⟨⟨t, new⟩, hon, rfl⟩ := Option.map_eq_some_iff.1 hres
    exact .inr ⟨i, o, new, rfl, ho, hon, rfl⟩

theorem inv_step (h : Inv sys)
    (hcap : ∀ i m, a = .resizeFuture i m → m < 2 ^ 63) (hst : sys.step a = some sys') : Inv sys' := by
  obtain ⟨hle, ⟨new, hon, howners⟩ | ⟨i, o, new, _, ho, hon, howners⟩⟩ := step_cases hst
  · have hafter : sys'.owners.Perm (new ++ sys.owners) := howners ▸ perm_append_comm
    have hstands : Stands sys.sem (outstanding sys) [] sys.owners := stands_of_inv h (.refl _)
    exact inv_of_effect h (.refl _) hafter hle (effect_onSemaphore hstands (hafter.length_eq ▸ hle) hon)
  · obtain ⟨hi, rfl⟩ := List.getElem?_eq_some_iff.1 ho
    have hbefore : sys.owners.Perm ([sys.owners[i]] ++ sys.owners.eraseIdx i) :=
      (getElem_cons_eraseIdx_perm hi).symm
    have hafter : sys'.owners.Perm (new ++ sys.owners.eraseIdx i) := howners ▸ perm_append_comm
    exact inv_of_effect h hbefore hafter hle
      (effect_onOwner (stands_of_inv h hbefore) (hafter.length_eq ▸ hle) hcap hon)

theorem inv_new (hm : m < 2 ^ 63) : Inv (System.new m) := by
  refine ⟨⟨hm, Nat.zero_le _, ?_, ?_, rfl, rfl, rfl, rfl⟩, ⟨?_, ?_, ?_⟩, Nat.zero_le _⟩
  · simp [outstanding, System.new]
  · simp [outstanding, System.new, new]
  · simp [System.new, ownerKeys]
  · simp [System.new, new, SemaphoreAccounts.keys, zero_le]
  · simp [System.new, ownerKeys]

theorem sound_of_inv (h : Inv sys) : Sound sys := by
  have hacc := h.accounts
  have hsum : leaseSum (outstanding sys) = ((outstanding sys).map LeaseGrantCount.count).sum := by
    simp [leaseSum]
  have halone : LeaseGrantCount.exclusiveAll ∈ outstanding sys →
      outstanding sys = [LeaseGrantCount.exclusiveAll] := by
    intro hmem
    have hsing := hacc.alone (Multiset.mem_coe.2 hmem)
    rw [← coe_singleton, Multiset.coe_eq_coe] at hsing
    exact perm_singleton.1 hsing
  refine ⟨hsum ▸ hacc.leases_le, ?_, halone, ?_, ?_, hacc.wrapped⟩
  · by_cases hmem : LeaseGrantCount.exclusiveAll ∈ outstanding sys
    · rw [halone hmem]
      simp
    · rw [count_eq_zero.2 hmem]
      exact Nat.zero_le _
  · rw [← hsum]
    exact hacc.leasesGranted
  · simpa [offsetOf] using hacc.trivialLeasesGranted

/-- No capacity is ever set that two operands within it can add up to 2^64
with. -/
def SmallCapacity (_ : System) (a : Action) : Prop := ∀ i m, a = .resizeFuture i m → m < 2 ^ 63

theorem inv_of_reached (hm : m < 2 ^ 63) {Allowed : System → Action → Prop}
    (hsmall : ∀ sys a, Allowed sys a → SmallCapacity sys a)
    (h : Reached System.step Allowed (System.new m) sys) : Inv sys :=
  h.invariant (inv_new hm) fun sys a _ hinv hallowed hst => inv_step hinv (hsmall sys a hallowed) hst

/-- The state with everything granted exclusively, the offset on the trivial
leases' counter still left out or back on it. -/
def allGranted (m offset : Nat) : State :=
  { new m with
    leasesGranted := m + 1
    trivialLeasesGranted := offset
    issued := [⟨.exclusiveAll, [], m⟩] }

theorem tryAcquireExclusiveAll_new (hm : m < usize - 1) :
    (new m).tryAcquireExclusiveAll = (true, allGranted m 1) := by
  have hlt : m + 1 < usize := by omega
  have hlocked : (new m).acquireExclusiveAllBegin.tryAcquireExclusiveAllLocked =
      (true, allGranted m 0) := by
    change (new m).acquireExclusiveAllBegin.tryGrantOne .exclusiveAll 0 = _
    have hgrant : (new m).acquireExclusiveAllBegin.tryGrantOne .exclusiveAll 0 =
        (true, { (new m).acquireExclusiveAllBegin.note (decide (usize ≤ m + 1)) with
          leasesGranted := addUsize m 1 }.issue .exclusiveAll 0) := rfl
    rw [hgrant, addUsize_eq hlt, note_of_not (decide_eq_false (not_le.2 hlt))]
    rfl
  rw [tryAcquireExclusiveAll, hlocked]
  rfl

theorem step_allGranted (hm : m < usize - 1) :
    (System.new m).step .tryAcquireExclusiveAll = some ⟨allGranted m 1, [.guard .exclusiveAll]⟩ := by
  simp [System.step, System.target, System.onSemaphore, System.new, tryAcquireExclusiveAll_new hm,
    maxReferences]

theorem wrapped_step (hlarge : 2 ^ 63 ≤ m) :
    ∃ sys, System.step ⟨allGranted m 1, [.guard .exclusiveAll]⟩ (.tryAcquireLeases m) = some sys ∧
      sys.sem.wrapped = true := by
  have hpos : 0 < m := by omega
  rcases htry : (allGranted m 1).tryGrantOne (.ofUsize m) 0 with ⟨b, t⟩
  have hwrapped : t.wrapped = true := by
    have hover : usize ≤ m + 1 + m := by
      simp only [usize]
      omega
    rw [ofUsize_pos hpos] at htry
    simp only [tryGrantOne] at htry
    split at htry <;> simp only [Prod.mk.injEq] at htry <;> obtain ⟨_, rfl⟩ := htry <;>
      simp [issue, note, allGranted, hover]
  have hlocked : (allGranted m 1).tryAcquireLeasesLocked m = .ok (b, t) := by
    have hmax : (allGranted m 1).maxLeases = m := rfl
    have hwait : (allGranted m 1).hasUncancelledWaiters = false := rfl
    have hlen : (allGranted m 1).queue.length = 0 := rfl
    simp only [tryAcquireLeasesLocked, ne_of_gt hpos, hmax, lt_irrefl, hwait, if_false,
      Bool.not_false, if_true, hlen, htry]
  refine ⟨⟨t, [.guard .exclusiveAll] ++ if b then [.guard (.ofUsize m)] else []⟩, ?_, hwrapped⟩
  cases b <;> simp [System.step, System.target, System.onSemaphore, hlocked, maxReferences]

/-- The run into the overflow: the whole capacity is granted exclusively and
then requested once more as leases. -/
theorem overflow_run (hm : m < usize - 1) (hlarge : ¬ m < 2 ^ 63) :
    ∃ sys, Reached System.step SmallCapacity (System.new m) sys ∧ ¬ Sound sys := by
  obtain ⟨sys, hst, hwrapped⟩ := wrapped_step (not_lt.1 hlarge)
  have hfirst : Reached System.step SmallCapacity (System.new m)
      ⟨allGranted m 1, [.guard .exclusiveAll]⟩ :=
    .next .tryAcquireExclusiveAll .start (by simp [SmallCapacity]) (step_allGranted hm)
  refine ⟨sys, .next (.tryAcquireLeases m) hfirst (by simp [SmallCapacity]) hst, ?_⟩
  intro hsound
  rw [hsound.wrapped] at hwrapped
  exact Bool.false_ne_true hwrapped

theorem sound_iff_smallCapacity (m : Nat) (hm : m < usize - 1) :
    (∀ sys, Reached System.step SmallCapacity (System.new m) sys → Sound sys) ↔ m < 2 ^ 63 := by
  constructor
  · intro h
    by_contra hlarge
    obtain ⟨sys, hreached, hnot⟩ := overflow_run hm hlarge
    exact hnot (h sys hreached)
  · intro hsmall sys h
    exact sound_of_inv (inv_of_reached hsmall (fun _ _ h => h) h)

theorem sound_of_three : 3 < usize - 1 ∧
    ((∀ sys, Reached System.step SmallCapacity (System.new 3) sys → Sound sys) ↔ 3 < 2 ^ 63) :=
  ⟨by decide, sound_iff_smallCapacity 3 (by decide)⟩

/-- A lease granted beside the exclusive grant. -/
theorem lease_beside_exclusive : ∃ sys, execute System.step (System.new (2 ^ 64 - 2))
    [.tryAcquireExclusiveAll, .tryAcquireLeases 1] = some sys ∧
    outstanding sys = [.exclusiveAll, .leases ⟨1, by decide⟩] ∧ ¬ Sound sys := by
  refine ⟨_, rfl, rfl, ?_⟩
  intro h
  exact absurd (h.exclusive_alone (by decide)) (by decide)

end CocoonFs.SemaphoreGrants
