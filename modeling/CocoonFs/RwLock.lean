import CocoonFs.SemaphoreOrder

namespace CocoonFs.RwLock

open Runs Semaphore SemaphoreGrants SemaphoreWaiters SemaphoreOrder

variable {sys sys' : System} {s t : State} {owner : Owner} {after : List Owner}
  {r : LeaseGrantCount}

/-- An operation on an AsyncRwLock, or on one of its futures or guards. A weak guard has the
grant of the guard it's been made from. -/
inductive Action where
  | read
  | write
  | finishEnqueue (owner : Nat) (allocated : Option Nat)
  | tryRead
  | tryWrite
  | poll (owner waker : Nat)
  | drop (owner : Nat)
  | continueReturn (owner : Nat)
  | clone (owner : Nat)
  deriving DecidableEq, Repr

def Action.onSemaphore : Action → Semaphore.Action
  | .read => .acquireLeases 0
  | .write => .acquireExclusiveAll
  | .finishEnqueue owner allocated => .finishEnqueue owner allocated
  | .tryRead => .tryAcquireLeases 0
  | .tryWrite => .tryAcquireExclusiveAll
  | .poll owner waker => .poll owner waker
  | .drop owner => .drop owner
  | .continueReturn owner => .continueReturn owner
  | .clone owner => .spawnTrivialLease owner

/-- AsyncRwLock::new() -/
def new : System := System.new 0

def step (sys : System) (a : Action) : Option System := sys.step a.onSemaphore

def ReachedBy (sys : System) : Prop := Reached step (fun _ _ => True) RwLock.new sys

def IsLock (r : LeaseGrantCount) : Prop := r = .trivialLease ∨ r = .exclusiveAll

def requestOf : Owner → Option LeaseGrantCount
  | .enqueueing leasesRequested _ => some leasesRequested
  | o => ownerRequest o

def Locks (o : Owner) : Prop := ∀ r ∈ requestOf o, IsLock r

theorem reachedBy_tryWrite :
    ReachedBy { sem := (State.new 0).tryAcquireExclusiveAll.2, owners := [.guard .exclusiveAll] } :=
  .next .tryWrite .start trivial rfl

theorem locks_guard (h : IsLock r) : Locks (.guard r) := by
  rintro q ⟨⟩
  exact h

theorem locks_owned (h : IsLock r) (prepared : State.Prepared) :
    ∀ o ∈ System.owned r prepared, Locks o := by
  cases prepared with
  | failed => exact List.forall_mem_nil _
  | _ => exact List.forall_mem_singleton.2 (locks_guard h)

theorem locks_granted (h : IsLock r) (granted : Bool) :
    ∀ o ∈ if granted then [Owner.guard r] else [], Locks o := by
  cases granted with
  | false => exact List.forall_mem_nil _
  | true => exact List.forall_mem_singleton.2 (locks_guard h)

theorem locks_onSemaphore {a : Action} (hon : System.onSemaphore s a.onSemaphore = some (t, after)) :
    ∀ o ∈ after, Locks o := by
  cases a with
  | read =>
    cases hon
    exact locks_owned (.inl rfl) _
  | write =>
    cases hon
    exact locks_owned (.inr rfl) _
  | tryRead =>
    simp only [Action.onSemaphore, System.onSemaphore] at hon
    split at hon <;> cases hon
    · exact List.forall_mem_nil _
    · exact locks_granted (.inl rfl) _
  | tryWrite =>
    cases hon
    exact locks_granted (.inr rfl) _
  | _ => cases hon

/-- What replaces an owner has the owner's own request, or is a reader's clone. -/
theorem locks_onOwner {a : Action} (h : Locks owner)
    (hon : System.onOwner s owner a.onSemaphore = some (t, after)) : ∀ o ∈ after, Locks o := by
  have hreturning : ∀ at_, Locks (.returning at_) := fun _ _ hr => nomatch hr
  have hguard : ∀ r, requestOf owner = some r → Locks (.guard r) := fun r hr q hq => h q (hr.trans hq)
  have hqueue : ∀ w r, requestOf owner = some r → Locks (.enqueued w r) := fun _ r hr q hq =>
    h q (hr.trans hq)
  cases a with
  | finishEnqueue i allocated => cases owner <;> grind [Action.onSemaphore, System.onOwner, requestOf]
  | poll i waker =>
    cases owner <;>
      grind [Action.onSemaphore, System.onOwner, System.pollOwner, requestOf, ownerRequest]
  | drop i =>
    cases owner with
    | guard r =>
      cases r <;>
        grind [Action.onSemaphore, System.onOwner, System.dropOwner, System.dropTrivialGuard]
    | _ => grind [Action.onSemaphore, System.onOwner, System.dropOwner]
  | continueReturn i =>
    cases owner with
    | returning at_ =>
      cases at_ <;> grind [Action.onSemaphore, System.onOwner, System.continueReturn]
    | _ => cases hon
  | clone i =>
    cases owner with
    | guard r =>
      cases r with
      | exclusiveAll => cases hon
      | _ =>
        cases hon
        exact List.forall_mem_cons.2
          ⟨hguard _ rfl, List.forall_mem_singleton.2 (locks_guard (.inl rfl))⟩
    | _ => cases hon
  | _ => cases hon

theorem locks_step {a : Action} (h : ∀ o ∈ sys.owners, Locks o) (hst : step sys a = some sys') :
    ∀ o ∈ sys'.owners, Locks o := by
  obtain ⟨-, ⟨new, hon, howners⟩ | ⟨i, o, new, -, ho, hon, howners⟩⟩ := step_cases hst
  · rw [howners]
    exact List.forall_mem_append.2 ⟨h, locks_onSemaphore hon⟩
  · rw [howners]
    exact List.forall_mem_append.2 ⟨fun x hx => h x (List.mem_of_mem_eraseIdx hx),
      locks_onOwner (h o (List.mem_of_getElem? ho)) hon⟩

theorem isLock_of_asked (h : ∀ o ∈ sys.owners, Locks o) (hinv : Inv sys) :
    ∀ r ∈ asked sys.sem, IsLock r := by
  intro r hr
  obtain ⟨e, he, rfl⟩ := List.mem_map.1 hr
  have hkey : (e.waiterId, e.leasesRequested) ∈ SemaphoreAccounts.keys sys.sem.queue :=
    List.mem_map.2 ⟨e, he, rfl⟩
  obtain ⟨o, ho, hok⟩ := List.mem_filterMap.1 (Multiset.mem_of_le hinv.matched.queued hkey)
  cases o with
  | enqueued waiterId leasesRequested =>
    cases hok
    exact h _ ho _ rfl
  | _ => cases hok

/-- Only requests for leases are overtaken. -/
theorem overtaking_locks (m g : Nat) {l : List LeaseGrantCount} (h : ∀ r ∈ l, IsLock r) :
    overtaking m g l = false := by
  induction l with
  | nil => rfl
  | cons r l ih =>
    obtain ⟨rfl | rfl, hl⟩ := List.forall_mem_cons.1 h
    · exact ih hl
    · rfl

theorem waking_subset {a : Action} {v : Nat × Nat × List LeaseGrantCount}
    (h : waking s owner a.onSemaphore = some v) : v.2.2 ⊆ asked s := by
  have hreturn : ∀ r, wakingReturn s r = some v → v.2.2 = asked s := by
    intro r hr
    cases r <;> grind [wakingReturn]
  have hcancel : ∀ index r, wakingCancel s index r = some v → v.2.2 ⊆ asked s := by
    intro index r hr
    cases r <;> grind [wakingCancel]
  cases a with
  | drop i =>
    cases owner with
    | guard leasesGranted => cases leasesGranted <;> grind [waking, Action.onSemaphore]
    | _ => grind [waking, Action.onSemaphore]
  | continueReturn i => grind [waking, Action.onSemaphore]
  | _ => cases h

structure LockInv (sys : System) : Prop where
  inv : Inv sys
  locks : ∀ o ∈ sys.owners, Locks o
  inOrder : AllInOrder sys.sem

theorem lockInv_step (h : LockInv sys) {a : Action} (hst : step sys a = some sys') : LockInv sys' := by
  have hsmall : SmallCapacity sys a.onSemaphore := by
    intro i m hi
    cases a <;> cases hi
  have hkeeps : KeepsOrder sys a.onSemaphore := fun _ _ _ _ _ hv =>
    overtaking_locks _ _ fun r hr => isLock_of_asked h.locks h.inv r (waking_subset hv hr)
  exact ⟨inv_step h.inv hsmall hst, locks_step h.locks hst,
    allInOrder_step h.inv h.inOrder hsmall hkeeps hst⟩

theorem lockInv_of_reached (h : ReachedBy sys) : LockInv sys :=
  Reached.invariant h
    ⟨inv_new (m := 0) (by decide), List.forall_mem_nil _, List.forall_mem_nil _⟩
    fun _ _ _ hs _ hst => lockInv_step hs hst

theorem count_guard_le (owners : List Owner) (queue : List QueueEntry) (r : LeaseGrantCount) :
    owners.count (.guard r) ≤ (owners.filterMap (grantOf queue)).count r := by
  rw [List.count_filterMap]
  refine List.countP_mono_left fun o _ ho => ?_
  obtain rfl := eq_of_beq ho
  exact beq_self_eq_true (some r)

/-- Every guard is for reading or for writing, and one for writing is the only one there is. -/
theorem writer_excludes (sys : System) (h : ReachedBy sys) :
    (∀ r, .guard r ∈ sys.owners → IsLock r) ∧
    (Owner.guard .exclusiveAll ∈ sys.owners →
      sys.owners.count (.guard .exclusiveAll) = 1 ∧ sys.owners.count (.guard .trivialLease) = 0) := by
  have hinv := lockInv_of_reached h
  refine ⟨fun r hr => hinv.locks _ hr r rfl, fun hwriter => ?_⟩
  have hpos : 1 ≤ sys.owners.count (.guard .exclusiveAll) := List.count_pos_iff.2 hwriter
  have hwriters := count_guard_le sys.owners sys.sem.queue .exclusiveAll
  have hreaders := count_guard_le sys.owners sys.sem.queue .trivialLease
  have halone : outstanding sys = [.exclusiveAll] :=
    (sound_of_inv hinv.inv).exclusive_alone (List.count_pos_iff.1 (hpos.trans hwriters))
  rw [outstanding] at halone
  rw [halone] at hwriters hreaders
  exact ⟨Nat.le_antisymm hwriters hpos, Nat.le_zero.1 hreaders⟩

theorem writer_excludes_tryWrite : ∃ sys, ReachedBy sys ∧ sys.owners = [.guard .exclusiveAll] ∧
    sys.owners.count (.guard .exclusiveAll) = 1 :=
  ⟨_, reachedBy_tryWrite, rfl, ((writer_excludes _ reachedBy_tryWrite).2 (by decide)).1⟩

end CocoonFs.RwLock
