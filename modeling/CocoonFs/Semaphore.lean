import CocoonFs.Runs
import Mathlib.Algebra.BigOperators.Group.List.Basic

namespace CocoonFs.Semaphore

/-- The number of values of usize, which arithmetic on it wraps at. -/
def usize : Nat := 2 ^ 64

def addUsize (a b : Nat) : Nat := if a + b < usize then a + b else a + b - usize

def subUsize (a b : Nat) : Nat := if b ≤ a then a - b else a + usize - b

inductive SemaphoreError where
  | requestExceedsSemaphoreCapacity
  | memoryAllocationFailure
  | internal
  deriving DecidableEq, Repr

inductive LeaseGrantCount where
  | trivialLease
  | leases (count : { n : Nat // 0 < n })
  | exclusiveAll
  deriving DecidableEq, Repr

namespace LeaseGrantCount

def ofUsize (value : Nat) : LeaseGrantCount :=
  if h : 0 < value then .leases ⟨value, h⟩ else .trivialLease

def count : LeaseGrantCount → Nat
  | .leases count => count
  | _ => 0

def exceeds (maxLeases : Nat) (request : LeaseGrantCount) : Bool := decide (maxLeases < request.count)

end LeaseGrantCount

structure QueueEntry where
  leasesRequested : LeaseGrantCount
  waker : Option Nat
  waiterId : Nat
  deriving DecidableEq, Repr

/-- A grant as it was issued: the entries then queued ahead of the request and
the capacity at that time. -/
structure Issued where
  request : LeaseGrantCount
  ahead : List QueueEntry
  maxLeases : Nat
  deriving DecidableEq, Repr

/-- The semaphore's state and its wait queue. The vector's capacity and its
announced reservations decide whether enqueueing drops the lock. The last three
fields record what happened: the wakers invoked, whether arithmetic on a counter
has wrapped, and the grants issued. -/
structure State where
  queue : List QueueEntry
  capacity : Nat
  pendingReservations : Nat
  maxLeases : Nat
  lastWaiterId : Nat
  enqueuedTrivialLeaseWaiters : Nat
  enqueuedExclusiveAllWaiters : Nat
  leasesGranted : Nat
  trivialLeasesGranted : Nat
  woken : List Nat
  wrapped : Bool
  issued : List Issued
  deriving DecidableEq, Repr

namespace State

def new (maxLeases : Nat) : State where
  queue := []
  capacity := 0
  pendingReservations := 0
  maxLeases := maxLeases
  lastWaiterId := 0
  enqueuedTrivialLeaseWaiters := 0
  enqueuedExclusiveAllWaiters := 0
  leasesGranted := 0
  trivialLeasesGranted := 1
  woken := []
  wrapped := false
  issued := []

def waiterPosition (s : State) (waiterId : Nat) : Option Nat :=
  s.queue.findIdx? fun entry => entry.waiterId == waiterId

def hasUncancelledWaiters (s : State) : Bool :=
  s.queue.any fun entry => !entry.leasesRequested.exceeds s.maxLeases

def hasTrivialLeaseWaiters (s : State) : Bool := s.enqueuedTrivialLeaseWaiters != 0

def hasExclusiveAllWaiters (s : State) : Bool := s.enqueuedExclusiveAllWaiters != 0

def isExclusiveAllGranted (s : State) : Bool := s.leasesGranted == s.maxLeases + 1

def note (s : State) (wraps : Bool) : State := { s with wrapped := s.wrapped || wraps }

def incTrivialLeasesGranted (s : State) : State :=
  { s.note (decide (usize ≤ s.trivialLeasesGranted + 1)) with
    trivialLeasesGranted := addUsize s.trivialLeasesGranted 1 }

def decTrivialLeasesGranted (s : State) : State :=
  { s.note (decide (s.trivialLeasesGranted < 1)) with
    trivialLeasesGranted := subUsize s.trivialLeasesGranted 1 }

def incEnqueuedTrivial (s : State) : State :=
  { s.note (decide (usize ≤ s.enqueuedTrivialLeaseWaiters + 1)) with
    enqueuedTrivialLeaseWaiters := addUsize s.enqueuedTrivialLeaseWaiters 1 }

def decEnqueuedTrivial (s : State) : State :=
  { s.note (decide (s.enqueuedTrivialLeaseWaiters < 1)) with
    enqueuedTrivialLeaseWaiters := subUsize s.enqueuedTrivialLeaseWaiters 1 }

def incEnqueuedExclusive (s : State) : State :=
  { s.note (decide (usize ≤ s.enqueuedExclusiveAllWaiters + 1)) with
    enqueuedExclusiveAllWaiters := addUsize s.enqueuedExclusiveAllWaiters 1 }

def decEnqueuedExclusive (s : State) : State :=
  { s.note (decide (s.enqueuedExclusiveAllWaiters < 1)) with
    enqueuedExclusiveAllWaiters := subUsize s.enqueuedExclusiveAllWaiters 1 }

def issue (s : State) (request : LeaseGrantCount) (position : Nat) : State :=
  { s with issued := s.issued ++ [⟨request, s.queue.take position, s.maxLeases⟩] }

/-- Looks at the outstanding grants only; the position is that of the request
in the queue and goes into the record. -/
def tryGrantOne (s : State) (leasesRequested : LeaseGrantCount) (position : Nat) : Bool × State :=
  match leasesRequested with
  | .trivialLease =>
    if !s.isExclusiveAllGranted then (true, s.incTrivialLeasesGranted.issue .trivialLease position)
    else (false, s)
  | .leases count =>
    let sum := addUsize s.leasesGranted count
    let s := s.note (decide (usize ≤ s.leasesGranted + count))
    if sum ≤ s.maxLeases then
      (true, { s with leasesGranted := sum }.issue (.leases count) position)
    else (false, s)
  | .exclusiveAll =>
    if s.leasesGranted = 0 ∧ s.trivialLeasesGranted = 0 then
      (true, { s.note (decide (usize ≤ s.maxLeases + 1)) with
        leasesGranted := addUsize s.maxLeases 1 }.issue .exclusiveAll position)
    else (false, s)

/-- Takes the offset off the trivial leases' counter with the first exclusive
waiter. -/
def acquireExclusiveAllBegin (s : State) : State :=
  if !s.hasExclusiveAllWaiters then s.decTrivialLeasesGranted else s

def acquireExclusiveAllEnd (s : State) : State :=
  if !s.hasExclusiveAllWaiters then s.incTrivialLeasesGranted else s

def removeEntry (s : State) (index : Nat) : State :=
  let t := match s.queue[index]? with
    | some ⟨.trivialLease, _, _⟩ => s.decEnqueuedTrivial
    | some ⟨.exclusiveAll, _, _⟩ => s.decEnqueuedExclusive
    | _ => s
  { t with queue := t.queue.eraseIdx index }

def wake (s : State) (waker : Option Nat) : State := { s with woken := s.woken ++ waker.toList }

/-- One turn of the loop of wakeCompletedWaiters at index i: either the next
index and state or, where the loop ends, its final state. -/
inductive Turn where
  | next (i : Nat) (s : State)
  | stop (s : State)

def wakeTurn (i : Nat) (s : State) : Turn :=
  match s.queue[i]? with
  | none => .stop s
  | some entry =>
    if entry.leasesRequested.exceeds s.maxLeases then .next (i + 1) s
    else
      let isExclusiveAllWaiter := entry.leasesRequested == .exclusiveAll
      match s.tryGrantOne entry.leasesRequested i with
      | (true, t) =>
        let t := (t.wake entry.waker).removeEntry i
        .next i (if isExclusiveAllWaiter then t.acquireExclusiveAllEnd else t)
      | (false, t) =>
        if !isExclusiveAllWaiter && !t.isExclusiveAllGranted && t.hasTrivialLeaseWaiters then
          .next (i + 1) t
        else .stop t

/-- Every turn either removes the entry at the index or moves on to the one
after it, so the queue's length bounds the number of turns. -/
def wakeLoop : Nat → Nat → State → State
  | 0, _, s => s
  | n + 1, i, s =>
    match wakeTurn i s with
    | .next j t => wakeLoop n j t
    | .stop t => t

def wakeCompletedWaiters (s : State) : State := wakeLoop s.queue.length 0 s

/-- The entry of a request that has been failed by a smaller capacity is left
on the queue, with its waker invoked and taken. -/
def failEntry (maxLeases : Nat) (entry : QueueEntry) : QueueEntry :=
  if entry.leasesRequested.exceeds maxLeases then { entry with waker := none } else entry

def wakeFailedWaiters (s : State) : State :=
  let failed := s.queue.filter fun entry => entry.leasesRequested.exceeds s.maxLeases
  let t := { s with
    queue := s.queue.map (failEntry s.maxLeases)
    woken := s.woken ++ failed.filterMap (·.waker) }
  if failed = [] then t else t.wakeCompletedWaiters

/-- The part of a trivial lease's return before the lock would be taken, all of
it within one critical section. -/
def returnTrivialLeaseGrant (s : State) : Bool × State :=
  (s.trivialLeasesGranted == 1 && s.leasesGranted == 0, s.decTrivialLeasesGranted)

def returnGrant (s : State) (leases : LeaseGrantCount) : State :=
  match leases with
  | .trivialLease =>
    match s.returnTrivialLeaseGrant with
    | (true, t) => t.wakeCompletedWaiters
    | (false, t) => t
  | .leases count =>
    { s.note (decide (s.leasesGranted < count)) with
      leasesGranted := subUsize s.leasesGranted count }.wakeCompletedWaiters
  | .exclusiveAll => { s with leasesGranted := 0 }.wakeCompletedWaiters

def cancelWaiter (s : State) (waiterId : Nat) (leasesRequested : LeaseGrantCount) : State :=
  match s.waiterPosition waiterId with
  | some index =>
    let t := s.removeEntry index
    match leasesRequested with
    | .trivialLease => t
    | .leases count => if 1 < count.1 then t.wakeCompletedWaiters else t
    | .exclusiveAll => t.acquireExclusiveAllEnd.wakeCompletedWaiters
  | none => s.returnGrant leasesRequested

def tryAcquireTrivialLease (s : State) : Bool × State :=
  if !s.hasExclusiveAllWaiters then s.tryGrantOne .trivialLease s.queue.length else (false, s)

def tryAcquireLeasesLocked (s : State) (leasesRequested : Nat) : Except SemaphoreError (Bool × State) :=
  if leasesRequested = 0 then .ok s.tryAcquireTrivialLease
  else if s.maxLeases < leasesRequested then .error .requestExceedsSemaphoreCapacity
  else if !s.hasUncancelledWaiters then
    .ok (s.tryGrantOne (.ofUsize leasesRequested) s.queue.length)
  else .ok (false, s)

def tryAcquireExclusiveAllLocked (s : State) : Bool × State :=
  if !s.hasUncancelledWaiters then s.tryGrantOne .exclusiveAll s.queue.length else (false, s)

def tryAcquireExclusiveAll (s : State) : Bool × State :=
  match s.acquireExclusiveAllBegin.tryAcquireExclusiveAllLocked with
  | (granted, t) => (granted, t.acquireExclusiveAllEnd)

/-- The outcome of reserving room for one more entry with the lock held: there
is room, the lock has to be dropped for an allocation of that many entries, or
no such allocation exists. -/
inductive Reserve where
  | ready
  | reallocate (reallocatedCapacity : Nat)
  | failed
  deriving DecidableEq, Repr

def tryReserve (s : State) : Reserve :=
  let reallocatedCapacity := s.queue.length + s.pendingReservations + 1
  if usize ≤ reallocatedCapacity then .failed
  else if reallocatedCapacity ≤ s.capacity then .ready
  else .reallocate reallocatedCapacity

def announceReservation (s : State) : State :=
  { s with pendingReservations := s.pendingReservations + 1 }

/-- What follows when the lock has been reacquired, with the capacity of the
vector allocated meanwhile, if any. -/
def tryReserveEnd (s : State) (reallocatedCapacity : Nat) (allocated : Option Nat) : Bool × State :=
  let t := { s with pendingReservations := s.pendingReservations - 1 }
  match allocated with
  | none => (false, t)
  | some capacity =>
    if min reallocatedCapacity (s.queue.length + s.pendingReservations) ≤ s.capacity then (true, t)
    else (true, { t with capacity := capacity })

/-- The waiter ids never repeat: the code panics at the first one that would. -/
def pushWaiter (s : State) (leasesRequested : LeaseGrantCount) : State :=
  { s with
    lastWaiterId := s.lastWaiterId + 1
    queue := s.queue ++ [⟨leasesRequested, none, s.lastWaiterId + 1⟩]
    capacity := max s.capacity (s.queue.length + 1) }

def enqueueReady (s : State) (leasesRequested : LeaseGrantCount) : State :=
  match leasesRequested with
  | .trivialLease => (s.pushWaiter .trivialLease).incEnqueuedTrivial
  | request => s.pushWaiter request

def enqueueFailed (s : State) (leasesRequested : LeaseGrantCount) : State :=
  match leasesRequested with
  | .exclusiveAll => s.decEnqueuedExclusive.acquireExclusiveAllEnd
  | _ => s

/-- How a request to acquire has been left by its first critical section. -/
inductive Prepared where
  | granted
  | enqueued (waiterId : Nat)
  | reallocating (reallocatedCapacity : Nat)
  | failed (error : SemaphoreError)
  deriving DecidableEq, Repr

def enqueueWaiter (s : State) (leasesRequested : LeaseGrantCount) : Prepared × State :=
  match s.tryReserve with
  | .ready => (.enqueued (s.lastWaiterId + 1), s.enqueueReady leasesRequested)
  | .reallocate reallocatedCapacity => (.reallocating reallocatedCapacity, s.announceReservation)
  | .failed => (.failed .memoryAllocationFailure, s.enqueueFailed leasesRequested)

def prepareAcquireLeases (s : State) (leasesRequested : Nat) : Prepared × State :=
  match s.tryAcquireLeasesLocked leasesRequested with
  | .error error => (.failed error, s)
  | .ok (true, t) => (.granted, t)
  | .ok (false, t) => t.enqueueWaiter (.ofUsize leasesRequested)

def prepareAcquireExclusiveAll (s : State) : Prepared × State :=
  match s.acquireExclusiveAllBegin.tryAcquireExclusiveAllLocked with
  | (true, t) => (.granted, t.acquireExclusiveAllEnd)
  | (false, t) => t.incEnqueuedExclusive.enqueueWaiter .exclusiveAll

/-- The second critical section of an enqueueing that had to allocate. -/
def finishEnqueue (s : State) (leasesRequested : LeaseGrantCount) (reallocatedCapacity : Nat)
    (allocated : Option Nat) : Option Nat × State :=
  match s.tryReserveEnd reallocatedCapacity allocated with
  | (true, t) => (some (t.lastWaiterId + 1), t.enqueueReady leasesRequested)
  | (false, t) => (none, t.enqueueFailed leasesRequested)

def setWaker (s : State) (index waker : Nat) : State :=
  { s with queue := s.queue.modify index fun entry => { entry with waker := some waker } }

inductive Polled where
  | granted
  | failed
  | pending
  deriving DecidableEq, Repr

def pollFuture (s : State) (waiterId : Nat) (leasesRequested : LeaseGrantCount) (waker : Nat) :
    Polled × State :=
  match s.waiterPosition waiterId with
  | none => (.granted, s)
  | some index =>
    let t := s.setWaker index waker
    if leasesRequested.exceeds t.maxLeases then (.failed, t.removeEntry index)
    else (.pending, t)

def leakLeases (s : State) (leasesGranted : Nat) : State :=
  let t := { s.note (decide (s.maxLeases < leasesGranted ∨ s.leasesGranted < leasesGranted)) with
    maxLeases := subUsize s.maxLeases leasesGranted
    leasesGranted := subUsize s.leasesGranted leasesGranted }
  let t := t.wakeFailedWaiters
  if t.hasExclusiveAllWaiters then t.wakeCompletedWaiters else t

def resizeFuture (s : State) (maxLeases : Nat) : State :=
  let t := { s with
    maxLeases := maxLeases
    leasesGranted := maxLeases + 1 }
  if maxLeases < s.maxLeases then t.wakeFailedWaiters else t

def downgrade (s : State) : State :=
  let t := { s with leasesGranted := s.maxLeases }
  let t := if s.maxLeases = 0 then t.incTrivialLeasesGranted else t
  if t.hasTrivialLeaseWaiters then t.wakeCompletedWaiters else t

end State

/-- How far the lock-free return of a trivial lease has got: before the first or
the second look at the leases granted, or about to take the lock for waking. -/
inductive Return where
  | firstLoad
  | secondLoad
  | wake
  deriving DecidableEq, Repr

/-- What the tasks own of the semaphore: futures, guards and operations that are
in progress without the lock. The leases' and the exclusive variants of futures
and guards are one here, told apart by the request. -/
inductive Owner where
  | enqueueing (leasesRequested : LeaseGrantCount) (reallocatedCapacity : Nat)
  | enqueued (waiterId : Nat) (leasesRequested : LeaseGrantCount)
  | granted (leasesGranted : LeaseGrantCount)
  | guard (leasesGranted : LeaseGrantCount)
  | returning (at_ : Return)
  deriving DecidableEq, Repr

structure System where
  sem : State
  owners : List Owner
  deriving DecidableEq, Repr

/-- The reference counts of the pointers to the semaphore stop at isize::MAX
strong and as many weak references. -/
def maxReferences : Nat := 2 * (2 ^ 63 - 1)

inductive Action where
  | acquireLeases (leasesRequested : Nat)
  | acquireExclusiveAll
  | finishEnqueue (owner : Nat) (allocated : Option Nat)
  | tryAcquireLeases (leasesRequested : Nat)
  | tryAcquireExclusiveAll
  | poll (owner waker : Nat)
  | drop (owner : Nat)
  | continueReturn (owner : Nat)
  | splitLeases (owner leases : Nat)
  | spawnTrivialLease (owner : Nat)
  | leak (owner : Nat)
  | resizeFuture (owner maxLeases : Nat)
  | downgrade (owner : Nat)
  deriving DecidableEq, Repr

namespace System

def new (maxLeases : Nat) : System := ⟨State.new maxLeases, []⟩

def owned (leasesRequested : LeaseGrantCount) : State.Prepared → List Owner
  | .granted => [.granted leasesRequested]
  | .enqueued waiterId => [.enqueued waiterId leasesRequested]
  | .reallocating reallocatedCapacity => [.enqueueing leasesRequested reallocatedCapacity]
  | .failed _ => []

def dropTrivialGuard (s : State) : State × List Owner :=
  (s.decTrivialLeasesGranted, if s.trivialLeasesGranted = 1 then [.returning .firstLoad] else [])

def continueReturn (s : State) : Return → State × List Owner
  | .firstLoad => (s, [.returning (if s.leasesGranted = 0 then .wake else .secondLoad)])
  | .secondLoad => (s, if s.leasesGranted = 0 then [.returning .wake] else [])
  | .wake => (s.wakeCompletedWaiters, [])

def dropOwner (s : State) : Owner → Option (State × List Owner)
  | .enqueued waiterId leasesRequested => some (s.cancelWaiter waiterId leasesRequested, [])
  | .granted leasesGranted => some (s.returnGrant leasesGranted, [])
  | .guard .trivialLease => some (dropTrivialGuard s)
  | .guard leasesGranted => some (s.returnGrant leasesGranted, [])
  | _ => none

def pollOwner (s : State) (waker : Nat) : Owner → Option (State × List Owner)
  | .enqueued waiterId leasesRequested =>
    match s.pollFuture waiterId leasesRequested waker with
    | (.granted, t) => some (t, [.guard leasesRequested])
    | (.failed, t) => some (t, [])
    | (.pending, t) => some (t, [.enqueued waiterId leasesRequested])
  | .granted leasesGranted => some (s, [.guard leasesGranted])
  | _ => none

/-- A trivial grant comes up wherever the one or the other part has no leases. -/
def splitLeases (s : State) (leases : Nat) : Owner → Option (State × List Owner)
  | .guard .exclusiveAll => none
  | .guard grant =>
    if grant.count < leases then some (s, [.guard grant])
    else
      some (if leases = 0 ∨ leases = grant.count then s.incTrivialLeasesGranted else s,
        [.guard (.ofUsize (grant.count - leases)), .guard (.ofUsize leases)])
  | _ => none

def leak (s : State) : Owner → Option (State × List Owner)
  | .guard .trivialLease => some (dropTrivialGuard s)
  | .guard (.leases count) => some (s.leakLeases count, [])
  | _ => none

/-- What an operation on something owned does: the semaphore's next state and
what replaces the owner. -/
def onOwner (s : State) (owner : Owner) : Action → Option (State × List Owner)
  | .finishEnqueue _ allocated =>
    match owner with
    | .enqueueing leasesRequested reallocatedCapacity =>
      if ∀ capacity ∈ allocated, reallocatedCapacity ≤ capacity then
        match s.finishEnqueue leasesRequested reallocatedCapacity allocated with
        | (some waiterId, t) => some (t, [.enqueued waiterId leasesRequested])
        | (none, t) => some (t, [])
      else none
    | _ => none
  | .poll _ waker => pollOwner s waker owner
  | .drop _ => dropOwner s owner
  | .continueReturn _ =>
    match owner with
    | .returning at_ => some (continueReturn s at_)
    | _ => none
  | .splitLeases _ leases => splitLeases s leases owner
  | .spawnTrivialLease _ =>
    match owner with
    | .guard .exclusiveAll => none
    | .guard grant => some (s.incTrivialLeasesGranted, [.guard grant, .guard .trivialLease])
    | _ => none
  | .leak _ => leak s owner
  | .resizeFuture _ maxLeases =>
    match owner with
    | .guard .exclusiveAll =>
      if maxLeases < usize - 1 then some (s.resizeFuture maxLeases, [owner]) else none
    | _ => none
  | .downgrade _ =>
    match owner with
    | .guard .exclusiveAll => some (s.downgrade, [.guard (.ofUsize s.maxLeases)])
    | _ => none
  | _ => none

def onSemaphore (s : State) : Action → Option (State × List Owner)
  | .acquireLeases leasesRequested =>
    match s.prepareAcquireLeases leasesRequested with
    | (prepared, t) => some (t, owned (.ofUsize leasesRequested) prepared)
  | .acquireExclusiveAll =>
    match s.prepareAcquireExclusiveAll with
    | (prepared, t) => some (t, owned .exclusiveAll prepared)
  | .tryAcquireLeases leasesRequested =>
    match s.tryAcquireLeasesLocked leasesRequested with
    | .error _ => some (s, [])
    | .ok (granted, t) => some (t, if granted then [.guard (.ofUsize leasesRequested)] else [])
  | .tryAcquireExclusiveAll =>
    match s.tryAcquireExclusiveAll with
    | (granted, t) => some (t, if granted then [.guard .exclusiveAll] else [])
  | _ => none

def target : Action → Option Nat
  | .acquireLeases _ | .acquireExclusiveAll | .tryAcquireLeases _ | .tryAcquireExclusiveAll => none
  | .finishEnqueue owner _ | .poll owner _ | .drop owner | .continueReturn owner
  | .splitLeases owner _ | .spawnTrivialLease owner | .leak owner | .resizeFuture owner _
  | .downgrade owner => some owner

/-- One critical section or one lock-free operation on a counter, by any of the
tasks. -/
def step (s : System) (a : Action) : Option System :=
  let result := match target a with
    | none => (onSemaphore s.sem a).map fun (t, new) => System.mk t (s.owners ++ new)
    | some i => s.owners[i]?.bind fun owner =>
      (onOwner s.sem owner a).map fun (t, new) => System.mk t (s.owners.eraseIdx i ++ new)
  result.filter fun t => t.owners.length ≤ maxReferences

end System

end CocoonFs.Semaphore
