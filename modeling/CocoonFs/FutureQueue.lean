import CocoonFs.Runs
import Mathlib.Algebra.Group.Nat.Defs
import Mathlib.Data.List.Basic

namespace CocoonFs.FutureQueue

/-- The broadcast waker's subscriptions, each with the waker installed for it,
if any, and the wake generation, a u64. -/
structure BroadcastWakerSubscriptions where
  subscribers : List (Nat × Option Nat)
  lastSubscriptionId : Nat
  wakeGen : Nat
  deriving DecidableEq, Repr

namespace BroadcastWakerSubscriptions

def new : BroadcastWakerSubscriptions := ⟨[], 0, 0⟩

/-- The first part of subscribing, up to where the lock may be dropped for an
allocation. Ids never repeat: the code panics at the first one that would. -/
def subscribe (w : BroadcastWakerSubscriptions) : BroadcastWakerSubscriptions :=
  { w with lastSubscriptionId := w.lastSubscriptionId + 1 }

def push (w : BroadcastWakerSubscriptions) (id : Nat) : BroadcastWakerSubscriptions :=
  { w with subscribers := w.subscribers ++ [(id, none)] }

def unsubscribe (w : BroadcastWakerSubscriptions) (id : Nat) : BroadcastWakerSubscriptions :=
  { w with subscribers := w.subscribers.eraseP fun entry => entry.1 == id }

def setWaker (id waker : Nat) : List (Nat × Option Nat) → List (Nat × Option Nat)
  | [] => []
  | entry :: rest => if entry.1 = id then (entry.1, some waker) :: rest else entry :: setWaker id waker rest

def setSubscriptionWaker (w : BroadcastWakerSubscriptions) (id waker : Nat) : BroadcastWakerSubscriptions :=
  { w with subscribers := setWaker id waker w.subscribers }

def hasWaker (w : BroadcastWakerSubscriptions) (id : Nat) : Bool :=
  w.subscribers.any fun entry => entry.1 == id && entry.2.isSome

def nextWakeGen (w : BroadcastWakerSubscriptions) : BroadcastWakerSubscriptions :=
  { w with wakeGen := if w.wakeGen + 1 < 2 ^ 64 then w.wakeGen + 1 else 0 }

end BroadcastWakerSubscriptions

inductive FutureQueuePollingState where
  | idle
  | inPoll
  deriving DecidableEq, Repr

variable {F O : Type}

/-- The queue's state. The active future carries the id it was enqueued under,
which the code keeps beside it only. The fields from failed on record what
happened: whether an unwrap or an assertion has failed; the ids in the order of
their submission; those cancelled before they completed; the outputs in the
order the futures were polled to completion, those handed to a subscription and
those dropped with it; the number of broadcasts; the subscriptions whose latest
poll returned Pending and whose waker has not been invoked since; the number of
broadcasts when the active future's latest poll began and whether that poll has
returned Pending. -/
structure State (F O : Type) where
  wakers : BroadcastWakerSubscriptions
  pollingState : FutureQueuePollingState
  submissionQueue : List (Nat × F)
  completionQueue : List (Option (Nat × O))
  activeQueueEntryId : Option Nat
  activeFut : Option (Nat × F)
  failed : Bool
  submitted : List Nat
  cancelled : List Nat
  produced : List (Nat × O)
  delivered : List (Nat × O)
  discarded : List (Nat × O)
  broadcasts : Nat
  asleep : List Nat
  pollBegan : Nat
  pollPending : Bool
  deriving DecidableEq, Repr

namespace State

def new : State F O where
  wakers := .new
  pollingState := .idle
  submissionQueue := []
  completionQueue := []
  activeQueueEntryId := none
  activeFut := none
  failed := false
  submitted := []
  cancelled := []
  produced := []
  delivered := []
  discarded := []
  broadcasts := 0
  asleep := []
  pollBegan := 0
  pollPending := false

/-- Records an unwrap or an assertion that fails unless the condition holds. -/
def check (s : State F O) (condition : Bool) : State F O := { s with failed := s.failed || !condition }

def isPlaceholder : Option (Option (Nat × O)) → Bool
  | some none => true
  | _ => false

def popPlaceholder (s : State F O) : State F O :=
  { s with completionQueue := s.completionQueue.dropLast }.check (isPlaceholder s.completionQueue.getLast?)

def isResultOf (id : Nat) : Option (Nat × O) → Bool
  | some cqe => cqe.1 == id
  | none => false

def unsubscribe (s : State F O) (id : Nat) : State F O := { s with wakers := s.wakers.unsubscribe id }

def wake (s : State F O) : State F O :=
  { s with
    wakers := s.wakers.nextWakeGen
    broadcasts := s.broadcasts + 1
    asleep := s.asleep.filter fun id => !s.wakers.hasWaker id }

/-- The part of enqueueing once there is room on the completion queue, or its
failure for want of memory. -/
def enqueueCompletion (s : State F O) (id : Nat) (allocated : Bool) : State F O :=
  if allocated then { s with completionQueue := s.completionQueue ++ [none] } else s.unsubscribe id

def enqueueSubmission (s : State F O) (id : Nat) (fut : F) (allocated : Bool) : State F O :=
  if allocated then
    { s with
      submissionQueue := s.submissionQueue ++ [(id, fut)]
      submitted := s.submitted ++ [id] }
  else s.popPlaceholder.unsubscribe id

/-- What cancelling does with the lock held, the subscription being gone from
the broadcast waker's already. -/
def cancelQueued (s : State F O) (id : Nat) : State F O :=
  if s.submissionQueue.any (fun sqe => sqe.1 == id) then
    let t := { s with
      submissionQueue := s.submissionQueue.eraseP fun sqe => sqe.1 == id
      cancelled := s.cancelled ++ [id] }
    (t.check (!t.completionQueue.any (isResultOf id))).popPlaceholder
  else if s.activeQueueEntryId = some id then
    let t := { s with
      activeQueueEntryId := none
      activeFut := if s.pollingState = FutureQueuePollingState.idle then none else s.activeFut
      cancelled := s.cancelled ++ [id] }
    (t.check (!t.completionQueue.any (isResultOf id))).popPlaceholder
  else
    match s.completionQueue.find? (isResultOf id) with
    | some (some cqe) =>
      { s with
        completionQueue := s.completionQueue.eraseP (isResultOf id)
        discarded := s.discarded ++ [cqe] }
    | _ => s

def takeCompleted (id : Nat) :
    List (Option (Nat × O)) → Option (O × List (Option (Nat × O)))
  | some cqe :: rest =>
    if cqe.1 = id then some (cqe.2, rest)
    else (takeCompleted id rest).map fun (output, rest) => (output, some cqe :: rest)
  | _ => none

def fillPlaceholder (cqe : Nat × O) : List (Option (Nat × O)) → Option (List (Option (Nat × O)))
  | [] => none
  | none :: rest => some (some cqe :: rest)
  | some other :: rest => (fillPlaceholder cqe rest).map (some other :: ·)

/-- The beginning of polling on behalf of a subscription: its result, if there
is one, or else the state with the waker installed. -/
def pollBegin (s : State F O) (id waker : Nat) : Option O × State F O :=
  match takeCompleted id s.completionQueue with
  | some (output, rest) =>
    (some output, { s with
      completionQueue := rest
      delivered := s.delivered ++ [(id, output)]
      asleep := s.asleep.filter (· != id) })
  | none =>
    (none, { s with
      wakers := s.wakers.setSubscriptionWaker id waker
      asleep := s.asleep.filter (· != id) })

/-- Moves the head of the submission queue to where it is polled unless some
future is there still. -/
def activate (s : State F O) : State F O :=
  match s.activeQueueEntryId with
  | some _ => s.check s.activeFut.isSome
  | none =>
    match s.submissionQueue with
    | [] => { s with activeFut := none }.check false
    | (id, fut) :: rest =>
      { s with
        activeFut := some (id, fut)
        submissionQueue := rest
        activeQueueEntryId := some id }

/-- The loop's part before the future's own poll, with the lock held up to its
end. -/
def startPoll (s : State F O) : State F O :=
  { s.activate with
    pollingState := .inPoll
    pollBegan := s.broadcasts
    pollPending := false }

/-- Stores the result of another subscription's future and wakes its waiter. -/
def complete (s : State F O) (id : Nat) (output : O) : State F O :=
  match fillPlaceholder (id, output) s.completionQueue with
  | none => s.check false
  | some completionQueue =>
    { s with
      completionQueue := completionQueue
      wakers := s.wakers.unsubscribe id
      asleep := if s.wakers.hasWaker id then s.asleep.filter (· != id) else s.asleep }

/-- How one turn of the polling loop ends. -/
inductive Turn (O : Type) where
  | pending
  | ready (output : O)
  | again (wakeGen : Nat)
  deriving DecidableEq, Repr

/-- The loop's part after the future's own poll, which leaves the future behind
changed and has returned an output or Pending. -/
def finishPoll (s : State F O) (queueEntryId wakeGen : Nat) (fut : F) (result : Option O) :
    Turn O × State F O :=
  let s : State F O := { s with
    pollingState := .idle
    activeFut := s.activeFut.map fun active => (active.1, fut) }
  match s.activeQueueEntryId with
  | none => (.again s.wakers.wakeGen, { s with activeFut := none })
  | some completedId =>
    match result with
    | some output =>
      let t : State F O := { s with
        activeQueueEntryId := none
        activeFut := none
        produced := s.produced ++ s.activeFut.toList.map fun active => (active.1, output) }
      if completedId = queueEntryId then (.ready output, t.popPlaceholder)
      else (.again t.wakers.wakeGen, t.complete completedId output)
    | none =>
      if wakeGen = s.wakers.wakeGen then (.pending, { s with pollPending := true })
      else (.again s.wakers.wakeGen, s)

end State

/-- What the tasks own: operations in progress and subscriptions. An enqueueing
has got its id and is about to push its broadcast subscription, its placeholder
or its future; each of these allocates and may drop the lock before. A
subscription's poll holds the lock since it has installed its waker, is polling
the active future without the lock, or has got its own result and is about to
wake the others; its drop is about to take the lock. -/
inductive Owner (F O : Type) where
  | subscribing (id : Nat) (fut : F)
  | reservingCompletion (id : Nat) (fut : F)
  | reservingSubmission (id : Nat) (fut : F)
  | waiting (id : Nat)
  | entered (id : Nat)
  | polling (id wakeGen : Nat)
  | notifying (id : Nat) (output : O)
  | cancelling (id : Nat)
  deriving DecidableEq, Repr

structure System (F O : Type) where
  queue : State F O
  owners : List (Owner F O)
  deriving DecidableEq, Repr

inductive Action (F O : Type) where
  | enqueue (fut : F)
  | subscribed (owner : Nat) (allocated : Bool)
  | reservedCompletion (owner : Nat) (allocated : Bool)
  | reservedSubmission (owner : Nat) (allocated : Bool)
  | poll (owner waker : Nat)
  | enter (owner : Nat)
  | pollReturned (owner : Nat) (fut : F) (result : Option O)
  | notify (owner : Nat)
  | drop (owner : Nat)
  | cancel (owner : Nat)
  | wake
  deriving DecidableEq, Repr

namespace System

open State

def new : System F O := ⟨.new, []⟩

def isEntered : Owner F O → Bool
  | .entered _ => true
  | _ => false

def sleep (s : State F O) (id : Nat) : State F O × List (Owner F O) :=
  ({ s with asleep := s.asleep ++ [id] }, [.waiting id])

def enter (s : State F O) (id : Nat) : State F O × List (Owner F O) :=
  match s.pollingState with
  | .inPoll => sleep s id
  | .idle => (s.startPoll, [.polling id s.wakers.wakeGen])

def pollReturned (s : State F O) (id wakeGen : Nat) (fut : F) (result : Option O) :
    State F O × List (Owner F O) :=
  match s.finishPoll id wakeGen fut result with
  | (.pending, t) => sleep t id
  | (.ready output, t) => (t, [.notifying id output])
  | (.again wakeGen, t) => (t.startPoll, [.polling id wakeGen])

/-- What an owner's next operation does: the queue's next state and what
replaces the owner. -/
def onOwner (s : State F O) : Owner F O → Action F O → Option (State F O × List (Owner F O))
  | .subscribing id fut, .subscribed _ allocated =>
    some (if allocated then ({ s with wakers := s.wakers.push id }, [.reservingCompletion id fut])
      else (s, []))
  | .reservingCompletion id fut, .reservedCompletion _ allocated =>
    some (s.enqueueCompletion id allocated, if allocated then [.reservingSubmission id fut] else [])
  | .reservingSubmission id fut, .reservedSubmission _ allocated =>
    some (s.enqueueSubmission id fut allocated, if allocated then [.waiting id] else [])
  | .waiting id, .poll _ waker =>
    some (match s.pollBegin id waker with
      | (some _, t) => (t, [])
      | (none, t) => (t, [.entered id]))
  | .entered id, .enter _ => some (enter s id)
  | .polling id wakeGen, .pollReturned _ fut result => some (pollReturned s id wakeGen fut result)
  | .notifying id output, .notify _ =>
    some ({ (s.unsubscribe id).wake with delivered := s.delivered ++ [(id, output)] }, [])
  | .waiting id, .drop _ =>
    some ({ s.unsubscribe id with asleep := s.asleep.filter (· != id) }, [.cancelling id])
  | .cancelling id, .cancel _ => some (s.cancelQueued id, [])
  | _, _ => none

def target : Action F O → Option Nat
  | .enqueue _ | .wake => none
  | .subscribed owner _ | .reservedCompletion owner _ | .reservedSubmission owner _ | .poll owner _
  | .enter owner | .pollReturned owner _ _ | .notify owner | .drop owner | .cancel owner => some owner

/-- The operations that begin with the lock of the queue's state. -/
def locks : Action F O → Bool
  | .reservedCompletion _ _ | .reservedSubmission _ _ | .poll _ _ | .pollReturned _ _ _ | .cancel _ => true
  | _ => false

def onQueue (s : State F O) : Action F O → Option (State F O × List (Owner F O))
  | .enqueue fut =>
    some ({ s with wakers := s.wakers.subscribe }, [.subscribing (s.wakers.lastSubscriptionId + 1) fut])
  | .wake => some (s.wake, [])
  | _ => none

/-- One critical section of the queue's lock, or of the broadcast waker's
outside of it, by any of the tasks. -/
def step (s : System F O) (a : Action F O) : Option (System F O) :=
  if locks a ∧ s.owners.any isEntered then none
  else
    match target a with
    | none => (onQueue s.queue a).map fun (t, new) => ⟨t, s.owners ++ new⟩
    | some i => s.owners[i]?.bind fun owner =>
      (onOwner s.queue owner a).map fun (t, new) => ⟨t, s.owners.eraseIdx i ++ new⟩

end System

end CocoonFs.FutureQueue
