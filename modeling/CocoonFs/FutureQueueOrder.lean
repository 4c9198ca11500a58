import CocoonFs.FutureQueue
import Mathlib.Data.List.Nodup
import Mathlib.Data.List.Perm.Basic

namespace CocoonFs.FutureQueueOrder

open FutureQueue FutureQueue.State FutureQueue.System Runs List
open List (cons_append length replicate)

variable {F O : Type}

/-- The futures neither completed nor cancelled, the active one first. -/
def outstanding (s : State F O) : List Nat := s.activeQueueEntryId.toList ++ s.submissionQueue.map (·.1)

def stored (s : State F O) : List (Nat × O) := s.completionQueue.filterMap fun cqe => cqe

def subscription : Owner F O → Option Nat
  | .waiting id | .entered id | .polling id _ | .cancelling id => some id
  | _ => none

def isPolling : Owner F O → Bool
  | .polling _ _ => true
  | _ => false

/-- An enqueueing that has pushed its placeholder and not its future yet. -/
def isEnqueueing : Owner F O → Bool
  | .reservingSubmission _ _ => true
  | _ => false

def onItsWay : Owner F O → Option (Nat × O)
  | .notifying id output => some (id, output)
  | _ => none

/-- What the queue promises. The outputs are those of the futures they are
recorded with, and the results stored and delivered carry the ids of the
subscriptions they are for. -/
structure Sound (sys : System F O) : Prop where
  one_poller : (sys.owners.filter isPolling).length = if sys.queue.pollingState = .inPoll then 1 else 0
  active : ∀ id ∈ sys.queue.activeQueueEntryId, ∃ fut, sys.queue.activeFut = some (id, fut)
  in_order : sys.queue.submitted.filter (fun id => decide (id ∉ sys.queue.cancelled)) =
    sys.queue.produced.map (·.1) ++ outstanding sys.queue
  produced_once : (sys.queue.produced.map (·.1)).Nodup
  delivered_once : sys.queue.produced.Perm (stored sys.queue ++ sys.owners.filterMap onItsWay ++
    sys.queue.delivered ++ sys.queue.discarded)
  owned : (outstanding sys.queue ++ (stored sys.queue).map (·.1)).Perm (sys.owners.filterMap subscription)
  collectable : ∀ cqe ∈ stored sys.queue,
    ∃ rest, takeCompleted cqe.1 sys.queue.completionQueue = some (cqe.2, rest)
  placeholders : sys.queue.completionQueue = (stored sys.queue).map some ++
    replicate ((outstanding sys.queue).length + (sys.owners.filter isEnqueueing).length) none
  no_failure : sys.queue.failed = false

section CompletionQueue

variable {results : List (Nat × O)} {n : Nat} {id : Nat}

theorem filterMap_placeholders (results : List (Nat × O)) (n : Nat) :
    (results.map some ++ replicate n none).filterMap (fun cqe => cqe) = results := by
  induction results with
  | nil => simp
  | cons cqe rest ih => simp

theorem dropLast_placeholders (results : List (Nat × O)) (n : Nat) :
    (results.map some ++ replicate (n + 1) none).dropLast = results.map some ++ replicate n none := by
  rw [replicate_succ', ← append_assoc, dropLast_concat]

theorem getLast?_placeholders (results : List (Nat × O)) (n : Nat) :
    isPlaceholder (results.map some ++ replicate (n + 1) none).getLast? = true := by
  rw [replicate_succ', ← append_assoc, getLast?_concat]
  rfl

theorem fillPlaceholder_placeholders (cqe : Nat × O) (results : List (Nat × O)) (n : Nat) :
    fillPlaceholder cqe (results.map some ++ replicate (n + 1) none) =
      some ((results ++ [cqe]).map some ++ replicate n none) := by
  induction results with
  | nil => simp [fillPlaceholder, replicate_succ]
  | cons other rest ih => simp [fillPlaceholder, ih]

theorem any_isResultOf (results : List (Nat × O)) (n id : Nat) :
    (results.map some ++ replicate n none).any (isResultOf id) = true ↔ id ∈ results.map (·.1) := by
  simp [isResultOf]

theorem takeCompleted_eq_none (h : takeCompleted id (results.map some ++ replicate n none) = none) :
    id ∉ results.map (·.1) := by
  induction results with
  | nil => simp
  | cons cqe results ih =>
    simp only [map_cons, cons_append, takeCompleted] at h
    by_cases hid : cqe.1 = id
    · simp [hid] at h
    · rw [if_neg hid, Option.map_eq_none_iff] at h
      exact not_mem_cons_of_ne_of_not_mem (Ne.symm hid) (ih h)

theorem takeCompleted_placeholders {output : O} {rest : List (Option (Nat × O))}
    (h : takeCompleted id (results.map some ++ replicate n none) = some (output, rest)) :
    ∃ before after, results = before ++ (id, output) :: after ∧
      rest = (before ++ after).map some ++ replicate n none := by
  induction results generalizing rest with
  | nil => cases n <;> simp [takeCompleted, replicate_succ] at h
  | cons cqe results ih =>
    simp only [map_cons, cons_append, takeCompleted] at h
    by_cases hid : cqe.1 = id
    · rw [if_pos hid] at h
      cases Option.some.inj h
      exact ⟨[], results, by simp [← hid], by simp⟩
    · rw [if_neg hid] at h
      obtain ⟨⟨output', rest'⟩, htake, heq⟩ := Option.map_eq_some_iff.1 h
      cases heq
      obtain ⟨before, after, rfl, rfl⟩ := ih htake
      exact ⟨cqe :: before, after, by simp, by simp⟩

theorem find?_isResultOf (h : id ∈ results.map (·.1)) : ∃ before output after,
    results = before ++ (id, output) :: after ∧
    (results.map some ++ replicate n none).find? (isResultOf id) = some (some (id, output)) ∧
    (results.map some ++ replicate n none).eraseP (isResultOf id) =
      (before ++ after).map some ++ replicate n none := by
  induction results with
  | nil => simp at h
  | cons cqe results ih =>
    by_cases hid : cqe.1 = id
    · exact ⟨[], cqe.2, results, by simp [← hid], by simp [isResultOf, ← hid],
        by simp [isResultOf, hid]⟩
    · have hmem : id ∈ results.map (·.1) := by simpa [Ne.symm hid] using h
      obtain ⟨before, output, after, rfl, hfind, herase⟩ := ih hmem
      have hnot : isResultOf id (some cqe) = false := by simp [isResultOf, hid]
      refine ⟨cqe :: before, output, after, by simp, ?_, ?_⟩
      · rw [map_cons, cons_append, find?_cons_of_neg (by simp [hnot]), hfind]
      · rw [map_cons, cons_append, eraseP_cons_of_neg (by simp [hnot]), herase]
        simp

end CompletionQueue

def drives : Owner F O → Option Nat
  | .entered id | .polling id _ => some id
  | _ => none

def idOf : Owner F O → Nat
  | .subscribing id _ | .reservingCompletion id _ | .reservingSubmission id _ | .waiting id | .entered id
  | .polling id _ | .notifying id _ | .cancelling id => id

/-- An enqueueing whose future is not on the submission queue yet. -/
def unsubmitted : Owner F O → Bool
  | .subscribing _ _ | .reservingCompletion _ _ | .reservingSubmission _ _ => true
  | _ => false

/-- What every step keeps, for the queue's state, its owners in any order, the
futures outstanding and the results stored. -/
structure Inv (s : State F O) (owners : List (Owner F O)) (futures : List Nat)
    (results : List (Nat × O)) : Prop where
  futures_eq : outstanding s = futures
  completion_eq : s.completionQueue = results.map some ++
    replicate (futures.length + (owners.filter isEnqueueing).length) none
  one_poller : (owners.filter isPolling).length = if s.pollingState = .inPoll then 1 else 0
  active_idle : s.pollingState = .idle → s.activeFut.map (·.1) = s.activeQueueEntryId
  active_inPoll : s.pollingState = .inPoll →
    ∃ active, s.activeFut = some active ∧ ∀ id ∈ s.activeQueueEntryId, active.1 = id
  in_order : s.submitted.filter (fun id => decide (id ∉ s.cancelled)) = s.produced.map (·.1) ++ futures
  delivered_once : s.produced.Perm (results ++ owners.filterMap onItsWay ++ s.delivered ++ s.discarded)
  owned : (futures ++ results.map (·.1)).Perm (owners.filterMap subscription)
  no_failure : s.failed = false
  driving : ∀ id ∈ owners.filterMap drives, id ∈ futures
  ids_nodup : (owners.map idOf).Nodup
  ids_le : ∀ id ∈ owners.map idOf, id ≤ s.wakers.lastSubscriptionId
  submitted_nodup : s.submitted.Nodup
  submitted_le : ∀ id ∈ s.submitted, id ≤ s.wakers.lastSubscriptionId
  fresh : ∀ o ∈ owners, unsubmitted o = true → idOf o ∉ s.submitted
  cancelled_subset : ∀ id ∈ s.cancelled, id ∈ s.submitted

section

variable {s t : State F O} {owners rest : List (Owner F O)} {o o' : Owner F O} {futures : List Nat}
  {results : List (Nat × O)} {id g : Nat} {fut : F}

theorem Inv.perm {owners' : List (Owner F O)} (h : Inv s owners futures results)
    (hperm : owners.Perm owners') : Inv s owners' futures results where
  futures_eq := h.futures_eq
  completion_eq := by rw [← (hperm.filter isEnqueueing).length_eq, ← h.completion_eq]
  one_poller := by rw [← h.one_poller, (hperm.filter isPolling).length_eq]
  active_idle := h.active_idle
  active_inPoll := h.active_inPoll
  in_order := h.in_order
  delivered_once := h.delivered_once.trans
    ((((hperm.filterMap onItsWay).append_left _).append_right _).append_right _)
  owned := h.owned.trans (hperm.filterMap subscription)
  no_failure := h.no_failure
  driving := fun id hid => h.driving id ((hperm.filterMap drives).mem_iff.2 hid)
  ids_nodup := (hperm.map idOf).nodup_iff.1 h.ids_nodup
  ids_le := fun id hid => h.ids_le id ((hperm.map idOf).mem_iff.2 hid)
  submitted_nodup := h.submitted_nodup
  submitted_le := h.submitted_le
  fresh := fun o ho => h.fresh o (hperm.mem_iff.2 ho)
  cancelled_subset := h.cancelled_subset

def core (s : State F O) : State F O :=
  { s with
    wakers := ⟨[], s.wakers.lastSubscriptionId, 0⟩
    broadcasts := 0
    asleep := []
    pollBegan := 0
    pollPending := false }

theorem Inv.of_core (h : Inv s owners futures results) (heq : core t = core s) :
    Inv t owners futures results := by
  have hcore : Inv (core t) owners futures results := by
    rw [heq]
    exact { h with }
  exact { hcore with }

theorem stored_eq {n : Nat} (h : s.completionQueue = results.map some ++ replicate n none) :
    stored s = results := by
  rw [stored, h]
  exact filterMap_placeholders results n

section

variable (h : Inv s owners futures results)
include h

/-- Each subscription has its future on the queue or its result stored, never both. -/
theorem Inv.nodup : (futures ++ results.map (·.1)).Nodup := by
  rw [h.owned.nodup_iff]
  have hsub : (owners.filterMap subscription).Sublist (owners.map idOf) := by
    clear h
    induction owners with
    | nil => exact .slnil
    | cons o rest ih => cases o <;> simp [filterMap_cons, subscription, idOf, ih, List.Sublist.cons]
  exact h.ids_nodup.sublist hsub

theorem Inv.produced_nodup :
    (s.produced.map (·.1) ++ futures).Nodup := by
  rw [← h.in_order]
  exact h.submitted_nodup.filter _

theorem Inv.active (hid : s.activeQueueEntryId = some id) :
    ∃ fut, s.activeFut = some (id, fut) := by
  cases hstate : s.pollingState with
  | idle =>
    have hactive := h.active_idle hstate
    rw [hid] at hactive
    obtain ⟨active, hfut, rfl⟩ := Option.map_eq_some_iff.1 hactive
    exact ⟨active.2, hfut⟩
  | inPoll =>
    obtain ⟨active, hfut, hids⟩ := h.active_inPoll hstate
    obtain rfl := hids id hid
    exact ⟨active.2, hfut⟩

theorem Inv.collectable {cqe : Nat × O} (hcqe : cqe ∈ results) :
    ∃ rest, takeCompleted cqe.1 s.completionQueue = some (cqe.2, rest) := by
  rw [h.completion_eq]
  cases htake : takeCompleted cqe.1 (results.map some ++
      replicate (futures.length + (owners.filter isEnqueueing).length) none) with
  | none => exact absurd (mem_map_of_mem hcqe) (takeCompleted_eq_none htake)
  | some taken =>
    obtain ⟨before, after, hresults, -⟩ := takeCompleted_placeholders htake
    have hmem : (cqe.1, taken.1) ∈ results := by simp [hresults]
    have heq := inj_on_of_nodup_map (nodup_append.1 h.nodup).2.1 hmem hcqe rfl
    exact ⟨taken.2, by rw [← heq]⟩

end

variable {sys : System F O} {output : O} {a : Action F O}

theorem sound_of_inv (h : Inv sys.queue sys.owners futures results) : Sound sys := by
  have hstored := stored_eq h.completion_eq
  exact
    { one_poller := h.one_poller
      active := fun id hid => h.active hid
      in_order := by rw [h.futures_eq]; exact h.in_order
      produced_once := (nodup_append.1 h.produced_nodup).1
      delivered_once := by rw [hstored]; exact h.delivered_once
      owned := by rw [hstored, h.futures_eq]; exact h.owned
      collectable := by
        rw [hstored]
        exact fun cqe hcqe => h.collectable hcqe
      placeholders := by rw [hstored, h.futures_eq]; exact h.completion_eq
      no_failure := h.no_failure }

theorem inv_new : Inv (State.new : State F O) [] [] [] where
  futures_eq := rfl
  completion_eq := rfl
  one_poller := rfl
  active_idle := fun _ => rfl
  active_inPoll := fun h => by cases h
  in_order := rfl
  delivered_once := .nil
  owned := .nil
  no_failure := rfl
  driving := by simp
  ids_nodup := .nil
  ids_le := by simp
  submitted_nodup := .nil
  submitted_le := by simp [State.new]
  fresh := by simp
  cancelled_subset := by simp [State.new]

theorem Inv.rephase (h : Inv s (o :: rest) futures results) (hid : idOf o' = idOf o)
    (hsub : subscription o' = subscription o) (hway : onItsWay o' = onItsWay o)
    (hpolling : isPolling o' = isPolling o) (henqueueing : isEnqueueing o' = isEnqueueing o)
    (hdrives : ∀ id, drives o' = some id → id ∈ futures)
    (hunsubmitted : unsubmitted o' = true → unsubmitted o = true) : Inv s (o' :: rest) futures results where
  futures_eq := h.futures_eq
  completion_eq := by
    have hlen : ((o' :: rest).filter isEnqueueing).length = ((o :: rest).filter isEnqueueing).length := by
      rw [filter_cons, filter_cons, henqueueing]
      split <;> simp
    rw [hlen, ← h.completion_eq]
  one_poller := by rw [← h.one_poller, filter_cons, filter_cons, hpolling]; split <;> simp
  active_idle := h.active_idle
  active_inPoll := h.active_inPoll
  in_order := h.in_order
  delivered_once := by
    rw [filterMap_cons, hway, ← filterMap_cons]
    exact h.delivered_once
  owned := by
    rw [filterMap_cons, hsub, ← filterMap_cons]
    exact h.owned
  no_failure := h.no_failure
  driving := by
    intro id hmem
    obtain ⟨p, hp, hdrive⟩ := mem_filterMap.1 hmem
    rcases mem_cons.1 hp with rfl | hp
    · exact hdrives id hdrive
    · exact h.driving id (mem_filterMap.2 ⟨p, mem_cons_of_mem _ hp, hdrive⟩)
  ids_nodup := by
    rw [map_cons, hid, ← map_cons]
    exact h.ids_nodup
  ids_le := by
    rw [map_cons, hid, ← map_cons]
    exact h.ids_le
  submitted_nodup := h.submitted_nodup
  submitted_le := h.submitted_le
  fresh := by
    intro p hp hun
    rcases mem_cons.1 hp with rfl | hp
    · rw [hid]
      exact h.fresh o mem_cons_self (hunsubmitted hun)
    · exact h.fresh p (mem_cons_of_mem _ hp) hun
  cancelled_subset := h.cancelled_subset

theorem Inv.remove (h : Inv s (o :: rest) futures results) (hsub : subscription o = none)
    (hway : onItsWay o = none) (hpolling : isPolling o = false) (henqueueing : isEnqueueing o = false) :
    Inv s rest futures results where
  futures_eq := h.futures_eq
  completion_eq := by
    have hcompletion := h.completion_eq
    rwa [filter_cons_of_neg (by simp [henqueueing])] at hcompletion
  one_poller := by rw [← h.one_poller, filter_cons_of_neg (by simp [hpolling])]
  active_idle := h.active_idle
  active_inPoll := h.active_inPoll
  in_order := h.in_order
  delivered_once := by
    have hdelivered := h.delivered_once
    rwa [filterMap_cons_none hway] at hdelivered
  owned := by
    have howned := h.owned
    rwa [filterMap_cons_none hsub] at howned
  no_failure := h.no_failure
  driving := by
    intro id hmem
    obtain ⟨p, hp, hdrive⟩ := mem_filterMap.1 hmem
    exact h.driving id (mem_filterMap.2 ⟨p, mem_cons_of_mem _ hp, hdrive⟩)
  ids_nodup := (nodup_cons.1 h.ids_nodup).2
  ids_le := fun id hid => h.ids_le id (mem_cons_of_mem _ hid)
  submitted_nodup := h.submitted_nodup
  submitted_le := h.submitted_le
  fresh := fun p hp => h.fresh p (mem_cons_of_mem _ hp)
  cancelled_subset := h.cancelled_subset

theorem inv_sleep (h : Inv s (.entered id :: rest) futures results) :
    Inv (sleep s id).1 ((sleep s id).2 ++ rest) futures results := by
  have hwaiting : Inv s (.waiting id :: rest) futures results :=
    h.rephase rfl rfl rfl rfl rfl (by simp [drives]) (by simp [unsubmitted])
  exact hwaiting.of_core rfl

/-- There is a future to be polled: that of the subscription polling if no
other. -/
theorem activate_spec (h : Inv s (.entered id :: rest) futures results) :
    ∃ active queue, futures = active.1 :: queue.map (·.1) ∧ s.activate = { s with
      activeFut := some active
      activeQueueEntryId := some active.1
      submissionQueue := queue } := by
  have hmem : id ∈ futures := h.driving id (by simp [drives])
  rw [← h.futures_eq] at hmem ⊢
  cases hactive : s.activeQueueEntryId with
  | some active =>
    obtain ⟨f, hf⟩ := h.active hactive
    refine ⟨(active, f), s.submissionQueue, by simp [outstanding, hactive], ?_⟩
    rw [activate, hactive]
    simp only [check, hf, Option.isSome_some, Bool.not_true, Bool.or_false]
    rw [← hf, ← hactive]
  | none =>
    cases hqueue : s.submissionQueue with
    | nil => simp [outstanding, hactive, hqueue] at hmem
    | cons sqe queue =>
      refine ⟨sqe, queue, by simp [outstanding, hactive, hqueue], ?_⟩
      simp [activate, hactive, hqueue]

theorem inv_startPoll (h : Inv s (.entered id :: rest) futures results) (hidle : s.pollingState = .idle) :
    Inv s.startPoll (.polling id g :: rest) futures results := by
  obtain ⟨active, queue, hout, hactivate⟩ := activate_spec h
  rw [startPoll, hactivate]
  have hpoller := h.one_poller
  rw [hidle] at hpoller
  exact
    { h with
      futures_eq := by simp [outstanding, hout]
      one_poller := congrArg (· + 1) hpoller
      active_idle := by simp
      active_inPoll := fun _ => ⟨active, by simp⟩
      fresh := by simpa [unsubmitted] using h.fresh }

theorem popPlaceholder_spec {n : Nat}
    (h : s.completionQueue = results.map some ++ replicate (n + 1) none) (hfailed : s.failed = false) :
    s.popPlaceholder = { s with completionQueue := results.map some ++ replicate n none } := by
  simp only [popPlaceholder, check, h, dropLast_placeholders, getLast?_placeholders, hfailed,
    Bool.not_true, Bool.or_false]

section

variable (h : Inv s (.polling id g :: rest) futures results) (hlock : rest.any isEntered = false)
include h hlock

theorem Inv.no_other :
    s.pollingState = .inPoll ∧ rest.filter isPolling = [] ∧ rest.filterMap drives = [] := by
  have hlen : (rest.filter isPolling).length + 1 = if s.pollingState = .inPoll then 1 else 0 := h.one_poller
  have hstate : s.pollingState = .inPoll := by
    by_contra hne
    rw [if_neg hne] at hlen
    exact Nat.succ_ne_zero _ hlen
  rw [if_pos hstate] at hlen
  have hnil : rest.filter isPolling = [] := length_eq_zero_iff.1 (Nat.succ.inj hlen)
  refine ⟨hstate, hnil, filterMap_eq_nil_iff.2 ?_⟩
  intro o ho
  have hpolling := filter_eq_nil_iff.1 hnil o ho
  have hentered := any_eq_false.1 hlock o ho
  cases o <;> simp_all [isPolling, isEntered, drives]

theorem inv_released
    (hactive : t.activeFut.map (·.1) = s.activeQueueEntryId) (hidle : t.pollingState = .idle)
    (hcore : core { t with
      pollingState := s.pollingState
      activeFut := s.activeFut } = core s) :
    Inv t (.entered id :: rest) futures results := by
  obtain ⟨-, hnil, hdrives⟩ := h.no_other hlock
  have h' := h.of_core hcore
  exact
    { h' with
      one_poller := by
        rw [hidle]
        exact congrArg length hnil
      active_idle := by
        intro _
        rw [hactive]
        exact (congrArg (fun u => State.activeQueueEntryId u) hcore).symm
      active_inPoll := by simp [hidle]
      fresh := by simpa [unsubmitted] using h'.fresh }

end

theorem length_cons_add (id : Nat) (futures : List Nat) (n : Nat) :
    (id :: futures).length + n = futures.length + n + 1 := by
  rw [length_cons, Nat.add_right_comm]

theorem inv_ready (h : Inv s (.polling id g :: rest) (id :: futures) results)
    (hlock : rest.any isEntered = false) (hqueue : s.submissionQueue.map (·.1) = futures) :
    Inv { s with
      pollingState := .idle
      activeFut := none
      activeQueueEntryId := none
      produced := s.produced ++ [(id, output)]
      completionQueue := results.map some ++
        replicate (futures.length + (rest.filter isEnqueueing).length) none }
      (.notifying id output :: rest) futures results := by
  obtain ⟨-, hnil, hdrives⟩ := h.no_other hlock
  exact
    { h with
      futures_eq := by simpa [outstanding] using hqueue
      completion_eq := rfl
      one_poller := congrArg length hnil
      active_idle := by simp
      active_inPoll := by simp
      in_order := by simpa using h.in_order
      delivered_once := by
        have hdelivered := h.delivered_once.cons (id, output)
        rw [append_assoc, append_assoc] at hdelivered ⊢
        exact (perm_append_singleton _ _).trans (hdelivered.trans perm_middle.symm)
      owned := h.owned.cons_inv
      driving := by
        intro i hi
        rw [filterMap_cons_none rfl, hdrives] at hi
        simp at hi
      fresh := by simpa [unsubmitted] using h.fresh }

theorem inv_complete {other : Nat} (output : O)
    (h : Inv s (.polling id g :: rest) (other :: futures) results) (hlock : rest.any isEntered = false) (hqueue : s.submissionQueue.map (·.1) = futures)
    (hne : other ≠ id) :
    Inv { s with
      pollingState := .idle
      activeFut := none
      activeQueueEntryId := none
      produced := s.produced ++ [(other, output)]
      completionQueue := (results ++ [(other, output)]).map some ++
        replicate (futures.length + (rest.filter isEnqueueing).length) none }
      (.entered id :: rest) futures (results ++ [(other, output)]) := by
  obtain ⟨-, hnil, hdrives⟩ := h.no_other hlock
  exact
    { h with
      futures_eq := by simpa [outstanding] using hqueue
      completion_eq := rfl
      one_poller := congrArg length hnil
      active_idle := by simp
      active_inPoll := by simp
      in_order := by simpa using h.in_order
      delivered_once := by
        have hdelivered := h.delivered_once.cons (other, output)
        simp only [append_assoc, singleton_append] at hdelivered ⊢
        exact (perm_append_singleton _ _).trans (hdelivered.trans perm_middle.symm)
      owned := by
        rw [map_append, ← append_assoc]
        exact (perm_append_singleton _ _).trans h.owned
      driving := by
        intro i hi
        have hi' : i ∈ id :: rest.filterMap drives := hi
        rw [hdrives, mem_singleton] at hi'
        subst hi'
        have hmem : i ∈ other :: futures := h.driving i (by simp [drives])
        exact (mem_cons.1 hmem).resolve_left (Ne.symm hne)
      fresh := by simpa [unsubmitted] using h.fresh }

/-- What the loop leaves behind after the future's own poll: the result of the
poller itself, or the lock held with nobody polling. -/
def Turned (id : Nat) (rest : List (Owner F O)) : Turn O × State F O → Prop
  | (.ready output, t) => ∃ futures results, Inv t (.notifying id output :: rest) futures results
  | (_, t) => t.pollingState = .idle ∧ ∃ futures results, Inv t (.entered id :: rest) futures results

theorem turned_finishPoll (fut : F) (result : Option O) (h : Inv s (.polling id g :: rest) futures results)
    (hlock : rest.any isEntered = false) : Turned id rest (s.finishPoll id g fut result) := by
  cases hactive : s.activeQueueEntryId with
  | none =>
    simp only [finishPoll, hactive]
    exact ⟨rfl, futures, results, inv_released h hlock (by simp [hactive]) rfl (by simp [core, hactive])⟩
  | some other =>
    obtain ⟨f, hf⟩ := h.active hactive
    cases result with
    | none =>
      simp only [finishPoll, hactive]
      split
      · exact ⟨rfl, futures, results, inv_released h hlock (by simp [hf, hactive]) rfl
          (by simp [core, hactive])⟩
      · exact ⟨rfl, futures, results, inv_released h hlock (by simp [hf, hactive]) rfl
          (by simp [core, hactive])⟩
    | some output =>
      have hfutures : other :: s.submissionQueue.map (·.1) = futures := by
        rw [← h.futures_eq, outstanding, hactive]
        rfl
      subst hfutures
      have hcompletion := h.completion_eq
      rw [length_cons_add] at hcompletion
      simp only [finishPoll, hactive, hf, Option.map_some, Option.toList_some, map_cons, map_nil]
      by_cases hid : other = id
      · subst hid
        rw [if_pos rfl]
        exact ⟨_, _, (inv_ready h hlock rfl).of_core
          (congrArg core (popPlaceholder_spec hcompletion h.no_failure))⟩
      · rw [if_neg hid]
        refine ⟨?_, _, _, (inv_complete output h hlock rfl hid).of_core ?_⟩
        · simp [complete, hcompletion, fillPlaceholder_placeholders]
        · simp only [complete, hcompletion, fillPlaceholder_placeholders]
          rfl

theorem filter_notMem_concat (l c : List Nat) (id : Nat) :
    l.filter (fun i => decide (i ∉ c ++ [id])) =
      (l.filter (fun i => decide (i ∉ c))).filter (fun i => decide (i ≠ id)) := by
  rw [filter_filter]
  congr 1
  funext i
  simp [and_comm]

theorem Inv.erase_futures (h : Inv s owners futures results) (hid : id ∈ futures) :
    s.submitted.filter (fun i => decide (i ∉ s.cancelled ++ [id])) =
      s.produced.map (·.1) ++ futures.erase id := by
  have hnodup := nodup_append.1 h.produced_nodup
  rw [filter_notMem_concat, h.in_order, filter_append, List.Nodup.erase_eq_filter hnodup.2.1]
  congr 1
  · refine filter_eq_self.2 fun i hi => ?_
    exact decide_eq_true fun heq => hnodup.2.2 i hi id hid heq
  · congr 1
    funext i
    by_cases hi : i = id <;> simp [hi]

theorem inv_cancel (queue : List (Nat × F)) (active : Option Nat) (activeFut : Option (Nat × F))
    (h : Inv s (.cancelling id :: rest) futures results) (hid : id ∈ futures)
    (hfutures : active.toList ++ queue.map (·.1) = futures.erase id)
    (hidle : s.pollingState = .idle → activeFut.map (·.1) = active)
    (hinPoll : s.pollingState = .inPoll →
      activeFut = s.activeFut ∧ ∀ i ∈ active, i ∈ s.activeQueueEntryId) :
    Inv { s with
      submissionQueue := queue
      activeQueueEntryId := active
      activeFut := activeFut
      cancelled := s.cancelled ++ [id]
      completionQueue := results.map some ++
        replicate ((futures.erase id).length + (rest.filter isEnqueueing).length) none }
      rest (futures.erase id) results := by
  have howned : (id :: (futures.erase id ++ results.map (·.1))).Perm (id :: rest.filterMap subscription) :=
    ((perm_cons_erase hid).symm.append_right _).trans h.owned
  have hsubmitted : id ∈ s.submitted := by
    have hmem : id ∈ s.produced.map (·.1) ++ futures := mem_append_right _ hid
    rw [← h.in_order] at hmem
    exact (mem_filter.1 hmem).1
  exact
    { h with
      futures_eq := hfutures
      completion_eq := rfl
      active_idle := hidle
      active_inPoll := by
        intro hstate
        obtain ⟨hfut, hactive⟩ := hinPoll hstate
        obtain ⟨polled, hpolled, hids⟩ := h.active_inPoll hstate
        exact ⟨polled, hfut.trans hpolled, fun i hi => hids i (hactive i hi)⟩
      in_order := h.erase_futures hid
      owned := howned.cons_inv
      driving := by
        intro i hi
        have hne : i ≠ id := by
          intro heq
          obtain ⟨o, ho, hdrives⟩ := mem_filterMap.1 hi
          refine (nodup_cons.1 h.ids_nodup).1 (mem_map.2 ⟨o, ho, ?_⟩)
          cases o <;> simp_all [drives, idOf]
        exact (mem_erase_of_ne hne).2 (h.driving i hi)
      ids_nodup := (nodup_cons.1 h.ids_nodup).2
      ids_le := fun i hi => h.ids_le i (mem_cons_of_mem _ hi)
      fresh := fun p hp => h.fresh p (mem_cons_of_mem _ hp)
      cancelled_subset := by
        intro i hi
        rcases mem_append.1 hi with hi | hi
        · exact h.cancelled_subset i hi
        · exact mem_singleton.1 hi ▸ hsubmitted }

theorem inv_take {before after delivered discarded : List (Nat × O)}
    (h : Inv s (o :: rest) futures (before ++ (id, output) :: after)) (ho : subscription o = some id)
    (hway : onItsWay o = none) (hpolling : isPolling o = false)
    (hout : (delivered ++ discarded).Perm ((id, output) :: (s.delivered ++ s.discarded))) :
    Inv { s with
      completionQueue := (before ++ after).map some ++
        replicate (futures.length + (rest.filter isEnqueueing).length) none
      delivered := delivered
      discarded := discarded } rest futures (before ++ after) := by
  have howned : (id :: (futures ++ (before ++ after).map (·.1))).Perm (id :: rest.filterMap subscription) := by
    rw [← filterMap_cons_some ho]
    refine List.Perm.trans ?_ h.owned
    simp only [map_append, map_cons, ← append_assoc]
    exact perm_middle.symm
  have hdelivered := h.delivered_once
  simp only [filterMap_cons_none hway, append_assoc, cons_append] at hdelivered
  have hpoller := h.one_poller
  rw [filter_cons_of_neg (by simp [hpolling])] at hpoller
  exact
    { h with
      completion_eq := rfl
      one_poller := hpoller
      delivered_once := by
        simp only [append_assoc]
        refine hdelivered.trans (.append_left before (perm_middle.symm.trans (.append_left after ?_)))
        exact perm_middle.symm.trans (hout.symm.append_left _)
      owned := howned.cons_inv
      driving := by
        intro i hi
        obtain ⟨p, hp, hdrive⟩ := mem_filterMap.1 hi
        exact h.driving i (mem_filterMap.2 ⟨p, mem_cons_of_mem _ hp, hdrive⟩)
      ids_nodup := (nodup_cons.1 h.ids_nodup).2
      ids_le := fun i hi => h.ids_le i (mem_cons_of_mem _ hi)
      fresh := fun p hp => h.fresh p (mem_cons_of_mem _ hp) }

theorem Inv.not_stored (h : Inv s owners futures results) (hid : id ∈ futures) :
    s.completionQueue.any (isResultOf id) = false := by
  rw [h.completion_eq, Bool.eq_false_iff, Ne, any_isResultOf]
  exact fun hresult => (nodup_append.1 h.nodup).2.2 id hid id hresult rfl

section

variable (h : Inv s (.cancelling id :: rest) futures results)
include h

theorem Inv.placeholder (hid : id ∈ futures) :
    s.completionQueue = results.map some ++
      replicate ((futures.erase id).length + (rest.filter isEnqueueing).length + 1) none := by
  have hlength : futures.length = (futures.erase id).length + 1 := by
    rw [length_erase_of_mem hid, Nat.sub_add_cancel (length_pos_of_mem hid)]
  rw [h.completion_eq, hlength, Nat.add_right_comm]
  rfl

theorem inv_cancel_queued (hqueued : s.submissionQueue.any (fun sqe => sqe.1 == id) = true) :
    ∃ futures results, Inv (s.cancelQueued id) rest futures results := by
  have hin : id ∈ s.submissionQueue.map (·.1) := by simpa using hqueued
  have hfutures := h.futures_eq
  rw [outstanding] at hfutures
  have hid : id ∈ futures := hfutures ▸ mem_append_right _ hin
  have herase : s.activeQueueEntryId.toList ++
      (s.submissionQueue.eraseP fun sqe => sqe.1 == id).map (·.1) = futures.erase id := by
    have hnodup := (nodup_append.1 h.nodup).1
    rw [← hfutures] at hnodup ⊢
    have hnot : id ∉ s.activeQueueEntryId.toList := by
      intro hactive
      exact (nodup_append.1 hnodup).2.2 id hactive id hin rfl
    rw [erase_append_right _ hnot, erase_eq_eraseP', eraseP_map]
    rfl
  refine ⟨_, _, Inv.of_core (inv_cancel (s.submissionQueue.eraseP fun sqe => sqe.1 == id) _ _ h hid herase
    h.active_idle fun _ => ⟨rfl, fun i hi => hi⟩) ?_⟩
  simp only [cancelQueued, hqueued, if_true, check, h.not_stored hid, Bool.not_false, Bool.not_true,
    Bool.or_false]
  exact congrArg core (popPlaceholder_spec (h.placeholder hid) h.no_failure)

theorem inv_cancel_active (hqueued : ¬ s.submissionQueue.any (fun sqe => sqe.1 == id) = true)
    (hactive : s.activeQueueEntryId = some id) :
    ∃ futures results, Inv (s.cancelQueued id) rest futures results := by
  have hfutures : id :: s.submissionQueue.map (·.1) = futures := by
    rw [← h.futures_eq, outstanding, hactive]
    rfl
  have hid : id ∈ futures := hfutures ▸ mem_cons_self
  have herase : (none : Option Nat).toList ++ s.submissionQueue.map (·.1) = futures.erase id := by
    rw [← hfutures, erase_cons_head]
    rfl
  refine ⟨_, _, Inv.of_core (inv_cancel s.submissionQueue none
    (if s.pollingState = FutureQueuePollingState.idle then none else s.activeFut) h hid herase ?_ ?_) ?_⟩
  · intro hidle
    simp [hidle]
  · intro hinPoll
    simp [hinPoll]
  · simp only [cancelQueued, hqueued, if_false, hactive, if_true, check, h.not_stored hid, Bool.false_eq_true,
      Bool.not_false, Bool.not_true, Bool.or_false]
    exact congrArg core (popPlaceholder_spec (h.placeholder hid) h.no_failure)

theorem inv_cancelQueued :
    ∃ futures results, Inv (s.cancelQueued id) rest futures results := by
  by_cases hqueued : s.submissionQueue.any (fun sqe => sqe.1 == id) = true
  · exact inv_cancel_queued h hqueued
  by_cases hactive : s.activeQueueEntryId = some id
  · exact inv_cancel_active h hqueued hactive
  -- neither queued nor active: the subscription's result is on the completion queue
  have hmem : id ∈ futures ++ results.map (·.1) := by
    rw [h.owned.mem_iff]
    exact mem_filterMap.2 ⟨_, mem_cons_self, rfl⟩
  have hnot : id ∉ futures := by
    rw [← h.futures_eq, outstanding]
    simpa [hactive] using hqueued
  obtain ⟨before, output, after, hresults, hfind, herase⟩ :=
    find?_isResultOf (n := futures.length + (rest.filter isEnqueueing).length)
      ((mem_append.1 hmem).resolve_left hnot)
  have hcompletion := h.completion_eq
  rw [filter_cons_of_neg (by simp [isEnqueueing])] at hcompletion
  subst hresults
  have hout : (s.delivered ++ (s.discarded ++ [(id, output)])).Perm
      ((id, output) :: (s.delivered ++ s.discarded)) := by
    rw [← append_assoc]
    exact perm_append_singleton _ _
  refine ⟨_, _, Inv.of_core (inv_take h rfl rfl rfl hout) ?_⟩
  simp only [cancelQueued, hqueued, if_false, hactive, hcompletion, hfind, herase, Bool.false_eq_true]

end

/-- A result goes to its subscription, or there is none and the poll goes on
with the lock held. -/
theorem inv_pollBegin (waker : Nat) (h : Inv s (.waiting id :: rest) futures results) :
    match s.pollBegin id waker with
    | (some _, t) => ∃ futures results, Inv t rest futures results
    | (none, t) => Inv t (.entered id :: rest) futures results := by
  have hcompletion := h.completion_eq
  cases htake : takeCompleted id s.completionQueue with
  | some taken =>
    obtain ⟨before, after, rfl, hrest⟩ := takeCompleted_placeholders (hcompletion ▸ htake)
    have hout : (s.delivered ++ [(id, taken.1)] ++ s.discarded).Perm
        ((id, taken.1) :: (s.delivered ++ s.discarded)) := by
      rw [append_assoc]
      exact perm_middle
    simp only [pollBegin, htake]
    refine ⟨_, _, Inv.of_core (inv_take h rfl rfl rfl hout) ?_⟩
    rw [hrest]
    rfl
  | none =>
    simp only [pollBegin, htake]
    have hmem : id ∈ futures ++ results.map (·.1) := by
      rw [h.owned.mem_iff]
      exact mem_filterMap.2 ⟨_, mem_cons_self, rfl⟩
    have hnot : id ∉ results.map (·.1) := takeCompleted_eq_none (hcompletion ▸ htake)
    have hentered : Inv s (.entered id :: rest) futures results :=
      h.rephase rfl rfl rfl rfl rfl
        (fun i hi => Option.some.inj hi ▸ (mem_append.1 hmem).resolve_right hnot) (by simp [unsubmitted])
    exact hentered.of_core rfl

theorem inv_notify (h : Inv s (.notifying id output :: rest) futures results) :
    Inv { s with delivered := s.delivered ++ [(id, output)] } rest futures results :=
  { h with
    delivered_once := by
      refine h.delivered_once.trans ?_
      simp only [append_assoc]
      refine List.Perm.append_left results ?_
      exact perm_middle.symm.trans (.append_left _ perm_middle.symm)
    ids_nodup := (nodup_cons.1 h.ids_nodup).2
    ids_le := fun i hi => h.ids_le i (mem_cons_of_mem _ hi)
    fresh := fun p hp => h.fresh p (mem_cons_of_mem _ hp) }

theorem inv_subscribe (h : Inv s owners futures results) :
    Inv { s with wakers := s.wakers.subscribe }
      (.subscribing (s.wakers.lastSubscriptionId + 1) fut :: owners) futures results :=
  { h with
    ids_nodup := by
      refine nodup_cons.2 ⟨fun hmem => ?_, h.ids_nodup⟩
      exact Nat.not_succ_le_self _ (h.ids_le _ hmem)
    ids_le := by
      intro i hi
      rcases mem_cons.1 hi with rfl | hi
      · exact Nat.le_refl _
      · exact Nat.le_succ_of_le (h.ids_le i hi)
    submitted_le := fun i hi => Nat.le_succ_of_le (h.submitted_le i hi)
    fresh := by
      intro p hp hun
      rcases mem_cons.1 hp with rfl | hp
      · exact fun hmem => Nat.not_succ_le_self _ (h.submitted_le _ hmem)
      · exact h.fresh p hp hun }

theorem inv_placeholder (h : Inv s (.reservingCompletion id fut :: rest) futures results) :
    Inv { s with completionQueue := s.completionQueue ++ [none] } (.reservingSubmission id fut :: rest)
      futures results :=
  { h with
    completion_eq := by
      have hcompletion := h.completion_eq
      rw [filter_cons_of_neg (by simp [isEnqueueing])] at hcompletion
      rw [filter_cons_of_pos rfl, length_cons, ← Nat.add_assoc, replicate_succ',
        ← append_assoc, ← hcompletion]
    fresh := by
      intro p hp hun
      rcases mem_cons.1 hp with rfl | hp
      · exact h.fresh (.reservingCompletion id fut) mem_cons_self rfl
      · exact h.fresh p (mem_cons_of_mem _ hp) hun }

section

variable (h : Inv s (.reservingSubmission id fut :: rest) futures results)
include h

theorem inv_submit :
    Inv { s with
      submissionQueue := s.submissionQueue ++ [(id, fut)]
      submitted := s.submitted ++ [id] } (.waiting id :: rest) (futures ++ [id]) results := by
  have hfresh : id ∉ s.submitted := h.fresh _ mem_cons_self rfl
  exact
    { h with
      futures_eq := by
        rw [← h.futures_eq]
        simp [outstanding]
      completion_eq := by
        have hcompletion := h.completion_eq
        rw [filter_cons_of_pos rfl, length_cons, ← Nat.add_assoc] at hcompletion
        rw [filter_cons_of_neg (by simp [isEnqueueing]), length_append, length_singleton,
          Nat.add_right_comm, ← hcompletion]
      in_order := by
        have hnot : id ∉ s.cancelled := fun hin => hfresh (h.cancelled_subset id hin)
        rw [filter_append, h.in_order, append_assoc]
        simp [hnot]
      owned := by
        refine List.Perm.trans ?_ (h.owned.cons id)
        rw [append_assoc]
        exact perm_middle
      driving := fun i hi => mem_append_left _ (h.driving i hi)
      submitted_nodup := h.submitted_nodup.append (nodup_singleton id) (by simpa using hfresh)
      submitted_le := by
        intro i hi
        rcases mem_append.1 hi with hi | hi
        · exact h.submitted_le i hi
        · obtain rfl := mem_singleton.1 hi
          exact h.ids_le i mem_cons_self
      fresh := by
        intro p hp hun hmem
        rcases mem_cons.1 hp with rfl | hp
        · cases hun
        rcases mem_append.1 hmem with hmem | hmem
        · exact h.fresh p (mem_cons_of_mem _ hp) hun hmem
        · refine (nodup_cons.1 h.ids_nodup).1 ?_
          exact mem_map.2 ⟨p, hp, mem_singleton.1 hmem⟩
      cancelled_subset := fun i hi => mem_append_left _ (h.cancelled_subset i hi) }

theorem inv_unsubmitted :
    Inv s.popPlaceholder rest futures results := by
  have hcompletion := h.completion_eq
  rw [popPlaceholder_spec hcompletion h.no_failure]
  exact
    { h with
      completion_eq := rfl
      ids_nodup := (nodup_cons.1 h.ids_nodup).2
      ids_le := fun i hi => h.ids_le i (mem_cons_of_mem _ hi)
      fresh := fun p hp => h.fresh p (mem_cons_of_mem _ hp) }

end

theorem inv_enter (h : Inv s (.entered id :: rest) futures results) :
    Inv (System.enter s id).1 ((System.enter s id).2 ++ rest) futures results := by
  cases hstate : s.pollingState with
  | idle =>
    simp only [System.enter, hstate]
    exact inv_startPoll h hstate
  | inPoll =>
    simp only [System.enter, hstate]
    exact inv_sleep h

theorem inv_pollReturned (fut : F) (result : Option O) (h : Inv s (.polling id g :: rest) futures results)
    (hlock : rest.any isEntered = false) :
    ∃ futures results, Inv (System.pollReturned s id g fut result).1
      ((System.pollReturned s id g fut result).2 ++ rest) futures results := by
  have hturned := turned_finishPoll fut result h hlock
  rcases hfinish : s.finishPoll id g fut result with ⟨turn, t⟩
  rw [hfinish] at hturned
  simp only [System.pollReturned, hfinish]
  cases turn with
  | pending =>
    obtain ⟨-, futures, results, ht⟩ := hturned
    exact ⟨futures, results, inv_sleep ht⟩
  | ready output => exact hturned
  | again wakeGen =>
    obtain ⟨hidle, futures, results, ht⟩ := hturned
    exact ⟨futures, results, inv_startPoll ht hidle⟩

theorem inv_onOwner {new : List (Owner F O)} (h : Inv s (o :: rest) futures results)
    (hlock : locks a = true → rest.any isEntered = false) (hst : onOwner s o a = some (t, new)) :
    ∃ futures results, Inv t (new ++ rest) futures results := by
  unfold onOwner at hst
  split at hst
  case h_1 id fut _ allocated =>
    cases allocated with
    | true =>
      cases Option.some.inj hst
      have hnext : Inv s (.reservingCompletion id fut :: rest) futures results :=
        h.rephase rfl rfl rfl rfl rfl (by simp [drives]) (fun _ => rfl)
      exact ⟨_, _, hnext.of_core rfl⟩
    | false =>
      cases Option.some.inj hst
      exact ⟨_, _, h.remove rfl rfl rfl rfl⟩
  case h_2 id fut _ allocated =>
    cases allocated with
    | true =>
      cases Option.some.inj hst
      exact ⟨_, _, inv_placeholder h⟩
    | false =>
      cases Option.some.inj hst
      have hgone : Inv s rest futures results := h.remove rfl rfl rfl rfl
      exact ⟨_, _, hgone.of_core rfl⟩
  case h_3 id fut _ allocated =>
    cases allocated with
    | true =>
      cases Option.some.inj hst
      exact ⟨_, _, inv_submit h⟩
    | false =>
      cases Option.some.inj hst
      exact ⟨_, _, (inv_unsubmitted h).of_core rfl⟩
  case h_4 id _ waker =>
    have hbegin := inv_pollBegin waker h
    rcases hpoll : s.pollBegin id waker with ⟨output, u⟩
    rw [hpoll] at hst hbegin
    cases output with
    | some output =>
      cases Option.some.inj hst
      exact hbegin
    | none =>
      cases Option.some.inj hst
      exact ⟨_, _, hbegin⟩
  case h_5 id _ =>
    have henter := inv_enter h
    rw [Option.some.inj hst] at henter
    exact ⟨_, _, henter⟩
  case h_6 id g _ fut result =>
    have hreturned := inv_pollReturned fut result h (hlock rfl)
    rw [Option.some.inj hst] at hreturned
    exact hreturned
  case h_7 id output _ =>
    cases Option.some.inj hst
    exact ⟨_, _, (inv_notify h).of_core rfl⟩
  case h_8 id _ =>
    cases Option.some.inj hst
    have hnext : Inv s (.cancelling id :: rest) futures results :=
      h.rephase rfl rfl rfl rfl rfl (by simp [drives]) (by simp [unsubmitted])
    exact ⟨_, _, hnext.of_core rfl⟩
  case h_9 id _ =>
    cases Option.some.inj hst
    exact inv_cancelQueued h
  case h_10 => cases hst

/-- A step is one of the operations without an owner or that of an owner, which
is put first here. An operation that takes the lock finds nobody holding it. -/
theorem step_cases {sys' : System F O} (h : sys.step a = some sys') :
    (∃ fut, sys'.queue = { sys.queue with wakers := sys.queue.wakers.subscribe } ∧
      sys'.owners = sys.owners ++ [.subscribing (sys.queue.wakers.lastSubscriptionId + 1) fut]) ∨
    (a = .wake ∧ sys'.queue = sys.queue.wake ∧ sys'.owners = sys.owners) ∨
    ∃ i o rest new, target a = some i ∧ sys.owners[i]? = some o ∧ sys.owners.Perm (o :: rest) ∧
      (locks a = true → rest.any isEntered = false) ∧ onOwner sys.queue o a = some (sys'.queue, new) ∧
      (new ++ rest).Perm sys'.owners := by
  unfold System.step at h
  split at h
  · cases h
  next hlocks =>
    split at h
    · obtain ⟨⟨t, new⟩, hqueue, rfl⟩ := Option.map_eq_some_iff.1 h
      unfold onQueue at hqueue
      split at hqueue
      · cases Option.some.inj hqueue
        exact .inl ⟨_, rfl, rfl⟩
      · cases Option.some.inj hqueue
        exact .inr (.inl ⟨rfl, rfl, List.append_nil _⟩)
      · cases hqueue
    next i htarget =>
      obtain ⟨o, ho, h⟩ := Option.bind_eq_some_iff.1 h
      obtain ⟨⟨t, new⟩, howner, rfl⟩ := Option.map_eq_some_iff.1 h
      obtain ⟨hi, rfl⟩ := List.getElem?_eq_some_iff.1 ho
      have hperm := getElem_cons_eraseIdx_perm hi
      refine .inr (.inr ⟨i, _, _, new, htarget, ho, hperm.symm, ?_, howner, perm_append_comm⟩)
      intro hlock
      rw [not_and, Bool.not_eq_true, any_eq_false] at hlocks
      refine any_eq_false.2 fun o ho => hlocks hlock o (hperm.mem_iff.1 (mem_cons_of_mem _ ho))

theorem inv_step {sys' : System F O} (h : Inv sys.queue sys.owners futures results)
    (hst : sys.step a = some sys') : ∃ futures results, Inv sys'.queue sys'.owners futures results := by
  obtain ⟨fut, hqueue, howners⟩ | ⟨-, hqueue, howners⟩ |
    ⟨i, o, rest, new, -, -, hperm, hlock, hon, hperm'⟩ :=
    step_cases hst
  · rw [hqueue, howners]
    exact ⟨_, _, (inv_subscribe h).perm (perm_append_singleton _ _).symm⟩
  · rw [hqueue, howners]
    exact ⟨_, _, h.of_core rfl⟩
  · obtain ⟨futures, results, hnext⟩ := inv_onOwner (h.perm hperm) hlock hon
    exact ⟨_, _, hnext.perm hperm'⟩

end

theorem inv_of_reached {sys : System F O} {Allowed : System F O → Action F O → Prop}
    (h : Reached System.step Allowed System.new sys) : ∃ futures results, Inv sys.queue sys.owners futures results :=
  h.invariant (P := fun sys => ∃ futures results, Inv sys.queue sys.owners futures results)
    ⟨[], [], inv_new⟩ fun _ _ _ ⟨_, _, hinv⟩ _ hst => inv_step hinv hst

theorem queue_sound (sys : System F O) (h : Reached System.step (fun _ _ => True) System.new sys) : Sound sys := by
  obtain ⟨futures, results, hinv⟩ := inv_of_reached h
  exact sound_of_inv hinv

/-- Two futures, polled to completion by the second one's subscription: each
subscription gets its own output. -/
theorem queue_sound_two : ∃ sys : System Unit Nat,
    sys.queue.delivered = [(2, 20), (1, 10)] ∧ sys.queue.produced = [(1, 10), (2, 20)] ∧ Sound sys := by
  have hrun : execute System.step (System.new : System Unit Nat)
      [.enqueue (), .subscribed 0 true, .reservedCompletion 0 true, .reservedSubmission 0 true,
        .enqueue (), .subscribed 1 true, .reservedCompletion 1 true, .reservedSubmission 1 true,
        .poll 1 7, .enter 1, .pollReturned 1 () (some 10), .pollReturned 1 () (some 20), .notify 1,
        .poll 0 8] ≠ none := by decide
  obtain ⟨sys, hsys⟩ := Option.ne_none_iff_exists'.1 hrun
  refine ⟨sys, ?_, ?_, queue_sound sys (reached_of_execute _ _ _ hsys (by simp [AllAllowed]))⟩
  · exact (Option.some.inj hsys).symm ▸ rfl
  · exact (Option.some.inj hsys).symm ▸ rfl

end CocoonFs.FutureQueueOrder
