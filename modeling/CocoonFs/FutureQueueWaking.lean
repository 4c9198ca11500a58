import CocoonFs.FutureQueueOrder

namespace CocoonFs.FutureQueueWaking

open FutureQueue FutureQueue.State FutureQueue.System FutureQueueOrder Runs List
open BroadcastWakerSubscriptions (hasWaker nextWakeGen push setSubscriptionWaker setWaker)

variable {F O : Type}

def isNotifying : Owner F O → Bool
  | .notifying _ _ => true
  | _ => false

def Quiescent (sys : System F O) : Prop := ∀ o ∈ sys.owners, ∃ id, o = .waiting id

/-- The active future has last returned Pending and no broadcast has happened
since that poll began. -/
def ActivePending (s : State F O) : Prop :=
  s.activeQueueEntryId.isSome = true ∧ s.pollPending = true ∧ s.pollBegan = s.broadcasts

/-- Some enqueued future's subscription has not been polled yet or its waker has
been invoked since its latest poll returned Pending. -/
def SomeoneAwake (s : State F O) : Prop := ∃ id ∈ outstanding s, id ∉ s.asleep

def Driven (sys : System F O) : Prop :=
  Quiescent sys → outstanding sys.queue ≠ [] → ActivePending sys.queue ∨ SomeoneAwake sys.queue

/-- When the active future is cancelled with nobody polling, nobody else with a
future enqueued is asleep; and the wake generation does not wrap around. -/
def HandsOver (sys : System F O) : Action F O → Prop
  | .cancel owner => ∀ id, sys.owners[owner]? = some (.cancelling id) →
      sys.queue.activeQueueEntryId = some id → sys.queue.pollingState = .idle →
      ∀ other ∈ sys.queue.submissionQueue.map (·.1), other ∉ sys.queue.asleep
  | .wake | .notify _ => sys.queue.broadcasts + 1 < 2 ^ 64
  | _ => True

section Wakers

variable {w : BroadcastWakerSubscriptions} {id other waker : Nat}

theorem hasWaker_unsubscribe (h : id ≠ other) : (w.unsubscribe other).hasWaker id = w.hasWaker id := by
  unfold hasWaker BroadcastWakerSubscriptions.unsubscribe
  induction w.subscribers with
  | nil => rfl
  | cons entry rest ih =>
    by_cases hentry : entry.1 = other
    · simp [hentry, beq_false_of_ne (Ne.symm h)]
    · rw [eraseP_cons_of_neg (by simpa using hentry), any_cons, any_cons, ih]

def Subscribed (w : BroadcastWakerSubscriptions) (id : Nat) : Prop := id ∈ w.subscribers.map (·.1)

theorem subscribed_of_hasWaker (h : w.hasWaker id = true) : Subscribed w id := by
  obtain ⟨entry, hentry, hid⟩ := List.any_eq_true.1 h
  rw [Bool.and_eq_true, beq_iff_eq] at hid
  exact mem_map.2 ⟨entry, hentry, hid.1⟩

theorem subscribed_unsubscribe (hsub : Subscribed w id) (h : id ≠ other) :
    Subscribed (w.unsubscribe other) id := by
  obtain ⟨entry, hentry, rfl⟩ := mem_map.1 hsub
  refine mem_map.2 ⟨entry, ?_, rfl⟩
  exact (mem_eraseP_of_neg (by simpa using h)).2 hentry

theorem subscribed_push (hsub : Subscribed w id) : Subscribed (w.push other) id := by
  simp only [Subscribed, push, map_append]
  exact mem_append_left _ hsub

theorem subscribed_push_self : Subscribed (w.push id) id := by
  simp [Subscribed, push]

theorem hasWaker_push (h : w.hasWaker id = true) : (w.push other).hasWaker id = true := by
  simp only [hasWaker, push, any_append,
    Bool.or_eq_true]
  exact .inl h

theorem any_setWaker {subscribers : List (Nat × Option Nat)} (h : id ∈ subscribers.map (·.1)) :
    (setWaker id waker subscribers).any
      (fun entry => entry.1 == id && entry.2.isSome) = true := by
  induction subscribers with
  | nil => simp at h
  | cons entry rest ih =>
    by_cases hentry : entry.1 = id
    · simp [setWaker, hentry]
    · have hrest : id ∈ rest.map (·.1) := by simpa [Ne.symm hentry] using h
      simp only [setWaker, hentry, if_false, any_cons, Bool.or_eq_true]
      exact .inr (ih hrest)

theorem any_setWaker_of_ne (subscribers : List (Nat × Option Nat)) (h : other ≠ id) :
    (setWaker other waker subscribers).any
      (fun entry => entry.1 == id && entry.2.isSome) =
    subscribers.any (fun entry => entry.1 == id && entry.2.isSome) := by
  induction subscribers with
  | nil => rfl
  | cons entry rest ih =>
    by_cases hentry : entry.1 = other
    · simp [setWaker, hentry, beq_false_of_ne h]
    · simp only [setWaker, hentry, if_false, any_cons, ih]

theorem map_setWaker (subscribers : List (Nat × Option Nat)) (id waker : Nat) :
    (setWaker id waker subscribers).map (·.1) = subscribers.map (·.1) := by
  induction subscribers with
  | nil => rfl
  | cons entry rest ih =>
    by_cases hentry : entry.1 = id
    · simp [setWaker, hentry]
    · simp [setWaker, hentry, ih]

theorem hasWaker_setSubscriptionWaker (h : Subscribed w id) :
    (w.setSubscriptionWaker id waker).hasWaker id = true :=
  any_setWaker h

theorem hasWaker_setSubscriptionWaker_of_ne (h : other ≠ id) :
    (w.setSubscriptionWaker other waker).hasWaker id = w.hasWaker id :=
  any_setWaker_of_ne w.subscribers h

theorem subscribed_setSubscriptionWaker (h : Subscribed w id) :
    Subscribed (w.setSubscriptionWaker other waker) id := by
  unfold Subscribed setSubscriptionWaker
  rw [map_setWaker]
  exact h

end Wakers

/-- The waker an owner relies on, or the subscription it will install one for. -/
def Fine (s : State F O) : Owner F O → Prop
  | .reservingCompletion id _ | .reservingSubmission id _ => Subscribed s.wakers id
  | .waiting id => id ∈ outstanding s → Subscribed s.wakers id
  | .entered id => s.wakers.hasWaker id = true
  | .polling id g => s.wakers.hasWaker id = true ∧ g ≤ s.pollBegan
  | _ => True

structure Waking (s : State F O) (owners : List (Owner F O)) : Prop where
  gen_eq : s.wakers.wakeGen = s.broadcasts
  began_le : s.pollBegan ≤ s.broadcasts
  asleep_waiting : ∀ id ∈ s.asleep, Owner.waiting id ∈ owners
  installed : ∀ id ∈ s.asleep, id ∈ outstanding s → s.wakers.hasWaker id = true
  fine : ∀ o ∈ owners, Fine s o

/-- What every step keeps of the responsibility for the queue while nobody is
polling: it is with a subscription about to wake the others, with those that are
awake, or with the waker the active future has got. -/
structure Handed (s : State F O) (owners : List (Owner F O)) : Prop where
  inactive : s.pollingState = .idle → s.activeQueueEntryId = none → owners.any isNotifying = false →
    ∀ id ∈ outstanding s, id ∉ s.asleep
  active : s.pollingState = .idle → s.activeQueueEntryId.isSome = true →
    s.pollPending = true ∧ (s.pollBegan = s.broadcasts ∨ ∀ id ∈ outstanding s, id ∉ s.asleep)

section

variable {s t : State F O} {owners owners' rest : List (Owner F O)} {o : Owner F O} {id g : Nat}
  {fut : F} {futures : List Nat} {results : List (Nat × O)}

theorem Waking.perm (h : Waking s owners) (hperm : owners.Perm owners') : Waking s owners' where
  gen_eq := h.gen_eq
  began_le := h.began_le
  asleep_waiting := fun id hid => hperm.mem_iff.1 (h.asleep_waiting id hid)
  installed := h.installed
  fine := fun o ho => h.fine o (hperm.mem_iff.2 ho)

theorem Handed.perm (h : Handed s owners) (hperm : owners.Perm owners') : Handed s owners' :=
  ⟨fun hidle hnone hany => h.inactive hidle hnone (by rw [hperm.any_eq]; exact hany), h.active⟩

theorem driven_of_handed {sys : System F O} (hinv : Inv sys.queue sys.owners futures results)
    (h : Handed sys.queue sys.owners) : Driven sys := by
  intro hquiet hne
  have hnot : ∀ p : Owner F O → Bool, (∀ id, p (.waiting id) = false) → ∀ o ∈ sys.owners, p o = false := by
    intro p hp o ho
    obtain ⟨id, rfl⟩ := hquiet o ho
    exact hp id
  have hidle : sys.queue.pollingState = .idle := by
    cases hstate : sys.queue.pollingState with
    | idle => rfl
    | inPoll =>
      have hlen := hinv.one_poller
      rw [filter_eq_nil_iff.2 fun o ho => by simp [hnot isPolling (fun _ => rfl) o ho], hstate] at hlen
      cases hlen
  obtain ⟨id, hid⟩ := exists_mem_of_ne_nil _ hne
  cases hactive : sys.queue.activeQueueEntryId with
  | none =>
    have hany : sys.owners.any isNotifying = false :=
      any_eq_false.2 fun o ho => by simp [hnot isNotifying (fun _ => rfl) o ho]
    exact .inr ⟨id, hid, h.inactive hidle hactive hany id hid⟩
  | some active =>
    obtain ⟨hpending, hquiet | hawake⟩ := h.active hidle (by simp [hactive])
    · exact .inl ⟨by simp [hactive], hpending, hquiet⟩
    · exact .inr ⟨id, hid, hawake id hid⟩

/-- The wakers of all but one subscription are as before, or more. -/
def AgreeOff (id : Nat) (w w' : BroadcastWakerSubscriptions) : Prop :=
  ∀ i, i ≠ id → (w.hasWaker i = true → w'.hasWaker i = true) ∧ (Subscribed w i → Subscribed w' i)

section

variable (w : BroadcastWakerSubscriptions)
include w

theorem agreeOff_unsubscribe (id : Nat) :
    AgreeOff id w (w.unsubscribe id) := by
  intro i hi
  exact ⟨fun h => (hasWaker_unsubscribe hi).trans h, fun h => subscribed_unsubscribe h hi⟩

theorem agreeOff_push (id : Nat) : AgreeOff id w (w.push id) :=
  fun _ _ => ⟨hasWaker_push, subscribed_push⟩

theorem agreeOff_setSubscriptionWaker (id waker : Nat) :
    AgreeOff id w (w.setSubscriptionWaker id waker) := by
  intro i hi
  exact ⟨fun h => (hasWaker_setSubscriptionWaker_of_ne (Ne.symm hi)).trans h,
    fun h => subscribed_setSubscriptionWaker h⟩

theorem agreeOff_refl (id : Nat) : AgreeOff id w w :=
  fun _ _ => ⟨fun h => h, fun h => h⟩

end

variable {p : Owner F O} {i : Nat}

theorem Fine.agree (h : Fine s p) (hagree : AgreeOff id s.wakers t.wakers) (hid : idOf p ≠ id)
    (hout : idOf p ∈ outstanding t → idOf p ∈ outstanding s) (hbegan : s.pollBegan ≤ t.pollBegan) :
    Fine t p := by
  obtain ⟨hwaker, hsub⟩ := hagree _ hid
  cases p with
  | subscribing | notifying | cancelling => trivial
  | reservingCompletion | reservingSubmission => exact hsub h
  | waiting => exact fun hmem => hsub (h (hout hmem))
  | entered => exact hwaker h
  | polling => exact ⟨hwaker h.1, Nat.le_trans h.2 hbegan⟩

theorem idOf_ne (hinv : Inv s (o :: rest) futures results) (hp : p ∈ rest) :
    idOf p ≠ idOf o := by
  intro heq
  exact (nodup_cons.1 hinv.ids_nodup).1 (heq ▸ mem_map_of_mem hp)

theorem Waking.keep (new : List (Owner F O)) (h : Waking s (o :: rest))
    (hinv : Inv s (o :: rest) futures results) (hagree : AgreeOff (idOf o) s.wakers t.wakers)
    (hgen : t.wakers.wakeGen = t.broadcasts) (hbegan : s.pollBegan ≤ t.pollBegan)
    (hbegan_le : t.pollBegan ≤ t.broadcasts)
    (hout : ∀ i ∈ outstanding t, i ≠ idOf o → i ∈ outstanding s)
    (hasleep : ∀ i ∈ t.asleep, i ∈ s.asleep ∧ i ≠ idOf o) (hnew : ∀ p ∈ new, Fine t p) :
    Waking t (new ++ rest) where
  gen_eq := hgen
  began_le := hbegan_le
  asleep_waiting := by
    intro i hi
    obtain ⟨hmem, hne⟩ := hasleep i hi
    refine mem_append_right _ ((mem_cons.1 (h.asleep_waiting i hmem)).resolve_left ?_)
    rintro rfl
    exact hne rfl
  installed := by
    intro i hi hmem
    obtain ⟨hsleeping, hne⟩ := hasleep i hi
    exact (hagree i hne).1 (h.installed i hsleeping (hout i hmem hne))
  fine := by
    intro p hp
    rcases mem_append.1 hp with hp | hp
    · exact hnew p hp
    · have hne := idOf_ne hinv hp
      exact (h.fine p (mem_cons_of_mem _ hp)).agree hagree hne (fun hmem => hout _ hmem hne) hbegan

theorem asleep_ne (h : Waking s (o :: rest)) (hinv : Inv s (o :: rest) futures results)
    (ho : ∀ i, o ≠ .waiting i) (hi : i ∈ s.asleep) : i ≠ idOf o := by
  have hrest := (mem_cons.1 (h.asleep_waiting i hi)).resolve_left (Ne.symm (ho i))
  exact idOf_ne hinv hrest

theorem mem_filter_ne {l : List Nat} (h : i ∈ l.filter (· != id)) : i ∈ l ∧ i ≠ id := by
  obtain ⟨hmem, hne⟩ := mem_filter.1 h
  exact ⟨hmem, by simpa using hne⟩

theorem wake_awake (h : Waking s owners) (hi : i ∈ outstanding s) : i ∉ s.wake.asleep := by
  intro hasleep
  obtain ⟨hmem, hnot⟩ := mem_filter.1 hasleep
  rw [h.installed i hmem hi] at hnot
  cases hnot

theorem nextWakeGen_eq (h : s.wakers.wakeGen = s.broadcasts) (hlt : s.broadcasts + 1 < 2 ^ 64) :
    s.wake.wakers.wakeGen = s.wake.broadcasts := by
  simp only [wake, nextWakeGen, h, if_pos hlt]

theorem waking_wake (h : Waking s owners) (hlt : s.broadcasts + 1 < 2 ^ 64) : Waking s.wake owners where
  gen_eq := nextWakeGen_eq h.gen_eq hlt
  began_le := Nat.le_succ_of_le h.began_le
  asleep_waiting := fun i hi => h.asleep_waiting i (mem_filter.1 hi).1
  installed := fun i hi hmem => absurd hi (wake_awake h hmem)
  fine := fun p hp => by
    have hfine := h.fine p hp
    cases p <;> exact hfine

/-- Where everybody is awake it only matters that the active future has been
polled. -/
theorem handed_of_awake (hawake : ∀ i ∈ outstanding s, i ∉ s.asleep)
    (hpending : s.pollingState = .idle → s.activeQueueEntryId.isSome = true → s.pollPending = true) :
    Handed s owners :=
  ⟨fun _ _ _ => hawake, fun hidle hactive => ⟨hpending hidle hactive, .inr hawake⟩⟩

theorem handed_of_inPoll (h : s.pollingState = .inPoll) : Handed s owners :=
  ⟨fun hidle => by simp [h] at hidle, fun hidle => by simp [h] at hidle⟩

theorem Handed.keep (h : Handed s owners) (hpolling : t.pollingState = s.pollingState)
    (hactive : t.activeQueueEntryId = s.activeQueueEntryId) (hpending : t.pollPending = s.pollPending)
    (hbegan : t.pollBegan = s.pollBegan) (hbroadcasts : t.broadcasts = s.broadcasts)
    (hasleep : ∀ i ∈ outstanding t, i ∈ t.asleep → i ∈ outstanding s ∧ i ∈ s.asleep)
    (howners : owners'.any isNotifying = false → owners.any isNotifying = false) : Handed t owners' where
  inactive := by
    intro hidle hnone hany i hi hsleeping
    obtain ⟨hmem, hsleeping⟩ := hasleep i hi hsleeping
    exact h.inactive (hpolling ▸ hidle) (hactive ▸ hnone) (howners hany) i hmem hsleeping
  active := by
    intro hidle hsome
    obtain ⟨hp, hquiet | hawake⟩ := h.active (hpolling ▸ hidle) (hactive ▸ hsome)
    · exact ⟨hpending ▸ hp, .inl (by rw [hbegan, hbroadcasts, hquiet])⟩
    · refine ⟨hpending ▸ hp, .inr fun i hi hsleeping => ?_⟩
      obtain ⟨hmem, hsleeping⟩ := hasleep i hi hsleeping
      exact hawake i hmem hsleeping

theorem waking_sleep (h : Waking s (.entered id :: rest)) :
    Waking (sleep s id).1 ((sleep s id).2 ++ rest) where
  gen_eq := h.gen_eq
  began_le := h.began_le
  asleep_waiting := by
    intro i hi
    rcases mem_append.1 hi with hi | hi
    · exact mem_cons_of_mem _ ((mem_cons.1 (h.asleep_waiting i hi)).resolve_left (by simp))
    · obtain rfl := mem_singleton.1 hi
      exact mem_cons_self
  installed := by
    intro i hi hmem
    rcases mem_append.1 hi with hi | hi
    · exact h.installed i hi hmem
    · obtain rfl := mem_singleton.1 hi
      exact h.fine (.entered i) mem_cons_self
  fine := by
    intro p hp
    rcases mem_cons.1 hp with rfl | hp
    · exact fun _ => subscribed_of_hasWaker (h.fine (.entered id) mem_cons_self)
    · have hfine := h.fine p (mem_cons_of_mem _ hp)
      cases p <;> exact hfine

theorem waking_startPoll (h : Waking s (.entered id :: rest))
    (hinv : Inv s (.entered id :: rest) futures results) (hg : g = s.wakers.wakeGen) :
    Waking s.startPoll (.polling id g :: rest) := by
  obtain ⟨active, queue, hfutures, hactivate⟩ := activate_spec hinv
  have hasleep : ∀ i ∈ s.asleep, i ∈ s.asleep ∧ i ≠ id :=
    fun i hi => ⟨hi, asleep_ne h hinv (by simp) hi⟩
  have hout : ∀ i ∈ active.1 :: queue.map (·.1), i ≠ id → i ∈ outstanding s := by
    intro i hi _
    rw [hinv.futures_eq, hfutures]
    exact hi
  rw [startPoll, hactivate]
  refine h.keep [.polling id g] hinv (agreeOff_refl _ _) h.gen_eq h.began_le (Nat.le_refl _) hout hasleep ?_
  intro p hp
  obtain rfl := mem_singleton.1 hp
  exact ⟨h.fine (.entered id) mem_cons_self, Nat.le_of_eq (hg.trans h.gen_eq)⟩

theorem subscription_of_mem (hinv : Inv s owners futures results)
    (hid : id ∈ futures ++ results.map (·.1)) (hp : p ∈ owners) (hpid : idOf p = id) :
    subscription p = some id := by
  rw [hinv.owned.mem_iff] at hid
  obtain ⟨q, hq, hsub⟩ := mem_filterMap.1 hid
  have hqid : idOf q = id := by cases q <;> simp_all [subscription, idOf]
  rwa [inj_on_of_nodup_map hinv.ids_nodup hp hq (hpid.trans hqid.symm)]

section

variable (h : Waking s (.polling id g :: rest))
  (hinv : Inv s (.polling id g :: rest) futures results)
include h hinv

theorem waking_complete {other : Nat} (hlock : rest.any isEntered = false)
    (hactive : s.activeQueueEntryId = some other) (hne : other ≠ id)
    (hwakers : t.wakers = s.wakers.unsubscribe other) (hbroadcasts : t.broadcasts = s.broadcasts)
    (hbegan : t.pollBegan = s.pollBegan) (hasleep : ∀ i ∈ t.asleep, i ∈ s.asleep)
    (hout : outstanding t = s.submissionQueue.map (·.1)) : Waking t (.entered id :: rest) := by
  have hfutures : other :: s.submissionQueue.map (·.1) = futures := by
    rw [← hinv.futures_eq, outstanding, hactive]
    rfl
  have hnot : other ∉ outstanding t := by
    rw [hout]
    have hnodup := (nodup_append.1 hinv.nodup).1
    rw [← hfutures] at hnodup
    exact (nodup_cons.1 hnodup).1
  have hsub : ∀ i ∈ outstanding t, i ∈ outstanding s := by
    rw [hout, hinv.futures_eq, ← hfutures]
    exact fun i hi => mem_cons_of_mem _ hi
  have hagree : AgreeOff other s.wakers t.wakers := hwakers ▸ agreeOff_unsubscribe s.wakers other
  have hfine : Fine s (.polling id g) := h.fine _ mem_cons_self
  exact
    { gen_eq := by rw [hwakers, hbroadcasts]; exact h.gen_eq
      began_le := by rw [hbegan, hbroadcasts]; exact h.began_le
      asleep_waiting := by
        intro i hi
        have hmem := h.asleep_waiting i (hasleep i hi)
        exact mem_cons_of_mem _ ((mem_cons.1 hmem).resolve_left (by simp))
      installed := by
        intro i hi hmem
        have hother : i ≠ other := fun heq => hnot (heq ▸ hmem)
        exact (hagree i hother).1 (h.installed i (hasleep i hi) (hsub i hmem))
      fine := by
        intro p hp
        rcases mem_cons.1 hp with rfl | hp
        · exact (hagree id (Ne.symm hne)).1 hfine.1
        by_cases hpid : idOf p = other
        · -- the owner of the completed future is a subscription that is not polling
          have hsubscription := subscription_of_mem hinv (hfutures ▸ mem_append_left _ mem_cons_self)
            (mem_cons_of_mem _ hp) hpid
          have hdrives := filterMap_eq_nil_iff.1 (hinv.no_other hlock).2.2 p hp
          cases p with
          | waiting i =>
            obtain rfl : i = other := hpid
            exact fun hmem => absurd hmem hnot
          | cancelling => trivial
          | subscribing | reservingCompletion | reservingSubmission | notifying => cases hsubscription
          | entered | polling => cases hdrives
        · exact (h.fine p (mem_cons_of_mem _ hp)).agree hagree hpid (hsub _) (Nat.le_of_eq hbegan.symm) }

theorem waking_released (hwakers : t.wakers = s.wakers)
    (hbroadcasts : t.broadcasts = s.broadcasts) (hbegan : t.pollBegan = s.pollBegan)
    (hasleep : t.asleep = s.asleep) (hout : ∀ i ∈ outstanding t, i ∈ outstanding s)
    (hfine : Fine t o) : Waking t (o :: rest) := by
  refine h.keep [o] hinv (hwakers ▸ agreeOff_refl _ _) (by rw [hwakers, hbroadcasts, h.gen_eq])
    (Nat.le_of_eq hbegan.symm) (by rw [hbegan, hbroadcasts]; exact h.began_le) (fun i hi _ => hout i hi) ?_ ?_
  · rw [hasleep]
    exact fun i hi => ⟨hi, asleep_ne h hinv (by simp) hi⟩
  · intro p hp
    obtain rfl := mem_singleton.1 hp
    exact hfine

end

/-- What the loop leaves behind after the future's own poll. -/
def Back (id : Nat) (rest : List (Owner F O)) : Turn O × State F O → Prop
  | (.ready output, t) => Waking t (.notifying id output :: rest) ∧ t.activeQueueEntryId = none
  | (.again wakeGen, t) => Waking t (.entered id :: rest) ∧ wakeGen = t.wakers.wakeGen
  | (.pending, t) => Waking t (.entered id :: rest) ∧ t.pollPending = true ∧ t.pollBegan = t.broadcasts ∧
      t.activeQueueEntryId.isSome = true

theorem back_finishPoll (fut : F) (result : Option O) (h : Waking s (.polling id g :: rest))
    (hinv : Inv s (.polling id g :: rest) futures results) (hlock : rest.any isEntered = false) :
    Back id rest (s.finishPoll id g fut result) := by
  have hfine : Fine s (.polling id g) := h.fine _ mem_cons_self
  cases hactive : s.activeQueueEntryId with
  | none =>
    simp only [finishPoll, hactive]
    exact ⟨waking_released h hinv rfl rfl rfl rfl (by simp [outstanding, hactive]) hfine.1, rfl⟩
  | some other =>
    obtain ⟨f, hf⟩ := hinv.active hactive
    cases result with
    | none =>
      simp only [finishPoll, hactive]
      split
      next hgen =>
        refine ⟨waking_released h hinv rfl rfl rfl rfl (by simp [outstanding, hactive]) hfine.1, rfl, ?_, rfl⟩
        have hle := hfine.2
        rw [hgen, h.gen_eq] at hle
        exact Nat.le_antisymm h.began_le hle
      next =>
        exact ⟨waking_released h hinv rfl rfl rfl rfl (by simp [outstanding, hactive]) hfine.1, rfl⟩
    | some output =>
      simp only [finishPoll, hactive, hf, Option.map_some, Option.toList_some, map_cons, map_nil]
      by_cases hid : other = id
      · rw [if_pos hid]
        exact ⟨waking_released h hinv rfl rfl rfl rfl
          (by simp [outstanding, hactive, popPlaceholder, check]; exact fun _ _ hx => .inr ⟨_, hx⟩) trivial, rfl⟩
      · rw [if_neg hid]
        have hcompletion := hinv.completion_eq
        rw [← hinv.futures_eq, outstanding, hactive, Option.toList_some, singleton_append,
          length_cons_add] at hcompletion
        refine ⟨waking_complete h hinv hlock hactive hid ?_ ?_ ?_ ?_ ?_, ?_⟩
        all_goals simp only [complete, hcompletion, fillPlaceholder_placeholders]
        · intro i hi
          split at hi
          · exact (mem_filter.1 hi).1
          · exact hi
        · rfl
        · rfl

theorem kept_pollReturned (fut : F) (result : Option O) (h : Waking s (.polling id g :: rest))
    (hinv : Inv s (.polling id g :: rest) futures results) (hlock : rest.any isEntered = false) :
    Waking (System.pollReturned s id g fut result).1 ((System.pollReturned s id g fut result).2 ++ rest) ∧
    Handed (System.pollReturned s id g fut result).1
      ((System.pollReturned s id g fut result).2 ++ rest) := by
  have hback := back_finishPoll fut result h hinv hlock
  have hturned := turned_finishPoll fut result hinv hlock
  rcases hfinish : s.finishPoll id g fut result with ⟨turn, t⟩
  rw [hfinish] at hback hturned
  simp only [System.pollReturned, hfinish]
  cases turn with
  | pending =>
    obtain ⟨hwaking, hpending, hbegan, hsome⟩ := hback
    refine ⟨waking_sleep hwaking, fun _ hnone => ?_, fun _ _ => ⟨hpending, .inl hbegan⟩⟩
    have hcontra : t.activeQueueEntryId = none := hnone
    simp [hcontra] at hsome
  | ready output =>
    obtain ⟨hwaking, hnone⟩ := hback
    refine ⟨hwaking, fun _ _ hany => ?_, fun _ hsome => ?_⟩
    · simp [isNotifying] at hany
    · simp [hnone] at hsome
  | again wakeGen =>
    obtain ⟨hwaking, hgen⟩ := hback
    obtain ⟨-, futures, results, ht⟩ := hturned
    exact ⟨waking_startPoll hwaking ht hgen, handed_of_inPoll rfl⟩

theorem kept_enter (h : Waking s (.entered id :: rest)) (hinv : Inv s (.entered id :: rest) futures results) :
    Waking (System.enter s id).1 ((System.enter s id).2 ++ rest) ∧
    Handed (System.enter s id).1 ((System.enter s id).2 ++ rest) := by
  cases hstate : s.pollingState with
  | idle =>
    simp only [System.enter, hstate]
    exact ⟨waking_startPoll h hinv rfl, handed_of_inPoll rfl⟩
  | inPoll =>
    simp only [System.enter, hstate]
    exact ⟨waking_sleep h, handed_of_inPoll hstate⟩

theorem kept_pollBegin (waker : Nat) (h : Waking s (.waiting id :: rest)) (hd : Handed s (.waiting id :: rest))
    (hinv : Inv s (.waiting id :: rest) futures results) :
    match s.pollBegin id waker with
    | (some _, t) => Waking t rest ∧ Handed t rest
    | (none, t) => Waking t (.entered id :: rest) ∧ Handed t (.entered id :: rest) := by
  have hbegin := inv_pollBegin waker hinv
  cases htake : takeCompleted id s.completionQueue with
  | some taken =>
    simp only [pollBegin, htake]
    refine ⟨h.keep [] hinv (agreeOff_refl _ _) h.gen_eq (Nat.le_refl _) h.began_le (fun i hi _ => hi)
      (fun i hi => mem_filter_ne hi) (by simp), ?_⟩
    exact hd.keep rfl rfl rfl rfl rfl (fun i hi hsleep => ⟨hi, (mem_filter_ne hsleep).1⟩) fun hany => hany
  | none =>
    simp only [pollBegin, htake] at hbegin ⊢
    have hmem : id ∈ outstanding s := by
      rw [hinv.futures_eq]
      exact hbegin.driving id (by simp [drives])
    have hsub : Subscribed s.wakers id := h.fine (.waiting id) mem_cons_self hmem
    refine ⟨h.keep [.entered id] hinv (agreeOff_setSubscriptionWaker _ _ _) h.gen_eq (Nat.le_refl _) h.began_le
      (fun i hi _ => hi) (fun i hi => mem_filter_ne hi) ?_, ?_⟩
    · intro p hp
      obtain rfl := mem_singleton.1 hp
      exact hasWaker_setSubscriptionWaker hsub
    · exact hd.keep rfl rfl rfl rfl rfl (fun i hi hsleep => ⟨hi, (mem_filter_ne hsleep).1⟩) fun hany => hany

theorem cancelQueued_frame (s : State F O) (id : Nat) : (s.cancelQueued id).wakers = s.wakers ∧
    (s.cancelQueued id).broadcasts = s.broadcasts ∧ (s.cancelQueued id).asleep = s.asleep ∧
    (s.cancelQueued id).pollBegan = s.pollBegan ∧ (s.cancelQueued id).pollPending = s.pollPending ∧
    (s.cancelQueued id).pollingState = s.pollingState := by
  unfold cancelQueued
  split
  · exact ⟨rfl, rfl, rfl, rfl, rfl, rfl⟩
  split
  · exact ⟨rfl, rfl, rfl, rfl, rfl, rfl⟩
  split
  · exact ⟨rfl, rfl, rfl, rfl, rfl, rfl⟩
  · exact ⟨rfl, rfl, rfl, rfl, rfl, rfl⟩

theorem cancelQueued_outstanding (s : State F O) (id : Nat) :
    (∀ i ∈ outstanding (s.cancelQueued id), i ∈ outstanding s) ∧
    ((s.cancelQueued id).activeQueueEntryId = s.activeQueueEntryId ∨
      s.activeQueueEntryId = some id ∧ (s.cancelQueued id).activeQueueEntryId = none ∧
        (s.cancelQueued id).submissionQueue = s.submissionQueue) := by
  unfold cancelQueued
  split
  · refine ⟨fun i hi => ?_, .inl rfl⟩
    rcases mem_append.1 hi with hi | hi
    · exact mem_append_left _ hi
    · exact mem_append_right _ ((eraseP_sublist.map _).subset hi)
  split
  next hactive => exact ⟨fun i hi => mem_append_right _ hi, .inr ⟨hactive, rfl, rfl⟩⟩
  split
  · exact ⟨fun i hi => hi, .inl rfl⟩
  · exact ⟨fun i hi => hi, .inl rfl⟩

theorem kept_cancel (h : Waking s (.cancelling id :: rest)) (hd : Handed s (.cancelling id :: rest))
    (hinv : Inv s (.cancelling id :: rest) futures results)
    (hallowed : s.activeQueueEntryId = some id → s.pollingState = .idle →
      ∀ other ∈ s.submissionQueue.map (·.1), other ∉ s.asleep) :
    Waking (s.cancelQueued id) rest ∧ Handed (s.cancelQueued id) rest := by
  obtain ⟨hwakers, hbroadcasts, hasleep, hbegan, hpending, hpolling⟩ := cancelQueued_frame s id
  obtain ⟨hout, hactive⟩ := cancelQueued_outstanding s id
  constructor
  · refine h.keep [] hinv (hwakers ▸ agreeOff_refl _ _) (by rw [hwakers, hbroadcasts, h.gen_eq])
      (Nat.le_of_eq hbegan.symm) (by rw [hbegan, hbroadcasts]; exact h.began_le) (fun i hi _ => hout i hi) ?_
      (by simp)
    rw [hasleep]
    exact fun i hi => ⟨hi, asleep_ne h hinv (by simp) hi⟩
  · rcases hactive with hactive | ⟨hactive, hnone, hqueue⟩
    · exact hd.keep hpolling hactive hpending hbegan hbroadcasts
        (fun i hi hsleep => ⟨hout i hi, hasleep ▸ hsleep⟩) fun hany => hany
    · refine ⟨fun hidle _ _ i hi hsleep => ?_, fun _ hsome => by simp [hnone] at hsome⟩
      rw [outstanding, hnone, hqueue] at hi
      exact hallowed hactive (hpolling ▸ hidle) i hi (hasleep ▸ hsleep)

theorem kept_notify {output : O} (h : Waking s (.notifying id output :: rest))
    (hd : Handed s (.notifying id output :: rest))
    (hinv : Inv s (.notifying id output :: rest) futures results) (hlt : s.broadcasts + 1 < 2 ^ 64) :
    Waking { (s.unsubscribe id).wake with delivered := s.delivered ++ [(id, output)] } rest ∧
    Handed { (s.unsubscribe id).wake with delivered := s.delivered ++ [(id, output)] } rest := by
  have hgone : Waking (s.unsubscribe id) rest :=
    h.keep [] hinv (agreeOff_unsubscribe _ _) h.gen_eq (Nat.le_refl _) h.began_le (fun i hi _ => hi)
      (fun i hi => ⟨hi, asleep_ne h hinv (by simp) hi⟩) (by simp)
  refine ⟨h.keep [] hinv (agreeOff_unsubscribe _ _) (nextWakeGen_eq (s := s.unsubscribe id) h.gen_eq hlt)
    (Nat.le_refl _) (Nat.le_succ_of_le h.began_le) (fun i hi _ => hi) ?_ (by simp), ?_⟩
  · intro i hi
    have hmem : i ∈ s.asleep := (mem_filter.1 hi).1
    exact ⟨hmem, asleep_ne h hinv (by simp) hmem⟩
  · exact handed_of_awake (fun i hi => wake_awake hgone hi) fun hidle hsome => (hd.active hidle hsome).1

def HandsOverFor (s : State F O) (o : Owner F O) : Action F O → Prop
  | .cancel _ => ∀ id, o = .cancelling id → s.activeQueueEntryId = some id → s.pollingState = .idle →
      ∀ other ∈ s.submissionQueue.map (·.1), other ∉ s.asleep
  | .notify _ => s.broadcasts + 1 < 2 ^ 64
  | _ => True

theorem kept_onOwner {a : Action F O} {new : List (Owner F O)} (h : Waking s (o :: rest))
    (hd : Handed s (o :: rest)) (hinv : Inv s (o :: rest) futures results)
    (hlock : locks a = true → rest.any isEntered = false) (hallowed : HandsOverFor s o a)
    (hst : onOwner s o a = some (t, new)) : Waking t (new ++ rest) ∧ Handed t (new ++ rest) := by
  have hasleep : (∀ i, o ≠ .waiting i) → ∀ i ∈ s.asleep, i ∈ s.asleep ∧ i ≠ idOf o :=
    fun ho i hi => ⟨hi, asleep_ne h hinv ho hi⟩
  have hfine : Fine s o := h.fine o mem_cons_self
  unfold onOwner at hst
  split at hst
  case h_1 id fut _ allocated =>
    cases allocated with
    | true =>
      cases Option.some.inj hst
      refine ⟨h.keep _ hinv (agreeOff_push _ _) h.gen_eq (Nat.le_refl _) h.began_le (fun i hi _ => hi)
        (hasleep (by simp)) ?_, ?_⟩
      · intro p hp
        obtain rfl := mem_singleton.1 hp
        exact subscribed_push_self
      · exact hd.keep rfl rfl rfl rfl rfl (fun i hi hsleep => ⟨hi, hsleep⟩) fun hany => hany
    | false =>
      cases Option.some.inj hst
      refine ⟨h.keep _ hinv (agreeOff_refl _ _) h.gen_eq (Nat.le_refl _) h.began_le (fun i hi _ => hi)
        (hasleep (by simp)) (by simp), ?_⟩
      exact hd.keep rfl rfl rfl rfl rfl (fun i hi hsleep => ⟨hi, hsleep⟩) fun hany => hany
  case h_2 id fut _ allocated =>
    cases allocated with
    | true =>
      cases Option.some.inj hst
      refine ⟨h.keep _ hinv (agreeOff_refl _ _) h.gen_eq (Nat.le_refl _) h.began_le (fun i hi _ => hi)
        (hasleep (by simp)) ?_, ?_⟩
      · intro p hp
        obtain rfl := mem_singleton.1 hp
        exact hfine
      · exact hd.keep rfl rfl rfl rfl rfl (fun i hi hsleep => ⟨hi, hsleep⟩) fun hany => hany
    | false =>
      cases Option.some.inj hst
      refine ⟨h.keep _ hinv (agreeOff_unsubscribe _ _) h.gen_eq (Nat.le_refl _) h.began_le (fun i hi _ => hi)
        (hasleep (by simp)) (by simp), ?_⟩
      exact hd.keep rfl rfl rfl rfl rfl (fun i hi hsleep => ⟨hi, hsleep⟩) fun hany => hany
  case h_3 id fut _ allocated =>
    cases allocated with
    | true =>
      cases Option.some.inj hst
      have hout : ∀ i ∈ outstanding (s.enqueueSubmission id fut true), i ≠ id → i ∈ outstanding s := by
        intro i hi hne
        simpa [outstanding, enqueueSubmission, hne] using hi
      refine ⟨h.keep _ hinv (agreeOff_refl _ _) h.gen_eq (Nat.le_refl _) h.began_le hout
        (hasleep (by simp)) ?_, ?_⟩
      · intro p hp
        obtain rfl := mem_singleton.1 hp
        exact fun _ => hfine
      · exact hd.keep rfl rfl rfl rfl rfl
          (fun i hi hsleep => ⟨hout i hi (hasleep (by simp) i hsleep).2, hsleep⟩) fun hany => hany
    | false =>
      cases Option.some.inj hst
      refine ⟨h.keep _ hinv (agreeOff_unsubscribe _ _) h.gen_eq (Nat.le_refl _) h.began_le (fun i hi _ => hi)
        (hasleep (by simp)) (by simp), ?_⟩
      exact hd.keep rfl rfl rfl rfl rfl (fun i hi hsleep => ⟨hi, hsleep⟩) fun hany => hany
  case h_4 id _ waker =>
    have hbegin := kept_pollBegin waker h hd hinv
    rcases hpoll : s.pollBegin id waker with ⟨output, u⟩
    rw [hpoll] at hst hbegin
    cases output with
    | some output =>
      cases Option.some.inj hst
      exact hbegin
    | none =>
      cases Option.some.inj hst
      exact hbegin
  case h_5 id _ =>
    have henter := kept_enter h hinv
    rw [Option.some.inj hst] at henter
    exact henter
  case h_6 id g _ fut result =>
    have hreturned := kept_pollReturned fut result h hinv (hlock rfl)
    rw [Option.some.inj hst] at hreturned
    exact hreturned
  case h_7 id output _ =>
    cases Option.some.inj hst
    exact kept_notify h hd hinv hallowed
  case h_8 id _ =>
    cases Option.some.inj hst
    refine ⟨h.keep _ hinv (agreeOff_unsubscribe _ _) h.gen_eq (Nat.le_refl _) h.began_le (fun i hi _ => hi)
      (fun i hi => mem_filter_ne hi) ?_, ?_⟩
    · intro p hp
      obtain rfl := mem_singleton.1 hp
      trivial
    · exact hd.keep rfl rfl rfl rfl rfl (fun i hi hsleep => ⟨hi, (mem_filter_ne hsleep).1⟩) fun hany => hany
  case h_9 id _ =>
    cases Option.some.inj hst
    exact kept_cancel h hd hinv (hallowed id rfl)
  case h_10 => cases hst

theorem kept_subscribe (id : Nat) (fut : F) (h : Waking s owners) (hd : Handed s owners) :
    Waking { s with wakers := s.wakers.subscribe } (.subscribing id fut :: owners) ∧
    Handed { s with wakers := s.wakers.subscribe } (.subscribing id fut :: owners) := by
  refine ⟨⟨h.gen_eq, h.began_le, fun i hi => mem_cons_of_mem _ (h.asleep_waiting i hi), h.installed, ?_⟩,
    hd.keep rfl rfl rfl rfl rfl (fun i hi hsleep => ⟨hi, hsleep⟩) fun hany => hany⟩
  intro p hp
  rcases mem_cons.1 hp with rfl | hp
  · trivial
  · have hfine := h.fine p hp
    cases p <;> exact hfine

theorem kept_step {sys sys' : System F O} {a : Action F O} (h : Waking sys.queue sys.owners)
    (hd : Handed sys.queue sys.owners) (hinv : Inv sys.queue sys.owners futures results)
    (hallowed : HandsOver sys a) (hst : sys.step a = some sys') :
    Waking sys'.queue sys'.owners ∧ Handed sys'.queue sys'.owners := by
  obtain ⟨fut, hqueue, howners⟩ | ⟨rfl, hqueue, howners⟩ |
    ⟨i, o, rest, new, htarget, ho, hperm, hlock, hon, hperm'⟩ := step_cases hst
  · obtain ⟨hwaking, hhanded⟩ := kept_subscribe (sys.queue.wakers.lastSubscriptionId + 1) fut h hd
    rw [hqueue, howners]
    exact ⟨hwaking.perm (perm_append_singleton _ _).symm, hhanded.perm (perm_append_singleton _ _).symm⟩
  · rw [hqueue, howners]
    exact ⟨waking_wake h hallowed, handed_of_awake (fun i hi => wake_awake h hi)
      fun hidle hsome => (hd.active hidle hsome).1⟩
  · have hfor : HandsOverFor sys.queue o a := by
      cases a with
      | cancel owner =>
        obtain rfl : owner = i := Option.some.inj htarget
        intro id hid
        exact hallowed id (hid ▸ ho)
      | notify owner => exact hallowed
      | _ => trivial
    obtain ⟨hwaking, hhanded⟩ := kept_onOwner (h.perm hperm) (hd.perm hperm) (hinv.perm hperm) hlock hfor hon
    exact ⟨hwaking.perm hperm', hhanded.perm hperm'⟩

end

theorem kept_of_reached {sys : System F O} (h : Reached System.step HandsOver System.new sys) :
    (∃ futures results, Inv sys.queue sys.owners futures results) ∧ Waking sys.queue sys.owners ∧
      Handed sys.queue sys.owners := by
  refine h.invariant (P := fun sys => (∃ futures results, Inv sys.queue sys.owners futures results) ∧
    Waking sys.queue sys.owners ∧ Handed sys.queue sys.owners) ?_ ?_
  · refine ⟨⟨[], [], inv_new⟩, ⟨rfl, Nat.le_refl _, ?_, ?_, ?_⟩, ?_, ?_⟩ <;> simp [System.new, State.new, outstanding]
  · rintro sys a sys' ⟨⟨futures, results, hinv⟩, hwaking, hhanded⟩ hallowed hst
    exact ⟨inv_step hinv hst, kept_step hwaking hhanded hinv hallowed hst⟩

theorem queue_never_stalls (sys : System F O) (h : Reached System.step HandsOver System.new sys) : Driven sys := by
  obtain ⟨⟨futures, results, hinv⟩, -, hhanded⟩ := kept_of_reached h
  exact driven_of_handed hinv hhanded

/-- Two futures are enqueued and the first one's subscription is polled and then
dropped: the second one's has not been polled yet. -/
theorem queue_never_stalls_unpolled : ∃ sys : System Unit Unit,
    outstanding sys.queue = [2] ∧ sys.queue.activeQueueEntryId = none ∧ Driven sys := by
  have hrun : execute System.step (System.new : System Unit Unit)
      [.enqueue (), .subscribed 0 true, .reservedCompletion 0 true, .reservedSubmission 0 true,
        .enqueue (), .subscribed 1 true, .reservedCompletion 1 true, .reservedSubmission 1 true,
        .poll 0 7, .enter 1, .pollReturned 1 () none, .drop 1] ≠ none := by decide
  obtain ⟨sys, hsys⟩ := Option.ne_none_iff_exists'.1 hrun
  have hreached : Reached System.step HandsOver System.new sys :=
    reached_of_execute _ _ _ hsys (by simp [AllAllowed, HandsOver])
  cases hsys
  refine ⟨_, ?_, ?_, queue_never_stalls _ (.next (.cancel 1) hreached ?_ rfl)⟩
  · rfl
  · rfl
  · rintro id - - - other - hasleep
    cases hasleep

/-- The second of two futures left alone on the queue, its subscription polled
and asleep. -/
def abandoned : System Unit Unit where
  queue :=
    { (State.new : State Unit Unit) with
      wakers := ⟨[(2, some 8)], 2, 0⟩
      submissionQueue := [(2, ())]
      completionQueue := [none]
      submitted := [1, 2]
      cancelled := [1]
      asleep := [2]
      pollPending := true }
  owners := [.waiting 2]

/-- Two futures are enqueued, both subscriptions are polled and the first one's
is dropped, whose future is the active one. -/
theorem stalled_by_cancel : execute System.step System.new
    [.enqueue (), .subscribed 0 true, .reservedCompletion 0 true, .reservedSubmission 0 true,
      .enqueue (), .subscribed 1 true, .reservedCompletion 1 true, .reservedSubmission 1 true,
      .poll 0 7, .enter 1, .pollReturned 1 () none, .poll 0 8, .enter 1, .pollReturned 1 () none,
      .drop 0, .cancel 1] = some abandoned ∧ ¬ Driven abandoned := by
  refine ⟨by decide, ?_⟩
  intro h
  have hquiet : Quiescent abandoned := by simp [Quiescent, abandoned]
  rcases h hquiet (by decide) with ⟨hactive, -⟩ | ⟨id, hid, hasleep⟩
  · cases hactive
  · obtain rfl : id = 2 := mem_singleton.1 hid
    exact hasleep (by decide)

end CocoonFs.FutureQueueWaking
