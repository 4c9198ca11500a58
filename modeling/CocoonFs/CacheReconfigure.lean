import CocoonFs.CacheSetSteps
import CocoonFs.CacheOrderedCursor

namespace CocoonFs.CacheReconfigure

open Checked CacheSet CacheRows CacheAges CacheSetSteps CacheOrderedCursor

variable {K T : Type} [LinearOrder K] (pr : Profile)

def addU8 (a b : Nat) : Comp Nat := fitting pr (a + b < 2 ^ 8) ((a + b) % 2 ^ 8)

def subU8 (a b : Nat) : Comp Nat := fitting pr (b ≤ a) ((a + 2 ^ 8 - b) % 2 ^ 8)

omit [LinearOrder K] in
theorem addU8_ok {a b : Nat} (h : a + b < 2 ^ 8) : addU8 pr a b = .ok (a + b) := by
  rw [addU8, fitting_ok pr h, Nat.mod_eq_of_lt h]

omit [LinearOrder K] in
theorem subU8_ok {a b : Nat} (h : b ≤ a) (ha : a < 2 ^ 8) : subU8 pr a b = .ok (a - b) := by
  rw [subU8, fitting_ok pr h, show a + 2 ^ 8 - b = a - b + 2 ^ 8 by omega, Nat.add_mod_right,
    Nat.mod_eq_of_lt (by omega)]

inductive SetAssocCacheConfigureError where
  | memoryAllocationFailure
  deriving DecidableEq, Repr

structure SetAssocCacheReconfigureSetState where
  remainingToRedistribute : Nat
  unoccupiedSlots : Nat
  visited : Bool
  deriving DecidableEq, Repr

structure ReconfigureSet (K T : Type) where
  set : SetAssocCacheSet K T
  reconfigureState : SetAssocCacheReconfigureSetState

def ReconfigureSet.default : ReconfigureSet K T := ⟨SetAssocCacheSet.default, ⟨0, 0, false⟩⟩

def occupiedSlotsCount (s : SetAssocCacheSet K T) : Comp Nat :=
  findLeastSignificantZeroNibble pr s.orderedSlots

def resetReconfigureState (s : SetAssocCacheSet K T) : Comp (ReconfigureSet K T) := do
  let occupiedSlots ← occupiedSlotsCount pr s
  let unoccupiedSlots ← subU8 pr s.capacity occupiedSlots
  pure ⟨s, ⟨occupiedSlots, unoccupiedSlots, false⟩⟩

def growToMaxAssociativity (q : ReconfigureSet K T) : Comp (ReconfigureSet K T) :=
  if q.set.capacity ≠ maxAssociativity then do
    let s ← growCapacity pr q.set maxAssociativity
    let added ← subU8 pr maxAssociativity q.set.capacity
    let unoccupiedSlots ← addU8 pr q.reconfigureState.unoccupiedSlots added
    pure ⟨s, { q.reconfigureState with unoccupiedSlots := unoccupiedSlots }⟩
  else pure q

/-- The set with the most entries remaining, or, on ties, with the fewest unoccupied slots. -/
def betterStartSet (found : Option (Nat × Nat × Nat)) (i : Nat)
    (st : SetAssocCacheReconfigureSetState) : Option (Nat × Nat × Nat) :=
  if st.remainingToRedistribute ≠ 0 then
    match found with
    | some (_, foundRemaining, foundUnoccupied) =>
      if foundRemaining < st.remainingToRedistribute ∨
          foundRemaining = st.remainingToRedistribute ∧ st.unoccupiedSlots < foundUnoccupied then
        some (i, st.remainingToRedistribute, st.unoccupiedSlots)
      else found
    | none => some (i, st.remainingToRedistribute, st.unoccupiedSlots)
  else found

def nextSetIndex (count i : Nat) : Nat := if i + 1 = count then 0 else i + 1

def findStartSet (sets : List (ReconfigureSet K T)) (searchBegin : Nat) :
    Nat → Nat → Option (Nat × Nat × Nat) → Comp (Option (Nat × Nat × Nat))
  | 0, _, _ => Checked.panic .outOfFuel
  | fuel + 1, i, found => do
    let q ← index sets i
    let found := betterStartSet found i q.reconfigureState
    if nextSetIndex sets.length i = searchBegin then pure found
    else findStartSet sets searchBegin fuel (nextSetIndex sets.length i) found

variable (mapKeyToSet : K → Option Nat)

/-- The path has come back to a full set: the oldest entry among those redistributed
makes room. -/
def evictRedistributed (q : ReconfigureSet K T) (entry : K × T) : Comp (SetAssocCacheSet K T) := do
  debugAssert pr (q.reconfigureState.remainingToRedistribute < q.set.capacity)
  let age ← subU8 pr q.set.capacity q.reconfigureState.remainingToRedistribute
  let age ← subU8 pr age 1
  let slot ← slotWithAge pr q.set age
  let slot ← unwrap slot
  let (s, _) ← removeBySlot pr q.set slot none
  let (s, _, _) ← CacheSet.insert pr s entry.1 entry.2
  pure s

/-- One entry along a path gets moved to its set. What has been evicted from there, if
that's to be redistributed itself, is the next one. -/
def pathStep (start : Nat) (sets : List (ReconfigureSet K T)) (entry : K × T) (destination : Nat) :
    Comp (List (ReconfigureSet K T) × Option ((K × T) × Nat)) := do
  let q ← index sets destination
  if q.reconfigureState.unoccupiedSlots = 0 then do
    debugAssert pr (destination ≠ start)
    if q.reconfigureState.remainingToRedistribute ≠ 0 then
      if q.reconfigureState.visited then do
        let s ← evictRedistributed pr q entry
        let sets ← setAt sets destination { q with set := s }
        pure (sets, none)
      else do
        let remaining ← subU8 pr q.reconfigureState.remainingToRedistribute 1
        let (s, _, evicted) ← CacheSet.insert pr q.set entry.1 entry.2
        debugAssert pr evicted.isSome
        let sets ← setAt sets destination
          ⟨s, ⟨remaining, q.reconfigureState.unoccupiedSlots, true⟩⟩
        pure (sets, evicted.bind fun e => (mapKeyToSet e.1).map fun next => (e, next))
    else do
      -- All of the set's entries have been redistributed into it, one gets lost.
      let (s, _, _) ← CacheSet.insert pr q.set entry.1 entry.2
      let sets ← setAt sets destination { q with set := s }
      pure (sets, none)
  else do
    let unoccupiedSlots ← subU8 pr q.reconfigureState.unoccupiedSlots 1
    let (s, _, _) ← CacheSet.insert pr q.set entry.1 entry.2
    let sets ← setAt sets destination
      ⟨s, { q.reconfigureState with unoccupiedSlots := unoccupiedSlots }⟩
    pure (sets, none)

def redistributePath (start : Nat) : Nat → List (ReconfigureSet K T) → Option ((K × T) × Nat) →
    Comp (List (ReconfigureSet K T))
  | 0, _, _ => Checked.panic .outOfFuel
  | _ + 1, sets, none => pure sets
  | fuel + 1, sets, some (entry, destination) => do
    let (sets, lastEvicted) ← pathStep pr mapKeyToSet start sets entry destination
    redistributePath start fuel sets lastEvicted

def clearVisited (q : ReconfigureSet K T) : ReconfigureSet K T :=
  { q with reconfigureState := { q.reconfigureState with visited := false } }

/-- The start set's oldest entry and whatever else has to move for it. -/
def redistributeOldest (start : Nat) (sets : List (ReconfigureSet K T)) :
    Comp (List (ReconfigureSet K T)) := do
  let q ← index sets start
  let slot ← leastRecentlyUsedOccupiedSlot pr q.set
  let slot ← unwrap slot
  let entry ← q.set.slot slot
  let entry ← unwrap entry
  match mapKeyToSet entry.1 with
  | none => do
    -- Not to be cached anymore.
    let (s, _) ← removeBySlot pr q.set slot none
    let unoccupiedSlots ← addU8 pr q.reconfigureState.unoccupiedSlots 1
    let remaining ← subU8 pr q.reconfigureState.remainingToRedistribute 1
    setAt sets start ⟨s, ⟨remaining, unoccupiedSlots, q.reconfigureState.visited⟩⟩
  | some destination =>
    if destination = start then do
      let matrix ← lruReferenceSlotLocked pr q.set.lruReferenceMatrix q.set.capacity slot
      let remaining ← subU8 pr q.reconfigureState.remainingToRedistribute 1
      setAt sets start ⟨{ q.set with lruReferenceMatrix := matrix },
        { q.reconfigureState with remainingToRedistribute := remaining }⟩
    else do
      let (s, removed) ← removeBySlot pr q.set slot none
      debugAssert pr removed.isSome
      let unoccupiedSlots ← addU8 pr q.reconfigureState.unoccupiedSlots 1
      let remaining ← subU8 pr q.reconfigureState.remainingToRedistribute 1
      let sets ← setAt (sets.map clearVisited) start ⟨s, ⟨remaining, unoccupiedSlots, true⟩⟩
      redistributePath pr mapKeyToSet start (sets.length + 2) sets
        (removed.map fun e => (e, destination))

/-- Each iteration redistributes at least one of the entries that remain. -/
def redistribute : Nat → Nat → List (ReconfigureSet K T) → Comp (List (ReconfigureSet K T))
  | 0, _, _ => Checked.panic .outOfFuel
  | fuel + 1, searchBegin, sets => do
    match ← findStartSet sets searchBegin sets.length searchBegin none with
    | none => pure sets
    | some (start, _, _) => do
      let sets' ← redistributeOldest pr mapKeyToSet start sets
      redistribute fuel (nextSetIndex sets.length start) sets'

def setCapacities : Nat → List Nat → List (SetAssocCacheSet K T) → Comp (List (SetAssocCacheSet K T))
  | _, [], sets => pure sets
  | i, newCapacity :: rest, sets => do
    let s ← index sets i
    let s ← setCapacity pr s newCapacity
    let sets ← setAt sets i s
    setCapacities (i + 1) rest sets

def totalRemaining (sets : List (ReconfigureSet K T)) : Nat :=
  (sets.map fun q => q.reconfigureState.remainingToRedistribute).sum

def reconfigure (enough : Bool) (cache : SetAssocCache K T) (setsCapacities : List Nat) :
    Comp (SetAssocCache K T × Except SetAssocCacheConfigureError Unit) := do
  let sets ← cache.sets.mapM (resetReconfigureState pr)
  let newSetsCount := setsCapacities.length
  if sets.length < newSetsCount ∧ enough = false then
    pure (cache, .error .memoryAllocationFailure)
  else do
    let sets := sets ++
      List.replicate (newSetsCount - sets.length) ReconfigureSet.default
    let sets ← sets.mapM (growToMaxAssociativity pr)
    let sets ← redistribute pr mapKeyToSet (totalRemaining sets + 1) 0 sets
    let sets ← setCapacities pr 0 setsCapacities (sets.map ReconfigureSet.set)
    pure (⟨sets.take newSetsCount, mapKeyToSet⟩, .ok ())

end CocoonFs.CacheReconfigure
