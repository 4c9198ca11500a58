import CocoonFs.Bitmap
import CocoonFs.Extents
import CocoonFs.UpdateStates

namespace CocoonFs.AuthDigestsScript

open Checked Bitmap Extents BlockRuns UpdateStates List
open Prod (fst)

/-- TransactionAuthTreeDataBlocksDigestsUpdatesIterator, with the update states from
the next one on. -/
structure DigestsUpdatesIterator where
  nextAuthTreeDataBlockAllocationBlocksBegin : Nat
  updateStates : List AuthTreeDataBlockUpdateState
  nextPendingFree : Option (Nat × BitmapWord)

def skipToAuthTreeUpdateStateWithModifiedData (imageHeaderEnd n : Nat) :
    List AuthTreeDataBlockUpdateState → List AuthTreeDataBlockUpdateState
  | [] => []
  | s :: states =>
    let skipCount := min (imageHeaderEnd - s.targetAllocationBlocksBegin) n
    if (s.allocationBlocksStates.drop skipCount).any (·.hasModifiedData) then
      s :: states
    else
      skipToAuthTreeUpdateStateWithModifiedData imageHeaderEnd n states

def DigestsUpdatesIterator.new (states : List AuthTreeDataBlockUpdateState) (frees : List Entry)
    (log2 imageHeaderEnd : Nat) : DigestsUpdatesIterator :=
  { nextAuthTreeDataBlockAllocationBlocksBegin := 0
    updateStates := skipToAuthTreeUpdateStateWithModifiedData imageHeaderEnd (2 ^ log2) states
    nextPendingFree := (blockIter log2 frees).head? }

/-- Whether a pending free comes before any of the update states left. -/
def freeIsNext (states : List AuthTreeDataBlockUpdateState) (free : Nat × BitmapWord) : Bool :=
  match states with
  | [] => true
  | s :: _ => decide (s.targetAllocationBlocksBegin > free.1)

section

variable (pr : Profile) (allocBitmap : AllocBitmap) (frees : List Entry) (log2 imageHeaderEnd : Nat)
  (redigest : Nat → BitmapWord → List UInt8)

/-- The redigested contents are those of the storage, assumed to get read without an
error. -/
def DigestsUpdatesIterator.redigestNext (it : DigestsUpdatesIterator) (free : Nat × BitmapWord) :
    Comp (Option (Nat × List UInt8) × DigestsUpdatesIterator) :=
  let b := free.1
  match (allocBitmap.iterChunkedAtAllocationBlock b (2 ^ log2)).next.1 with
  | none => err .internal
  | some original => do
    debugAssert pr (free.2 &&& original = free.2)
    let digest := redigest b (original &&& ~~~free.2)
    let next ← checkedAdd b (2 ^ log2)
    debugAssert pr (2 ^ log2 ∣ next)
    pure (some (b, digest),
      { it with
        nextAuthTreeDataBlockAllocationBlocksBegin := next
        nextPendingFree := (blockIterAt log2 next frees).head? })

/-- The digests of modified Data Blocks have been computed before. -/
def DigestsUpdatesIterator.stealNext (it : DigestsUpdatesIterator) (s : AuthTreeDataBlockUpdateState)
    (states : List AuthTreeDataBlockUpdateState) :
    Comp (Option (Nat × List UInt8) × DigestsUpdatesIterator) :=
  match s.authDigest with
  | none => err .internal
  | some digest => do
    let b := s.targetAllocationBlocksBegin
    let next ← checkedAdd b (2 ^ log2)
    let states := skipToAuthTreeUpdateStateWithModifiedData imageHeaderEnd (2 ^ log2) states
    if it.nextPendingFree.any (fun free => free.1 == b) then do
      debugAssert pr (2 ^ log2 ∣ next)
      pure (some (b, digest), ⟨next, states, (blockIterAt log2 next frees).head?⟩)
    else
      pure (some (b, digest), ⟨next, states, it.nextPendingFree⟩)

/-- TransactionAuthTreeDataBlocksDigestsUpdatesIterator::poll_for_next, once ready -/
def DigestsUpdatesIterator.next (it : DigestsUpdatesIterator) :
    Comp (Option (Nat × List UInt8) × DigestsUpdatesIterator) :=
  match it.nextPendingFree.filter (freeIsNext it.updateStates) with
  | some free => it.redigestNext pr allocBitmap frees log2 redigest free
  | none =>
    match it.updateStates with
    | [] => .ok (none, it)
    | s :: states => it.stealNext pr frees log2 imageHeaderEnd s states

/-- The updates from some number of calls, less if there are no more. -/
def DigestsUpdatesIterator.updates :
    Nat → DigestsUpdatesIterator → Comp (List (Nat × List UInt8))
  | 0, _ => .ok []
  | calls + 1, it => do
    match ← it.next pr allocBitmap frees log2 imageHeaderEnd redigest with
    | (none, _) => pure []
    | (some update, it) => do
      let updates ← it.updates calls
      pure (update :: updates)

end

/-- TransactionJournalUpdateAuthDigestsScriptIterator, with the update states from
the next one on and the next pending free heading those to come. -/
structure UpdateAuthDigestsScriptIterator where
  updateStates : List AuthTreeDataBlockUpdateState
  imageHeaderEnd : Nat
  pendingFrees : List Nat
  authTreeDataBlockAllocationBlocksLog2 : Nat

def UpdateAuthDigestsScriptIterator.new (states : List AuthTreeDataBlockUpdateState)
    (frees : List Entry) (imageHeaderEnd log2 : Nat) : UpdateAuthDigestsScriptIterator :=
  { updateStates := states
    imageHeaderEnd := imageHeaderEnd
    pendingFrees := (blockIter log2 frees).map fst
    authTreeDataBlockAllocationBlocksLog2 := log2 }

/-- The image header's Allocation Blocks aren't included in a digest. -/
def skipUnmodified (imageHeaderEnd : Nat) :
    List AuthTreeDataBlockUpdateState → List AuthTreeDataBlockUpdateState
  | [] => []
  | s :: states =>
    let b := s.targetAllocationBlocksBegin
    let skipCount := if imageHeaderEnd ≤ b then 0 else imageHeaderEnd - b
    if (s.allocationBlocksStates.drop skipCount).any (·.hasModifiedData) then
      s :: states
    else
      skipUnmodified imageHeaderEnd states

def regionBegin : List AuthTreeDataBlockUpdateState → List Nat →
    Option (Nat × List AuthTreeDataBlockUpdateState × List Nat)
  | [], [] => none
  | [], free :: frees => some (free, [], frees)
  | s :: states, [] => some (s.targetAllocationBlocksBegin, states, [])
  | s :: states, free :: frees =>
    let b := s.targetAllocationBlocksBegin
    if free ≤ b then
      some (free, if free = b then states else s :: states, frees)
    else
      some (b, states, free :: frees)

/-- Whether the Data Block right after the last one has got an update state with
modified data. -/
def takeState (pr : Profile) (n last : Nat) :
    List AuthTreeDataBlockUpdateState → Comp (Bool × List AuthTreeDataBlockUpdateState)
  | [] => .ok (false, [])
  | s :: states => do
    debugAssert pr (s.targetAllocationBlocksBegin > last)
    let d ← checkedSub s.targetAllocationBlocksBegin last
    if d = n then
      pure (s.allocationBlocksStates.any (·.hasModifiedData), states)
    else
      pure (false, s :: states)

def takeFree (pr : Profile) (n last : Nat) : List Nat → Comp (Bool × List Nat)
  | [] => .ok (false, [])
  | free :: frees => do
    debugAssert pr (free > last)
    let d ← checkedSub free last
    if d = n then pure (true, frees) else pure (false, free :: frees)

/-- Any iteration but the last one takes something from either list. -/
def extendRegion (pr : Profile) (n : Nat) :
    Nat → List AuthTreeDataBlockUpdateState → List Nat → Nat → Nat →
      Comp (Nat × List AuthTreeDataBlockUpdateState × List Nat)
  | 0, states, frees, _, region => .ok (region, states, frees)
  | iterations + 1, states, frees, last, region =>
    if states = [] ∧ frees = [] then
      .ok (region, states, frees)
    else do
      let (modified, states) ← takeState pr n last states
      let (freed, frees) ← takeFree pr n last frees
      if modified || freed then do
        let region ← checkedAdd region n
        let last ← checkedAdd last n
        extendRegion pr n iterations states frees last region
      else
        pure (region, states, frees)

def UpdateAuthDigestsScriptIterator.next (pr : Profile) (it : UpdateAuthDigestsScriptIterator) :
    Comp (Option BlockRange × UpdateAuthDigestsScriptIterator) :=
  let n := 2 ^ it.authTreeDataBlockAllocationBlocksLog2
  let states := skipUnmodified it.imageHeaderEnd it.updateStates
  match regionBegin states it.pendingFrees with
  | none => .ok (none, { it with updateStates := states })
  | some (b, states, frees) => do
    let (region, states, frees) ←
      extendRegion pr n (states.length + frees.length) states frees b n
    let e ← checkedAdd b region
    pure (some ⟨b, e⟩, { it with updateStates := states, pendingFrees := frees })

def UpdateAuthDigestsScriptIterator.entries (pr : Profile) :
    Nat → UpdateAuthDigestsScriptIterator → Comp (List BlockRange)
  | 0, _ => .ok []
  | calls + 1, it => do
    match ← it.next pr with
    | (none, _) => pure []
    | (some range, it) => do
      let ranges ← it.entries pr calls
      pure (range :: ranges)

def modifiedBeyond (imageHeaderEnd : Nat) (s : AuthTreeDataBlockUpdateState) : Bool :=
  (s.allocationBlocksStates.drop (imageHeaderEnd - s.targetAllocationBlocksBegin)).any
    (·.hasModifiedData)

def Modified (imageHeaderEnd : Nat) (states : List AuthTreeDataBlockUpdateState) (b : Nat) : Prop :=
  ∃ s ∈ states, s.targetAllocationBlocksBegin = b ∧ modifiedBeyond imageHeaderEnd s = true

variable {states : List AuthTreeDataBlockUpdateState} {s : AuthTreeDataBlockUpdateState}
  {imageHeaderEnd : Nat}

theorem modified_cons {b : Nat} :
    Modified imageHeaderEnd (s :: states) b ↔
      (s.targetAllocationBlocksBegin = b ∧ modifiedBeyond imageHeaderEnd s = true) ∨
        Modified imageHeaderEnd states b := by
  simp [Modified]

section Skip

variable {imageHeaderEnd log2 : Nat} {states : List AuthTreeDataBlockUpdateState}

/-- Nothing modified is skipped, and what's left is headed by something modified. -/
def Skipped (imageHeaderEnd : Nat) (states rest : List AuthTreeDataBlockUpdateState) : Prop :=
  rest <:+ states ∧ (∀ b, Modified imageHeaderEnd states b ↔ Modified imageHeaderEnd rest b) ∧
    ∀ s, rest.head? = some s → modifiedBeyond imageHeaderEnd s = true

theorem Skipped.cons {rest : List AuthTreeDataBlockUpdateState}
    (h : Skipped imageHeaderEnd states rest) (hs : ¬modifiedBeyond imageHeaderEnd s = true) :
    Skipped imageHeaderEnd (s :: states) rest := by
  refine ⟨h.1.trans (suffix_cons _ _), fun b => ?_, h.2.2⟩
  rw [modified_cons, h.2.1 b]
  simp [hs]

theorem skipped_self (hs : modifiedBeyond imageHeaderEnd s = true) :
    Skipped imageHeaderEnd (s :: states) (s :: states) := by
  refine ⟨suffix_refl _, fun b => Iff.rfl, ?_⟩
  rintro t ht
  rw [← Option.some.inj ht]
  exact hs

theorem skipped_nil : Skipped imageHeaderEnd [] [] :=
  ⟨suffix_refl _, fun _ => Iff.rfl, by simp⟩

theorem skipToModified_spec (h : Ordered log2 states) :
    Skipped imageHeaderEnd states
      (skipToAuthTreeUpdateStateWithModifiedData imageHeaderEnd (2 ^ log2) states) := by
  induction states with
  | nil => exact skipped_nil
  | cons s states ih =>
    have hdrop : s.allocationBlocksStates.drop
          (min (imageHeaderEnd - s.targetAllocationBlocksBegin) (2 ^ log2)) =
        s.allocationBlocksStates.drop (imageHeaderEnd - s.targetAllocationBlocksBegin) := by
      rw [← h.complete s (mem_cons_self ..), drop_eq_drop_iff]
      omega
    rw [skipToAuthTreeUpdateStateWithModifiedData]
    rw [hdrop, ← modifiedBeyond]
    by_cases hs : modifiedBeyond imageHeaderEnd s = true
    · rw [if_pos hs]
      exact skipped_self hs
    · rw [if_neg hs]
      exact (ih (h.of_suffix (suffix_cons _ _))).cons hs

theorem skipUnmodified_spec : Skipped imageHeaderEnd states (skipUnmodified imageHeaderEnd states) := by
  induction states with
  | nil => exact skipped_nil
  | cons s states ih =>
    have hcount : (if imageHeaderEnd ≤ s.targetAllocationBlocksBegin then 0
          else imageHeaderEnd - s.targetAllocationBlocksBegin) =
        imageHeaderEnd - s.targetAllocationBlocksBegin := by
      split <;> omega
    rw [skipUnmodified]
    rw [hcount, ← modifiedBeyond]
    by_cases hs : modifiedBeyond imageHeaderEnd s = true
    · rw [if_pos hs]
      exact skipped_self hs
    · rw [if_neg hs]
      exact ih.cons hs

/-- There's nothing of the image header past a Data Block that extends beyond it. -/
theorem modifiedBeyond_eq_any (h : Ordered log2 states)
    (hs : states.head? = some s) (hmodified : modifiedBeyond imageHeaderEnd s = true) :
    ∀ t ∈ states, modifiedBeyond imageHeaderEnd t = t.allocationBlocksStates.any (·.hasModifiedData) := by
  obtain ⟨states, rfl⟩ : ∃ tl, states = s :: tl := by
    cases states with
    | nil => cases hs
    | cons t tl => exact ⟨tl, by rw [Option.some.inj hs]⟩
  have hany : (s.allocationBlocksStates.drop (imageHeaderEnd - s.targetAllocationBlocksBegin)) ≠ [] := by
    intro hnil
    rw [modifiedBeyond, hnil] at hmodified
    cases hmodified
  intro t ht
  rcases mem_cons.mp ht with rfl | ht
  · rw [hmodified]
    obtain ⟨x, hx, hmod⟩ := List.any_eq_true.mp hmodified
    exact (List.any_eq_true.mpr ⟨x, mem_of_mem_drop hx, hmod⟩).symm
  · have hlt := (pairwise_cons.mp h.ascending).1 t ht
    have hle := add_le_of_lt_of_dvd (h.aligned s (mem_cons_self ..))
      (h.aligned t (mem_cons_of_mem _ ht)) hlt
    rw [ne_eq, drop_eq_nil_iff, h.complete s (mem_cons_self ..)] at hany
    rw [modifiedBeyond, show imageHeaderEnd - t.targetAllocationBlocksBegin = 0 by omega, drop_zero]

end Skip

structure Frees (log2 : Nat) (frees : List Nat) : Prop where
  ascending : frees.Pairwise (· < ·)
  aligned : ∀ b ∈ frees, 2 ^ log2 ∣ b
  in_image : ∀ b ∈ frees, b + 2 ^ log2 ≤ 2 ^ 58

theorem Frees.of_suffix {log2 : Nat} {frees rest : List Nat} (h : Frees log2 frees)
    (hsuffix : rest <:+ frees) : Frees log2 rest where
  ascending := h.ascending.sublist hsuffix.sublist
  aligned := fun b hb => h.aligned b (hsuffix.subset hb)
  in_image := fun b hb => h.in_image b (hsuffix.subset hb)

def Needed (imageHeaderEnd : Nat) (states : List AuthTreeDataBlockUpdateState) (frees : List Nat)
    (b : Nat) : Prop :=
  Modified imageHeaderEnd states b ∨ b ∈ frees

theorem needed_cons_free {free : Nat} {frees : List Nat} {x : Nat} :
    Needed imageHeaderEnd states (free :: frees) x ↔
      x = free ∨ Needed imageHeaderEnd states frees x := by
  rw [Needed, Needed, mem_cons, or_left_comm]

section Script

variable {imageHeaderEnd log2 : Nat} {states : List AuthTreeDataBlockUpdateState} {frees : List Nat}
  {last : Nat}

theorem takeState_spec (pr : Profile) (h : Ordered log2 states)
    (hlast : 2 ^ log2 ∣ last) (hafter : ∀ s ∈ states, last < s.targetAllocationBlocksBegin)
    (hany : ∀ s ∈ states, modifiedBeyond imageHeaderEnd s =
      s.allocationBlocksStates.any (·.hasModifiedData)) :
    ∃ modified rest, takeState pr (2 ^ log2) last states = .ok (modified, rest) ∧
      rest <:+ states ∧ (modified = true → rest.length < states.length) ∧
      (∀ s ∈ rest, last + 2 ^ log2 < s.targetAllocationBlocksBegin) ∧
      (modified = true → last + 2 ^ log2 + 2 ^ log2 ≤ 2 ^ 58) ∧
      ∀ b, Modified imageHeaderEnd states b ↔
        (b = last + 2 ^ log2 ∧ modified = true) ∨ Modified imageHeaderEnd rest b := by
  cases states with
  | nil =>
    refine ⟨false, [], rfl, suffix_refl _, by simp, by simp, by simp, fun b => ?_⟩
    simp
  | cons s states =>
    have hlt := hafter s (mem_cons_self ..)
    have hle := add_le_of_lt_of_dvd hlast (h.aligned s (mem_cons_self ..)) hlt
    have hbefore := (pairwise_cons.mp h.ascending).1
    rw [takeState, debugAssert_ok pr hlt, ok_bind, checkedSub_ok hlt.le, ok_bind]
    by_cases hd : s.targetAllocationBlocksBegin - last = 2 ^ log2
    · have hs : s.targetAllocationBlocksBegin = last + 2 ^ log2 := by omega
      have himage := h.in_image s (mem_cons_self ..)
      rw [if_pos hd]
      refine ⟨_, states, rfl, suffix_cons _ _, by simp, fun t ht => hs ▸ hbefore t ht,
        fun _ => by omega, fun b => ?_⟩
      rw [modified_cons, hs, hany s (mem_cons_self ..), eq_comm]
    · rw [if_neg hd]
      refine ⟨false, s :: states, rfl, suffix_refl _, by simp, fun t ht => ?_, by simp,
        fun b => by simp⟩
      rcases mem_cons.mp ht with rfl | ht
      · omega
      · exact lt_of_le_of_lt hle (hbefore t ht)

theorem takeFree_spec (pr : Profile) (h : Frees log2 frees) (hlast : 2 ^ log2 ∣ last)
    (hafter : ∀ b ∈ frees, last < b) :
    ∃ freed rest, takeFree pr (2 ^ log2) last frees = .ok (freed, rest) ∧
      rest <:+ frees ∧ (freed = true → rest.length < frees.length) ∧
      (∀ b ∈ rest, last + 2 ^ log2 < b) ∧ (freed = true → last + 2 ^ log2 + 2 ^ log2 ≤ 2 ^ 58) ∧
      ∀ b, b ∈ frees ↔ (b = last + 2 ^ log2 ∧ freed = true) ∨ b ∈ rest := by
  cases frees with
  | nil => exact ⟨false, [], rfl, suffix_refl _, by simp, by simp, by simp, by simp⟩
  | cons free frees =>
    have hlt := hafter free (mem_cons_self ..)
    have hle := add_le_of_lt_of_dvd hlast (h.aligned free (mem_cons_self ..)) hlt
    have hbefore := (pairwise_cons.mp h.ascending).1
    rw [takeFree, debugAssert_ok pr hlt, ok_bind, checkedSub_ok hlt.le, ok_bind]
    by_cases hd : free - last = 2 ^ log2
    · have hs : free = last + 2 ^ log2 := by omega
      have himage := h.in_image free (mem_cons_self ..)
      rw [if_pos hd]
      refine ⟨true, frees, rfl, suffix_cons _ _, by simp, fun b hb => hs ▸ hbefore b hb,
        fun _ => by omega, fun b => ?_⟩
      rw [mem_cons, hs]
      simp
    · rw [if_neg hd]
      refine ⟨false, free :: frees, rfl, suffix_refl _, by simp, fun b hb => ?_, by simp,
        fun b => by simp⟩
      rcases mem_cons.mp hb with rfl | hb
      · omega
      · exact lt_of_le_of_lt hle (hbefore b hb)

/-- A region is extended by what's to be redigested right after it, and the rest is left
for later. -/
theorem extendRegion_spec (pr : Profile) (iterations : Nat) (h : Ordered log2 states)
    (hf : Frees log2 frees) (hiter : states.length + frees.length ≤ iterations)
    (hany : ∀ s ∈ states, modifiedBeyond imageHeaderEnd s =
      s.allocationBlocksStates.any (·.hasModifiedData))
    (r : Run) (hlast : 2 ^ log2 ∣ last) (hstop : r.stop (2 ^ log2) = last + 2 ^ log2)
    (hbound : last + 2 ^ log2 ≤ 2 ^ 58)
    (hafter : ∀ s ∈ states, last < s.targetAllocationBlocksBegin) (hfafter : ∀ b ∈ frees, last < b) :
    ∃ count rest restFrees,
      extendRegion pr (2 ^ log2) iterations states frees last (r.count * 2 ^ log2) =
        .ok (count * 2 ^ log2, rest, restFrees) ∧
      rest <:+ states ∧ restFrees <:+ frees ∧ r.count ≤ count ∧
      Run.stop (2 ^ log2) ⟨r.b, count⟩ ≤ 2 ^ 58 ∧
      ∀ L, Enumerates (Needed imageHeaderEnd rest restFrees) L →
        ∃ extra, Run.blocks (2 ^ log2) ⟨r.b, count⟩ = r.blocks (2 ^ log2) ++ extra ∧
          Enumerates (Needed imageHeaderEnd states frees) (extra ++ L) := by
  induction iterations generalizing states frees r last with
  | zero =>
    exact ⟨r.count, states, frees, rfl, suffix_refl _, suffix_refl _, le_refl _,
      hstop ▸ hbound, fun L hL => ⟨[], (List.append_nil _).symm, hL⟩⟩
  | succ iterations ih =>
    rw [extendRegion]
    by_cases hnil : states = [] ∧ frees = []
    · rw [if_pos hnil]
      exact ⟨r.count, states, frees, rfl, suffix_refl _, suffix_refl _, le_refl _,
        hstop ▸ hbound, fun L hL => ⟨[], (List.append_nil _).symm, hL⟩⟩
    · obtain ⟨modified, rest, htake, hsuffix, hlen, hrest, hmb, hmodified⟩ :=
        takeState_spec pr h hlast hafter hany
      obtain ⟨freed, restFrees, hftake, hfsuffix, hflen, hfrest, hfb, hfreed⟩ :=
        takeFree_spec pr hf hlast hfafter
      have hneeded (b : Nat) : Needed imageHeaderEnd states frees b ↔
          (b = last + 2 ^ log2 ∧ (modified || freed) = true) ∨
            Needed imageHeaderEnd rest restFrees b := by
        rw [Needed, Needed, hmodified b, hfreed b, Bool.or_eq_true, and_or_left, or_or_or_comm]
      rw [if_neg hnil, htake, ok_bind]
      dsimp only
      rw [hftake, ok_bind]
      by_cases hmore : (modified || freed) = true
      · have hlt : rest.length + restFrees.length < states.length + frees.length := by
          have hle := hsuffix.length_le
          have hfle := hfsuffix.length_le
          rcases (Bool.or_eq_true _ _).mp hmore with hm | hm
          · have hm := hlen hm
            omega
          · have hm := hflen hm
            omega
        have hnext : last + 2 ^ log2 + 2 ^ log2 ≤ 2 ^ 58 :=
          ((Bool.or_eq_true _ _).mp hmore).elim hmb hfb
        have hmul : (r.count + 1) * 2 ^ log2 = r.count * 2 ^ log2 + 2 ^ log2 := Nat.succ_mul _ _
        have hsum : r.b + r.count * 2 ^ log2 = last + 2 ^ log2 := hstop
        rw [if_pos hmore, checkedAdd_ok (by omega), ok_bind, checkedAdd_ok (by omega), ok_bind,
          ← hmul]
        obtain ⟨count, rest', restFrees', hext, hs', hfs', hcount, hb', hL'⟩ :=
          ih (h.of_suffix hsuffix) (hf.of_suffix hfsuffix) (by omega)
            (fun s hs => hany s (hsuffix.subset hs)) ⟨r.b, r.count + 1⟩
            (Nat.dvd_add hlast (dvd_refl _)) (by rw [Run.stop]; dsimp only; omega) hnext
            hrest hfrest
        refine ⟨count, rest', restFrees', hext, hs'.trans hsuffix, hfs'.trans hfsuffix,
          Nat.le_of_succ_le hcount, hb', fun L hL => ?_⟩
        obtain ⟨extra, hblocks, henum⟩ := hL' L hL
        refine ⟨(last + 2 ^ log2) :: extra, ?_, ?_⟩
        · rw [hblocks, Run.blocks_succ, hstop, append_assoc, singleton_append]
        · refine henum.cons ?_ (fun b => ?_)
          · rintro b (⟨s, hs, rfl, -⟩ | hb)
            · exact hrest s hs
            · exact hfrest b hb
          · rw [hneeded b, and_iff_left hmore]
      · rw [if_neg hmore]
        refine ⟨r.count, rest, restFrees, rfl, hsuffix, hfsuffix, le_refl _, hstop ▸ hbound,
          fun L hL => ⟨[], (List.append_nil _).symm, ?_⟩⟩
        refine hL.congr (fun b => ?_)
        rw [hneeded b]
        simp [hmore]

theorem regionBegin_spec (h : Ordered log2 states) (hf : Frees log2 frees)
    (hhead : ∀ s, states.head? = some s → modifiedBeyond imageHeaderEnd s = true) :
    (regionBegin states frees = none ∧ states = [] ∧ frees = []) ∨
      ∃ b rest restFrees, regionBegin states frees = some (b, rest, restFrees) ∧
        rest <:+ states ∧ restFrees <:+ frees ∧
        rest.length + restFrees.length < states.length + frees.length ∧
        2 ^ log2 ∣ b ∧ b + 2 ^ log2 ≤ 2 ^ 58 ∧
        (∀ s ∈ rest, b < s.targetAllocationBlocksBegin) ∧ (∀ x ∈ restFrees, b < x) ∧
        ∀ x, Needed imageHeaderEnd states frees x ↔
          x = b ∨ Needed imageHeaderEnd rest restFrees x := by
  cases states with
  | nil =>
    cases frees with
    | nil => exact Or.inl ⟨rfl, rfl, rfl⟩
    | cons free frees =>
      right
      refine ⟨free, [], frees, rfl, suffix_refl _, suffix_cons _ _, by simp,
        hf.aligned free (mem_cons_self ..), hf.in_image free (mem_cons_self ..),
        by simp, (pairwise_cons.mp hf.ascending).1, fun x => ?_⟩
      exact needed_cons_free
  | cons s states =>
    right
    have hs := hhead s rfl
    have hbefore := (pairwise_cons.mp h.ascending).1
    have hal := h.aligned s (mem_cons_self ..)
    have hbound : s.targetAllocationBlocksBegin + 2 ^ log2 ≤ 2 ^ 58 :=
      (h.in_image s (mem_cons_self ..)).trans (by decide)
    have hneeded (frees : List Nat) (x : Nat) : Needed imageHeaderEnd (s :: states) frees x ↔
        x = s.targetAllocationBlocksBegin ∨ Needed imageHeaderEnd states frees x := by
      rw [Needed, Needed, modified_cons, and_iff_left hs, eq_comm, or_assoc]
    cases frees with
    | nil =>
      exact ⟨_, states, [], rfl, suffix_cons _ _, suffix_refl _, by simp, hal, hbound,
        hbefore, by simp, hneeded []⟩
    | cons free frees =>
      have hfbefore := (pairwise_cons.mp hf.ascending).1
      rw [regionBegin]
      by_cases hle : free ≤ s.targetAllocationBlocksBegin
      · rw [if_pos hle]
        by_cases heq : free = s.targetAllocationBlocksBegin
        · rw [if_pos heq]
          refine ⟨free, states, frees, rfl, suffix_cons _ _, suffix_cons _ _,
            by simp; omega, heq ▸ hal, heq ▸ hbound, fun t ht => heq ▸ hbefore t ht, hfbefore,
            fun x => ?_⟩
          rw [hneeded, needed_cons_free, ← heq, ← or_assoc, or_self]
        · rw [if_neg heq]
          refine ⟨free, s :: states, frees, rfl, suffix_refl _, suffix_cons _ _, by simp,
            hf.aligned free (mem_cons_self ..), hf.in_image free (mem_cons_self ..),
            fun t ht => ?_, hfbefore, fun x => ?_⟩
          · rcases mem_cons.mp ht with rfl | ht
            · omega
            · exact lt_of_le_of_lt hle (hbefore t ht)
          · exact needed_cons_free
      · rw [if_neg hle]
        refine ⟨_, states, free :: frees, rfl, suffix_cons _ _, suffix_refl _, by simp,
          hal, hbound, hbefore, fun x hx => ?_, hneeded (free :: frees)⟩
        rcases mem_cons.mp hx with rfl | hx
        · omega
        · exact lt_trans (Nat.lt_of_not_le hle) (hfbefore x hx)

variable (imageHeaderEnd) in
theorem next_spec (pr : Profile) (h : Ordered log2 states) (hf : Frees log2 frees) :
    (∃ it, UpdateAuthDigestsScriptIterator.next pr ⟨states, imageHeaderEnd, frees, log2⟩ =
        .ok (none, it) ∧ Enumerates (Needed imageHeaderEnd states frees) []) ∨
      ∃ (r : Run) (rest : List AuthTreeDataBlockUpdateState) (restFrees : List Nat),
        UpdateAuthDigestsScriptIterator.next pr ⟨states, imageHeaderEnd, frees, log2⟩ =
          .ok (some ⟨r.b, r.stop (2 ^ log2)⟩, ⟨rest, imageHeaderEnd, restFrees, log2⟩) ∧
        rest <:+ states ∧ restFrees <:+ frees ∧
        rest.length + restFrees.length < states.length + frees.length ∧
        ∀ L, Enumerates (Needed imageHeaderEnd rest restFrees) L →
          Enumerates (Needed imageHeaderEnd states frees) (r.blocks (2 ^ log2) ++ L) := by
  have hskip : Skipped imageHeaderEnd states (skipUnmodified imageHeaderEnd states) :=
    skipUnmodified_spec
  obtain ⟨hsuffix, hsame, hhead⟩ := hskip
  have hsame (b : Nat) : Needed imageHeaderEnd (skipUnmodified imageHeaderEnd states) frees b ↔
      Needed imageHeaderEnd states frees b := by
    rw [Needed, Needed, hsame b]
  have hord := h.of_suffix hsuffix
  rw [UpdateAuthDigestsScriptIterator.next]
  obtain ⟨hnone, hnil, hfnil⟩ | ⟨b, rest, restFrees, hsome, hrest, hfrest, hlen, hb, hbound, hafter,
    hfafter, hneeded⟩ := regionBegin_spec hord hf hhead
  · left
    rw [hnone]
    refine ⟨_, rfl, (enumerates_nil ?_).congr hsame⟩
    rw [hnil, hfnil]
    simp [Needed, Modified]
  · right
    have hany : ∀ s ∈ rest, modifiedBeyond imageHeaderEnd s =
        s.allocationBlocksStates.any (·.hasModifiedData) := by
      intro s hs
      have hs := hrest.subset hs
      cases hcons : skipUnmodified imageHeaderEnd states with
      | nil => rw [hcons] at hs; cases hs
      | cons t ts =>
        refine modifiedBeyond_eq_any hord (s := t) (by rw [hcons]; rfl) (hhead t ?_) s hs
        rw [hcons]
        rfl
    have hone : Run.stop (2 ^ log2) ⟨b, 1⟩ = b + 2 ^ log2 := by simp [Run.stop]
    obtain ⟨count, rest', restFrees', hext, hs', hfs', -, hstop, hL⟩ := extendRegion_spec pr
      (rest.length + restFrees.length) (hord.of_suffix hrest) (hf.of_suffix hfrest) (le_refl _)
      hany ⟨b, 1⟩ hb hone hbound hafter hfafter
    have hle := hs'.length_le
    have hfle := hfs'.length_le
    have hsle := hsuffix.length_le
    refine ⟨⟨b, count⟩, rest', restFrees', ?_, (hs'.trans hrest).trans hsuffix, hfs'.trans hfrest,
      by omega, fun L henum => ?_⟩
    · rw [one_mul] at hext
      rw [hsome]
      dsimp only
      rw [hext, ok_bind]
      rw [checkedAdd_ok (lt_of_le_of_lt hstop (by decide))]
      rfl
    · obtain ⟨extra, hblocks, henum⟩ := hL L henum
      rw [hblocks, Run.blocks_one, singleton_append, List.cons_append]
      refine (henum.cons ?_ hneeded).congr hsame
      rintro x (⟨s, hs, rfl, -⟩ | hx)
      · exact hafter s hs
      · exact hfafter x hx

end Script

def dataBlocks (n : Nat) (r : BlockRange) : List Nat :=
  (List.range ((r.e - r.b) / n)).map (fun i => r.b + i * n)

theorem dataBlocks_run {n : Nat} (hn : 0 < n) (r : Run) :
    dataBlocks n ⟨r.b, r.stop n⟩ = r.blocks n := by
  rw [dataBlocks, Run.stop, Run.blocks]
  rw [Nat.add_sub_cancel_left, Nat.mul_div_cancel _ hn]

theorem entries_spec (pr : Profile) (imageHeaderEnd : Nat) {log2 : Nat}
    {frees : List Nat} (h : Ordered log2 states) (hf : Frees log2 frees) :
    ∃ ranges, (∀ calls, states.length + frees.length < calls →
        UpdateAuthDigestsScriptIterator.entries pr calls ⟨states, imageHeaderEnd, frees, log2⟩ =
          .ok ranges) ∧
      Enumerates (Needed imageHeaderEnd states frees) (ranges.flatMap (dataBlocks (2 ^ log2))) := by
  induction hlen : states.length + frees.length using Nat.strong_induction_on
    generalizing states frees with
  | h len ih =>
    obtain ⟨it, hnext, hnil⟩ | ⟨r, rest, restFrees, hnext, hs, hfs, hlt, hL⟩ :=
      next_spec imageHeaderEnd pr h hf
    · refine ⟨[], fun calls hcalls => ?_, hnil⟩
      obtain ⟨calls, rfl⟩ : ∃ c, calls = c + 1 := ⟨calls - 1, by omega⟩
      rw [UpdateAuthDigestsScriptIterator.entries, hnext, ok_bind]
      rfl
    · obtain ⟨ranges, hranges, henum⟩ := ih _ (hlen ▸ hlt) (h.of_suffix hs) (hf.of_suffix hfs) rfl
      refine ⟨⟨r.b, r.stop (2 ^ log2)⟩ :: ranges, fun calls hcalls => ?_, ?_⟩
      · obtain ⟨calls, rfl⟩ : ∃ c, calls = c + 1 := ⟨calls - 1, by omega⟩
        rw [UpdateAuthDigestsScriptIterator.entries, hnext, ok_bind]
        dsimp only
        rw [hranges calls (by omega), ok_bind]
        rfl
      · rw [flatMap_cons, dataBlocks_run (Nat.two_pow_pos log2)]
        exact hL _ henum

structure Fits (frees : List Entry) (log2 imageHeaderEnd : Nat) (it : DigestsUpdatesIterator)
    (items : List (Nat × BitmapWord)) : Prop where
  ordered : Ordered log2 it.updateStates
  head_modified : ∀ s, it.updateStates.head? = some s → modifiedBeyond imageHeaderEnd s = true
  digests : ∀ s ∈ it.updateStates, modifiedBeyond imageHeaderEnd s = true → s.authDigest.isSome = true
  next_free : it.nextPendingFree = items.head?
  from_position : ∃ pos, items = (blockIter log2 frees).filter (fun x => decide (pos ≤ x.1))

section Updates

variable {a : AllocBitmap} {frees : List Entry} {log2 : Nat} (imageHeaderEnd : Nat)
  (redigest : Nat → BitmapWord → List UInt8) (hlog2 : log2 ≤ 6) (hs : Sorted frees)
  (hfrees : ∀ p, tracked frees p = true → a.allocated p = true)
include hlog2 hs hfrees

theorem frees_blockIter : Frees log2 ((blockIter log2 frees).map fst) where
  ascending := by
    rw [pairwise_map]
    have hn := Nat.two_pow_pos log2
    exact (pairwise_blockIter hlog2 hs).imp (fun hxy => by omega)
  aligned := by
    intro b hb
    obtain ⟨x, hx, rfl⟩ := mem_map.mp hb
    exact blockIter_aligned hlog2 hx
  in_image := by
    intro b hb
    obtain ⟨x, hx, rfl⟩ := mem_map.mp hb
    obtain ⟨j, hj, htracked⟩ := exists_tracked hlog2 hs hx
    have hlt := AllocBitmap.lt_of_allocated (hfrees _ htracked)
    have hle := block_le_word hlog2
    omega

theorem next_chunk {x : Nat × BitmapWord} (hx : x ∈ blockIter log2 frees) :
    (a.iterChunkedAtAllocationBlock x.1 (2 ^ log2)).next.1 = some (a.chunk (2 ^ log2) x.1) ∧
      x.2 &&& a.chunk (2 ^ log2) x.1 = x.2 := by
  have hal := blockIter_aligned hlog2 hx
  constructor
  · obtain ⟨j, -, htracked⟩ := exists_tracked hlog2 hs hx
    have hlt := AllocBitmap.div_lt_of_allocated (hfrees _ htracked)
    exact a.next_iterChunked hlog2 hal
      (lt_of_le_of_lt (Nat.div_le_div_right (Nat.le_add_right _ _)) hlt)
  · apply BitVec.eq_of_getLsbD_eq
    intro j _
    rw [BitVec.getLsbD_and, blockIter_bits hlog2 hs hx, a.getLsbD_chunk hlog2 hal]
    by_cases hfree : tracked frees (x.1 + j) = true
    · simp [hfree, hfrees _ hfree]
    · simp [hfree]

omit hfrees in
theorem blockIterAt_next {x : Nat × BitmapWord} {items : List (Nat × BitmapWord)} {pos : Nat}
    (h : x :: items = (blockIter log2 frees).filter (fun y => decide (pos ≤ y.1))) :
    blockIterAt log2 (x.1 + 2 ^ log2) frees = items := by
  have hx : x ∈ blockIter log2 frees := (mem_filter.mp (h ▸ mem_cons_self ..)).1
  rw [blockIterAt_eq hlog2 (Nat.dvd_add (blockIter_aligned hlog2 hx) (Nat.dvd_refl _)) hs]
  exact (tail_filter_eq (Nat.two_pow_pos log2) (pairwise_blockIter hlog2 hs) h.symm).symm

variable {imageHeaderEnd} {it : DigestsUpdatesIterator} {items : List (Nat × BitmapWord)}

def Yields (frees : List Entry) (log2 imageHeaderEnd : Nat) (it : DigestsUpdatesIterator)
    (items : List (Nat × BitmapWord)) (b : Nat) (it' : DigestsUpdatesIterator) : Prop :=
  ∃ items', Fits frees log2 imageHeaderEnd it' items' ∧
    it'.updateStates.length + items'.length < it.updateStates.length + items.length ∧
    (∀ x, Needed imageHeaderEnd it'.updateStates (items'.map fst) x → b < x) ∧
    ∀ x, Needed imageHeaderEnd it.updateStates (items.map fst) x ↔
      x = b ∨ Needed imageHeaderEnd it'.updateStates (items'.map fst) x

theorem redigestNext_spec (pr : Profile) {free : Nat × BitmapWord}
    (h : Fits frees log2 imageHeaderEnd it (free :: items))
    (hnext : ∀ s ∈ it.updateStates, free.1 < s.targetAllocationBlocksBegin) :
    ∃ digest it', it.redigestNext pr a frees log2 redigest free = .ok (some (free.1, digest), it') ∧
      Yields frees log2 imageHeaderEnd it (free :: items) free.1 it' := by
  obtain ⟨pos, hpos⟩ := h.from_position
  have hfree : free ∈ blockIter log2 frees := (mem_filter.mp (hpos ▸ mem_cons_self ..)).1
  have hat := blockIterAt_next hlog2 hs hpos
  have htail := tail_filter_eq (Nat.two_pow_pos log2) (pairwise_blockIter hlog2 hs) hpos.symm
  obtain ⟨hchunk, hand⟩ := next_chunk hlog2 hs hfrees hfree
  have himage := (frees_blockIter hlog2 hs hfrees).in_image free.1 (mem_map_of_mem hfree)
  have hal := blockIter_aligned hlog2 hfree
  rw [DigestsUpdatesIterator.redigestNext]
  rw [hchunk]
  dsimp only
  rw [debugAssert_ok pr hand, ok_bind, checkedAdd_ok (lt_of_le_of_lt himage (by decide)), ok_bind,
    debugAssert_ok pr (Nat.dvd_add hal (Nat.dvd_refl _)), ok_bind, hat]
  refine ⟨_, _, rfl, items, ⟨h.ordered, h.head_modified, h.digests, rfl, _, htail⟩, by simp, ?_, ?_⟩
  · rintro x (⟨s, hs, rfl, -⟩ | hx)
    · exact hnext s hs
    · obtain ⟨y, hy, rfl⟩ := mem_map.mp hx
      rw [htail] at hy
      have hle := of_decide_eq_true (mem_filter.mp hy).2
      omega
  · intro x
    rw [map_cons, needed_cons_free]

omit hfrees in
theorem stealNext_spec (pr : Profile) (h : Fits frees log2 imageHeaderEnd it items)
    (hstates : it.updateStates = s :: states)
    (hnext : ∀ x ∈ items, s.targetAllocationBlocksBegin ≤ x.1) :
    ∃ digest it', it.stealNext pr frees log2 imageHeaderEnd s states =
        .ok (some (s.targetAllocationBlocksBegin, digest), it') ∧
      Yields frees log2 imageHeaderEnd it items s.targetAllocationBlocksBegin it' := by
  have hn := Nat.two_pow_pos log2
  have hord := h.ordered
  have hmod := h.head_modified s (by rw [hstates]; rfl)
  obtain ⟨digest, hdigest⟩ := Option.isSome_iff_exists.mp
    (h.digests s (by rw [hstates]; exact mem_cons_self ..) hmod)
  rw [hstates] at hord
  have himage := hord.in_image s (mem_cons_self ..)
  have hal := hord.aligned s (mem_cons_self ..)
  have hbefore := (pairwise_cons.mp hord.ascending).1
  obtain ⟨hsuffix, hsame, hhead⟩ : Skipped imageHeaderEnd states
      (skipToAuthTreeUpdateStateWithModifiedData imageHeaderEnd (2 ^ log2) states) :=
    skipToModified_spec (hord.of_suffix (suffix_cons _ _))
  have hlen := hsuffix.length_le
  have hfits (next : Nat) (free : Option (Nat × BitmapWord)) (items' : List (Nat × BitmapWord))
      (hfree : free = items'.head?)
      (hpos : ∃ pos, items' = (blockIter log2 frees).filter (fun x => decide (pos ≤ x.1))) :
      Fits frees log2 imageHeaderEnd
        ⟨next, skipToAuthTreeUpdateStateWithModifiedData imageHeaderEnd (2 ^ log2) states, free⟩
        items' :=
    ⟨(hord.of_suffix (suffix_cons _ _)).of_suffix hsuffix, hhead,
      fun t ht => h.digests t (by rw [hstates]; exact mem_cons_of_mem _ (hsuffix.subset ht)),
      hfree, hpos⟩
  have hneeded (xs : List Nat) (x : Nat) : Needed imageHeaderEnd it.updateStates xs x ↔
      x = s.targetAllocationBlocksBegin ∨ Needed imageHeaderEnd
        (skipToAuthTreeUpdateStateWithModifiedData imageHeaderEnd (2 ^ log2) states) xs x := by
    rw [hstates, Needed, Needed, modified_cons, and_iff_left hmod, hsame, eq_comm, or_assoc]
  have hafter (t : AuthTreeDataBlockUpdateState)
      (ht : t ∈ skipToAuthTreeUpdateStateWithModifiedData imageHeaderEnd (2 ^ log2) states) :
      s.targetAllocationBlocksBegin < t.targetAllocationBlocksBegin :=
    hbefore t (hsuffix.subset ht)
  rw [DigestsUpdatesIterator.stealNext, hdigest]
  dsimp only
  rw [checkedAdd_ok (by omega), ok_bind]
  by_cases hany : it.nextPendingFree.any (fun free => free.1 == s.targetAllocationBlocksBegin) = true
  · -- The pending free is in the modified Data Block.
    rw [if_pos hany, debugAssert_ok pr (Nat.dvd_add hal (Nat.dvd_refl _)), ok_bind]
    rw [h.next_free] at hany
    cases items with
    | nil => cases hany
    | cons free items =>
      have hfree : free.1 = s.targetAllocationBlocksBegin := by simpa using hany
      obtain ⟨pos, hpos⟩ := h.from_position
      have htail := tail_filter_eq hn (pairwise_blockIter hlog2 hs) hpos.symm
      rw [← hfree, blockIterAt_next hlog2 hs hpos, hfree]
      refine ⟨digest, _, rfl, items, hfits _ _ _ rfl ⟨_, htail⟩, ?_, ?_, ?_⟩
      · rw [hstates, length_cons, length_cons]
        dsimp only
        omega
      · rintro x (⟨t, ht, rfl, -⟩ | hx)
        · exact hafter t ht
        · obtain ⟨y, hy, rfl⟩ := mem_map.mp hx
          rw [htail] at hy
          have hle := of_decide_eq_true (mem_filter.mp hy).2
          omega
      · intro x
        rw [map_cons, hneeded, needed_cons_free, hfree, ← or_assoc, or_self]
  · rw [if_neg hany]
    refine ⟨digest, _, rfl, items, hfits _ _ _ h.next_free h.from_position, ?_, ?_, hneeded _⟩
    · rw [hstates, length_cons]
      dsimp only
      omega
    · rintro x (⟨t, ht, rfl, -⟩ | hx)
      · exact hafter t ht
      · obtain ⟨y, hy, rfl⟩ := mem_map.mp hx
        obtain ⟨pos, hpos⟩ := h.from_position
        have hasc : items.Pairwise (fun x y => x.1 + 2 ^ log2 ≤ y.1) :=
          hpos ▸ (pairwise_blockIter hlog2 hs).sublist filter_sublist
        cases items with
        | nil => cases hy
        | cons free items =>
          have hfree := hnext free (mem_cons_self ..)
          have hne : free.1 ≠ s.targetAllocationBlocksBegin := by
            intro heq
            rw [h.next_free] at hany
            exact hany (by simpa using heq)
          rcases mem_cons.mp hy with rfl | hy
          · omega
          · have hlt := (pairwise_cons.mp hasc).1 y hy
            omega

theorem next_yields (pr : Profile) (h : Fits frees log2 imageHeaderEnd it items) :
    (∃ it', it.next pr a frees log2 imageHeaderEnd redigest = .ok (none, it') ∧
        ∀ x, ¬Needed imageHeaderEnd it.updateStates (items.map fst) x) ∨
      ∃ b digest it', it.next pr a frees log2 imageHeaderEnd redigest =
          .ok (some (b, digest), it') ∧
        Yields frees log2 imageHeaderEnd it items b it' := by
  rw [DigestsUpdatesIterator.next, h.next_free]
  cases items with
  | nil =>
    rw [head?_nil, Option.filter_none]
    cases hstates : it.updateStates with
    | nil => exact Or.inl ⟨it, rfl, by simp [Needed, Modified]⟩
    | cons s states =>
      obtain ⟨digest, it', hit, hyields⟩ := stealNext_spec hlog2 hs pr h hstates (by simp)
      exact Or.inr ⟨_, digest, it', hit, hyields⟩
  | cons free items =>
    right
    rw [head?_cons, Option.filter_some]
    by_cases hfree : freeIsNext it.updateStates free = true
    · rw [if_pos hfree]
      have hlt : ∀ s ∈ it.updateStates, free.1 < s.targetAllocationBlocksBegin := by
        intro s hs
        have hord := h.ordered.ascending
        cases hstates : it.updateStates with
        | nil => rw [hstates] at hs; cases hs
        | cons t states =>
          rw [hstates] at hs hfree hord
          have ht : free.1 < t.targetAllocationBlocksBegin := of_decide_eq_true hfree
          rcases mem_cons.mp hs with rfl | hs
          · exact ht
          · exact ht.trans ((pairwise_cons.mp hord).1 s hs)
      obtain ⟨digest, it', hit, hyields⟩ := redigestNext_spec redigest hlog2 hs hfrees pr h hlt
      exact ⟨_, digest, it', hit, hyields⟩
    · rw [if_neg hfree]
      cases hstates : it.updateStates with
      | nil => rw [hstates] at hfree; exact absurd rfl hfree
      | cons s states =>
        rw [hstates] at hfree
        have hle : s.targetAllocationBlocksBegin ≤ free.1 :=
          Nat.le_of_not_lt (fun hlt => hfree (decide_eq_true hlt))
        obtain ⟨pos, hpos⟩ := h.from_position
        have hasc : (free :: items).Pairwise (fun x y => x.1 + 2 ^ log2 ≤ y.1) :=
          hpos ▸ (pairwise_blockIter hlog2 hs).sublist filter_sublist
        have hnext : ∀ x ∈ free :: items, s.targetAllocationBlocksBegin ≤ x.1 := by
          intro x hx
          rcases mem_cons.mp hx with rfl | hx
          · exact hle
          · exact hle.trans ((Nat.le_add_right _ _).trans ((pairwise_cons.mp hasc).1 x hx))
        obtain ⟨digest, it', hit, hyields⟩ := stealNext_spec hlog2 hs pr h hstates hnext
        exact ⟨_, digest, it', hit, hyields⟩

theorem updates_spec (pr : Profile) (h : Fits frees log2 imageHeaderEnd it items) :
    ∃ updates, (∀ calls, it.updateStates.length + items.length < calls →
        it.updates pr a frees log2 imageHeaderEnd redigest calls = .ok updates) ∧
      Enumerates (Needed imageHeaderEnd it.updateStates (items.map fst))
        (updates.map fst) := by
  induction hlen : it.updateStates.length + items.length using Nat.strong_induction_on
    generalizing it items with
  | h len ih =>
    obtain ⟨it', hnext, hnone⟩ | ⟨b, digest, it', hnext, items', hfits, hlt, hafter, hneeded⟩ :=
      next_yields redigest hlog2 hs hfrees pr h
    · refine ⟨[], fun calls hcalls => ?_, enumerates_nil hnone⟩
      obtain ⟨calls, rfl⟩ : ∃ c, calls = c + 1 := ⟨calls - 1, by omega⟩
      rw [DigestsUpdatesIterator.updates, hnext, ok_bind]
      rfl
    · obtain ⟨updates, hupdates, henum⟩ := ih _ (hlen ▸ hlt) hfits rfl
      refine ⟨(b, digest) :: updates, fun calls hcalls => ?_, henum.cons hafter hneeded⟩
      obtain ⟨calls, rfl⟩ : ∃ c, calls = c + 1 := ⟨calls - 1, by omega⟩
      rw [DigestsUpdatesIterator.updates, hnext, ok_bind]
      dsimp only
      rw [hupdates calls (by omega), ok_bind]
      rfl

end Updates

/-- The Data Blocks that have got modified data beyond the image header or contain a
pending free. -/
def NeedsRedigest (log2 imageHeaderEnd : Nat) (states : List AuthTreeDataBlockUpdateState)
    (frees : List Entry) (b : Nat) : Prop :=
  (∃ s ∈ states, s.targetAllocationBlocksBegin = b ∧
      ∃ i x, s.allocationBlocksStates[i]? = some x ∧ imageHeaderEnd ≤ b + i ∧
        x.hasModifiedData = true) ∨
    (2 ^ log2 ∣ b ∧ ∃ p, b ≤ p ∧ p < b + 2 ^ log2 ∧ tracked frees p = true)

theorem modifiedBeyond_iff :
    modifiedBeyond imageHeaderEnd s = true ↔ ∃ i x, s.allocationBlocksStates[i]? = some x ∧
      imageHeaderEnd ≤ s.targetAllocationBlocksBegin + i ∧ x.hasModifiedData = true := by
  rw [modifiedBeyond, List.any_eq_true]
  constructor
  · rintro ⟨x, hx, hmod⟩
    obtain ⟨i, hi⟩ := mem_iff_getElem?.mp hx
    rw [getElem?_drop] at hi
    exact ⟨_, x, hi, by omega, hmod⟩
  · rintro ⟨i, x, hi, hle, hmod⟩
    refine ⟨x, mem_iff_getElem?.mpr
      ⟨i - (imageHeaderEnd - s.targetAllocationBlocksBegin), ?_⟩, hmod⟩
    rw [getElem?_drop, Nat.add_sub_cancel' (by omega), hi]

theorem needed_iff {log2 imageHeaderEnd : Nat} (hlog2 : log2 ≤ 6)
    {frees : List Entry} (hs : Sorted frees) (b : Nat) :
    Needed imageHeaderEnd states ((blockIter log2 frees).map fst) b ↔
      NeedsRedigest log2 imageHeaderEnd states frees b := by
  rw [Needed, NeedsRedigest, mem_blockIter_iff hlog2 hs, Modified]
  refine or_congr_left (exists_congr fun s => and_congr_right fun _ => ?_)
  rw [modifiedBeyond_iff]
  refine and_congr_right fun hb => ?_
  rw [hb]

/-- What's redigested when the journal is replayed is what's been redigested when the
transaction got committed: everything that has to be, in order. -/
theorem redigested_alike (pr : Profile) {log2 : Nat} (hlog2 : log2 ≤ 6)
    (u : AuthTreeDataBlocksUpdateStates log2) (imageHeaderEnd : Nat) (a : AllocBitmap)
    (frees : List Entry) (hs : Sorted frees)
    (hfrees : ∀ p, tracked frees p = true → a.allocated p = true)
    (hdigests : ∀ s ∈ u.states, modifiedBeyond imageHeaderEnd s = true → s.authDigest.isSome = true)
    (redigest : Nat → BitmapWord → List UInt8) :
    ∃ blocks, Enumerates (NeedsRedigest log2 imageHeaderEnd u.states frees) blocks ∧
      (∃ updates, (∀ calls, u.states.length + (blockIter log2 frees).length < calls →
          (DigestsUpdatesIterator.new u.states frees log2 imageHeaderEnd).updates pr a frees log2
            imageHeaderEnd redigest calls = .ok updates) ∧
        updates.map fst = blocks) ∧
      ∃ ranges, (∀ calls, u.states.length + (blockIter log2 frees).length < calls →
          (UpdateAuthDigestsScriptIterator.new u.states frees imageHeaderEnd log2).entries pr calls =
            .ok ranges) ∧
        ranges.flatMap (dataBlocks (2 ^ log2)) = blocks := by
  obtain ⟨hsuffix, hsame, hhead⟩ : Skipped imageHeaderEnd u.states
      (skipToAuthTreeUpdateStateWithModifiedData imageHeaderEnd (2 ^ log2) u.states) :=
    skipToModified_spec u.ordered
  have hfits : Fits frees log2 imageHeaderEnd
      (DigestsUpdatesIterator.new u.states frees log2 imageHeaderEnd) (blockIter log2 frees) :=
    ⟨u.ordered.of_suffix hsuffix, hhead, fun s hs => hdigests s (hsuffix.subset hs), rfl,
      0, by simp⟩
  obtain ⟨updates, hupdates, henum⟩ := updates_spec redigest hlog2 hs hfrees pr hfits
  obtain ⟨ranges, hranges, hrenum⟩ :=
    entries_spec pr imageHeaderEnd u.ordered (frees_blockIter hlog2 hs hfrees)
  have hrenum := hrenum.congr (needed_iff hlog2 hs)
  have henum : Enumerates (NeedsRedigest log2 imageHeaderEnd u.states frees) (updates.map fst) := by
    refine henum.congr (fun b => ?_)
    rw [← needed_iff hlog2 hs, Needed, Needed, hsame]
    rfl
  have hlen := hsuffix.length_le
  refine ⟨updates.map fst, henum, ⟨updates, fun calls hcalls => hupdates calls ?_, rfl⟩, ranges,
    fun calls hcalls => hranges calls ?_, hrenum.unique henum⟩
  · exact lt_of_le_of_lt (Nat.add_le_add_right hlen _) hcalls
  · rwa [length_map]

def modifiedBlock : AllocationBlockUpdateState := ⟨.allocatedModified, .none⟩

def unmodifiedBlock : AllocationBlockUpdateState := ⟨.allocatedUnmodified, .none⟩

/-- One Data Block is modified in the image header only, the other one beyond it. -/
def headerAndData : AuthTreeDataBlocksUpdateStates 1 where
  states := [⟨0, none, [modifiedBlock, unmodifiedBlock], none⟩,
    ⟨2, none, [modifiedBlock, unmodifiedBlock], some [7]⟩]
  ordered := ⟨by decide, by decide, by decide, by decide⟩

theorem redigested_alike_headerAndData :
    ∃ blocks, Enumerates (NeedsRedigest 1 1 headerAndData.states [⟨0, 16⟩]) blocks ∧
      (∃ updates, (∀ calls, headerAndData.states.length + (blockIter 1 [⟨0, 16⟩]).length < calls →
          (DigestsUpdatesIterator.new headerAndData.states [⟨0, 16⟩] 1 1).updates .debug (oneWord 31)
            [⟨0, 16⟩] 1 1 (fun _ _ => [9]) calls = .ok updates) ∧
        updates.map fst = blocks) ∧
      ∃ ranges, (∀ calls, headerAndData.states.length + (blockIter 1 [⟨0, 16⟩]).length < calls →
          (UpdateAuthDigestsScriptIterator.new headerAndData.states [⟨0, 16⟩] 1 1).entries .debug calls =
            .ok ranges) ∧
        ranges.flatMap (dataBlocks (2 ^ 1)) = blocks :=
  redigested_alike .debug (by decide) headerAndData 1 (oneWord 31) [⟨0, 16⟩] (by decide)
    (allocated_oneWord_of_and (by decide)) (by decide) (fun _ _ => [9])

end CocoonFs.AuthDigestsScript
