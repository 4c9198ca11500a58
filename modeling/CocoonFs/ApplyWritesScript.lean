import CocoonFs.Extents
import CocoonFs.UpdateStatesIndex

namespace CocoonFs.ApplyWritesScript

open Checked Extents BlockRuns UpdateStates UpdateStatesIndex List Nat

/-- JournalApplyWritesScriptEntry -/
structure ApplyWritesScriptEntry where
  targetRange : BlockRange
  journalStagingCopyAllocationBlocksBegin : Nat
  deriving DecidableEq, Repr

/-- TransactionJournalApplyWritesScriptIterator, with the index kept separate. -/
structure ApplyWritesScriptIterator where
  updateStates : List AuthTreeDataBlockUpdateState
  mutableImageHeaderRegion : BlockRange
  dataLog2 : Nat
  ioLog2 : Nat

section

variable (pr : Profile) (it : ApplyWritesScriptIterator)

def ApplyWritesScriptIterator.inHeader (b : Nat) : Bool :=
  decide (b < it.mutableImageHeaderRegion.e) && decide (b ≥ it.mutableImageHeaderRegion.b)

/-- The end of the IO Block at some index. All IO Block alignment gaps should have
been filled. -/
def ApplyWritesScriptIterator.ioBlockEnd (i : AllocationBlockIndex) : Comp AllocationBlockIndex := do
  let e := i.advance (2 ^ it.ioLog2) it.dataLog2
  if e.index > it.updateStates.length then
    err .internal
  else do
    debugAssert pr (i.Le e)
    let contiguous ←
      isContiguousAlignedAllocationBlocksRegion pr it.updateStates it.dataLog2 i e it.ioLog2
    if contiguous = false then err .internal else pure e

/-- What's been written in place is skipped over, a contiguous journal staging copy gets
assigned to an IO or Data Block, whichever is larger. -/
def ApplyWritesScriptIterator.skipInPlace (i e : AllocationBlockIndex) : AllocationBlockIndex :=
  if it.ioLog2 ≥ it.dataLog2 then e else ⟨i.index + 1, 0⟩

/-- The next IO Block to be written. There can't be more iterations than Allocation
Blocks. -/
def ApplyWritesScriptIterator.skip : Nat → AllocationBlockIndex → Comp AllocationBlockIndex
  | 0, _ => err .internal
  | iterations + 1, i =>
    if i.index = it.updateStates.length then
      .ok i
    else do
      let e ← it.ioBlockEnd pr i
      let s ← index it.updateStates i.index
      match s.journalStagingCopyAllocationBlocksBegin with
      | none => err .internal
      | some copy =>
        if copy = s.targetAllocationBlocksBegin then
          ApplyWritesScriptIterator.skip iterations (it.skipInPlace i e)
        else do
          let b ← getAllocationBlockTarget it.updateStates i
          if it.inHeader b then
            pure i
          else do
            let modified ← anyModified it.updateStates it.dataLog2 (2 ^ it.ioLog2) i
            if modified then
              pure i
            else if it.ioLog2 ≥ it.dataLog2 then
              -- Unneeded update states should have been pruned.
              err .internal
            else
              ApplyWritesScriptIterator.skip iterations e

def ApplyWritesScriptIterator.headerOrModified (target : Nat) (i : AllocationBlockIndex) : Comp Bool :=
  if it.inHeader target then
    pure true
  else
    anyModified it.updateStates it.dataLog2 (2 ^ it.ioLog2) i

/-- A region is extended until there's a discontinuity in the target or the journal
staging copies, or an IO Block that's not to be written. -/
def ApplyWritesScriptIterator.extend :
    Nat → Nat → Nat → Nat → AllocationBlockIndex → Comp (Nat × AllocationBlockIndex)
  | 0, _, _, _, _ => err .internal
  | iterations + 1, lastTarget, lastCopy, region, i =>
    if i.index = it.updateStates.length then
      .ok (region, i)
    else do
      let target ← getAllocationBlockTarget it.updateStates i
      if lastTarget > target ∨ target - lastTarget ≠ 2 ^ it.ioLog2 then
        pure (region, i)
      else do
        match ← getAllocationBlockJournalStagingCopy it.updateStates i with
        | none => err .internal
        | some copy =>
          if lastCopy > copy ∨ copy - lastCopy ≠ 2 ^ it.ioLog2 then
            pure (region, i)
          else do
            let e ← it.ioBlockEnd pr i
            if copy = target then
              pure (region, it.skipInPlace i e)
            else do
              let modified ← it.headerOrModified target i
              if modified = false then
                if it.ioLog2 ≥ it.dataLog2 then err .internal else pure (region, e)
              else do
                let region ← checkedAdd region (2 ^ it.ioLog2)
                ApplyWritesScriptIterator.extend iterations target copy region e

def ApplyWritesScriptIterator.next (i : AllocationBlockIndex) :
    Comp (Option ApplyWritesScriptEntry × AllocationBlockIndex) := do
  let iterations := it.updateStates.length * 2 ^ it.dataLog2 + 1
  let i ← it.skip pr iterations i
  if i.index = it.updateStates.length then
    pure (none, i)
  else do
    let target ← getAllocationBlockTarget it.updateStates i
    if ¬2 ^ it.ioLog2 ∣ target then
      err .internal
    else
      match ← getAllocationBlockJournalStagingCopy it.updateStates i with
      | none => err .internal
      | some copy =>
        if ¬2 ^ it.ioLog2 ∣ copy then
          err .internal
        else do
          let (region, i) ← it.extend pr iterations target copy (2 ^ it.ioLog2)
            (i.advance (2 ^ it.ioLog2) it.dataLog2)
          let e ← checkedAdd target region
          pure (some ⟨⟨target, e⟩, copy⟩, i)

/-- The entries from some number of calls, less if there are no more. -/
def ApplyWritesScriptIterator.entries :
    Nat → AllocationBlockIndex → Comp (List ApplyWritesScriptEntry)
  | 0, _ => .ok []
  | calls + 1, i => do
    match ← it.next pr i with
    | (none, _) => pure []
    | (some entry, i) => do
      let entries ← ApplyWritesScriptIterator.entries calls i
      pure (entry :: entries)

end

/-- A position's staging copy, with the areas assigned to the IO or Data Blocks,
whichever are larger. -/
def copyAt (areaLog2 : Nat) (area : Nat → Nat) (p : Nat) : Nat :=
  area (p / 2 ^ areaLog2) + p % 2 ^ areaLog2

section Copies

variable {areaLog2 : Nat} {area : Nat → Nat} {k t j : Nat}

theorem div_mod_add (hk : k ≤ areaLog2) (ht : 2 ^ k ∣ t) (hj : j < 2 ^ k) :
    (t + j) / 2 ^ areaLog2 = t / 2 ^ areaLog2 ∧
      (t + j) % 2 ^ areaLog2 = t % 2 ^ areaLog2 + j ∧ t % 2 ^ areaLog2 + 2 ^ k ≤ 2 ^ areaLog2 := by
  have hM := Nat.two_pow_pos areaLog2
  have hdvd : 2 ^ k ∣ 2 ^ areaLog2 := pow_dvd_pow 2 hk
  have hfit := add_le_of_lt_of_dvd ((dvd_mod_iff hdvd).mpr ht) hdvd (mod_lt t hM)
  have hlt : t % 2 ^ areaLog2 + j < 2 ^ areaLog2 := by omega
  have hdiv := div_add_mod t (2 ^ areaLog2)
  have heq : t + j = 2 ^ areaLog2 * (t / 2 ^ areaLog2) + (t % 2 ^ areaLog2 + j) := by omega
  refine ⟨?_, ?_, hfit⟩
  · rw [heq, mul_add_div hM, div_eq_of_lt hlt, add_zero]
  · rw [heq, mul_add_mod, mod_eq_of_lt hlt]

variable (area) in
theorem copyAt_add (hk : k ≤ areaLog2) (ht : 2 ^ k ∣ t) (hj : j < 2 ^ k) :
    copyAt areaLog2 area (t + j) = copyAt areaLog2 area t + j := by
  obtain ⟨hdiv, hmod, -⟩ := div_mod_add hk ht hj
  rw [copyAt, copyAt, hdiv, hmod, add_assoc]

variable (area) in
theorem copyAt_eq_self (hk : k ≤ areaLog2) (ht : 2 ^ k ∣ t) (hj : j < 2 ^ k) :
    copyAt areaLog2 area (t + j) = t + j ↔ copyAt areaLog2 area t = t := by
  rw [copyAt_add area hk ht hj, Nat.add_right_cancel_iff]

theorem copyAt_aligned {k t : Nat} (hk : k ≤ areaLog2) (ht : 2 ^ k ∣ t)
    (harea : 2 ^ areaLog2 ∣ area (t / 2 ^ areaLog2)) : 2 ^ k ∣ copyAt areaLog2 area t := by
  have hdvd : 2 ^ k ∣ 2 ^ areaLog2 := pow_dvd_pow 2 hk
  exact Nat.dvd_add (hdvd.trans harea) ((dvd_mod_iff hdvd).mpr ht)

end Copies

structure Ready (it : ApplyWritesScriptIterator) (area : Nat → Nat) : Prop where
  ordered : Ordered it.dataLog2 it.updateStates
  io_le : it.ioLog2 ≤ 6
  filled : Filled it.ioLog2 it.dataLog2 it.updateStates
  copies : ∀ s ∈ it.updateStates,
    2 ^ max it.ioLog2 it.dataLog2 ∣
        area (s.targetAllocationBlocksBegin / 2 ^ max it.ioLog2 it.dataLog2) ∧
      area (s.targetAllocationBlocksBegin / 2 ^ max it.ioLog2 it.dataLog2) +
        2 ^ max it.ioLog2 it.dataLog2 ≤ 2 ^ 57 ∧
      s.journalStagingCopyAllocationBlocksBegin =
        some (copyAt (max it.ioLog2 it.dataLog2) area s.targetAllocationBlocksBegin)

def Wanted (it : ApplyWritesScriptIterator) (area : Nat → Nat) (b : Nat) : Prop :=
  2 ^ it.ioLog2 ∣ b ∧ Tracked it.dataLog2 it.updateStates b ∧
    copyAt (max it.ioLog2 it.dataLog2) area b ≠ b ∧
    (it.inHeader b = true ∨ ∃ p, b ≤ p ∧ p < b + 2 ^ it.ioLog2 ∧ ModifiedAt it.updateStates p)

def Pruned (it : ApplyWritesScriptIterator) (area : Nat → Nat) : Prop :=
  it.dataLog2 ≤ it.ioLog2 → ∀ b, 2 ^ it.ioLog2 ∣ b → Tracked it.dataLog2 it.updateStates b →
    copyAt (max it.ioLog2 it.dataLog2) area b ≠ b → Wanted it area b

def flat (it : ApplyWritesScriptIterator) (i : AllocationBlockIndex) : Nat :=
  i.index * 2 ^ it.dataLog2 + i.offset

section Iterator

variable {it : ApplyWritesScriptIterator} {area : Nat → Nat} (h : Ready it area)
  {i : AllocationBlockIndex} (hi : At it.ioLog2 it.dataLog2 it.updateStates i)
include h hi

omit h in
theorem exists_state (hend : i.index ≠ it.updateStates.length) :
    ∃ s, it.updateStates[i.index]? = some s :=
  ⟨_, getElem?_eq_getElem (Nat.lt_of_le_of_ne hi.index_le hend)⟩

omit h in
theorem flat_le : flat it i ≤ it.updateStates.length * 2 ^ it.dataLog2 := by
  have hlt := hi.offset_lt
  rw [flat]
  rcases lt_or_eq_of_le hi.index_le with hidx | hidx
  · have hmul : (i.index + 1) * 2 ^ it.dataLog2 ≤ it.updateStates.length * 2 ^ it.dataLog2 :=
      Nat.mul_le_mul_right _ hidx
    rw [succ_mul] at hmul
    omega
  · rw [hidx, hi.offset_at_end hidx, add_zero]

variable {s : AuthTreeDataBlockUpdateState} (hs : it.updateStates[i.index]? = some s)
include hs

theorem ioBlock : IoBlock it.ioLog2 it.dataLog2 it.updateStates i
    (i.advance (2 ^ it.ioLog2) it.dataLog2) (s.targetAllocationBlocksBegin + i.offset) :=
  ioBlock_spec h.ordered hi hs (lt_of_le_of_lt h.io_le (by decide))

theorem ioBlockEnd_ok (pr : Profile) :
    it.ioBlockEnd pr i = .ok (i.advance (2 ^ it.ioLog2) it.dataLog2) := by
  have hb := ioBlock h hi hs
  rw [ApplyWritesScriptIterator.ioBlockEnd, if_neg (not_lt.mpr hb.next_at.index_le), debugAssert_ok pr hb.le, ok_bind,
    hb.contiguous pr, ok_bind, if_neg (by decide)]
  rfl

theorem target_ok : getAllocationBlockTarget it.updateStates i =
    .ok (s.targetAllocationBlocksBegin + i.offset) := by
  have himage := h.ordered.in_image s (mem_of_getElem? hs)
  have hlt := hi.offset_lt
  rw [getAllocationBlockTarget, index_ok hs, ok_bind, checkedAdd_ok (by omega)]

theorem copy_ok : getAllocationBlockJournalStagingCopy it.updateStates i =
    .ok (some (copyAt (max it.ioLog2 it.dataLog2) area (s.targetAllocationBlocksBegin + i.offset))) := by
  have hmem := mem_of_getElem? hs
  obtain ⟨-, hbound, hcopy⟩ := h.copies s hmem
  have hadd := copyAt_add area (le_max_right it.ioLog2 it.dataLog2) (h.ordered.aligned s hmem)
    hi.offset_lt
  obtain ⟨-, -, hfit⟩ := div_mod_add (le_max_right it.ioLog2 it.dataLog2) (h.ordered.aligned s hmem)
    hi.offset_lt
  have hlt := hi.offset_lt
  rw [getAllocationBlockJournalStagingCopy, index_ok hs, ok_bind, hcopy]
  dsimp only
  rw [checkedAdd_ok (by rw [copyAt]; omega), ok_bind, hadd]
  rfl

theorem modified_ok : ∃ m, anyModified it.updateStates it.dataLog2 (2 ^ it.ioLog2) i = .ok m ∧
    (m = true ↔ ∃ p, s.targetAllocationBlocksBegin + i.offset ≤ p ∧
      p < s.targetAllocationBlocksBegin + i.offset + 2 ^ it.ioLog2 ∧ ModifiedAt it.updateStates p) :=
  anyModified_spec h.ordered _ _ hi.offset_lt (ioBlock h hi hs).blocks

theorem headerOrModified_ok :
    ∃ m, it.headerOrModified (s.targetAllocationBlocksBegin + i.offset) i = .ok m ∧
      (m = true ↔ it.inHeader (s.targetAllocationBlocksBegin + i.offset) = true ∨
        ∃ p, s.targetAllocationBlocksBegin + i.offset ≤ p ∧
          p < s.targetAllocationBlocksBegin + i.offset + 2 ^ it.ioLog2 ∧ ModifiedAt it.updateStates p) := by
  rw [ApplyWritesScriptIterator.headerOrModified]
  by_cases hheader : it.inHeader (s.targetAllocationBlocksBegin + i.offset) = true
  · rw [if_pos hheader]
    exact ⟨true, rfl, iff_of_true rfl (Or.inl hheader)⟩
  · rw [if_neg hheader]
    obtain ⟨m, hm, hiff⟩ := modified_ok h hi hs
    exact ⟨m, hm, hiff.trans (or_iff_right hheader).symm⟩

omit h in
theorem tracked_block : Tracked it.dataLog2 it.updateStates (s.targetAllocationBlocksBegin + i.offset) :=
  ⟨s, mem_of_getElem? hs, Nat.le_add_right _ _, Nat.add_lt_add_left hi.offset_lt _⟩

theorem from_iff_of_wanted {x : Nat} (hx : Wanted it area x) : From it.updateStates i x ↔
    x = s.targetAllocationBlocksBegin + i.offset ∨
      From it.updateStates (i.advance (2 ^ it.ioLog2) it.dataLog2) x := by
  rw [← (ioBlock h hi hs).step x hx.1 hx.2.1]
  constructor
  · rintro ⟨t, ht, hle⟩
    rwa [Option.some.inj (hs.symm.trans ht)]
  · exact fun hle => ⟨s, hs, hle⟩

theorem skipInPlace_spec (hplace : copyAt (max it.ioLog2 it.dataLog2) area
      s.targetAllocationBlocksBegin = s.targetAllocationBlocksBegin) :
    At it.ioLog2 it.dataLog2 it.updateStates
        (it.skipInPlace i (i.advance (2 ^ it.ioLog2) it.dataLog2)) ∧
      flat it i < flat it (it.skipInPlace i (i.advance (2 ^ it.ioLog2) it.dataLog2)) ∧
      ∀ x, Wanted it area x → (From it.updateStates i x ↔
        From it.updateStates (it.skipInPlace i (i.advance (2 ^ it.ioLog2) it.dataLog2)) x) := by
  have hb := ioBlock h hi hs
  have hmem := mem_of_getElem? hs
  have hal := h.ordered.aligned s hmem
  rw [ApplyWritesScriptIterator.skipInPlace]
  by_cases hio : it.ioLog2 ≥ it.dataLog2
  · rw [if_pos hio]
    refine ⟨hb.next_at, hb.lt, fun x hx => ?_⟩
    rw [from_iff_of_wanted h hi hs hx]
    refine or_iff_right ?_
    rintro rfl
    exact hx.2.2.1 ((copyAt_eq_self area (le_max_right _ _) hal hi.offset_lt).mpr hplace)
  · rw [if_neg hio]
    have hidx := (List.getElem?_eq_some_iff.mp hs).1
    have hlt := hi.offset_lt
    refine ⟨⟨hidx, Nat.two_pow_pos _, Nat.dvd_zero _, fun _ => rfl, ?_⟩, ?_, fun x hx => ⟨?_, ?_⟩⟩
    · exact filled_of_lt (Nat.lt_of_not_le hio)
        (fun t ht => h.ordered.aligned t (mem_of_mem_drop ht))
    · rw [flat, flat]
      rw [succ_mul]
      omega
    · rintro ⟨t, ht, hle⟩
      cases hs.symm.trans ht
      obtain ⟨-, ⟨u, hu, hux, hxu⟩, hne, -⟩ := hx
      obtain ⟨k, hk⟩ := mem_iff_getElem?.mp hu
      refine from_of_le h.ordered hk hux ?_
      -- Anything in the Data Block itself is in place as well.
      by_contra hlt
      have hus := h.ordered.le_of_le hk hs (by omega)
      refine hne ?_
      rw [show x = s.targetAllocationBlocksBegin + (x - s.targetAllocationBlocksBegin) by omega]
      exact (copyAt_eq_self area (le_max_right _ _) hal (by omega)).mpr hplace
    · rintro ⟨t, ht, hle⟩
      have hst := add_le_of_lt_of_dvd hal (h.ordered.aligned t (mem_of_getElem? ht))
        (h.ordered.lt_of_lt hs ht (lt_succ_self _))
      refine ⟨s, hs, ?_⟩
      omega

omit hs in
theorem skip_spec (pr : Profile) (hp : Pruned it area) (iterations : Nat)
    (hiter : it.updateStates.length * 2 ^ it.dataLog2 < flat it i + iterations) :
    ∃ i', it.skip pr iterations i = .ok i' ∧ At it.ioLog2 it.dataLog2 it.updateStates i' ∧
      flat it i ≤ flat it i' ∧
      (∀ x, Wanted it area x → (From it.updateStates i x ↔ From it.updateStates i' x)) ∧
      ∀ s, it.updateStates[i'.index]? = some s →
        Wanted it area (s.targetAllocationBlocksBegin + i'.offset) := by
  induction iterations generalizing i with
  | zero =>
    have hle := flat_le hi
    omega
  | succ iterations ih =>
    rw [ApplyWritesScriptIterator.skip]
    by_cases hend : i.index = it.updateStates.length
    · rw [if_pos hend]
      refine ⟨i, rfl, hi, le_refl _, fun x _ => Iff.rfl, fun s hs => ?_⟩
      rw [hend, getElem?_eq_none (le_refl _)] at hs
      cases hs
    · obtain ⟨s, hs⟩ := exists_state hi hend
      obtain ⟨-, -, hcopy⟩ := h.copies s (mem_of_getElem? hs)
      have hb := ioBlock h hi hs
      have hal := h.ordered.aligned s (mem_of_getElem? hs)
      rw [if_neg hend, ioBlockEnd_ok h hi hs pr, ok_bind, index_ok hs, ok_bind, hcopy]
      dsimp only
      by_cases hplace : copyAt (max it.ioLog2 it.dataLog2) area s.targetAllocationBlocksBegin =
          s.targetAllocationBlocksBegin
      · obtain ⟨hat, hlt, hsame⟩ := skipInPlace_spec h hi hs hplace
        obtain ⟨i', hskip, hat', hle, hsame', hwanted⟩ := ih hat (by omega)
        rw [if_pos hplace]
        exact ⟨i', hskip, hat', by omega, fun x hx => (hsame x hx).trans (hsame' x hx), hwanted⟩
      · have hnot := (copyAt_eq_self area (le_max_right it.ioLog2 it.dataLog2) hal hi.offset_lt).not.mpr
          hplace
        have htracked := tracked_block hi hs
        have hstop (hw : Wanted it area (s.targetAllocationBlocksBegin + i.offset)) :
            ∃ i', (.ok i : Comp AllocationBlockIndex) = .ok i' ∧
              At it.ioLog2 it.dataLog2 it.updateStates i' ∧ flat it i ≤ flat it i' ∧
              (∀ x, Wanted it area x → (From it.updateStates i x ↔ From it.updateStates i' x)) ∧
              ∀ s, it.updateStates[i'.index]? = some s →
                Wanted it area (s.targetAllocationBlocksBegin + i'.offset) := by
          refine ⟨i, rfl, hi, le_refl _, fun x _ => Iff.rfl, fun t ht => ?_⟩
          rwa [← Option.some.inj (hs.symm.trans ht)]
        rw [if_neg hplace, target_ok h hi hs, ok_bind]
        by_cases hheader : it.inHeader (s.targetAllocationBlocksBegin + i.offset) = true
        · rw [if_pos hheader]
          exact hstop ⟨hb.aligned, htracked, hnot, Or.inl hheader⟩
        · obtain ⟨m, hm, hmiff⟩ := modified_ok h hi hs
          rw [if_neg hheader, hm, ok_bind]
          by_cases hmod : m = true
          · rw [if_pos hmod]
            exact hstop ⟨hb.aligned, htracked, hnot, Or.inr (hmiff.mp hmod)⟩
          · have hunwanted : ¬Wanted it area (s.targetAllocationBlocksBegin + i.offset) :=
              fun hw => hw.2.2.2.elim hheader (fun hp => hmod (hmiff.mpr hp))
            rw [if_neg hmod]
            by_cases hio : it.ioLog2 ≥ it.dataLog2
            · exact absurd (hp hio _ hb.aligned htracked hnot) hunwanted
            · rw [if_neg hio]
              have hlt : flat it i < flat it (i.advance (2 ^ it.ioLog2) it.dataLog2) := hb.lt
              obtain ⟨i', hskip, hat', hle, hsame', hwanted⟩ := ih hb.next_at (by omega)
              refine ⟨i', hskip, hat', by omega, fun x hx => ?_, hwanted⟩
              rw [← hsame' x hx, from_iff_of_wanted h hi hs hx]
              refine or_iff_right ?_
              rintro rfl
              exact hunwanted hx

omit hi hs in
theorem wanted_bound {x : Nat} (hx : Wanted it area x) : x + 2 ^ it.ioLog2 ≤ 2 ^ 58 := by
  obtain ⟨-, ⟨s, hs, -, hlt⟩, -⟩ := hx
  have himage := h.ordered.in_image s hs
  have hio : 2 ^ it.ioLog2 ≤ 64 := Nat.pow_le_pow_right (by decide) h.io_le
  omega

/-- The blocks of a run with its staging copies one right after the other. -/
def Copied (it : ApplyWritesScriptIterator) (area : Nat → Nat) (r : Run) : Prop :=
  ∀ x ∈ r.blocks (2 ^ it.ioLog2), copyAt (max it.ioLog2 it.dataLog2) area x =
    copyAt (max it.ioLog2 it.dataLog2) area r.b + (x - r.b)

def Pending (it : ApplyWritesScriptIterator) (area : Nat → Nat) (i : AllocationBlockIndex) (x : Nat) :
    Prop :=
  From it.updateStates i x ∧ Wanted it area x

/-- As many IO Blocks as the result says are in the region, the ones it has gained wanted, with
the rest of them left behind it. -/
def Extends (it : ApplyWritesScriptIterator) (area : Nat → Nat) (i : AllocationBlockIndex) (r : Run)
    (result : Comp (Nat × AllocationBlockIndex)) : Prop :=
  ∃ count i', result = .ok (count * 2 ^ it.ioLog2, i') ∧
    At it.ioLog2 it.dataLog2 it.updateStates i' ∧ flat it i ≤ flat it i' ∧ r.count ≤ count ∧
    Run.stop (2 ^ it.ioLog2) ⟨r.b, count⟩ ≤ 2 ^ 58 ∧ Copied it area ⟨r.b, count⟩ ∧
    ∀ L, Enumerates (Pending it area i') L →
      ∃ extra, Run.blocks (2 ^ it.ioLog2) ⟨r.b, count⟩ = r.blocks (2 ^ it.ioLog2) ++ extra ∧
        Enumerates (Pending it area i) (extra ++ L)

omit hs in
/-- A region is extended by wanted IO Blocks with a contiguous staging copy, and the rest is left
for later. -/
theorem extend_spec (pr : Profile) (hp : Pruned it area) (iterations : Nat)
    (hiter : it.updateStates.length * 2 ^ it.dataLog2 < flat it i + iterations) (r : Run)
    (hcopied : Copied it area r) {last : Nat} (hlast : last ∈ r.blocks (2 ^ it.ioLog2))
    (hstop : r.stop (2 ^ it.ioLog2) = last + 2 ^ it.ioLog2) (hwanted : Wanted it area last)
    (hafter : ∀ x, From it.updateStates i x → last + 2 ^ it.ioLog2 ≤ x) :
    Extends it area i r (it.extend pr iterations last
      (copyAt (max it.ioLog2 it.dataLog2) area last) (r.count * 2 ^ it.ioLog2) i) := by
  have hI := Nat.two_pow_pos it.ioLog2
  induction iterations generalizing i r last with
  | zero =>
    have hle := flat_le hi
    omega
  | succ iterations ih =>
    have hbound := wanted_bound h hwanted
    have hdone (i' : AllocationBlockIndex) (hat : At it.ioLog2 it.dataLog2 it.updateStates i')
        (hle : flat it i ≤ flat it i')
        (hsame : ∀ x, Wanted it area x → (From it.updateStates i x ↔ From it.updateStates i' x)) :
        Extends it area i r (.ok (r.count * 2 ^ it.ioLog2, i')) := by
      refine ⟨r.count, i', rfl, hat, hle, le_refl _, hstop ▸ hbound, hcopied, fun L hL => ?_⟩
      refine ⟨[], (List.append_nil _).symm, hL.congr (fun x => ?_)⟩
      exact and_congr_left (fun hx => (hsame x hx).symm)
    rw [ApplyWritesScriptIterator.extend]
    by_cases hend : i.index = it.updateStates.length
    · rw [if_pos hend]
      exact hdone i hi (le_refl _) (fun x _ => Iff.rfl)
    · obtain ⟨s, hs⟩ := exists_state hi hend
      have hb := ioBlock h hi hs
      have hge := hafter _ ⟨s, hs, le_refl _⟩
      rw [if_neg hend, target_ok h hi hs, ok_bind]
      by_cases hgap : last > s.targetAllocationBlocksBegin + i.offset ∨
          s.targetAllocationBlocksBegin + i.offset - last ≠ 2 ^ it.ioLog2
      · rw [if_pos hgap]
        exact hdone i hi (le_refl _) (fun x _ => Iff.rfl)
      · have hcur : s.targetAllocationBlocksBegin + i.offset = last + 2 ^ it.ioLog2 := by omega
        rw [if_neg hgap, copy_ok h hi hs, ok_bind]
        dsimp only
        by_cases hcgap : copyAt (max it.ioLog2 it.dataLog2) area last >
              copyAt (max it.ioLog2 it.dataLog2) area (s.targetAllocationBlocksBegin + i.offset) ∨
            copyAt (max it.ioLog2 it.dataLog2) area (s.targetAllocationBlocksBegin + i.offset) -
              copyAt (max it.ioLog2 it.dataLog2) area last ≠ 2 ^ it.ioLog2
        · rw [if_pos hcgap]
          exact hdone i hi (le_refl _) (fun x _ => Iff.rfl)
        · have hccur : copyAt (max it.ioLog2 it.dataLog2) area (s.targetAllocationBlocksBegin + i.offset) =
              copyAt (max it.ioLog2 it.dataLog2) area last + 2 ^ it.ioLog2 := by omega
          -- The staging copies' offset from their targets doesn't change within a region.
          have hnot : copyAt (max it.ioLog2 it.dataLog2) area (s.targetAllocationBlocksBegin + i.offset) ≠
              s.targetAllocationBlocksBegin + i.offset := by
            have hne := hwanted.2.2.1
            omega
          obtain ⟨m, hm, hmiff⟩ := headerOrModified_ok h hi hs
          have htracked := tracked_block hi hs
          have hlt : flat it i < flat it (i.advance (2 ^ it.ioLog2) it.dataLog2) := hb.lt
          rw [if_neg hcgap, ioBlockEnd_ok h hi hs pr, ok_bind, if_neg hnot, hm, ok_bind]
          by_cases hmod : m = true
          · have hw : Wanted it area (s.targetAllocationBlocksBegin + i.offset) :=
              ⟨hb.aligned, htracked, hnot, hmiff.mp hmod⟩
            have hmul : (r.count + 1) * 2 ^ it.ioLog2 = r.count * 2 ^ it.ioLog2 + 2 ^ it.ioLog2 :=
              succ_mul _ _
            have hsum : r.b + r.count * 2 ^ it.ioLog2 = last + 2 ^ it.ioLog2 := hstop
            have hmem := Run.blocks_succ (2 ^ it.ioLog2) r
            rw [hstop, ← hcur] at hmem
            have hcopied' : Copied it area ⟨r.b, r.count + 1⟩ := by
              intro x hx
              rw [hmem] at hx
              rcases mem_append.mp hx with hx | hx
              · exact hcopied x hx
              · rw [mem_singleton.mp hx, hccur, hcopied last hlast, hcur]
                have hle := (Run.block_within hlast).1
                dsimp only
                omega
            rw [hmod, if_neg (by decide), checkedAdd_ok (by omega), ok_bind, ← hmul]
            obtain ⟨count, i', hext, hat', hle, hcount, hb', hc', hL'⟩ :=
              ih hb.next_at (by omega) ⟨r.b, r.count + 1⟩ hcopied'
                (by rw [hmem]; exact mem_append_right _ (mem_singleton_self _))
                (by rw [Run.stop]; dsimp only; omega) hw hb.after
            refine ⟨count, i', hext, hat', by omega, le_of_succ_le hcount, hb', hc', fun L hL => ?_⟩
            obtain ⟨extra, hblocks, henum⟩ := hL' L hL
            refine ⟨(s.targetAllocationBlocksBegin + i.offset) :: extra, ?_, ?_⟩
            · rw [hblocks, hmem, append_assoc, singleton_append]
            · refine henum.cons ?_ (fun x => ⟨fun hx => ?_, ?_⟩)
              · intro x hx
                have hge := hb.after x hx.1
                omega
              · exact ((from_iff_of_wanted h hi hs hx.2).mp hx.1).imp_right (fun hf => ⟨hf, hx.2⟩)
              · rintro (rfl | hx)
                · exact ⟨⟨s, hs, le_refl _⟩, hw⟩
                · exact ⟨(from_iff_of_wanted h hi hs hx.2).mpr (Or.inr hx.1), hx.2⟩
          · have hunwanted : ¬Wanted it area (s.targetAllocationBlocksBegin + i.offset) :=
              fun hw => hmod (hmiff.mpr hw.2.2.2)
            rw [if_pos (Bool.eq_false_iff.mpr hmod)]
            by_cases hio : it.ioLog2 ≥ it.dataLog2
            · exact absurd (hp hio _ hb.aligned htracked hnot) hunwanted
            · rw [if_neg hio]
              refine hdone _ hb.next_at hlt.le (fun x hx => ?_)
              rw [from_iff_of_wanted h hi hs hx]
              refine or_iff_right ?_
              rintro rfl
              exact hunwanted hx

theorem copy_aligned : 2 ^ it.ioLog2 ∣
    copyAt (max it.ioLog2 it.dataLog2) area (s.targetAllocationBlocksBegin + i.offset) := by
  have hmem := mem_of_getElem? hs
  have hal := (ioBlock h hi hs).aligned
  rw [copyAt_add area (le_max_right it.ioLog2 it.dataLog2) (h.ordered.aligned s hmem) hi.offset_lt]
  exact Nat.dvd_add (copyAt_aligned (le_max_left _ _) ((Nat.dvd_add_left hi.offset_aligned).mp hal)
    (h.copies s hmem).1) hi.offset_aligned

def entry (it : ApplyWritesScriptIterator) (area : Nat → Nat) (r : Run) : ApplyWritesScriptEntry :=
  ⟨⟨r.b, r.stop (2 ^ it.ioLog2)⟩, copyAt (max it.ioLog2 it.dataLog2) area r.b⟩

omit hs in
theorem next_spec (pr : Profile) (hp : Pruned it area) :
    (∃ i', it.next pr i = .ok (none, i') ∧ ∀ x, ¬Pending it area i x) ∨
      ∃ (r : Run) (i' : AllocationBlockIndex), it.next pr i = .ok (some (entry it area r), i') ∧
        At it.ioLog2 it.dataLog2 it.updateStates i' ∧ flat it i < flat it i' ∧ 0 < r.count ∧
        Copied it area r ∧
        ∀ L, Enumerates (Pending it area i') L →
          Enumerates (Pending it area i) (r.blocks (2 ^ it.ioLog2) ++ L) := by
  obtain ⟨i₁, hskip, hat, hle, hsame, hwanted⟩ := skip_spec h hi pr hp
    (it.updateStates.length * 2 ^ it.dataLog2 + 1) (by omega)
  have hpending (x : Nat) : Pending it area i₁ x ↔ Pending it area i x :=
    and_congr_left (fun hx => (hsame x hx).symm)
  rw [ApplyWritesScriptIterator.next, hskip, ok_bind]
  by_cases hend : i₁.index = it.updateStates.length
  · left
    rw [if_pos hend]
    refine ⟨i₁, rfl, fun x hx => ?_⟩
    obtain ⟨⟨s, hs, -⟩, -⟩ := (hpending x).mpr hx
    rw [hend, getElem?_eq_none (le_refl _)] at hs
    cases hs
  · right
    obtain ⟨s, hs⟩ := exists_state hat hend
    have hw := hwanted s hs
    have hb := ioBlock h hat hs
    have hlt : flat it i₁ < flat it (i₁.advance (2 ^ it.ioLog2) it.dataLog2) := hb.lt
    have hone : Run.stop (2 ^ it.ioLog2) ⟨s.targetAllocationBlocksBegin + i₁.offset, 1⟩ =
        s.targetAllocationBlocksBegin + i₁.offset + 2 ^ it.ioLog2 := by simp [Run.stop]
    have hblocks := Run.blocks_one (2 ^ it.ioLog2) (s.targetAllocationBlocksBegin + i₁.offset)
    obtain ⟨count, i', hext, hat', hle', hcount, hbound, hcopied, hL⟩ :=
      extend_spec h hb.next_at pr hp (it.updateStates.length * 2 ^ it.dataLog2 + 1) (by omega)
        ⟨s.targetAllocationBlocksBegin + i₁.offset, 1⟩
        (by intro x hx; rw [hblocks] at hx; rw [mem_singleton.mp hx]; simp)
        (by rw [hblocks]; exact mem_singleton_self _) hone hw hb.after
    refine ⟨⟨s.targetAllocationBlocksBegin + i₁.offset, count⟩, i', ?_, hat', by omega, hcount, hcopied,
      fun L henum => ?_⟩
    · rw [one_mul] at hext
      rw [if_neg hend, target_ok h hat hs, ok_bind, if_neg (not_not.mpr hb.aligned), copy_ok h hat hs,
        ok_bind]
      dsimp only
      rw [if_neg (not_not.mpr (copy_aligned h hat hs)), hext, ok_bind]
      rw [checkedAdd_ok (lt_of_le_of_lt hbound (by decide))]
      rfl
    · obtain ⟨extra, hextra, henum⟩ := hL L henum
      rw [hextra, hblocks, singleton_append, List.cons_append]
      refine (henum.cons ?_ (fun x => ⟨fun hx => ?_, ?_⟩)).congr hpending
      · intro x hx
        have hge := hb.after x hx.1
        have hI := Nat.two_pow_pos it.ioLog2
        omega
      · exact ((from_iff_of_wanted h hat hs hx.2).mp hx.1).imp_right (fun hf => ⟨hf, hx.2⟩)
      · rintro (rfl | hx)
        · exact ⟨⟨s, hs, le_refl _⟩, hw⟩
        · exact ⟨(from_iff_of_wanted h hat hs hx.2).mpr (Or.inr hx.1), hx.2⟩

omit hs in
theorem entries_spec (pr : Profile) (hp : Pruned it area) :
    ∃ rs : List Run, (∀ calls, it.updateStates.length * 2 ^ it.dataLog2 < flat it i + calls →
        it.entries pr calls i = .ok (rs.map (entry it area))) ∧
      (∀ r ∈ rs, 0 < r.count ∧ Copied it area r) ∧
      Enumerates (Pending it area i) (rs.flatMap (Run.blocks (2 ^ it.ioLog2))) := by
  induction hlen : it.updateStates.length * 2 ^ it.dataLog2 - flat it i using Nat.strong_induction_on
    generalizing i with
  | h len ih =>
    have hle := flat_le hi
    obtain ⟨i', hnext, hnone⟩ | ⟨r, i', hnext, hat, hlt, hcount, hcopied, hL⟩ := next_spec h hi pr hp
    · refine ⟨[], fun calls hcalls => ?_, by simp, enumerates_nil hnone⟩
      obtain ⟨calls, rfl⟩ : ∃ c, calls = c + 1 := ⟨calls - 1, by omega⟩
      rw [ApplyWritesScriptIterator.entries, hnext, ok_bind]
      rfl
    · have hle' := flat_le hat
      obtain ⟨rs, hrs, hall, henum⟩ := ih _ (by omega) hat rfl
      refine ⟨r :: rs, fun calls hcalls => ?_, fun q hq => ?_, ?_⟩
      · obtain ⟨calls, rfl⟩ : ∃ c, calls = c + 1 := ⟨calls - 1, by omega⟩
        rw [ApplyWritesScriptIterator.entries, hnext, ok_bind]
        dsimp only
        rw [hrs calls (by omega), ok_bind]
        rfl
      · rcases mem_cons.mp hq with rfl | hq
        · exact ⟨hcount, hcopied⟩
        · exact hall q hq
      · rw [flatMap_cons]
        exact hL _ henum

end Iterator

/-- The journal staging copy of an Allocation Block there's an update state for. -/
def journalStagingCopyOf (it : ApplyWritesScriptIterator) (p : Nat) : Option Nat :=
  (it.updateStates.find? (fun s => decide (s.targetAllocationBlocksBegin ≤ p) &&
      decide (p < s.targetAllocationBlocksBegin + 2 ^ it.dataLog2))).bind (fun s =>
    s.journalStagingCopyAllocationBlocksBegin.map (· + (p - s.targetAllocationBlocksBegin)))

/-- The IO Blocks whose staging copy differs from their target, with modified data or in the
mutable image header. -/
def ToBeWritten (it : ApplyWritesScriptIterator) (b : Nat) : Prop :=
  ∃ copy, journalStagingCopyOf it b = some copy ∧ copy ≠ b ∧
    ((∃ p, b ≤ p ∧ p < b + 2 ^ it.ioLog2 ∧ ModifiedAt it.updateStates p) ∨
      ∃ p, b ≤ p ∧ p < b + 2 ^ it.ioLog2 ∧
        it.mutableImageHeaderRegion.b ≤ p ∧ p < it.mutableImageHeaderRegion.e)

/-- The entries are for exactly the IO Blocks to be written, each with its own staging copy. -/
structure Applies (it : ApplyWritesScriptIterator) (entries : List ApplyWritesScriptEntry) : Prop where
  aligned : ∀ e ∈ entries, 2 ^ it.ioLog2 ∣ e.targetRange.b ∧ 2 ^ it.ioLog2 ∣ e.targetRange.e
  ascending : entries.Pairwise (fun e f => e.targetRange.e ≤ f.targetRange.b)
  contained_iff : ∀ b, 2 ^ it.ioLog2 ∣ b →
    ((∃ e ∈ entries, e.targetRange.b ≤ b ∧ b + 2 ^ it.ioLog2 ≤ e.targetRange.e) ↔ ToBeWritten it b)
  copies : ∀ e ∈ entries, ∀ b, 2 ^ it.ioLog2 ∣ b → e.targetRange.b ≤ b →
    b + 2 ^ it.ioLog2 ≤ e.targetRange.e →
    journalStagingCopyOf it b =
      some (e.journalStagingCopyAllocationBlocksBegin + (b - e.targetRange.b))

section Claims

variable {it : ApplyWritesScriptIterator} {area : Nat → Nat} (h : Ready it area)
include h

theorem journalStagingCopyOf_eq {p copy : Nat} : journalStagingCopyOf it p = some copy ↔
    Tracked it.dataLog2 it.updateStates p ∧ copy = copyAt (max it.ioLog2 it.dataLog2) area p := by
  have hcopy {s : AuthTreeDataBlockUpdateState} (hs : s ∈ it.updateStates)
      (hle : s.targetAllocationBlocksBegin ≤ p)
      (hlt : p < s.targetAllocationBlocksBegin + 2 ^ it.dataLog2) :
      s.journalStagingCopyAllocationBlocksBegin.map (· + (p - s.targetAllocationBlocksBegin)) =
        some (copyAt (max it.ioLog2 it.dataLog2) area p) := by
    rw [(h.copies s hs).2.2, Option.map_some, ← copyAt_add area (le_max_right _ _)
      (h.ordered.aligned s hs) (by omega), Nat.add_sub_cancel' hle]
  rw [journalStagingCopyOf, Option.bind_eq_some_iff]
  constructor
  · rintro ⟨s, hfind, hs⟩
    have hmem := mem_of_find?_eq_some hfind
    have hin := find?_some hfind
    rw [Bool.and_eq_true, decide_eq_true_eq, decide_eq_true_eq] at hin
    rw [hcopy hmem hin.1 hin.2] at hs
    exact ⟨⟨s, hmem, hin⟩, (Option.some.inj hs).symm⟩
  · rintro ⟨⟨s, hmem, hle, hlt⟩, rfl⟩
    cases hfind : it.updateStates.find? (fun s => decide (s.targetAllocationBlocksBegin ≤ p) &&
        decide (p < s.targetAllocationBlocksBegin + 2 ^ it.dataLog2)) with
    | none =>
      have hnone := find?_eq_none.mp hfind s hmem
      simp [hle, hlt] at hnone
    | some t =>
      have hin := find?_some hfind
      rw [Bool.and_eq_true, decide_eq_true_eq, decide_eq_true_eq] at hin
      exact ⟨t, rfl, hcopy (mem_of_find?_eq_some hfind) hin.1 hin.2⟩

theorem toBeWritten_iff (hheader : 2 ^ it.ioLog2 ∣ it.mutableImageHeaderRegion.b) {b : Nat}
    (hb : 2 ^ it.ioLog2 ∣ b) : ToBeWritten it b ↔ Wanted it area b := by
  have hin : it.inHeader b = true ↔ ∃ p, b ≤ p ∧ p < b + 2 ^ it.ioLog2 ∧
      it.mutableImageHeaderRegion.b ≤ p ∧ p < it.mutableImageHeaderRegion.e := by
    rw [ApplyWritesScriptIterator.inHeader, Bool.and_eq_true, decide_eq_true_eq, decide_eq_true_eq]
    constructor
    · exact fun hle => ⟨b, le_refl _, by omega, hle.2, hle.1⟩
    · rintro ⟨p, hbp, hpb, hhp, hph⟩
      refine ⟨by omega, Nat.le_of_not_lt fun hlt => ?_⟩
      have hle := add_le_of_lt_of_dvd hb hheader hlt
      omega
  rw [ToBeWritten, Wanted, hin]
  simp only [journalStagingCopyOf_eq h]
  constructor
  · rintro ⟨copy, ⟨htracked, rfl⟩, hne, hor⟩
    exact ⟨hb, htracked, hne, hor.symm⟩
  · rintro ⟨-, htracked, hne, hor⟩
    exact ⟨_, ⟨htracked, rfl⟩, hne, hor.symm⟩

theorem applies_of_wanted (hheader : 2 ^ it.ioLog2 ∣ it.mutableImageHeaderRegion.b) {rs : List Run}
    (hall : ∀ r ∈ rs, 0 < r.count ∧ Copied it area r)
    (henum : Enumerates (Wanted it area) (rs.flatMap (Run.blocks (2 ^ it.ioLog2)))) :
    Applies it (rs.map (entry it area)) := by
  have hmem {r : Run} (hr : r ∈ rs) : Wanted it area r.b :=
    (henum.2 r.b).mp (first_mem_blocks hr (hall r hr).1)
  have hblocks {r : Run} (hr : r ∈ rs) {b : Nat} (hb : 2 ^ it.ioLog2 ∣ b) (hle : r.b ≤ b)
      (hstop : b + 2 ^ it.ioLog2 ≤ r.stop (2 ^ it.ioLog2)) : b ∈ r.blocks (2 ^ it.ioLog2) := by
    obtain ⟨k, hk⟩ := Nat.dvd_sub hb (hmem hr).1
    refine Run.mem_blocks.mpr ⟨k, Nat.lt_of_mul_lt_mul_right (a := 2 ^ it.ioLog2) ?_, ?_⟩
    · rw [Run.stop] at hstop
      rw [mul_comm]
      omega
    · rw [mul_comm]
      omega
  refine ⟨?_, ?_, fun b hb => ?_, ?_⟩
  · intro e he
    obtain ⟨r, hr, rfl⟩ := mem_map.mp he
    exact ⟨(hmem hr).1, Nat.dvd_add (hmem hr).1 (Nat.dvd_mul_left _ _)⟩
  · rw [pairwise_map]
    refine pairwise_of_blocks (fun r hr => (hall r hr).1) (henum.1.imp_of_mem fun hx hy hlt => ?_)
    exact add_le_of_lt_of_dvd ((henum.2 _).mp hx).1 ((henum.2 _).mp hy).1 hlt
  · rw [toBeWritten_iff h hheader hb, ← henum.2, mem_flatMap]
    constructor
    · rintro ⟨e, he, hle, hstop⟩
      obtain ⟨r, hr, rfl⟩ := mem_map.mp he
      exact ⟨r, hr, hblocks hr hb hle hstop⟩
    · rintro ⟨r, hr, hbr⟩
      exact ⟨_, mem_map_of_mem hr, Run.block_within hbr⟩
  · intro e he b hb hle hstop
    obtain ⟨r, hr, rfl⟩ := mem_map.mp he
    have hbr := hblocks hr hb hle hstop
    rw [journalStagingCopyOf_eq h]
    exact ⟨((henum.2 b).mp (mem_flatMap.mpr ⟨r, hr, hbr⟩)).2.1, ((hall r hr).2 b hbr).symm⟩

end Claims

variable {it : ApplyWritesScriptIterator} {area : Nat → Nat}

theorem at_start (h : Ready it area) :
    At it.ioLog2 it.dataLog2 it.updateStates ⟨0, 0⟩ :=
  ⟨Nat.zero_le _, Nat.two_pow_pos _, Nat.dvd_zero _, fun _ => rfl, h.filled⟩

theorem pending_start (h : Ready it area) (x : Nat) :
    Pending it area ⟨0, 0⟩ x ↔ Wanted it area x := by
  refine and_iff_right_of_imp ?_
  rintro ⟨-, ⟨s, hs, hle, -⟩, -⟩
  obtain ⟨k, hk⟩ := mem_iff_getElem?.mp hs
  exact from_of_le h.ordered hk hle (zero_le _)

/-- The script is for exactly the IO Blocks to be written, if the unmodified ones have been
pruned. -/
theorem entries_apply (pr : Profile) {it : ApplyWritesScriptIterator}
    (h : ∃ area, Ready it area) (hheader : 2 ^ it.ioLog2 ∣ it.mutableImageHeaderRegion.b)
    (hpruned : it.dataLog2 ≤ it.ioLog2 → ∀ b copy, 2 ^ it.ioLog2 ∣ b →
      journalStagingCopyOf it b = some copy → copy ≠ b → ToBeWritten it b) :
    ∃ entries, (∀ calls, it.updateStates.length * 2 ^ it.dataLog2 < calls →
        it.entries pr calls ⟨0, 0⟩ = .ok entries) ∧
      Applies it entries := by
  obtain ⟨area, h⟩ := h
  have hp : Pruned it area := by
    intro hio b hb htracked hne
    rw [← toBeWritten_iff h hheader hb]
    exact hpruned hio b _ hb ((journalStagingCopyOf_eq h).mpr ⟨htracked, rfl⟩) hne
  obtain ⟨rs, hrs, hall, henum⟩ := entries_spec h (at_start h) pr hp
  refine ⟨_, fun calls hcalls => hrs calls ?_,
    applies_of_wanted h hheader hall (henum.congr (pending_start h))⟩
  rw [flat]
  omega

def halfModified : ApplyWritesScriptIterator :=
  ⟨[⟨4, some 8, [⟨.allocatedModified, .none⟩, ⟨.allocatedUnmodified, .none⟩], none⟩], ⟨1, 2⟩, 1, 0⟩

theorem ready_halfModified : Ready halfModified (fun _ => 8) where
  ordered := ⟨by decide, by decide, by decide, by decide⟩
  io_le := by decide
  filled := filled_of_lt (by decide) (by decide)
  copies := by decide

theorem entries_apply_halfModified :
    ∃ entries, (∀ calls, halfModified.updateStates.length * 2 ^ halfModified.dataLog2 < calls →
        halfModified.entries .debug calls ⟨0, 0⟩ = .ok entries) ∧
      Applies halfModified entries :=
  entries_apply .debug ⟨_, ready_halfModified⟩ (by decide) (fun hio => absurd hio (by decide))

/-- A Data Block that's been staged without any modifications to it. -/
def unmodified : ApplyWritesScriptIterator :=
  ⟨[⟨5, some 9, [⟨.allocatedUnmodified, .none⟩], none⟩], ⟨1, 2⟩, 0, 0⟩

theorem ready_unmodified : Ready unmodified (fun _ => 9) where
  ordered := ⟨by decide, by decide, by decide, by decide⟩
  io_le := by decide
  filled := by
    intro s hs x _ hx
    refine ⟨s, hs, ?_⟩
    rw [unmodified, pow_zero, Nat.div_one, Nat.div_one] at hx
    exact hx.symm
  copies := by decide

/-- An update state that should have been pruned makes for an error. -/
theorem entries_unmodified :
    (∃ area, Ready unmodified area) ∧ 2 ^ unmodified.ioLog2 ∣ unmodified.mutableImageHeaderRegion.b ∧
      unmodified.entries .release 2 ⟨0, 0⟩ = .error (.err .internal) ∧
      ¬∃ entries, (∀ calls, unmodified.updateStates.length * 2 ^ unmodified.dataLog2 < calls →
          unmodified.entries .release calls ⟨0, 0⟩ = .ok entries) ∧
        Applies unmodified entries := by
  have herr : unmodified.entries .release 2 ⟨0, 0⟩ = .error (.err .internal) := by decide
  refine ⟨⟨_, ready_unmodified⟩, by decide, herr, ?_⟩
  rintro ⟨entries, hentries, -⟩
  have hok := hentries 2 (by decide)
  cases hok

end CocoonFs.ApplyWritesScript
