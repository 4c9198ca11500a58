import CocoonFs.UpdateStates
import Mathlib.Data.Nat.Bitwise

namespace CocoonFs.UpdateStatesIndex

open Checked UpdateStates BlockRuns List
open Nat (and_two_pow_sub_one_eq_mod div_add_mod div_eq_of_lt dvd_of_mod_eq_zero eq_of_testBit_eq
  eq_zero_of_dvd_of_lt lt_succ_self mod_add_mod mod_eq_of_lt mod_eq_zero_of_dvd mod_lt mod_self
  mul_add_div mul_mod_left mul_succ or_mod_two_pow shiftLeft_eq shiftRight_eq_div_pow
  succ_eq_add_one succ_mul succ_pos testBit_mod_two_pow testBit_shiftLeft testBit_shiftRight
  testBit_xor two_pow_pos zero_shiftRight)

/-- AuthTreeDataBlocksUpdateStatesAllocationBlockIndex -/
structure AllocationBlockIndex where
  index : Nat
  offset : Nat
  deriving DecidableEq, Repr

def AllocationBlockIndex.advance (i : AllocationBlockIndex) (distance dataLog2 : Nat) :
    AllocationBlockIndex :=
  let offset := i.offset + distance
  let d := offset >>> dataLog2
  ⟨i.index + d, offset ^^^ d <<< dataLog2⟩

def AllocationBlockIndex.Le (i j : AllocationBlockIndex) : Prop :=
  i.index < j.index ∨ (i.index = j.index ∧ i.offset ≤ j.offset)

instance (i j : AllocationBlockIndex) : Decidable (i.Le j) :=
  inferInstanceAs (Decidable (i.index < j.index ∨ (i.index = j.index ∧ i.offset ≤ j.offset)))

section

variable (pr : Profile) (states : List AuthTreeDataBlockUpdateState) (dataLog2 : Nat)

def isContiguousRegion (b e : Nat) : Comp Bool := do
  debugAssert pr (e ≤ states.length)
  if e = b then
    pure true
  else do
    let last ← index states (e - 1)
    let first ← index states b
    let d ← checkedSub last.targetAllocationBlocksBegin first.targetAllocationBlocksBegin
    let spanned := (d >>> dataLog2) + 1
    debugAssert pr (e - b ≤ spanned)
    pure (decide (e - b = spanned))

def alignDown (x alignLog2 : Nat) : Nat := x >>> alignLog2 <<< alignLog2

def isContiguousAlignedRegion (b e alignLog2 : Nat) : Comp Bool := do
  debugAssert pr (e ≤ states.length)
  debugAssert pr (alignLog2 < 64)
  if e = b then
    pure true
  else if dataLog2 ≥ alignLog2 then
    isContiguousRegion pr states dataLog2 b e
  else do
    let first ← index states b
    let firstAligned := alignDown first.targetAllocationBlocksBegin alignLog2
    if firstAligned ≠ first.targetAllocationBlocksBegin then
      pure false
    else do
      -- If there was a gap, the number of states would be too small.
      let last ← index states (e - 1)
      let lastAligned := alignDown last.targetAllocationBlocksBegin alignLog2
      let d ← checkedSub lastAligned firstAligned
      pure (decide ((d >>> alignLog2) + 1 = (e - b) >>> (alignLog2 - dataLog2)))

def isContiguousAlignedAllocationBlocksRegion (b e : AllocationBlockIndex) (alignLog2 : Nat) :
    Comp Bool := do
  let statesEnd := if e.offset = 0 then e.index else e.index + 1
  let contiguous ← isContiguousAlignedRegion pr states dataLog2 b.index statesEnd alignLog2
  if contiguous = false then
    pure false
  else if alignLog2 ≥ dataLog2 then
    pure (decide (b.offset = 0 ∧ e.offset = 0))
  else
    pure (decide ((b.offset ||| e.offset) &&& (2 ^ alignLog2 - 1) = 0))

def getAllocationBlockTarget (i : AllocationBlockIndex) : Comp Nat := do
  let s ← index states i.index
  checkedAdd s.targetAllocationBlocksBegin i.offset

def getAllocationBlockJournalStagingCopy (i : AllocationBlockIndex) : Comp (Option Nat) := do
  let s ← index states i.index
  match s.journalStagingCopyAllocationBlocksBegin with
  | none => pure none
  | some b => do
    let copy ← checkedAdd b i.offset
    pure (some copy)

/-- Whether any in a number of Allocation Blocks has got modified data. -/
def anyModified : Nat → AllocationBlockIndex → Comp Bool
  | 0, _ => .ok false
  | count + 1, i => do
    let s ← index states i.index
    let x ← index s.allocationBlocksStates i.offset
    if x.hasModifiedData then pure true else anyModified count (i.advance 1 dataLog2)

end

theorem xor_shift (n k : Nat) : n ^^^ n >>> k <<< k = n % 2 ^ k := by
  apply eq_of_testBit_eq
  intro j
  rw [testBit_xor, testBit_shiftLeft, testBit_mod_two_pow]
  by_cases hj : k ≤ j
  · simp [hj, testBit_shiftRight]
  · simp [hj, Nat.lt_of_not_le hj]

theorem advance_eq (i : AllocationBlockIndex) (distance dataLog2 : Nat) :
    i.advance distance dataLog2 =
      ⟨i.index + (i.offset + distance) / 2 ^ dataLog2, (i.offset + distance) % 2 ^ dataLog2⟩ := by
  rw [AllocationBlockIndex.advance, xor_shift, shiftRight_eq_div_pow]

theorem advance_advance (i : AllocationBlockIndex) (x y dataLog2 : Nat) :
    (i.advance x dataLog2).advance y dataLog2 = i.advance (x + y) dataLog2 := by
  rw [advance_eq, advance_eq, advance_eq, ← add_assoc i.offset x y]
  have hdiv := div_add_mod (i.offset + x) (2 ^ dataLog2)
  congr 1
  · conv_rhs => rw [← hdiv, add_assoc, mul_add_div (two_pow_pos dataLog2)]
    rw [add_assoc]
  · exact mod_add_mod _ _ _

theorem alignDown_eq (x alignLog2 : Nat) : alignDown x alignLog2 = x / 2 ^ alignLog2 * 2 ^ alignLog2 := by
  rw [alignDown, shiftLeft_eq, shiftRight_eq_div_pow]

def Filled (ioLog2 dataLog2 : Nat) (states : List AuthTreeDataBlockUpdateState) : Prop :=
  ∀ s ∈ states, ∀ x, 2 ^ dataLog2 ∣ x → x / 2 ^ ioLog2 = s.targetAllocationBlocksBegin / 2 ^ ioLog2 →
    ∃ t ∈ states, t.targetAllocationBlocksBegin = x

section Filled

variable {ioLog2 dataLog2 : Nat} {states : List AuthTreeDataBlockUpdateState}

theorem filled_of_lt (hlt : ioLog2 < dataLog2)
    (haligned : ∀ s ∈ states, 2 ^ dataLog2 ∣ s.targetAllocationBlocksBegin) :
    Filled ioLog2 dataLog2 states := by
  intro s hs x hx hdiv
  have hdvd : 2 ^ ioLog2 ∣ 2 ^ dataLog2 := pow_dvd_pow 2 hlt.le
  refine ⟨s, hs, ?_⟩
  rw [← Nat.div_mul_cancel (hdvd.trans (haligned s hs)), ← hdiv, Nat.div_mul_cancel (hdvd.trans hx)]

variable (hle : dataLog2 ≤ ioLog2)
include hle

theorem data_mul_io : 2 ^ (ioLog2 - dataLog2) * 2 ^ dataLog2 = 2 ^ ioLog2 := by
  rw [← pow_add, Nat.sub_add_cancel hle]

variable {s : AuthTreeDataBlockUpdateState} {rest : List AuthTreeDataBlockUpdateState}
  (h : Ordered dataLog2 (s :: rest)) (hf : Filled ioLog2 dataLog2 (s :: rest))
include h hf

theorem first_aligned : 2 ^ ioLog2 ∣ s.targetAllocationBlocksBegin := by
  have hI := two_pow_pos ioLog2
  have hdvd : 2 ^ dataLog2 ∣ 2 ^ ioLog2 := pow_dvd_pow 2 hle
  obtain ⟨t, ht, hx⟩ := hf s (mem_cons_self ..)
    (s.targetAllocationBlocksBegin / 2 ^ ioLog2 * 2 ^ ioLog2) (Dvd.dvd.mul_left hdvd _)
    (Nat.mul_div_cancel _ hI)
  have hmin : s.targetAllocationBlocksBegin ≤ t.targetAllocationBlocksBegin := by
    rcases mem_cons.mp ht with rfl | ht
    · exact le_refl _
    · exact ((pairwise_cons.mp h.ascending).1 t ht).le
  exact dvd_of_mod_eq_zero (by
    have hmod := div_add_mod s.targetAllocationBlocksBegin (2 ^ ioLog2)
    rw [mul_comm] at hmod
    omega)

theorem mem_first_ioBlock {x : Nat} :
    (∃ t ∈ s :: rest, t.targetAllocationBlocksBegin < s.targetAllocationBlocksBegin + 2 ^ ioLog2 ∧
        t.targetAllocationBlocksBegin = x) ↔
      x ∈ Run.blocks (2 ^ dataLog2) ⟨s.targetAllocationBlocksBegin, 2 ^ (ioLog2 - dataLog2)⟩ := by
  have hD := two_pow_pos dataLog2
  have hI := two_pow_pos ioLog2
  have hmul := data_mul_io hle
  have hs := h.aligned s (mem_cons_self ..)
  obtain ⟨q, hq⟩ := first_aligned hle h hf
  rw [Run.mem_blocks]
  dsimp only
  constructor
  · rintro ⟨t, ht, hlt, rfl⟩
    have hmin : s.targetAllocationBlocksBegin ≤ t.targetAllocationBlocksBegin := by
      rcases mem_cons.mp ht with rfl | ht
      · exact le_refl _
      · exact ((pairwise_cons.mp h.ascending).1 t ht).le
    obtain ⟨i, hi⟩ := Nat.dvd_sub (h.aligned t ht) hs
    refine ⟨i, Nat.lt_of_mul_lt_mul_right (a := 2 ^ dataLog2) ?_, ?_⟩
    · rw [hmul, mul_comm]
      omega
    · rw [mul_comm]
      omega
  · rintro ⟨i, hi, rfl⟩
    have hlt : i * 2 ^ dataLog2 < 2 ^ ioLog2 := by
      rw [← hmul]
      exact Nat.mul_lt_mul_of_pos_right hi hD
    obtain ⟨t, ht, hx⟩ := hf s (mem_cons_self ..) (s.targetAllocationBlocksBegin + i * 2 ^ dataLog2)
      (Nat.dvd_add hs (dvd_mul_left _ _)) (by
        rw [hq, mul_add_div hI, Nat.mul_div_cancel_left _ hI, div_eq_of_lt hlt, add_zero])
    exact ⟨t, ht, by omega, hx⟩

/-- The first states fill an IO Block, and there are no gaps in the IO Blocks of the
other ones either. -/
theorem first_ioBlock :
    ((s :: rest).take (2 ^ (ioLog2 - dataLog2))).map (·.targetAllocationBlocksBegin) =
        Run.blocks (2 ^ dataLog2) ⟨s.targetAllocationBlocksBegin, 2 ^ (ioLog2 - dataLog2)⟩ ∧
      (∀ t ∈ (s :: rest).drop (2 ^ (ioLog2 - dataLog2)),
        s.targetAllocationBlocksBegin + 2 ^ ioLog2 ≤ t.targetAllocationBlocksBegin) ∧
      Filled ioLog2 dataLog2 ((s :: rest).drop (2 ^ (ioLog2 - dataLog2))) := by
  have hI := two_pow_pos ioLog2
  obtain ⟨htake, hdrop⟩ := take_filter_lt (s.targetAllocationBlocksBegin + 2 ^ ioLog2) h.ascending
  have hfilter : ((s :: rest).filter (fun t =>
        decide (t.targetAllocationBlocksBegin < s.targetAllocationBlocksBegin + 2 ^ ioLog2))).map
          (·.targetAllocationBlocksBegin) =
      Run.blocks (2 ^ dataLog2) ⟨s.targetAllocationBlocksBegin, 2 ^ (ioLog2 - dataLog2)⟩ := by
    refine List.Pairwise.eq_of_mem_iff (r := (· < ·)) ?_
      (Run.pairwise_blocks (two_pow_pos dataLog2) _) (fun x => ?_)
    · rw [pairwise_map]
      exact h.ascending.sublist filter_sublist
    · rw [← mem_first_ioBlock hle h hf, mem_map]
      simp only [mem_filter, decide_eq_true_eq, and_assoc]
  have hlen : ((s :: rest).filter (fun t => decide
      (t.targetAllocationBlocksBegin < s.targetAllocationBlocksBegin + 2 ^ ioLog2))).length =
        2 ^ (ioLog2 - dataLog2) := by
    rw [← length_map, hfilter, Run.blocks, length_map, length_range]
  rw [hlen] at htake hdrop
  rw [htake, hdrop]
  have hge : ∀ t ∈ (s :: rest).filter (fun t => decide
      (s.targetAllocationBlocksBegin + 2 ^ ioLog2 ≤ t.targetAllocationBlocksBegin)),
      s.targetAllocationBlocksBegin + 2 ^ ioLog2 ≤ t.targetAllocationBlocksBegin :=
    fun t ht => of_decide_eq_true (mem_filter.mp ht).2
  refine ⟨hfilter, hge, fun t ht x hx hdiv => ?_⟩
  obtain ⟨u, hu, hux⟩ := hf t (mem_filter.mp ht).1 x hx hdiv
  refine ⟨u, mem_filter.mpr ⟨hu, decide_eq_true ?_⟩, hux⟩
  obtain ⟨q, hq⟩ := first_aligned hle h hf
  have hqt : q + 1 ≤ t.targetAllocationBlocksBegin / 2 ^ ioLog2 := by
    rw [Nat.le_div_iff_mul_le hI, succ_mul, mul_comm, ← hq]
    exact hge t ht
  rw [← hdiv, Nat.le_div_iff_mul_le hI, succ_mul, mul_comm, ← hq] at hqt
  rwa [hux]

end Filled

structure At (ioLog2 dataLog2 : Nat) (states : List AuthTreeDataBlockUpdateState)
    (i : AllocationBlockIndex) : Prop where
  index_le : i.index ≤ states.length
  offset_lt : i.offset < 2 ^ dataLog2
  offset_aligned : 2 ^ ioLog2 ∣ i.offset
  offset_at_end : i.index = states.length → i.offset = 0
  filled : Filled ioLog2 dataLog2 (states.drop i.index)

def From (states : List AuthTreeDataBlockUpdateState) (i : AllocationBlockIndex) (x : Nat) : Prop :=
  ∃ s, states[i.index]? = some s ∧ s.targetAllocationBlocksBegin + i.offset ≤ x

def Tracked (dataLog2 : Nat) (states : List AuthTreeDataBlockUpdateState) (x : Nat) : Prop :=
  ∃ s ∈ states, s.targetAllocationBlocksBegin ≤ x ∧ x < s.targetAllocationBlocksBegin + 2 ^ dataLog2

structure IoBlock (ioLog2 dataLog2 : Nat) (states : List AuthTreeDataBlockUpdateState)
    (i e : AllocationBlockIndex) (b : Nat) : Prop where
  aligned : 2 ^ ioLog2 ∣ b
  next_at : At ioLog2 dataLog2 states e
  le : i.Le e
  lt : i.index * 2 ^ dataLog2 + i.offset < e.index * 2 ^ dataLog2 + e.offset
  blocks : ∀ j < 2 ^ ioLog2, ∃ s, states[(i.advance j dataLog2).index]? = some s ∧
    s.targetAllocationBlocksBegin + (i.advance j dataLog2).offset = b + j
  contiguous : ∀ pr, isContiguousAlignedAllocationBlocksRegion pr states dataLog2 i e ioLog2 = .ok true
  after : ∀ x, From states e x → b + 2 ^ ioLog2 ≤ x
  step : ∀ x, 2 ^ ioLog2 ∣ x → Tracked dataLog2 states x → (b ≤ x ↔ x = b ∨ From states e x)

section IoBlocks

variable {ioLog2 dataLog2 : Nat} {states : List AuthTreeDataBlockUpdateState}

/-- A position is not before an index if it's tracked by one of the states from there on. -/
theorem from_of_le (h : Ordered dataLog2 states) {j k x : Nat} {t : AuthTreeDataBlockUpdateState}
    (ht : states[k]? = some t) (hx : t.targetAllocationBlocksBegin ≤ x) (hjk : j ≤ k) :
    From states ⟨j, 0⟩ x := by
  have hk := (List.getElem?_eq_some_iff.mp ht).1
  obtain ⟨s, hs⟩ : ∃ s, states[j]? = some s :=
    ⟨_, getElem?_eq_getElem (lt_of_le_of_lt hjk hk)⟩
  exact ⟨s, hs, (h.le_of_le hs ht hjk).trans hx⟩

theorem isContiguousRegion_one (pr : Profile) {k : Nat} {s : AuthTreeDataBlockUpdateState}
    (hs : states[k]? = some s) : isContiguousRegion pr states dataLog2 k (k + 1) = .ok true := by
  have hk : k + 1 ≤ states.length := (List.getElem?_eq_some_iff.mp hs).1
  rw [isContiguousRegion, debugAssert_ok pr hk, ok_bind, if_neg (Nat.succ_ne_self _),
    Nat.add_sub_cancel, index_ok hs, ok_bind, ok_bind, checkedSub_ok (le_refl _), ok_bind,
    Nat.sub_self, zero_shiftRight]
  dsimp only
  rw [debugAssert_ok pr (by omega), ok_bind, Nat.add_sub_cancel_left]
  rfl

theorem contiguous_large (pr : Profile) (hio : ioLog2 < 64) (hle : dataLog2 ≤ ioLog2) {k : Nat}
    {s last : AuthTreeDataBlockUpdateState} (hs : states[k]? = some s)
    (hal : 2 ^ ioLog2 ∣ s.targetAllocationBlocksBegin)
    (hlast : states[k + (2 ^ (ioLog2 - dataLog2) - 1)]? = some last)
    (hlastk : last.targetAllocationBlocksBegin =
      s.targetAllocationBlocksBegin + (2 ^ (ioLog2 - dataLog2) - 1) * 2 ^ dataLog2) :
    isContiguousAlignedAllocationBlocksRegion pr states dataLog2 ⟨k, 0⟩
      ⟨k + 2 ^ (ioLog2 - dataLog2), 0⟩ ioLog2 = .ok true := by
  have hm := two_pow_pos (ioLog2 - dataLog2)
  have hlen : k + 2 ^ (ioLog2 - dataLog2) ≤ states.length := by
    have hlt := (List.getElem?_eq_some_iff.mp hlast).1
    omega
  have hregion : isContiguousAlignedRegion pr states dataLog2 k (k + 2 ^ (ioLog2 - dataLog2)) ioLog2 =
      .ok true := by
    rw [isContiguousAlignedRegion, debugAssert_ok pr hlen, ok_bind, debugAssert_ok pr hio, ok_bind,
      if_neg (by omega)]
    by_cases heq : dataLog2 ≥ ioLog2
    · rw [if_pos heq, Nat.sub_eq_zero_of_le heq]
      exact isContiguousRegion_one pr hs
    · have hlt : (2 ^ (ioLog2 - dataLog2) - 1) * 2 ^ dataLog2 < 2 ^ ioLog2 := by
        rw [← data_mul_io hle]
        exact Nat.mul_lt_mul_of_pos_right (by omega) (two_pow_pos dataLog2)
      have hfirst : alignDown s.targetAllocationBlocksBegin ioLog2 = s.targetAllocationBlocksBegin := by
        rw [alignDown_eq, Nat.div_mul_cancel hal]
      have hlastAligned : alignDown last.targetAllocationBlocksBegin ioLog2 =
          s.targetAllocationBlocksBegin := by
        obtain ⟨q, hq⟩ := hal
        rw [alignDown_eq, hlastk, hq, mul_add_div (two_pow_pos ioLog2), div_eq_of_lt hlt,
          add_zero, mul_comm]
      rw [if_neg heq, index_ok hs, ok_bind, hfirst, if_neg (not_not.mpr rfl), Nat.add_sub_assoc hm, index_ok hlast, ok_bind]
      dsimp only
      rw [hlastAligned, checkedSub_ok (le_refl _), ok_bind, Nat.sub_self, zero_shiftRight,
        Nat.add_sub_cancel_left, shiftRight_eq_div_pow, Nat.div_self hm]
      rfl
  rw [isContiguousAlignedAllocationBlocksRegion]
  rw [if_pos rfl, hregion, ok_bind, if_neg (by decide), if_pos hle]
  rfl

variable (h : Ordered dataLog2 states) {i : AllocationBlockIndex}
  (hi : At ioLog2 dataLog2 states i) {s : AuthTreeDataBlockUpdateState}
  (hs : states[i.index]? = some s)
include h hi hs

theorem ioBlock_small (hio : ioLog2 < 64) (hlt : ioLog2 < dataLog2) :
    IoBlock ioLog2 dataLog2 states i (i.advance (2 ^ ioLog2) dataLog2)
      (s.targetAllocationBlocksBegin + i.offset) := by
  have hD := two_pow_pos dataLog2
  have hdvd : 2 ^ ioLog2 ∣ 2 ^ dataLog2 := pow_dvd_pow 2 hlt.le
  have hfit := add_le_of_lt_of_dvd hi.offset_aligned hdvd hi.offset_lt
  have hmem := mem_of_getElem? hs
  have hidx := (List.getElem?_eq_some_iff.mp hs).1
  have haligned : ∀ t ∈ states, 2 ^ dataLog2 ∣ t.targetAllocationBlocksBegin := h.aligned
  have hfilled (k : Nat) : Filled ioLog2 dataLog2 (states.drop k) :=
    filled_of_lt hlt (fun t ht => haligned t (mem_of_mem_drop ht))
  -- The end is either within the same Data Block still, or at the next one.
  obtain ⟨e, he⟩ : ∃ e, i.advance (2 ^ ioLog2) dataLog2 = e := ⟨_, rfl⟩
  have hend : (e = ⟨i.index, i.offset + 2 ^ ioLog2⟩ ∧ i.offset + 2 ^ ioLog2 < 2 ^ dataLog2) ∨
      (e = ⟨i.index + 1, 0⟩ ∧ i.offset + 2 ^ ioLog2 = 2 ^ dataLog2) := by
    rw [advance_eq] at he
    rcases Nat.lt_or_eq_of_le hfit with hin | heq
    · rw [div_eq_of_lt hin, mod_eq_of_lt hin] at he
      exact Or.inl ⟨he.symm, hin⟩
    · rw [heq, Nat.div_self hD, mod_self] at he
      exact Or.inr ⟨he.symm, heq⟩
  rw [he]
  refine ⟨Nat.dvd_add (hdvd.trans (haligned s hmem)) hi.offset_aligned, ?_, ?_, ?_, ?_, ?_, ?_, ?_⟩
  · rcases hend with ⟨rfl, hin⟩ | ⟨rfl, -⟩
    · exact ⟨hi.index_le, hin, Nat.dvd_add hi.offset_aligned (Nat.dvd_refl _),
        fun heq => absurd heq hidx.ne, hfilled _⟩
    · exact ⟨hidx, hD, Nat.dvd_zero _, fun _ => rfl, hfilled _⟩
  · rcases hend with ⟨rfl, -⟩ | ⟨rfl, -⟩
    · exact Or.inr ⟨rfl, Nat.le_add_right _ _⟩
    · exact Or.inl (lt_succ_self _)
  · rcases hend with ⟨rfl, -⟩ | ⟨rfl, hout⟩
    · dsimp only
      omega
    · rw [succ_mul]
      omega
  · intro j hj
    have hin : i.offset + j < 2 ^ dataLog2 := by omega
    rw [advance_eq, div_eq_of_lt hin, mod_eq_of_lt hin]
    exact ⟨s, hs, (Nat.add_assoc ..).symm⟩
  · intro pr
    have hstatesEnd : (if e.offset = 0 then e.index else e.index + 1) = i.index + 1 := by
      rcases hend with ⟨rfl, -⟩ | ⟨rfl, -⟩
      · exact if_neg (by dsimp only; omega)
      · exact if_pos rfl
    have hoffset : 2 ^ ioLog2 ∣ e.offset := by
      rcases hend with ⟨rfl, -⟩ | ⟨rfl, -⟩
      · exact Nat.dvd_add hi.offset_aligned (Nat.dvd_refl _)
      · exact Nat.dvd_zero _
    have hmask : (i.offset ||| e.offset) &&& (2 ^ ioLog2 - 1) = 0 := by
      rw [and_two_pow_sub_one_eq_mod, or_mod_two_pow, mod_eq_zero_of_dvd hoffset,
        mod_eq_zero_of_dvd hi.offset_aligned]
      rfl
    rw [isContiguousAlignedAllocationBlocksRegion, hstatesEnd, isContiguousAlignedRegion,
      debugAssert_ok pr (show i.index + 1 ≤ states.length from hidx), ok_bind,
      debugAssert_ok pr hio, ok_bind, if_neg (Nat.succ_ne_self _), if_pos hlt.le, isContiguousRegion_one pr hs, ok_bind,
      if_neg (by decide), if_neg (Nat.not_le.mpr hlt), hmask]
    rfl
  · rintro x ⟨t, ht, hx⟩
    rcases hend with ⟨rfl, -⟩ | ⟨rfl, hout⟩
    · cases hs.symm.trans ht
      dsimp only at hx
      omega
    · have hst := add_le_of_lt_of_dvd (haligned s hmem) (haligned t (mem_of_getElem? ht))
        (h.lt_of_lt hs ht (lt_succ_self _))
      omega
  · rintro x hx ⟨t, ht, htx, hxt⟩
    have hb : 2 ^ ioLog2 ∣ s.targetAllocationBlocksBegin + i.offset :=
      Nat.dvd_add (hdvd.trans (haligned s hmem)) hi.offset_aligned
    constructor
    · intro hle
      rcases Nat.eq_or_lt_of_le hle with heq | hgt
      · exact Or.inl heq.symm
      · have hge := add_le_of_lt_of_dvd hb hx hgt
        right
        rcases hend with ⟨rfl, -⟩ | ⟨rfl, hout⟩
        · exact ⟨s, hs, by dsimp only; omega⟩
        · obtain ⟨k, hk⟩ := mem_iff_getElem?.mp ht
          refine from_of_le h hk htx ?_
          by_contra hki
          have hle := h.le_of_le hk hs (by omega)
          omega
    · rintro (rfl | ⟨t, ht, hxt⟩)
      · exact Nat.le_refl _
      · rcases hend with ⟨rfl, -⟩ | ⟨rfl, hout⟩
        · cases hs.symm.trans ht
          dsimp only at hxt
          omega
        · have hst := h.lt_of_lt hs ht (lt_succ_self _)
          have hst := add_le_of_lt_of_dvd (haligned s hmem) (haligned t (mem_of_getElem? ht)) hst
          omega

theorem ioBlock_large (hio : ioLog2 < 64) (hle : dataLog2 ≤ ioLog2) :
    IoBlock ioLog2 dataLog2 states i (i.advance (2 ^ ioLog2) dataLog2)
      (s.targetAllocationBlocksBegin + i.offset) := by
  have hD := two_pow_pos dataLog2
  have hm := two_pow_pos (ioLog2 - dataLog2)
  have hmul := data_mul_io hle
  have hidx := (List.getElem?_eq_some_iff.mp hs).1
  have hoffset : i.offset = 0 :=
    eq_zero_of_dvd_of_lt hi.offset_aligned
      (Nat.lt_of_lt_of_le hi.offset_lt (Nat.pow_le_pow_right (by decide) hle))
  have he : i.advance (2 ^ ioLog2) dataLog2 = ⟨i.index + 2 ^ (ioLog2 - dataLog2), 0⟩ := by
    rw [advance_eq, hoffset, Nat.zero_add, ← hmul, Nat.mul_div_cancel _ hD, mul_mod_left]
  obtain ⟨rest, hdrop⟩ : ∃ rest, states.drop i.index = s :: rest := by
    refine ⟨states.drop (i.index + 1), ?_⟩
    rw [drop_eq_getElem_cons hidx, (List.getElem?_eq_some_iff.mp hs).2]
  have hord : Ordered dataLog2 (s :: rest) := hdrop ▸ h.of_suffix (drop_suffix _ _)
  have hfilled := hdrop ▸ hi.filled
  have hal := first_aligned hle hord hfilled
  obtain ⟨htake, hafter, hnext⟩ := first_ioBlock hle hord hfilled
  have hget (k : Nat) (hk : k < 2 ^ (ioLog2 - dataLog2)) : ∃ t, states[i.index + k]? = some t ∧
      t.targetAllocationBlocksBegin = s.targetAllocationBlocksBegin + k * 2 ^ dataLog2 := by
    have heq := congrArg (fun l : List Nat => l[k]?) htake
    simp only [Run.blocks, getElem?_map, getElem?_take_of_lt hk, getElem?_range hk] at heq
    rw [← hdrop, getElem?_drop] at heq
    obtain ⟨t, ht, htk⟩ := Option.map_eq_some_iff.mp heq
    exact ⟨t, ht, htk⟩
  obtain ⟨last, hlast, hlastk⟩ := hget (2 ^ (ioLog2 - dataLog2) - 1) (by omega)
  have hindex_le : i.index + 2 ^ (ioLog2 - dataLog2) ≤ states.length := by
    have hlt := (List.getElem?_eq_some_iff.mp hlast).1
    omega
  have hdropm (t : AuthTreeDataBlockUpdateState)
      (ht : states[i.index + 2 ^ (ioLog2 - dataLog2)]? = some t) :
      s.targetAllocationBlocksBegin + 2 ^ ioLog2 ≤ t.targetAllocationBlocksBegin := by
    refine hafter t ?_
    rw [← hdrop, drop_drop]
    exact mem_of_getElem? (i := 0) (by rw [getElem?_drop, Nat.add_zero]; exact ht)
  rw [he, hoffset, Nat.add_zero]
  refine ⟨hal, ⟨hindex_le, hD, Nat.dvd_zero _, fun _ => rfl, ?_⟩, ?_, ?_, ?_, ?_, ?_, ?_⟩
  · rw [← drop_drop, hdrop]
    exact hnext
  · exact Or.inl (Nat.lt_add_of_pos_right hm)
  · rw [hoffset, Nat.add_mul]
    omega
  · intro j hj
    rw [advance_eq, hoffset, Nat.zero_add]
    obtain ⟨t, ht, htk⟩ := hget (j / 2 ^ dataLog2) (by rw [Nat.div_lt_iff_lt_mul hD, hmul]; exact hj)
    refine ⟨t, ht, ?_⟩
    dsimp only
    have hdiv := div_add_mod j (2 ^ dataLog2)
    rw [Nat.mul_comm] at hdiv
    omega
  · intro pr
    have hi0 : i = ⟨i.index, 0⟩ := by rw [← hoffset]
    rw [hi0]
    exact contiguous_large pr hio hle hs hal hlast hlastk
  · rintro x ⟨t, ht, hx⟩
    have hst := hdropm t ht
    omega
  · rintro x hx ⟨t, ht, htx, hxt⟩
    constructor
    · intro hle
      rcases Nat.eq_or_lt_of_le hle with heq | hgt
      · exact Or.inl heq.symm
      · have hge := add_le_of_lt_of_dvd hal hx hgt
        right
        obtain ⟨k, hk⟩ := mem_iff_getElem?.mp ht
        refine from_of_le h hk htx ?_
        by_contra hki
        have hle := h.le_of_le hk hlast (by omega)
        have hlt : 2 ^ dataLog2 * (2 ^ (ioLog2 - dataLog2) - 1) + 2 ^ dataLog2 = 2 ^ ioLog2 := by
          rw [← mul_succ, succ_eq_add_one, Nat.sub_add_cancel hm, Nat.mul_comm, hmul]
        rw [Nat.mul_comm] at hlastk
        omega
    · rintro (rfl | ⟨t, ht, hxt⟩)
      · exact Nat.le_refl _
      · have hst := hdropm t ht
        omega

theorem ioBlock_spec (hio : ioLog2 < 64) :
    IoBlock ioLog2 dataLog2 states i (i.advance (2 ^ ioLog2) dataLog2)
      (s.targetAllocationBlocksBegin + i.offset) := by
  rcases lt_or_ge ioLog2 dataLog2 with hlt | hle
  · exact ioBlock_small h hi hs hio hlt
  · exact ioBlock_large h hi hs hio hle

end IoBlocks

def ModifiedAt (states : List AuthTreeDataBlockUpdateState) (p : Nat) : Prop :=
  ∃ s ∈ states, ∃ j x, s.allocationBlocksStates[j]? = some x ∧
    s.targetAllocationBlocksBegin + j = p ∧ x.hasModifiedData = true

theorem anyModified_spec {states : List AuthTreeDataBlockUpdateState} {dataLog2 : Nat}
    (h : Ordered dataLog2 states) (count b : Nat) {i : AllocationBlockIndex}
    (hi : i.offset < 2 ^ dataLog2)
    (hblocks : ∀ j < count, ∃ s, states[(i.advance j dataLog2).index]? = some s ∧
      s.targetAllocationBlocksBegin + (i.advance j dataLog2).offset = b + j) :
    ∃ m, anyModified states dataLog2 count i = .ok m ∧
      (m = true ↔ ∃ p, b ≤ p ∧ p < b + count ∧ ModifiedAt states p) := by
  induction count generalizing b i with
  | zero => exact ⟨false, rfl, by simp; omega⟩
  | succ count ih =>
    obtain ⟨s, hs, hb⟩ := hblocks 0 (succ_pos _)
    rw [advance_eq, add_zero, div_eq_of_lt hi, mod_eq_of_lt hi, add_zero] at hs hb
    have hmem := mem_of_getElem? hs
    obtain ⟨x, hx⟩ : ∃ x, s.allocationBlocksStates[i.offset]? = some x :=
      ⟨_, getElem?_eq_getElem (by rw [h.complete s hmem]; exact hi)⟩
    rw [anyModified, index_ok hs, ok_bind, index_ok hx, ok_bind]
    dsimp only at hb
    by_cases hmod : x.hasModifiedData = true
    · rw [if_pos hmod]
      exact ⟨true, rfl, iff_of_true rfl ⟨b, by omega, by omega, s, hmem, i.offset, x, hx, hb, hmod⟩⟩
    · have hnot : ¬ModifiedAt states b := by
        rintro ⟨t, ht, j, y, hy, hj, hymod⟩
        have hjlt := (List.getElem?_eq_some_iff.mp hy).1
        rw [h.complete t ht] at hjlt
        obtain rfl := h.eq_of_tracks (p := b) hmem ht (by omega) (by omega) (by omega) (by omega)
        obtain rfl : i.offset = j := by omega
        exact hmod (Option.some.inj (hy.symm.trans hx) ▸ hymod)
      have hnext (j : Nat) (hj : j < count) :
          ∃ s, states[((i.advance 1 dataLog2).advance j dataLog2).index]? = some s ∧
            s.targetAllocationBlocksBegin + ((i.advance 1 dataLog2).advance j dataLog2).offset =
              b + 1 + j := by
        rw [advance_advance, add_assoc]
        exact hblocks (1 + j) (by omega)
      obtain ⟨m, hany, hiff⟩ := ih (b + 1)
        (by rw [advance_eq]; exact mod_lt _ (two_pow_pos dataLog2)) hnext
      rw [if_neg hmod]
      refine ⟨m, hany, hiff.trans ⟨?_, ?_⟩⟩
      · rintro ⟨p, hbp, hpb, hp⟩
        exact ⟨p, by omega, by omega, hp⟩
      · rintro ⟨p, hbp, hpb, hp⟩
        rcases eq_or_lt_of_le hbp with rfl | hlt
        · exact absurd hp hnot
        · exact ⟨p, hlt, by omega, hp⟩

end CocoonFs.UpdateStatesIndex
