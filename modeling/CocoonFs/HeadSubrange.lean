import CocoonFs.UpdateStatesIndex

namespace CocoonFs.HeadSubrange

open BlockRuns Checked UpdateStates UpdateStatesIndex List Nat
open Nat (add_sub_cancel' two_pow_pos)

section Model

variable (pr : Profile) (states : List AuthTreeDataBlockUpdateState) (dataLog2 : Nat)

def isNext (last i : Nat) : Comp Bool := do
  let s ← index states i
  let d ← checkedSub s.targetAllocationBlocksBegin last
  pure (decide (d >>> dataLog2 = 1))

/-- The loop, with the index it stops at and whether it is at the end. What's compared to is the
first state throughout, the variable is not assigned to. -/
def headLoop (last e : Nat) : Nat → Nat → Comp (Nat × Bool)
  | 0, cur => pure (cur, true)
  | n + 1, cur =>
    if cur < e then do
      if ← isNext states dataLog2 last cur then headLoop last e n (cur + 1)
      else pure (cur, false)
    else pure (cur, true)

def newRange (b e : AllocationBlockIndex) : Comp (AllocationBlockIndex × AllocationBlockIndex) := do
  debugAssert pr (b.Le e)
  pure (b, e)

def lastIsNext (last cur : Nat) (e : AllocationBlockIndex) : Comp Bool :=
  if e.offset ≠ 0 then isNext states dataLog2 last cur else pure false

def allocationBlocksRangeContiguousHeadSubrange (b e : AllocationBlockIndex) :
    Comp (AllocationBlockIndex × AllocationBlockIndex) :=
  if b.index = e.index then pure (b, e)
  else do
    let s ← index states b.index
    let last := s.targetAllocationBlocksBegin
    let (cur, done) ← headLoop states dataLog2 last e.index (e.index - (b.index + 1)) (b.index + 1)
    if done then do
      debugAssert pr (cur = e.index)
      if ← lastIsNext states dataLog2 last cur e then pure (b, e)
      else newRange pr b ⟨cur, 0⟩
    else newRange pr b ⟨cur, 0⟩

end Model

structure RangeIn (states : List AuthTreeDataBlockUpdateState) (dataLog2 : Nat)
    (b e : AllocationBlockIndex) : Prop where
  le : b.Le e
  begin_lt : b.offset < 2 ^ dataLog2
  end_lt : e.offset < 2 ^ dataLog2
  end_le : e.index ≤ states.length
  end_offset : e.index = states.length → e.offset = 0

section Heads

variable (states : List AuthTreeDataBlockUpdateState) (dataLog2 : Nat) (b e : AllocationBlockIndex)

def blockCount : Nat := (e.index - b.index) * 2 ^ dataLog2 + e.offset - b.offset

/-- A number of Allocation Blocks from an index on are contiguous on storage. -/
def Leads (k : Nat) : Prop :=
  ∀ j < k, ∃ s t, states[b.index]? = some s ∧ states[(b.advance j dataLog2).index]? = some t ∧
    t.targetAllocationBlocksBegin + (b.advance j dataLog2).offset =
      s.targetAllocationBlocksBegin + b.offset + j

def LongestHead (r : AllocationBlockIndex) : Prop :=
  ∃ k ≤ blockCount dataLog2 b e, r = b.advance k dataLog2 ∧ Leads states dataLog2 b k ∧
    (k < blockCount dataLog2 b e → ¬Leads states dataLog2 b (k + 1))

/-- The state at some distance from the first one has the target it has if there's no gap. -/
def Follows (q : Nat) : Prop :=
  ∃ s t, states[b.index]? = some s ∧ states[b.index + q]? = some t ∧
    t.targetAllocationBlocksBegin = s.targetAllocationBlocksBegin + q * 2 ^ dataLog2

/-- The range extends into a third Data Block and the three are contiguous. -/
def ReachesThird : Prop :=
  2 * 2 ^ dataLog2 < (e.index - b.index) * 2 ^ dataLog2 + e.offset ∧ Follows states dataLog2 b 1 ∧
    Follows states dataLog2 b 2

variable {states dataLog2 b e} {first : AuthTreeDataBlockUpdateState}

theorem follows_iff (hfirst : states[b.index]? = some first) (q : Nat) :
    Follows states dataLog2 b q ↔ ∃ t, states[b.index + q]? = some t ∧
      t.targetAllocationBlocksBegin = first.targetAllocationBlocksBegin + q * 2 ^ dataLog2 := by
  constructor
  · rintro ⟨s, t, hs, ht, heq⟩
    cases hfirst.symm.trans hs
    exact ⟨t, ht, heq⟩
  · rintro ⟨t, ht, heq⟩
    exact ⟨first, t, hfirst, ht, heq⟩

theorem leads_iff (hfirst : states[b.index]? = some first) (hb : b.offset < 2 ^ dataLog2) {k : Nat} :
    Leads states dataLog2 b k ↔
      ∀ q, 0 < q → q * 2 ^ dataLog2 < b.offset + k → Follows states dataLog2 b q := by
  have hD := two_pow_pos dataLog2
  constructor
  · intro h q hq hqk
    have hle := Nat.mul_le_mul_right (2 ^ dataLog2) hq
    obtain ⟨s, t, hs, ht, heq⟩ := h (q * 2 ^ dataLog2 - b.offset) (by omega)
    rw [advance_eq, add_sub_cancel' (by omega), Nat.mul_div_cancel _ hD, mul_mod_left] at ht heq
    exact ⟨s, t, hs, ht, by dsimp only at heq; omega⟩
  · intro h j hj
    rw [advance_eq]
    rcases Nat.eq_zero_or_pos ((b.offset + j) / 2 ^ dataLog2) with hzero | hpos
    · have hlt := (div_eq_zero_iff_lt hD).mp hzero
      rw [hzero, mod_eq_of_lt hlt, add_zero]
      exact ⟨first, first, hfirst, hfirst, (add_assoc ..).symm⟩
    · obtain ⟨t, ht, htarget⟩ := (follows_iff hfirst _).mp
        (h _ hpos ((div_mul_le_self _ _).trans_lt (by omega)))
      refine ⟨first, t, hfirst, ht, ?_⟩
      rw [htarget, add_assoc, div_add_mod', add_assoc]

theorem advance_injective {k k' : Nat} (h : b.advance k dataLog2 = b.advance k' dataLog2) : k = k' := by
  rw [advance_eq, advance_eq] at h
  obtain ⟨hdiv, hmod⟩ := AllocationBlockIndex.mk.inj h
  have hk := div_add_mod (b.offset + k) (2 ^ dataLog2)
  rw [add_left_cancel hdiv, hmod, div_add_mod] at hk
  omega

/-- A number of whole Data Blocks from the first one on. -/
theorem advance_whole (q : Nat) (hb : b.offset ≤ q * 2 ^ dataLog2) :
    b.advance (q * 2 ^ dataLog2 - b.offset) dataLog2 = ⟨b.index + q, 0⟩ := by
  rw [advance_eq, add_sub_cancel' hb, Nat.mul_div_cancel _ (two_pow_pos dataLog2), mul_mod_left]

variable (hr : RangeIn states dataLog2 b e)
include hr

theorem advance_blockCount (hlt : b.index < e.index) :
    b.advance (blockCount dataLog2 b e) dataLog2 = e := by
  have hle := Nat.mul_le_mul_right (2 ^ dataLog2) (show 1 ≤ e.index - b.index by omega)
  have hb := hr.begin_lt
  rw [advance_eq, blockCount, add_sub_cancel' (by omega), mul_comm,
    mul_add_div (two_pow_pos dataLog2), mul_add_mod, div_eq_of_lt hr.end_lt,
    mod_eq_of_lt hr.end_lt, add_zero, add_sub_cancel' hlt.le]

/-- The contiguous head ends after some Data Blocks, either with the range or in front of a gap. -/
theorem longestHead_whole_iff (hfirst : states[b.index]? = some first) {q : Nat} (hq : 0 < q)
    (hqe : q ≤ e.index - b.index) (hfollows : ∀ i < q, Follows states dataLog2 b i) :
    LongestHead states dataLog2 b e ⟨b.index + q, 0⟩ ↔
      (q * 2 ^ dataLog2 < (e.index - b.index) * 2 ^ dataLog2 + e.offset →
        ¬Follows states dataLog2 b q) := by
  have hb := hr.begin_lt
  have hD := Nat.mul_le_mul_right (2 ^ dataLog2) hq
  have hle := Nat.mul_le_mul_right (2 ^ dataLog2) hqe
  have hwhole := @advance_whole dataLog2 b q (by omega)
  have hleads : Leads states dataLog2 b (q * 2 ^ dataLog2 - b.offset) := by
    refine (leads_iff hfirst hb).mpr (fun i _ hi => hfollows i ?_)
    rw [add_sub_cancel' (by omega)] at hi
    exact Nat.lt_of_mul_lt_mul_right hi
  have hnext : Leads states dataLog2 b (q * 2 ^ dataLog2 - b.offset + 1) ↔
      Follows states dataLog2 b q := by
    rw [leads_iff hfirst hb]
    refine ⟨fun h => h q hq (by omega), fun h i _ hi => ?_⟩
    rw [← add_assoc, add_sub_cancel' (by omega), Nat.lt_succ_iff] at hi
    rcases lt_or_eq_of_le (Nat.le_of_mul_le_mul_right hi (two_pow_pos dataLog2)) with hlt | rfl
    · exact hfollows i hlt
    · exact h
  rw [← hwhole, LongestHead, blockCount]
  constructor
  · rintro ⟨k, hk, heq, -, hstop⟩ hlt
    obtain rfl := advance_injective heq
    rw [hnext] at hstop
    exact hstop (by omega)
  · intro h
    refine ⟨_, by omega, rfl, hleads, fun hlt => ?_⟩
    rw [hnext]
    exact h (by omega)

end Heads

section Run

variable {states : List AuthTreeDataBlockUpdateState} {dataLog2 : Nat} {b e : AllocationBlockIndex}
  {first : AuthTreeDataBlockUpdateState}

theorem isNext_ok (h : Ordered dataLog2 states) (hfirst : states[b.index]? = some first) {q : Nat}
    (hq : 0 < q) (hlt : b.index + q < states.length) :
    ∃ x, isNext states dataLog2 first.targetAllocationBlocksBegin (b.index + q) = .ok x ∧
      (x = true ↔ q = 1 ∧ Follows states dataLog2 b 1) := by
  have hD := two_pow_pos dataLog2
  have hmem := mem_of_getElem? hfirst
  obtain ⟨t, ht⟩ : ∃ t, states[b.index + q]? = some t := ⟨_, getElem?_eq_getElem hlt⟩
  have hft := h.lt_of_lt hfirst ht (by omega)
  obtain ⟨m, hm⟩ := Nat.dvd_sub (h.aligned t (mem_of_getElem? ht)) (h.aligned first hmem)
  rw [isNext, index_ok ht, ok_bind, checkedSub_ok hft.le, ok_bind, hm, shiftRight_eq_div_pow,
    Nat.mul_div_cancel_left _ hD]
  refine ⟨_, rfl, ?_⟩
  rw [decide_eq_true_iff, follows_iff hfirst, one_mul]
  constructor
  · rintro rfl
    rcases Nat.eq_or_lt_of_le hq with rfl | hgt
    · exact ⟨rfl, t, ht, by omega⟩
    · -- There's another state in between.
      obtain ⟨u, hu⟩ : ∃ u, states[b.index + 1]? = some u := ⟨_, getElem?_eq_getElem (by omega)⟩
      have hfu := add_le_of_lt_of_dvd (h.aligned first hmem) (h.aligned u (mem_of_getElem? hu))
        (h.lt_of_lt hfirst hu (lt_succ_self _))
      have hut := h.lt_of_lt hu ht (by omega)
      omega
  · rintro ⟨rfl, t', ht', heq⟩
    cases ht.symm.trans ht'
    exact Nat.eq_of_mul_eq_mul_left hD (by omega)

theorem follows_zero (hfirst : states[b.index]? = some first) : Follows states dataLog2 b 0 :=
  ⟨first, first, hfirst, hfirst, by rw [zero_mul, add_zero]⟩

/-- A range within a single Data Block is contiguous. -/
theorem longestHead_self (hr : RangeIn states dataLog2 b e) (heq : b.index = e.index) :
    LongestHead states dataLog2 b e e := by
  have hle : b.offset ≤ e.offset := by
    rcases hr.le with hlt | ⟨-, hle⟩
    · omega
    · exact hle
  have hcount : blockCount dataLog2 b e = e.offset - b.offset := by
    rw [blockCount, heq, Nat.sub_self, zero_mul, zero_add]
  refine ⟨e.offset - b.offset, hcount.ge, ?_, fun j hj => ?_, fun hlt => absurd hlt (by omega)⟩
  · rw [advance_eq, add_sub_cancel' hle, div_eq_of_lt hr.end_lt, mod_eq_of_lt hr.end_lt,
      add_zero, heq]
  · have hlt : b.index < states.length := by
      rw [heq]
      refine Nat.lt_of_le_of_ne hr.end_le (fun hend => ?_)
      have := hr.end_offset hend
      omega
    have hend := hr.end_lt
    rw [advance_eq, div_eq_of_lt (by omega), mod_eq_of_lt (by omega)]
    exact ⟨_, _, getElem?_eq_getElem hlt, getElem?_eq_getElem hlt, (add_assoc ..).symm⟩

variable (pr : Profile) (h : Ordered dataLog2 states) (hr : RangeIn states dataLog2 b e)
include h hr

/-- The range returned does not extend beyond the second Data Block. -/
theorem headSubrange_eq (hlt : b.index < e.index) (hfirst : states[b.index]? = some first) :
    (Follows states dataLog2 b 1 ∧ b.index + 1 = e.index ∧ e.offset ≠ 0 ∧
      allocationBlocksRangeContiguousHeadSubrange pr states dataLog2 b e = .ok (b, e)) ∨
    (Follows states dataLog2 b 1 ∧ b.index + 1 < e.index ∧
      allocationBlocksRangeContiguousHeadSubrange pr states dataLog2 b e =
        .ok (b, ⟨b.index + 2, 0⟩)) ∨
    ((Follows states dataLog2 b 1 → b.index + 1 = e.index ∧ e.offset = 0) ∧
      allocationBlocksRangeContiguousHeadSubrange pr states dataLog2 b e =
        .ok (b, ⟨b.index + 1, 0⟩)) := by
  obtain ⟨m, hm⟩ : ∃ m, e.index = b.index + 1 + m := ⟨e.index - (b.index + 1), by omega⟩
  have hlen := hr.end_le
  have hnew (q : Nat) (hq : 0 < q) : newRange pr b ⟨b.index + q, 0⟩ = .ok (b, ⟨b.index + q, 0⟩) := by
    rw [newRange, debugAssert_ok pr (.inl (by dsimp only; omega)), ok_bind]
    rfl
  have hinside (ho : e.offset ≠ 0) : e.index < states.length :=
    Nat.lt_of_le_of_ne hlen (fun hend => ho (hr.end_offset hend))
  -- All but the second state are at a distance of more than a Data Block.
  have htwo (hi : b.index + 2 < states.length) :
      isNext states dataLog2 first.targetAllocationBlocksBegin (b.index + 2) = .ok false := by
    obtain ⟨x, hx, hiff⟩ := isNext_ok h hfirst (q := 2) (by decide) hi
    rw [hx, Bool.eq_false_iff.mpr (fun hxt => absurd (hiff.mp hxt).1 (by decide))]
  rw [allocationBlocksRangeContiguousHeadSubrange, if_neg hlt.ne, index_ok hfirst, ok_bind,
    show e.index - (b.index + 1) = m by omega]
  dsimp only
  cases m with
  | zero =>
    rw [headLoop, pure_eq_ok, ok_bind]
    rw [if_pos rfl, debugAssert_ok pr hm.symm, ok_bind, lastIsNext]
    by_cases ho : e.offset = 0
    · rw [if_neg (not_not.mpr ho), pure_eq_ok, ok_bind, if_neg (by decide)]
      exact .inr (.inr ⟨fun _ => ⟨hm.symm, ho⟩, hnew 1 (by decide)⟩)
    · obtain ⟨x, hx, hiff⟩ := isNext_ok h hfirst (q := 1) (by decide) (hm ▸ hinside ho)
      rw [if_pos ho, hx, ok_bind]
      cases x with
      | false =>
        rw [if_neg (by decide)]
        exact .inr (.inr ⟨fun hf => absurd (hiff.mpr ⟨rfl, hf⟩) (by decide), hnew 1 (by decide)⟩)
      | true =>
        rw [if_pos rfl]
        exact .inl ⟨(hiff.mp rfl).2, hm.symm, ho, rfl⟩
  | succ m =>
    obtain ⟨x, hx, hiff⟩ := isNext_ok h hfirst (q := 1) (by decide) (by omega)
    rw [headLoop, if_pos (by omega), hx, ok_bind]
    cases x with
    | false =>
      rw [if_neg (by decide), pure_eq_ok, ok_bind]
      exact .inr (.inr ⟨fun hf => absurd (hiff.mpr ⟨rfl, hf⟩) (by decide), hnew 1 (by decide)⟩)
    | true =>
      refine .inr (.inl ⟨(hiff.mp rfl).2, by omega, ?_⟩)
      rw [if_pos rfl]
      cases m with
      | zero =>
        rw [headLoop, pure_eq_ok, ok_bind]
        rw [if_pos rfl, debugAssert_ok pr hm.symm, ok_bind, lastIsNext]
        by_cases ho : e.offset = 0
        · rw [if_neg (not_not.mpr ho), pure_eq_ok, ok_bind, if_neg (by decide)]
          exact hnew 2 (by decide)
        · rw [if_pos ho, htwo (hm ▸ hinside ho), ok_bind, if_neg (by decide)]
          exact hnew 2 (by decide)
      | succ m =>
        rw [headLoop, if_pos (by omega), htwo (by omega), ok_bind, if_neg (by decide), pure_eq_ok, ok_bind]
        exact hnew 2 (by decide)

/-- The longest contiguous head is found if and only if the first three Data Blocks are not a
contiguous part of the range. -/
theorem headSubrange_longest_iff :
    (∃ r, allocationBlocksRangeContiguousHeadSubrange pr states dataLog2 b e = .ok (b, r) ∧
      LongestHead states dataLog2 b e r) ↔ ¬ReachesThird states dataLog2 b e := by
  have hend := hr.end_lt
  rcases lt_or_ge b.index e.index with hlt | hge
  · obtain ⟨first, hfirst⟩ : ∃ s, states[b.index]? = some s :=
      ⟨_, getElem?_eq_getElem (hlt.trans_le hr.end_le)⟩
    have hzero := @follows_zero _ dataLog2 _ _ hfirst
    -- Only one result is possible.
    have hresult {r : AllocationBlockIndex}
        (hok : allocationBlocksRangeContiguousHeadSubrange pr states dataLog2 b e = .ok (b, r)) :
        (∃ r, allocationBlocksRangeContiguousHeadSubrange pr states dataLog2 b e = .ok (b, r) ∧
          LongestHead states dataLog2 b e r) ↔ LongestHead states dataLog2 b e r := by
      refine ⟨fun ⟨r', hok', hlong⟩ => ?_, fun hlong => ⟨r, hok, hlong⟩⟩
      obtain ⟨-, rfl⟩ := Prod.mk.inj (Except.ok.inj (hok.symm.trans hok'))
      exact hlong
    rcases headSubrange_eq pr h hr hlt hfirst with
      ⟨hf, hm, ho, hok⟩ | ⟨hf, hm, hok⟩ | ⟨hf, hok⟩
    · have hnot : ¬ReachesThird states dataLog2 b e := by
        rintro ⟨hthird, -, -⟩
        rw [← hm, Nat.add_sub_cancel_left] at hthird
        omega
      rw [hresult hok]
      refine ⟨fun _ => hnot, fun _ => ⟨blockCount dataLog2 b e, le_refl _,
        (advance_blockCount hr hlt).symm, (leads_iff hfirst hr.begin_lt).mpr (fun q hq hqe => ?_),
        fun hn => absurd hn (lt_irrefl _)⟩⟩
      have hb := hr.begin_lt
      rw [blockCount, ← hm, Nat.add_sub_cancel_left, one_mul, add_sub_cancel' (by omega)] at hqe
      obtain rfl : q = 1 := by
        have hq2 : q * 2 ^ dataLog2 < 2 * 2 ^ dataLog2 := by omega
        have := Nat.lt_of_mul_lt_mul_right hq2
        omega
      exact hf
    · rw [hresult hok, longestHead_whole_iff hr hfirst (by decide) (by omega), ReachesThird]
      · exact ⟨fun hnot ⟨hthird, _, htwo⟩ => hnot hthird htwo, fun hnot hthird htwo => hnot ⟨hthird, hf, htwo⟩⟩
      · intro i hi
        rcases Nat.lt_succ_iff_lt_or_eq.mp hi with hi | rfl
        · rwa [lt_one_iff.mp hi]
        · exact hf
    · rw [hresult hok, longestHead_whole_iff hr hfirst (by decide) (by omega)]
      · constructor
        · rintro - ⟨hthird, hone, -⟩
          obtain ⟨hm, ho⟩ := hf hone
          rw [← hm, Nat.add_sub_cancel_left] at hthird
          omega
        · intro _ hmore hone
          obtain ⟨hm, ho⟩ := hf hone
          rw [← hm, Nat.add_sub_cancel_left] at hmore
          omega
      · intro i hi
        rwa [lt_one_iff.mp hi]
  · have heq : b.index = e.index := by
      rcases hr.le with hlt | ⟨heq, -⟩
      · omega
      · exact heq
    refine ⟨fun _ hthird => ?_, fun _ => ⟨e, if_pos heq, longestHead_self hr heq⟩⟩
    have hthird := hthird.1
    rw [heq, Nat.sub_self] at hthird
    omega

end Run

def threeStates : List AuthTreeDataBlockUpdateState :=
  [⟨0, none, [⟨.allocatedUnmodified, .none⟩], none⟩, ⟨1, none, [⟨.allocatedUnmodified, .none⟩], none⟩,
    ⟨2, none, [⟨.allocatedUnmodified, .none⟩], none⟩]

theorem headSubrange_longest_iff_two :
    (∃ r, allocationBlocksRangeContiguousHeadSubrange .debug threeStates 0 ⟨0, 0⟩ ⟨2, 0⟩ =
      .ok (⟨0, 0⟩, r) ∧ LongestHead threeStates 0 ⟨0, 0⟩ ⟨2, 0⟩ r) ↔
      ¬ReachesThird threeStates 0 ⟨0, 0⟩ ⟨2, 0⟩ :=
  headSubrange_longest_iff .debug ⟨by decide, by simp [threeStates], by decide, by decide⟩
    ⟨by decide, by decide, by decide, by decide, by decide⟩

theorem headSubrange_drops_third :
    ¬∃ r, allocationBlocksRangeContiguousHeadSubrange .debug threeStates 0 ⟨0, 0⟩ ⟨3, 0⟩ =
      .ok (⟨0, 0⟩, r) ∧ LongestHead threeStates 0 ⟨0, 0⟩ ⟨3, 0⟩ r := by
  rintro ⟨r, hok, k, -, hadvance, -, hstop⟩
  have hrun : allocationBlocksRangeContiguousHeadSubrange .debug threeStates 0 ⟨0, 0⟩ ⟨3, 0⟩ =
    .ok (⟨0, 0⟩, ⟨2, 0⟩) := rfl
  obtain ⟨-, rfl⟩ := Prod.mk.inj (Except.ok.inj (hrun.symm.trans hok))
  have htwo : (⟨0, 0⟩ : AllocationBlockIndex).advance 2 0 = ⟨2, 0⟩ := rfl
  obtain rfl := advance_injective (htwo.trans hadvance)
  refine hstop (by decide) (fun j hj => ?_)
  obtain rfl | rfl | rfl : j = 0 ∨ j = 1 ∨ j = 2 := by omega
  · exact ⟨_, _, rfl, rfl, rfl⟩
  · exact ⟨_, _, rfl, rfl, rfl⟩
  · exact ⟨_, _, rfl, rfl, rfl⟩

end CocoonFs.HeadSubrange
