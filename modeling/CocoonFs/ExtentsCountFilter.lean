import CocoonFs.ExtentsReallocation
import CocoonFs.CacheRows
import CocoonFs.Bitmap

namespace CocoonFs.ExtentsCountFilter

open Checked BackupLocation IoRegion ExtentsLayouts ExtentsReallocation
open Bitmap (BitmapWord trailingBitsMask)
open CacheSet (fitting shl subU32)
open CacheRows (fitting_ok shl_ok subU32_ok)

structure ExtentsAllocationRequestProgress where
  request : ExtentsAllocationRequest
  allocatedEffectivePayloadLen : Nat
  allocatedExcessEffectivePayloadLen : Nat
  deriving DecidableEq, Repr

def remainingEffectivePayloadLen (pr : Profile) (p : ExtentsAllocationRequestProgress) :
    Comp Nat := do
  let remaining ← subU64 pr p.request.totalEffectivePayloadLen p.allocatedEffectivePayloadLen
  debugAssert pr (remaining = 0 ∨ p.allocatedExcessEffectivePayloadLen = 0)
  pure remaining

def expandMasks : List Nat → BitmapWord → BitmapWord → List BitmapWord
  | [], _, _ => []
  | i :: is, mask, mk =>
    let mp := (List.range 6).foldl (fun (mp : BitmapWord) j => mp ^^^ (mp >>> 2 ^ j)) mk
    let mv := mp &&& mask
    mv :: expandMasks is ((mask ^^^ mv) ||| (mv <<< 2 ^ i)) (mk &&& ~~~mp)

def expandFromLeft (x mask : BitmapWord) : BitmapWord :=
  let a := expandMasks (List.range 6) mask (~~~mask >>> 1)
  ((List.range 6).zip a).foldr (fun (i, mv) x => (x &&& ~~~mv) ||| ((x >>> 2 ^ i) &&& mv)) x &&& mask

def addU32 (pr : Profile) (a b : Nat) : Comp Nat :=
  fitting pr (a + b < 2 ^ 32) ((a + b) % 2 ^ 32)

/-- Bounds the number of extents. The budget is an u32, the length an u64. -/
structure ConstrainExtentsCount where
  budget : Nat
  minAcceptedExtentFullwordBlocks : Nat
  deriving DecidableEq, Repr

def new (pr : Profile) (request : ExtentsAllocationRequest) : Comp ConstrainExtentsCount := do
  let len ← subU64 pr request.totalEffectivePayloadLen 1
  let budget := (if request.totalEffectivePayloadLen ≠ 1 then Nat.log2 len + 1 else 0) + 1
  let fullwordBlockLenLog2 := request.layout.blockLenLog2 + 6
  pure ⟨max budget (fullwordBlockLenLog2 + 1) - fullwordBlockLenLog2, 1⟩

def accountExtentAdded (f : ConstrainExtentsCount) : ConstrainExtentsCount :=
  { f with budget := (f.budget + 2 ^ 32 - 1) % 2 ^ 32 }

def accountExtentsDropped (pr : Profile) (f : ConstrainExtentsCount) (nExtentsDropped : Nat) :
    Comp ConstrainExtentsCount :=
  if f.budget = 0 then pure f
  else do
    let budget ← addU32 pr f.budget nExtentsDropped
    pure { f with budget }

/-- Whether all bits from the most to the least significant one receive a ticket. -/
def allBitsWithinBudget (pr : Profile) (fullwordBlocks lsb : BitmapWord) (budget : Nat) :
    Comp Bool := do
  let last ← addU32 pr (Nat.log2 lsb.toNat) budget
  if 64 ≤ last then pure true
  else do
    let shifted ← shl pr lsb budget
    pure (decide (fullwordBlocks < shifted))

/-- The positions in the remaining number of whole words that receive a ticket, only the
least significant one matters. -/
def budgetAllocationMask (pr : Profile) (fullwordBlocks : BitmapWord) (budget : Nat) :
    Comp BitmapWord := do
  let lsb := fullwordBlocks &&& -fullwordBlocks
  let all ← allBitsWithinBudget pr fullwordBlocks lsb budget
  let others ← subU32 pr budget 1
  if all then shl pr 1#64 (Nat.log2 fullwordBlocks.toNat - others)
  else if fullwordBlocks.cpop.toNat ≤ budget then pure lsb
  else do
    let unset ← subU32 pr 64 budget
    pure (expandFromLeft (~~~trailingBitsMask unset) fullwordBlocks)

/-- All the bits up to the least significant one, which is 1 then. -/
def minAcceptedLenMask (mask : BitmapWord) : BitmapWord :=
  if mask ≠ 0 then mask ^^^ (mask - 1) else BitVec.allOnes 64

/-- The number of whole words for a length, capped to what's permitted. -/
def minAcceptedFullwordBlocks (pr : Profile) (l : ExtentsLayout) (len : Nat) (isFirst : Bool) :
    Comp Nat := do
  let (blocks, _) ← l.extentPayloadLenToAllocationBlocks pr len isFirst
  let aligned ← roundUpPow2Unchecked pr (min blocks (roundDownPow2 l.maxExtentAllocationBlocks 6)) 6
  shrU64 pr aligned 6

def updateFilterState (pr : Profile) (f : ConstrainExtentsCount)
    (progress : ExtentsAllocationRequestProgress) (maxSubwordExtentEffectivePayloadLen : Nat) :
    Comp ConstrainExtentsCount := do
  let l := progress.request.layout
  let fullwordLen ← shlU64 pr 64 l.blockLenLog2
  debugAssert pr (maxSubwordExtentEffectivePayloadLen < fullwordLen)
  let remaining ← remainingEffectivePayloadLen pr progress
  debugAssert pr (maxSubwordExtentEffectivePayloadLen < remaining)
  let remaining ← subU64 pr remaining maxSubwordExtentEffectivePayloadLen
  if f.budget = 0 then do
    debugAssert pr (progress.allocatedEffectivePayloadLen ≠ 0)
    let blocks ← minAcceptedFullwordBlocks pr l remaining false
    pure { f with minAcceptedExtentFullwordBlocks := blocks }
  else do
    let isFirst := decide (progress.allocatedEffectivePayloadLen = 0)
    let remainingBlocks ← shrU64 pr remaining l.blockLenLog2
    let fullwordBlocks := BitVec.ofNat 64 (max (remainingBlocks / 2 ^ 6) 1)
    let mask ← budgetAllocationMask pr fullwordBlocks f.budget
    let mask ← shl pr mask l.blockLenLog2
    let mask := minAcceptedLenMask (mask <<< 6)
    let lsb := mask &&& -mask
    let len := min (max (BitVec.ofNat 64 remaining &&& mask).toNat lsb.toNat) remaining
    let blocks ← minAcceptedFullwordBlocks pr l len isFirst
    pure { f with minAcceptedExtentFullwordBlocks := blocks }

def extentCandidateAcceptable (f : ConstrainExtentsCount) (candidateExtentAllocationBlocks : Nat) :
    Bool :=
  decide (f.minAcceptedExtentFullwordBlocks ≤ candidateExtentAllocationBlocks / 2 ^ 6)

structure UpdateCall (f : ConstrainExtentsCount) (progress : ExtentsAllocationRequestProgress)
    (maxSubwordExtentEffectivePayloadLen : Nat) : Prop where
  valid : progress.request.layout.Valid
  alignmentLog2_le : progress.request.layout.extentAlignmentAllocationBlocksLog2 ≤ 6
  le_maxBlocks : 64 ≤ progress.request.layout.maxExtentAllocationBlocks
  maxSubwordLen_lt : maxSubwordExtentEffectivePayloadLen <
    64 * 2 ^ progress.request.layout.blockLenLog2
  remaining_pos : progress.allocatedEffectivePayloadLen + maxSubwordExtentEffectivePayloadLen <
    progress.request.totalEffectivePayloadLen
  totalLen_lt : progress.request.totalEffectivePayloadLen < 2 ^ 64
  excess_zero : progress.allocatedExcessEffectivePayloadLen = 0
  allocated_ne : f.budget = 0 → progress.allocatedEffectivePayloadLen ≠ 0

inductive Op where
  | extentAdded
  | extentsDropped (nExtentsDropped : Nat)
  | update (progress : ExtentsAllocationRequestProgress) (maxSubwordExtentEffectivePayloadLen : Nat)

def Op.apply (pr : Profile) (f : ConstrainExtentsCount) : Op → Comp ConstrainExtentsCount
  | .extentAdded => pure (accountExtentAdded f)
  | .extentsDropped n => accountExtentsDropped pr f n
  | .update progress maxLen => updateFilterState pr f progress maxLen

/-- The budget as a number that may get negative: an extent added takes a ticket, those
dropped give theirs back unless there's none left. -/
def Op.balance (b : Int) : Op → Int
  | .extentAdded => b - 1
  | .extentsDropped n => if b = 0 then 0 else b + n
  | .update _ _ => b

/-- No extent is added without a ticket left, and those dropped don't raise the budget
to close to the numeric range's end. -/
def Op.Covered (f : ConstrainExtentsCount) : Op → Prop
  | .extentAdded => f.budget ≠ 0
  | .extentsDropped n => f.budget = 0 ∨ f.budget + n + 64 ≤ 2 ^ 32
  | .update progress maxLen => UpdateCall f progress maxLen

inductive Reached (pr : Profile) (Allowed : ConstrainExtentsCount → Op → Prop)
    (f₀ : ConstrainExtentsCount) (b₀ : Int) : ConstrainExtentsCount → Int → Prop
  | start : Reached pr Allowed f₀ b₀ f₀ b₀
  | step {f f' : ConstrainExtentsCount} {b : Int} (op : Op) (h : Reached pr Allowed f₀ b₀ f b)
      (hop : Allowed f op) (hf' : op.apply pr f = .ok f') : Reached pr Allowed f₀ b₀ f' (op.balance b)

theorem log2_toNat_lt (w : BitmapWord) : Nat.log2 w.toNat < 64 := by
  by_cases hzero : w.toNat = 0
  · rw [hzero]
    decide
  · exact (Nat.log2_lt hzero).mpr w.isLt

section Update

variable (pr : Profile) {f : ConstrainExtentsCount} {l : ExtentsLayout} {len : Nat} {first : Bool}

theorem budgetAllocationMask_ok (w : BitmapWord) {budget : Nat} (hpos : budget ≠ 0)
    (hle : budget + 64 ≤ 2 ^ 32) : ∃ mask, budgetAllocationMask pr w budget = .ok mask := by
  have hlog2 := log2_toNat_lt w
  have hlsb := log2_toNat_lt (w &&& -w)
  have hall : ∃ all, allBitsWithinBudget pr w (w &&& -w) budget = .ok all := by
    rw [allBitsWithinBudget, addU32, fitting_ok pr (by omega), ok_bind, Nat.mod_eq_of_lt (by omega)]
    split
    · exact ⟨true, rfl⟩
    · rw [shl_ok pr _ (by omega)]
      exact ⟨_, rfl⟩
  obtain ⟨all, hall⟩ := hall
  rw [budgetAllocationMask, hall, ok_bind, subU32_ok pr (by omega) (by omega), ok_bind]
  split
  · exact ⟨_, shl_ok pr _ (by omega)⟩
  · split
    · exact ⟨_, rfl⟩
    next hcpop =>
      have hcount := BitVec.toNat_cpop_le w
      rw [subU32_ok pr (by omega) (by decide)]
      exact ⟨_, rfl⟩

theorem minAcceptedFullwordBlocks_ok (hv : l.Bounded)
    (ha : l.extentAlignmentAllocationBlocksLog2 ≤ 6) (first : Bool) (len : Nat) :
    ∃ blocks, minAcceptedFullwordBlocks pr l len first = .ok blocks ∧
      (¬(first = false ∧ len = 0) → ∀ c, blocks ≤ c / 2 ^ 6 ↔
        l.Fits (c / 2 ^ 6 * 2 ^ 6) first len ∨ l.maxExtentAllocationBlocks / 2 ^ 6 ≤ c / 2 ^ 6) := by
  obtain ⟨n, fits, hn, hblocks⟩ := hv.exists_blocks pr first len
  have hmax := hv.maxBlocks_lt
  rw [minAcceptedFullwordBlocks, hn, ok_bind]
  dsimp only
  rw [roundDownPow2, ExtentsLayout.roundUpPow2Unchecked_roundUp pr (by decide) (by omega), ok_bind,
    shrU64_ok pr (by decide)]
  refine ⟨_, rfl, fun hne c => ?_⟩
  have hdvd : 2 ^ l.extentAlignmentAllocationBlocksLog2 ∣ c / 2 ^ 6 * 2 ^ 6 :=
    Dvd.dvd.mul_left (pow_dvd_pow 2 ha) _
  rw [roundUp, Nat.mul_div_cancel _ (by decide), divCeil_le_iff (by decide), min_le_iff,
    Nat.mul_comm (2 ^ 6), Nat.mul_le_mul_right_iff (by decide)]
  constructor
  · rintro (hle' | hle')
    · cases fits with
      | true =>
        rcases hblocks.holds rfl with ⟨hfirst, -, hlen⟩ | hfit
        · exact absurd ⟨hfirst, hlen⟩ hne
        · exact .inl (hfit.mono hle')
      | false =>
        obtain ⟨rfl, -⟩ := hblocks.capped rfl
        exact .inr (by omega)
    · exact .inr hle'
  · rintro (hfit | hle')
    · rcases Nat.lt_or_ge (c / 2 ^ 6 * 2 ^ 6) n with hlt | hge
      · exact absurd (.inr hfit) (hblocks.least _ hdvd hlt)
      · exact .inl hge
    · exact .inr hle'

/-- Nothing overflows, and with the budget used up only extents are accepted that hold
all that remains, or as long as permitted. -/
theorem updateFilterState_ok {progress : ExtentsAllocationRequestProgress} {maxLen : Nat}
    (hf : f.budget + 64 ≤ 2 ^ 32) (h : UpdateCall f progress maxLen) :
    ∃ f', updateFilterState pr f progress maxLen = .ok f' ∧ f'.budget = f.budget ∧
      (f.budget = 0 → ∀ c, extentCandidateAcceptable f' c = true ↔
        progress.request.layout.Fits (c / 2 ^ 6 * 2 ^ 6) false
          (progress.request.totalEffectivePayloadLen - progress.allocatedEffectivePayloadLen -
            maxLen) ∨
        progress.request.layout.maxExtentAllocationBlocks / 2 ^ 6 ≤ c / 2 ^ 6) := by
  have hv := h.valid.toBounded
  have hlog2 := hv.blockLenLog2_lt
  have hremaining := h.remaining_pos
  have hlen : 64 * 2 ^ progress.request.layout.blockLenLog2 < 2 ^ 64 :=
    Nat.lt_of_le_of_lt (Nat.mul_le_mul_right _ h.le_maxBlocks) hv.maxLen_lt
  have hsub : remainingEffectivePayloadLen pr progress =
      .ok (progress.request.totalEffectivePayloadLen - progress.allocatedEffectivePayloadLen) := by
    rw [remainingEffectivePayloadLen, subU64_ok pr (by omega), ok_bind,
      debugAssert_ok pr (.inr h.excess_zero)]
    rfl
  rw [updateFilterState]
  dsimp only
  rw [shlU64_ok pr hlog2 hlen, ok_bind, debugAssert_ok pr h.maxSubwordLen_lt, ok_bind, hsub, ok_bind,
    debugAssert_ok pr (by omega), ok_bind, subU64_ok pr (by omega), ok_bind]
  by_cases hzero : f.budget = 0
  · obtain ⟨blocks, hblocks, haccepts⟩ := minAcceptedFullwordBlocks_ok pr hv h.alignmentLog2_le false
      (progress.request.totalEffectivePayloadLen - progress.allocatedEffectivePayloadLen - maxLen)
    rw [if_pos hzero, debugAssert_ok pr (h.allocated_ne hzero), ok_bind, hblocks, ok_bind]
    refine ⟨_, rfl, rfl, fun _ c => ?_⟩
    rw [extentCandidateAcceptable, decide_eq_true_iff]
    exact haccepts (by omega) c
  · rw [if_neg hzero, shrU64_ok pr hlog2, ok_bind]
    obtain ⟨mask, hmask⟩ := budgetAllocationMask_ok pr (BitVec.ofNat 64 (max
      ((progress.request.totalEffectivePayloadLen - progress.allocatedEffectivePayloadLen -
        maxLen) / 2 ^ progress.request.layout.blockLenLog2 / 2 ^ 6) 1)) hzero hf
    rw [hmask, ok_bind, shl_ok pr _ hlog2, ok_bind]
    obtain ⟨blocks, hblocks, -⟩ := minAcceptedFullwordBlocks_ok pr hv h.alignmentLog2_le
      (decide (progress.allocatedEffectivePayloadLen = 0)) (min (max (BitVec.ofNat 64
        (progress.request.totalEffectivePayloadLen - progress.allocatedEffectivePayloadLen -
          maxLen) &&&
        minAcceptedLenMask (mask <<< progress.request.layout.blockLenLog2 <<< 6)).toNat
        (minAcceptedLenMask (mask <<< progress.request.layout.blockLenLog2 <<< 6) &&&
          -minAcceptedLenMask (mask <<< progress.request.layout.blockLenLog2 <<< 6)).toNat)
        (progress.request.totalEffectivePayloadLen - progress.allocatedEffectivePayloadLen -
          maxLen))
    rw [hblocks, ok_bind]
    exact ⟨_, rfl, rfl, fun h => absurd h hzero⟩

end Update

variable {f : ConstrainExtentsCount}

theorem new_budget {pr : Profile} {request : ExtentsAllocationRequest}
    (htotal : request.totalEffectivePayloadLen < 2 ^ 64) (h : new pr request = .ok f) :
    0 < f.budget ∧ f.budget ≤ 65 := by
  obtain ⟨len, hlen, h⟩ := bind_eq_ok h
  cases h
  have hlt : len < 2 ^ 64 := by
    rw [subU64] at hlen
    split at hlen
    · rw [← Except.ok.inj hlen]
      omega
    · cases pr with
      | debug => cases hlen
      | release =>
        rw [← Except.ok.inj hlen]
        exact Nat.mod_lt _ (by decide)
  have hlog2 : Nat.log2 len < 64 := by
    by_cases hzero : len = 0
    · rw [hzero]
      decide
    · exact (Nat.log2_lt hzero).mpr hlt
  dsimp only
  split <;> omega

/-- Only extents are accepted that hold all that remains, or as long as permitted. -/
def AcceptsMaximumOnly (f : ConstrainExtentsCount) (progress : ExtentsAllocationRequestProgress)
    (maxLen : Nat) : Prop :=
  ∀ c, extentCandidateAcceptable f c = true ↔
    progress.request.layout.Fits (c / 2 ^ 6 * 2 ^ 6) false
      (progress.request.totalEffectivePayloadLen - progress.allocatedEffectivePayloadLen - maxLen) ∨
    progress.request.layout.maxExtentAllocationBlocks / 2 ^ 6 ≤ c / 2 ^ 6

/-- The budget is the true number of tickets left, and stays used up. -/
structure Sound (pr : Profile) (f : ConstrainExtentsCount) (b : Int) : Prop where
  budget_eq : (f.budget : Int) = b
  update_ok : ∀ progress maxLen, UpdateCall f progress maxLen →
    ∃ f', updateFilterState pr f progress maxLen = .ok f' ∧
      (f.budget = 0 → AcceptsMaximumOnly f' progress maxLen)
  stays_used_up : f.budget = 0 → ∀ f' b', Reached pr Op.Covered f b f' b' → f'.budget = 0

section Run

variable {pr : Profile} {f f' f₀ : ConstrainExtentsCount} {b b₀ b' : Int}

theorem Op.apply_budget {op : Op} (heq : (f.budget : Int) = b) (hle : f.budget + 64 ≤ 2 ^ 32)
    (hcovered : op.Covered f) (h : op.apply pr f = .ok f') :
    (f'.budget : Int) = op.balance b ∧ f'.budget + 64 ≤ 2 ^ 32 ∧
      (f.budget = 0 → f'.budget = 0) := by
  cases op with
  | extentAdded =>
    have hne : f.budget ≠ 0 := hcovered
    rw [← Except.ok.inj h]
    have hbudget : (accountExtentAdded f).budget = f.budget - 1 := by
      dsimp only [accountExtentAdded]
      rw [show f.budget + 2 ^ 32 - 1 = f.budget - 1 + 2 ^ 32 by omega, Nat.add_mod_right,
        Nat.mod_eq_of_lt (by omega)]
    rw [hbudget, balance]
    omega
  | extentsDropped n =>
    rw [apply, accountExtentsDropped] at h
    rw [balance]
    split at h
    next hzero =>
      cases h
      rw [if_pos (by omega)]
      omega
    next hne =>
      have hn : f.budget + n + 64 ≤ 2 ^ 32 := Or.resolve_left hcovered hne
      rw [addU32, fitting_ok pr (by omega), ok_bind, Nat.mod_eq_of_lt (by omega)] at h
      cases h
      rw [if_neg (by omega)]
      dsimp only
      omega
  | update progress maxLen =>
    obtain ⟨g, hg, hbudget, -⟩ := updateFilterState_ok pr hle hcovered
    rw [apply, hg] at h
    cases h
    rw [balance]
    omega

theorem Reached.budget (heq : (f₀.budget : Int) = b₀) (hle : f₀.budget + 64 ≤ 2 ^ 32)
    (h : Reached pr Op.Covered f₀ b₀ f b) :
    (f.budget : Int) = b ∧ f.budget + 64 ≤ 2 ^ 32 ∧ (f₀.budget = 0 → f.budget = 0) := by
  induction h with
  | start => exact ⟨heq, hle, id⟩
  | step op _ hop hf' ih =>
    obtain ⟨heq', hle', hzero⟩ := op.apply_budget ih.1 ih.2.1 hop hf'
    exact ⟨heq', hle', fun h => hzero (ih.2.2 h)⟩

theorem Reached.mono {Allowed Allowed' : ConstrainExtentsCount → Op → Prop}
    (hallowed : ∀ f op, Allowed f op → Allowed' f op) (h : Reached pr Allowed f₀ b₀ f b) :
    Reached pr Allowed' f₀ b₀ f b := by
  induction h with
  | start => exact .start
  | step op _ hop hf' ih => exact .step op ih (hallowed _ _ hop) hf'

/-- As long as no extent is added without a ticket left, the budget doesn't wrap, nothing
overflows and once used up the constraint isn't lifted any more. -/
theorem reached_sound {request : ExtentsAllocationRequest}
    (htotal : request.totalEffectivePayloadLen < 2 ^ 64) (hnew : new pr request = .ok f₀)
    (h : Reached pr Op.Covered f₀ f₀.budget f b) : Sound pr f b := by
  obtain ⟨-, hbudget⟩ := new_budget htotal hnew
  obtain ⟨heq, hle, -⟩ := h.budget rfl (by omega)
  refine ⟨heq, fun progress maxLen hcall => ?_, fun hzero f' b' h' => (h'.budget heq hle).2.2 hzero⟩
  obtain ⟨f', hf', -, haccepts⟩ := updateFilterState_ok pr hle hcall
  exact ⟨f', hf', haccepts⟩

end Run

def cappedLayout : ExtentsLayout := ⟨256, 0, 0, 0, 0, 1, 0⟩

def cappedRequest : ExtentsAllocationRequest := ⟨8 * 32768, cappedLayout⟩

theorem new_capped : new .debug cappedRequest = .ok ⟨6, 1⟩ := by decide +kernel

theorem reached_capped : Reached .debug Op.Covered ⟨6, 1⟩ 6 ⟨0, 1⟩ 0 := by
  have h₁ : Reached .debug Op.Covered ⟨6, 1⟩ 6 ⟨5, 1⟩ 5 :=
    .step .extentAdded .start (by decide : (6 : Nat) ≠ 0) rfl
  have h₂ : Reached .debug Op.Covered ⟨6, 1⟩ 6 ⟨4, 1⟩ 4 :=
    .step .extentAdded h₁ (by decide : (5 : Nat) ≠ 0) rfl
  have h₃ : Reached .debug Op.Covered ⟨6, 1⟩ 6 ⟨3, 1⟩ 3 :=
    .step .extentAdded h₂ (by decide : (4 : Nat) ≠ 0) rfl
  have h₄ : Reached .debug Op.Covered ⟨6, 1⟩ 6 ⟨2, 1⟩ 2 :=
    .step .extentAdded h₃ (by decide : (3 : Nat) ≠ 0) rfl
  have h₅ : Reached .debug Op.Covered ⟨6, 1⟩ 6 ⟨1, 1⟩ 1 :=
    .step .extentAdded h₄ (by decide : (2 : Nat) ≠ 0) rfl
  exact .step .extentAdded h₅ (by decide : (1 : Nat) ≠ 0) rfl

theorem reached_sound_capped : Sound .debug ⟨0, 1⟩ 0 :=
  reached_sound (by decide) new_capped reached_capped

theorem cappedLayout_valid : cappedLayout.Valid where
  alignmentLog2_lt := by decide
  payloadAlignment_pos := by decide
  payloadAlignment_lt := by decide
  extentsHdrLen_lt := by decide
  extentHdrLen_lt := by decide
  extentPayloadHdrLen_lt := by decide
  maxBlocks_pos := by decide
  maxBlocks_aligned := by decide
  maxLen_lt := by decide
  headFits := by decide
  tailFits := by decide

theorem updateCall_capped {len : Nat} (hpos : 0 < len)
    (hlen : len + 8064 < 8 * 32768) : UpdateCall f ⟨cappedRequest, len, 0⟩ 8064 where
  valid := cappedLayout_valid
  alignmentLog2_le := Nat.zero_le 6
  le_maxBlocks := (by decide : 64 ≤ cappedLayout.maxExtentAllocationBlocks)
  maxSubwordLen_lt := (by decide : 8064 < 64 * 2 ^ cappedLayout.blockLenLog2)
  remaining_pos := hlen
  totalLen_lt := (by decide : cappedRequest.totalEffectivePayloadLen < 2 ^ 64)
  excess_zero := rfl
  allocated_ne := fun _ => hpos.ne'

/-- With the budget used up, one more extent makes it wrap: extents shorter than the
maximum are accepted again, or the update panics. -/
theorem budget_wraps :
    new .debug cappedRequest = .ok ⟨6, 1⟩ ∧
      Reached .debug (fun _ _ => True) ⟨6, 1⟩ 6 ⟨2 ^ 32 - 1, 1⟩ (-1) ∧
      UpdateCall ⟨2 ^ 32 - 1, 1⟩ ⟨cappedRequest, 7 * 32768, 0⟩ 8064 ∧
      updateFilterState .debug ⟨2 ^ 32 - 1, 1⟩ ⟨cappedRequest, 7 * 32768, 0⟩ 8064 =
        .ok ⟨2 ^ 32 - 1, 2⟩ ∧
      ¬AcceptsMaximumOnly ⟨2 ^ 32 - 1, 2⟩ ⟨cappedRequest, 7 * 32768, 0⟩ 8064 ∧
      UpdateCall ⟨2 ^ 32 - 1, 1⟩ ⟨cappedRequest, 7 * 32768 + 8192, 0⟩ 8064 ∧
      updateFilterState .debug ⟨2 ^ 32 - 1, 1⟩ ⟨cappedRequest, 7 * 32768 + 8192, 0⟩ 8064 =
        panic .overflow := by
  refine ⟨new_capped, ?_, updateCall_capped (by decide) (by decide), by decide +kernel, ?_,
    updateCall_capped (by decide) (by decide), by decide +kernel⟩
  · exact .step .extentAdded (reached_capped.mono fun _ _ _ => trivial) trivial rfl
  · intro haccepts
    exact absurd ((haccepts 128).mp (by decide)) (by decide)

end CocoonFs.ExtentsCountFilter
