import CocoonFs.DistinctByte

namespace CocoonFs.CommitIds

open Checked
open List (append_assoc drop_left' flatten_cons flatten_nil length_append length_drop length_map
  length_replicate length_singleton length_take mem_append mem_cons mem_map mem_singleton
  not_mem_nil take_left')
open Vector (getElem_map getElem_mem)

abbrev Checksum := Vector UInt8 8

/-- The first and the last byte of each commit id recorded on storage. -/
abbrev CommitIdsTails := Vector (Vector UInt8 2) 2

def takeExact (xs : List UInt8) (n : Nat) : Comp (List UInt8) :=
  if n ≤ xs.length then pure (xs.take n) else err .internal

def skip (xs : List UInt8) (n : Nat) : Comp (List UInt8) :=
  if n ≤ xs.length then pure (xs.drop n) else err .internal

def xorChecksum (checksum : Checksum) (tails : CommitIdsTails) : CommitIdsTails :=
  tails.map (fun tail => #v[tail[0] ^^^ checksum[0], tail[1] ^^^ checksum[7]])

def valuesToAvoid (region0 region1 : List UInt8) (checksum : Checksum) (tails : CommitIdsTails) :
    List (List UInt8) :=
  [region0, region1, checksum.toList, tails[0].toList, tails[1].toList]

def extentTier0IntegrityProtectionApply (pr : Profile) (findDistinctU8Value : List (List UInt8) → Comp UInt8)
    (extent : List UInt8) (extentHeadSkip integrityProtectionsOffset : Nat) (checksum : Checksum)
    (lastCommitIdsTails : CommitIdsTails) : Comp (Checksum × List UInt8) :=
  if extentHeadSkip > 128 - 8 - 1 ∨ integrityProtectionsOffset > 128 - extentHeadSkip - 8 - 1 then
    err .internal
  else do
    let behindSkip ← skip extent extentHeadSkip
    let region0 ← takeExact behindSkip integrityProtectionsOffset
    let region1 ← takeExact behindSkip (128 - extentHeadSkip)
    let region1 ← skip region1 (integrityProtectionsOffset + 8 + 1)
    let lastCommitIdsTails := xorChecksum checksum lastCommitIdsTails
    let xorMask ← findDistinctU8Value (valuesToAvoid region0 region1 checksum lastCommitIdsTails)
    let commitId := checksum.map (· ^^^ xorMask)
    debugAssert pr (commitId[0] ≠ lastCommitIdsTails[0][0])
    debugAssert pr (commitId[0] ≠ lastCommitIdsTails[1][0])
    debugAssert pr (commitId[7] ≠ lastCommitIdsTails[0][1])
    debugAssert pr (commitId[7] ≠ lastCommitIdsTails[1][1])
    pure (commitId, extent.take extentHeadSkip ++ region0.map (· ^^^ xorMask) ++ commitId.toList ++
      [xorMask] ++ region1.map (· ^^^ xorMask) ++ behindSkip.drop (128 - extentHeadSkip))

variable {mask : UInt8}

section Xor

variable {a b c : UInt8}

theorem xor_ne_iff : a ^^^ b ≠ c ↔ b ≠ c ^^^ a := by
  rw [not_iff_not]
  constructor
  · rintro rfl
    rw [UInt8.xor_comm (a ^^^ b), ← UInt8.xor_assoc, UInt8.xor_self, UInt8.zero_xor]
  · rintro rfl
    rw [UInt8.xor_comm c, ← UInt8.xor_assoc, UInt8.xor_self, UInt8.zero_xor]

/-- The checksum having been applied to the recorded byte cancels out. -/
theorem xor_ne_xor_iff : a ^^^ b ≠ c ^^^ a ↔ b ≠ c := by
  rw [xor_ne_iff, UInt8.xor_assoc, UInt8.xor_self, UInt8.xor_zero]

/-- A mask not among the data leaves no zero byte. -/
theorem zero_not_mem_xor {data : List UInt8} (h : mask ∉ data) :
    0 ∉ data.map (· ^^^ mask) := by
  intro hzero
  obtain ⟨b, hb, hxor⟩ := mem_map.mp hzero
  refine h ?_
  rwa [← UInt8.xor_eq_zero_iff.mp hxor]

end Xor

section Apply

variable {pr : Profile} {find : List (List UInt8) → Comp UInt8}
  {extent : List UInt8} {headSkip offset : Nat} {checksum : Checksum}
  {tails : CommitIdsTails}

/-- The protections are within the first 128 bytes, which the extent covers. -/
def Fits (extent : List UInt8) (headSkip offset : Nat) : Prop :=
  headSkip + offset + 9 ≤ 128 ∧ 128 ≤ extent.length

def regions (extent : List UInt8) (headSkip offset : Nat) :
    List UInt8 × List UInt8 :=
  ((extent.drop headSkip).take offset,
    ((extent.drop headSkip).take (128 - headSkip)).drop (offset + 8 + 1))

def passed (extent : List UInt8) (headSkip offset : Nat) (checksum : Checksum)
    (tails : CommitIdsTails) : List (List UInt8) :=
  valuesToAvoid (regions extent headSkip offset).1
    (regions extent headSkip offset).2 checksum (xorChecksum checksum tails)

def FindsDistinct (find : List (List UInt8) → Comp UInt8) (values : List (List UInt8)) :
    Prop :=
  ∃ v, find values = .ok v ∧ v ≠ 0 ∧ v ∉ values.flatten

def masked (extent : List UInt8) (headSkip offset : Nat) (checksum : Checksum)
    (mask : UInt8) : List UInt8 :=
  let (region0, region1) := regions extent headSkip offset
  extent.take headSkip ++ region0.map (· ^^^ mask) ++ (checksum.map (· ^^^ mask)).toList ++
    [mask] ++ region1.map (· ^^^ mask) ++ (extent.drop headSkip).drop (128 - headSkip)

/-- The commit id is distinct from the ones recorded, and no byte protected is zero. -/
structure Protected (extent : List UInt8) (headSkip : Nat) (tails : CommitIdsTails)
    (commitId : Checksum) (extent' : List UInt8) : Prop where
  length_eq : extent'.length = extent.length
  first_ne : commitId[0] ≠ tails[0][0] ∧ commitId[0] ≠ tails[1][0]
  last_ne : commitId[7] ≠ tails[0][1] ∧ commitId[7] ≠ tails[1][1]
  nonzero : 0 ∉ (extent'.take 128).drop headSkip

def tailBytes (tails : CommitIdsTails) : List UInt8 :=
  [tails[0][0], tails[1][0], tails[0][1], tails[1][1]]

theorem debugAssert_congr {p q : Prop} [Decidable p] [Decidable q] (h : p ↔ q) :
    debugAssert pr p = debugAssert pr q := by
  cases pr with
  | debug => exact if_congr h rfl rfl
  | release => rfl

theorem apply_err (h : ¬Fits extent headSkip offset) :
    extentTier0IntegrityProtectionApply pr find extent headSkip
      offset checksum tails = err .internal := by
  rw [extentTier0IntegrityProtectionApply]
  split
  · rfl
  next hrange =>
    rw [Fits, not_and] at h
    rw [skip]
    split
    · rw [pure_eq_ok, ok_bind, takeExact]
      split
      · rw [pure_eq_ok, ok_bind, takeExact, length_drop, if_neg (by omega)]
        rfl
      · rfl
    · rfl

section

variable (h : Fits extent headSkip offset)
include h

theorem apply_run (hfind : find (passed extent headSkip offset checksum tails) =
      .ok mask) :
    extentTier0IntegrityProtectionApply pr find extent headSkip
        offset checksum tails =
      (do
        debugAssert pr (mask ≠ tails[0][0])
        debugAssert pr (mask ≠ tails[1][0])
        debugAssert pr (mask ≠ tails[0][1])
        debugAssert pr (mask ≠ tails[1][1])
        pure (checksum.map (· ^^^ mask),
          masked extent headSkip offset checksum mask)) := by
  obtain ⟨hrange, hlen⟩ := h
  rw [extentTier0IntegrityProtectionApply, if_neg (by omega), skip, if_pos (by omega), pure_eq_ok, ok_bind,
    takeExact, if_pos (by rw [length_drop]; omega), pure_eq_ok, ok_bind, takeExact,
    if_pos (by rw [length_drop]; omega), pure_eq_ok, ok_bind, skip,
    if_pos (by rw [length_take, length_drop]; omega), pure_eq_ok, ok_bind]
  dsimp only
  rw [passed, regions] at hfind
  rw [hfind, ok_bind]
  have hfirst : ∀ i (hi : i < 2), (checksum.map (· ^^^ mask))[0] ≠ (xorChecksum checksum tails)[i][0] ↔
      mask ≠ tails[i][0] := by
    intro i hi
    rw [xorChecksum, getElem_map, getElem_map]
    exact xor_ne_xor_iff
  have hlast : ∀ i (hi : i < 2), (checksum.map (· ^^^ mask))[7] ≠ (xorChecksum checksum tails)[i][1] ↔
      mask ≠ tails[i][1] := by
    intro i hi
    rw [xorChecksum, getElem_map, getElem_map]
    exact xor_ne_xor_iff
  rw [debugAssert_congr (hfirst 0 (by decide)), debugAssert_congr (hfirst 1 (by decide)),
    debugAssert_congr (hlast 0 (by decide)), debugAssert_congr (hlast 1 (by decide))]
  rfl

theorem masked_protected (hzero : mask ≠ 0) (hnot : mask ∉
      (passed extent headSkip offset checksum tails).flatten) :
    Protected extent headSkip tails (checksum.map (· ^^^ mask))
      (masked extent headSkip offset checksum mask) := by
  obtain ⟨hrange, hlen⟩ := h
  rw [passed, valuesToAvoid] at hnot
  simp only [flatten_cons, flatten_nil, List.append_nil, mem_append, not_or] at hnot
  obtain ⟨hregion0, hregion1, hchecksum, htails0, htails1⟩ := hnot
  have htail : ∀ i (hi : i < 2) j (hj : j < 2), mask ≠ (xorChecksum checksum tails)[i][j] := by
    intro i hi j hj heq
    obtain rfl | rfl : i = 0 ∨ i = 1 := by omega
    · exact htails0 (heq ▸ Vector.mem_toList_iff.mpr (getElem_mem hj))
    · exact htails1 (heq ▸ Vector.mem_toList_iff.mpr (getElem_mem hj))
  have hfirst : ∀ i (hi : i < 2), (checksum.map (· ^^^ mask))[0] ≠ tails[i][0] := by
    intro i hi
    rw [getElem_map, xor_ne_iff]
    have h0 := htail i hi 0 (by decide)
    rwa [xorChecksum, getElem_map] at h0
  have hlast : ∀ i (hi : i < 2), (checksum.map (· ^^^ mask))[7] ≠ tails[i][1] := by
    intro i hi
    rw [getElem_map, xor_ne_iff]
    have h1 := htail i hi 1 (by decide)
    rwa [xorChecksum, getElem_map] at h1
  have hr0 : (regions extent headSkip offset).1.length =
      offset := by
    rw [regions, length_take, length_drop]
    omega
  have hr1 : (regions extent headSkip offset).2.length =
      128 - headSkip - offset - 9 := by
    rw [regions, length_drop, length_take, length_drop]
    omega
  refine ⟨?_, ⟨hfirst 0 (by decide), hfirst 1 (by decide)⟩, ⟨hlast 0 (by decide), hlast 1 (by decide)⟩, ?_⟩
  · simp only [masked, length_append, length_map, length_take, length_drop,
      length_singleton, Vector.length_toList, hr0, hr1]
    omega
  · have hhead : (extent.take headSkip).length = headSkip := by
      rw [length_take]
      omega
    have hprotected : ((masked extent headSkip offset checksum mask).take
        128).drop headSkip =
        (regions extent headSkip offset).1.map (· ^^^ mask) ++
          checksum.toList.map (· ^^^ mask) ++ [mask] ++
          (regions extent headSkip offset).2.map (· ^^^ mask) := by
      rw [masked, take_left' (by
        simp only [length_append, length_map, length_singleton, Vector.length_toList, hhead,
          hr0, hr1]
        omega)]
      simp only [append_assoc, Vector.toList_map]
      rw [drop_left' hhead]
    rw [hprotected]
    simp only [mem_append, not_or, mem_singleton]
    exact ⟨⟨⟨zero_not_mem_xor hregion0, zero_not_mem_xor hchecksum⟩, hzero.symm⟩, zero_not_mem_xor hregion1⟩

/-- In release builds nothing gets in the way of a mask properly found. -/
theorem apply_release (hfind : FindsDistinct find
      (passed extent headSkip offset checksum tails)) :
    ∃ commitId extent', extentTier0IntegrityProtectionApply .release find extent
      headSkip offset checksum tails = .ok (commitId, extent') ∧
      Protected extent headSkip tails commitId extent' := by
  obtain ⟨mask, hok, hzero, hnot⟩ := hfind
  exact ⟨_, _, apply_run h hok, masked_protected h hzero hnot⟩

end

theorem debugAsserts_iff {β : Type} {b : β} :
    (do
      debugAssert .debug (mask ≠ tails[0][0])
      debugAssert .debug (mask ≠ tails[1][0])
      debugAssert .debug (mask ≠ tails[0][1])
      debugAssert .debug (mask ≠ tails[1][1])
      pure b : Comp β) = .ok b ↔ mask ∉ tailBytes tails := by
  simp only [tailBytes, mem_cons, not_mem_nil, or_false, not_or]
  constructor
  · intro hok
    obtain ⟨_, h00, hok⟩ := bind_eq_ok hok
    obtain ⟨_, h10, hok⟩ := bind_eq_ok hok
    obtain ⟨_, h01, hok⟩ := bind_eq_ok hok
    obtain ⟨_, h11, -⟩ := bind_eq_ok hok
    exact ⟨of_debugAssert h00, of_debugAssert h10, of_debugAssert h01, of_debugAssert h11⟩
  · rintro ⟨h00, h10, h01, h11⟩
    rw [debugAssert_ok _ h00, ok_bind, debugAssert_ok _ h10, ok_bind, debugAssert_ok _ h01, ok_bind,
      debugAssert_ok _ h11, ok_bind]
    rfl

end Apply

def Applied (find : List (List UInt8) → Comp UInt8) (extent : List UInt8)
    (headSkip offset : Nat) (checksum : Checksum) (tails : CommitIdsTails) : Prop :=
  (Fits extent headSkip offset → ∃ commitId extent',
    extentTier0IntegrityProtectionApply .debug find extent headSkip
      offset checksum tails = .ok (commitId, extent') ∧
      Protected extent headSkip tails commitId extent') ∧
  (¬Fits extent headSkip offset →
    extentTier0IntegrityProtectionApply .debug find extent headSkip
      offset checksum tails = err .internal)

/-- A recorded byte which isn't avoided by itself may get found, and is asserted against. -/
theorem apply_distinct_iff (extent : List UInt8) (headSkip offset : Nat)
    (checksum : Checksum) (tails : CommitIdsTails) :
    (∀ find, FindsDistinct find
        (passed extent headSkip offset checksum tails) →
      Applied find extent headSkip offset checksum tails) ↔
    (Fits extent headSkip offset → ∀ t ∈ tailBytes tails, t = 0 ∨
      t ∈ (passed extent headSkip offset checksum tails).flatten) := by
  constructor
  · intro happlied hfits t ht
    by_contra hnot
    obtain ⟨hzero, hnot⟩ := not_or.mp hnot
    obtain ⟨commitId, extent', hok, -⟩ :=
      (happlied (fun _ => .ok t) ⟨t, rfl, hzero, hnot⟩).1 hfits
    rw [apply_run hfits rfl] at hok
    refine debugAsserts_iff.mp (hok.trans (congrArg Except.ok (?_ : _ = _))) ht
    obtain ⟨_, -, hok⟩ := bind_eq_ok hok
    obtain ⟨_, -, hok⟩ := bind_eq_ok hok
    obtain ⟨_, -, hok⟩ := bind_eq_ok hok
    obtain ⟨_, -, hok⟩ := bind_eq_ok hok
    exact (Except.ok.inj hok).symm
  · intro hrecorded find hfind
    refine ⟨fun hfits => ?_, apply_err⟩
    obtain ⟨mask, hok, hzero, hnot⟩ := hfind
    refine ⟨_, _, (apply_run hfits hok).trans (debugAsserts_iff.mpr (fun ht => ?_)),
      masked_protected hfits hzero hnot⟩
    rcases hrecorded hfits mask ht with h | h
    · exact hzero h
    · exact hnot h

def clearedExtent : List UInt8 := List.replicate 128 0

def onesChecksum : Checksum := Vector.replicate 8 1

def tornTails : CommitIdsTails := #v[#v[0x10, 1], #v[0, 0]]

theorem apply_asserts_recorded :
    FindsDistinct (DistinctByte.findDistinctU8Value .debug)
        (passed clearedExtent 0 0 onesChecksum tornTails) ∧
      ¬Applied (DistinctByte.findDistinctU8Value .debug) clearedExtent 0 0 onesChecksum tornTails := by
  refine ⟨⟨0x10, by decide +kernel, by decide, by decide +kernel⟩, fun happlied => ?_⟩
  obtain ⟨commitId, extent', hok, -⟩ := happlied.1
    ⟨by decide, length_replicate.ge⟩
  have hpanic : extentTier0IntegrityProtectionApply .debug (DistinctByte.findDistinctU8Value .debug)
      clearedExtent 0 0 onesChecksum tornTails = panic .debugAssert := by decide +kernel
  cases hpanic.symm.trans hok

end CocoonFs.CommitIds
