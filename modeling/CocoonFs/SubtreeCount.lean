import CocoonFs.Checked
import CocoonFs.CompleteTree
import Mathlib.Data.Int.ModEq
import Mathlib.Tactic.Linarith
import Mathlib.Tactic.LinearCombination

namespace CocoonFs.SubtreeCount

open Checked CompleteTree Nat

def wrappingMul (a b : Nat) : Nat := a * b % 2 ^ 64

def wrappingSub (a b : Nat) : Nat := (a + (2 ^ 64 - b)) % 2 ^ 64

def trailingBitsMask (pr : Profile) (count : Nat) : Comp Nat := do
  debugAssert pr (count ≤ 64)
  pure (wrappingSub (2 ^ (count % 64) - 1) (count / 64))

/-- The lifting loop doubles the number of bits in each round. -/
def henselLift (m : Nat) : Nat → Nat → Nat → Nat
  | 0, _, inv => inv
  | fuel + 1, e, inv =>
    if e < 64 then
      henselLift m fuel (e * 2)
        (wrappingSub (inv * 2 % 2 ^ 64) (wrappingMul (wrappingMul m inv) inv))
    else inv

def digestsPerNodeMinusOneInvModU64 (pr : Profile) (digestsPerNodeLog2 : Nat) : Comp Nat := do
  let m ← trailingBitsMask pr digestsPerNodeLog2
  debugAssert pr (wrappingMul m m &&& m = 1)
  let inv := henselLift m 7 digestsPerNodeLog2 m
  debugAssert pr (wrappingMul inv m = 1)
  pure inv

/-- The geometric sum, for the subtrees whose dividend does not overflow. -/
def properSubtreeNodeCount (pr : Profile) (subtreeRootLevel nodeDigestsPerNodeLog2 inv : Nat) :
    Comp Nat := do
  debugAssert pr ((subtreeRootLevel + 1) * nodeDigestsPerNodeLog2 ≤ 64)
  let mask ← trailingBitsMask pr ((subtreeRootLevel + 1) * nodeDigestsPerNodeLog2)
  pure (wrappingMul mask inv)

def assertSubtree (pr : Profile) (subtreeRootLevel authTreeLevels nodeDigestsPerNodeLog2 inv : Nat) :
    Comp Unit := do
  debugAssert pr (1 ≤ authTreeLevels)
  debugAssert pr (subtreeRootLevel < authTreeLevels)
  let mask ← trailingBitsMask pr nodeDigestsPerNodeLog2
  debugAssert pr (wrappingMul mask inv = 1)

/-- The whole tree's count is computed from its proper subtrees'. -/
def authSubtreeNodeCount (pr : Profile)
    (subtreeRootLevel authTreeLevels nodeDigestsPerNodeLog2 inv : Nat) : Comp Nat := do
  assertSubtree pr subtreeRootLevel authTreeLevels nodeDigestsPerNodeLog2 inv
  if 2 ≤ authTreeLevels ∧ subtreeRootLevel = authTreeLevels - 1 then do
    assertSubtree pr (authTreeLevels - 2) authTreeLevels nodeDigestsPerNodeLog2 inv
    let count ← properSubtreeNodeCount pr (authTreeLevels - 2) nodeDigestsPerNodeLog2 inv
    let digests ← shlU64 pr 1 nodeDigestsPerNodeLog2
    let product ← mulU64 pr count digests
    addU64 pr product 1
  else properSubtreeNodeCount pr subtreeRootLevel nodeDigestsPerNodeLog2 inv

theorem trailingBitsMask_ok (pr : Profile) {count : Nat} (h : count ≤ 64) :
    trailingBitsMask pr count = .ok (2 ^ count - 1) := by
  rw [trailingBitsMask, debugAssert_ok pr h, ok_bind, pure_eq_ok, wrappingSub, Except.ok.injEq]
  rcases lt_or_eq_of_le h with hlt | rfl
  · have hpow : 2 ^ count < 2 ^ 64 := Nat.pow_lt_pow_right (by decide) hlt
    rw [mod_eq_of_lt hlt, div_eq_of_lt hlt]
    omega
  · decide

theorem dvd_newton_step {M m x : ℤ} (h : M ∣ 1 - m * x) : M * M ∣ 1 - m * (2 * x - m * x * x) := by
  have hsquare : 1 - m * (2 * x - m * x * x) = (1 - m * x) * (1 - m * x) := by ring
  rw [hsquare]
  exact mul_dvd_mul h h

theorem natCast_mod_modEq (a : Nat) : ((a % 2 ^ 64 : Nat) : ℤ) ≡ a [ZMOD 2 ^ 64] := by
  rw [Int.natCast_mod]
  exact Int.mod_modEq _ _

theorem wrappingSub_modEq (a b : Nat) (hb : b ≤ 2 ^ 64) :
    (wrappingSub a b : ℤ) ≡ a - b [ZMOD 2 ^ 64] := by
  refine (natCast_mod_modEq _).trans ?_
  rw [cast_add, cast_sub hb, Int.modEq_iff_dvd]
  exact ⟨-1, by push_cast; ring⟩

theorem henselStep_modEq (m x : Nat) :
    (wrappingSub (x * 2 % 2 ^ 64) (wrappingMul (wrappingMul m x) x) : ℤ) ≡
      2 * x - m * x * x [ZMOD 2 ^ 64] := by
  have hle : wrappingMul (wrappingMul m x) x ≤ 2 ^ 64 := (mod_lt _ (by decide)).le
  refine (wrappingSub_modEq _ _ hle).trans (Int.ModEq.sub ?_ ?_)
  · refine (natCast_mod_modEq _).trans ?_
    rw [cast_mul, mul_comm]
    exact Int.ModEq.refl _
  · refine (natCast_mod_modEq _).trans ?_
    rw [cast_mul]
    refine Int.ModEq.mul_right _ ((natCast_mod_modEq _).trans ?_)
    rw [cast_mul]

theorem henselLift_spec (m : Nat) (fuel e inv : Nat) (he : 64 ≤ 2 ^ fuel * e)
    (hinv : (2 : ℤ) ^ min e 64 ∣ 1 - m * inv) :
    (2 : ℤ) ^ 64 ∣ 1 - m * (henselLift m fuel e inv : ℤ) := by
  induction fuel generalizing e inv with
  | zero =>
    rw [pow_zero, one_mul] at he
    rwa [min_eq_right he] at hinv
  | succ fuel ih =>
    rw [henselLift]
    split
    · rename_i hlt
      rw [min_eq_left hlt.le] at hinv
      refine ih (e * 2) _ (by rw [pow_succ] at he; linarith) ?_
      have hstep := dvd_newton_step hinv
      rw [← pow_add, ← mul_two] at hstep
      have hle : (2 : ℤ) ^ min (e * 2) 64 ∣ 2 ^ (e * 2) := pow_dvd_pow 2 (min_le_left _ _)
      have hword : (2 : ℤ) ^ min (e * 2) 64 ∣ 2 ^ 64 := pow_dvd_pow 2 (min_le_right _ _)
      have hmod := Int.modEq_iff_dvd.mp (henselStep_modEq m inv)
      have hsum := Int.dvd_add (hle.trans hstep) (Dvd.dvd.mul_left (hword.trans hmod) (m : ℤ))
      refine hsum.trans (dvd_of_eq ?_)
      ring
    · rename_i hge
      rwa [min_eq_right (Nat.le_of_not_lt hge)] at hinv

theorem henselLift_lt (m : Nat) (fuel e inv : Nat) (hinv : inv < 2 ^ 64) :
    henselLift m fuel e inv < 2 ^ 64 := by
  induction fuel generalizing e inv with
  | zero => exact hinv
  | succ fuel ih =>
    rw [henselLift]
    split
    · exact ih _ _ (mod_lt _ (by decide))
    · exact hinv

theorem mod_eq_one_of_dvd {a : Nat} (h : (2 : ℤ) ^ 64 ∣ 1 - a) : a % 2 ^ 64 = 1 := by
  have hmod : (a : ℤ) ≡ 1 [ZMOD 2 ^ 64] := (Int.modEq_iff_dvd.mpr h)
  have hcast : ((a % 2 ^ 64 : Nat) : ℤ) = ((1 % 2 ^ 64 : Nat) : ℤ) := by
    rw [Int.natCast_mod, Int.natCast_mod]
    exact_mod_cast hmod
  exact_mod_cast hcast

variable {c inv level levels : Nat}

theorem digestsPerNodeMinusOneInvModU64_ok (pr : Profile) (hc : 0 < c) (hc64 : c < 64) :
    ∃ inv, digestsPerNodeMinusOneInvModU64 pr c = .ok inv ∧ inv < 2 ^ 64 ∧
      (2 ^ c - 1) * inv % 2 ^ 64 = 1 := by
  have hpow : 2 ^ c ≤ 2 ^ 64 := Nat.pow_le_pow_right (by decide) hc64.le
  have hpos : 2 ≤ 2 ^ c := Nat.pow_le_pow_right (n := 2) (by decide) hc
  have hself : (2 : ℤ) ^ c ∣ 1 - ((2 ^ c - 1 : Nat) : ℤ) * ((2 ^ c - 1 : Nat) : ℤ) := by
    rw [cast_sub (by omega)]
    push_cast
    exact ⟨2 - 2 ^ c, by ring⟩
  have hlift : (2 : ℤ) ^ 64 ∣
      1 - ((2 ^ c - 1 : Nat) : ℤ) * (henselLift (2 ^ c - 1) 7 c (2 ^ c - 1) : ℤ) := by
    refine henselLift_spec _ _ _ _ (by omega) ?_
    rwa [min_eq_left hc64.le]
  have hmod : (2 ^ c - 1) * henselLift (2 ^ c - 1) 7 c (2 ^ c - 1) % 2 ^ 64 = 1 := by
    refine mod_eq_one_of_dvd ?_
    rwa [cast_mul]
  have hmask : wrappingMul (2 ^ c - 1) (2 ^ c - 1) &&& (2 ^ c - 1) = 1 := by
    rw [and_two_pow_sub_one_eq_mod, wrappingMul, mod_mod_of_dvd _ (pow_dvd_pow 2 hc64.le)]
    obtain ⟨k, hk⟩ : ∃ k, 2 ^ c = k + 2 := ⟨2 ^ c - 2, by omega⟩
    rw [hk, show (k + 2 - 1) * (k + 2 - 1) = 1 + (k + 2) * k by
      rw [Nat.add_sub_assoc (by decide)]; ring, add_mul_mod_self_left]
    exact mod_eq_of_lt (by omega)
  refine ⟨henselLift (2 ^ c - 1) 7 c (2 ^ c - 1), ?_, henselLift_lt _ _ _ _ (by omega), hmod⟩
  rw [digestsPerNodeMinusOneInvModU64, trailingBitsMask_ok pr hc64.le, ok_bind,
    debugAssert_ok pr hmask, ok_bind]
  dsimp only
  rw [debugAssert_ok pr (by rw [wrappingMul, mul_comm, hmod])]
  rfl

structure IsInverse (c inv : Nat) : Prop where
  lt : inv < 2 ^ 64
  mul_mod : (2 ^ c - 1) * inv % 2 ^ 64 = 1

theorem nodes_lt_of_pow_le {l : Nat} (hc : 0 < c) (h : c * l ≤ 64) : nodes (2 ^ c) l < 2 ^ 64 := by
  have hpos : 2 ≤ 2 ^ c := Nat.pow_le_pow_right (n := 2) (by decide) hc
  have hsum := pred_mul_nodes (2 ^ c) (by omega) l
  rw [← pow_mul] at hsum
  have hpow : 2 ^ (c * l) ≤ 2 ^ 64 := Nat.pow_le_pow_right (by decide) h
  have hle : nodes (2 ^ c) l ≤ (2 ^ c - 1) * nodes (2 ^ c) l :=
    Nat.le_mul_of_pos_left _ (by omega)
  omega

theorem properSubtreeNodeCount_ok (pr : Profile) (hc : 0 < c)
    (hinv : IsInverse c inv) (h : c * (level + 1) ≤ 64) :
    properSubtreeNodeCount pr level c inv = .ok (nodes (2 ^ c) (level + 1)) := by
  have hbits : (level + 1) * c ≤ 64 := by rwa [mul_comm]
  have hsum := pred_mul_nodes (2 ^ c) (Nat.pow_pos (by decide)) (level + 1)
  rw [← pow_mul] at hsum
  have hmask : 2 ^ ((level + 1) * c) - 1 = (2 ^ c - 1) * nodes (2 ^ c) (level + 1) := by
    rw [mul_comm (level + 1) c, ← hsum]
    rfl
  have hcount : wrappingMul ((2 ^ c - 1) * nodes (2 ^ c) (level + 1)) inv =
      nodes (2 ^ c) (level + 1) := by
    rw [wrappingMul, mul_right_comm, Nat.mul_mod, hinv.mul_mod, one_mul, mod_mod]
    exact mod_eq_of_lt (nodes_lt_of_pow_le hc h)
  rw [properSubtreeNodeCount, debugAssert_ok pr hbits, ok_bind, trailingBitsMask_ok pr hbits,
    ok_bind, hmask, hcount]
  rfl

theorem assertSubtree_ok (pr : Profile) (hc : c < 64)
    (hinv : IsInverse c inv) (hlevel : level < levels) :
    assertSubtree pr level levels c inv = .ok () := by
  rw [assertSubtree, debugAssert_ok pr (by omega), ok_bind, debugAssert_ok pr hlevel, ok_bind,
    trailingBitsMask_ok pr hc.le, ok_bind]
  exact debugAssert_ok pr hinv.mul_mod

theorem nodes_lt_of_cap (hc : 0 < c) (hcap : c * (levels - 1) < 64) :
    nodes (2 ^ c) levels < 2 ^ 64 := by
  cases levels with
  | zero => exact Nat.pow_pos (by decide)
  | succ l =>
    have hpos : 2 ≤ 2 ^ c := Nat.pow_le_pow_right (n := 2) (by decide) hc
    have hsum := pred_mul_nodes (2 ^ c) (by omega) l
    rw [← pow_mul] at hsum
    rw [Nat.add_sub_cancel] at hcap
    have hpow : 2 ^ (c * l) ≤ 2 ^ 63 := Nat.pow_le_pow_right (by decide) (by omega)
    have hdouble : 2 ^ c * nodes (2 ^ c) l ≤ 2 * ((2 ^ c - 1) * nodes (2 ^ c) l) := by
      rw [← mul_assoc]
      exact Nat.mul_le_mul_right _ (by omega)
    rw [nodes]
    omega

theorem authSubtreeNodeCount_ok (pr : Profile) (hc : 0 < c)
    (hc64 : c < 64) (hinv : IsInverse c inv) (hlevel : level < levels)
    (hcap : c * (levels - 1) < 64) :
    authSubtreeNodeCount pr level levels c inv = .ok (nodes (2 ^ c) (level + 1)) := by
  rw [authSubtreeNodeCount, assertSubtree_ok pr hc64 hinv hlevel, ok_bind]
  split
  · rename_i hroot
    obtain ⟨hlevels, rfl⟩ := hroot
    obtain ⟨l, rfl⟩ : ∃ l, levels = l + 2 := ⟨levels - 2, by omega⟩
    have hlt := nodes_lt_of_cap hc hcap
    rw [nodes, mul_comm] at hlt
    have hshl : shlU64 pr 1 c = .ok (2 ^ c) := by
      rw [shlU64_ok pr hc64 (by rw [one_mul]; exact Nat.pow_lt_pow_right (by decide) hc64),
        one_mul]
    rw [assertSubtree_ok pr hc64 hinv (by omega), ok_bind, Nat.add_sub_cancel,
      properSubtreeNodeCount_ok pr hc hinv hcap.le, ok_bind, hshl, ok_bind,
      mulU64_ok pr (by omega), ok_bind, addU64_ok pr (by omega), mul_comm]
    rfl
  · rename_i hproper
    refine properSubtreeNodeCount_ok pr hc hinv ?_
    by_cases hone : levels = 1
    · obtain rfl : level = 0 := by omega
      omega
    · exact le_trans (Nat.mul_le_mul_left c (by omega)) hcap.le

end CocoonFs.SubtreeCount
