import Mathlib.Data.Nat.ChineseRemainder
import Mathlib.FieldTheory.Finite.Basic

namespace CocoonFs.ChineseRemainder

open Nat

/-- Exponents of powers modulo a prime only matter modulo the order of its units. This needs
no coprimality as long as neither of them vanishes. -/
theorem pow_modEq_pow {p a b : Nat} (hp : p.Prime) (ha : 0 < a) (hb : 0 < b)
    (h : a ≡ b [MOD p - 1]) (x : Nat) : x ^ a ≡ x ^ b [MOD p] := by
  have : Fact p.Prime := ⟨hp⟩
  rw [← ZMod.natCast_eq_natCast_iff, cast_pow, cast_pow]
  by_cases hx : (x : ZMod p) = 0
  · rw [hx, zero_pow ha.ne', zero_pow hb.ne']
  · have hunit : (x : ZMod p) ^ (p - 1) = 1 := ZMod.pow_card_sub_one_eq_one hx
    rw [pow_eq_pow_mod a hunit, pow_eq_pow_mod b hunit, h]

theorem modEq_mul {p q x y : Nat} (hpq : p.Coprime q) (hp : x ≡ y [MOD p]) (hq : x ≡ y [MOD q]) :
    x ≡ y [MOD p * q] :=
  (modEq_and_modEq_iff_modEq_mul hpq).mp ⟨hp, hq⟩

/-- Raising to inverse exponents, one after the other, is the identity modulo a product of
two distinct primes. -/
theorem pow_mul_modEq_self {p q k : Nat} (hp : p.Prime) (hq : q.Prime) (hpq : p ≠ q) (hk : 0 < k)
    (h : k ≡ 1 [MOD (p - 1) * (q - 1)]) (x : Nat) : x ^ k ≡ x [MOD p * q] := by
  have hleft := pow_modEq_pow hp hk one_pos (h.of_mul_right _) x
  have hright := pow_modEq_pow hq hk one_pos (h.of_mul_left _) x
  rw [pow_one] at hleft hright
  exact modEq_mul ((coprime_primes hp hq).mpr hpq) hleft hright

theorem inverse_modEq {e d₁ d₂ m : Nat} (h₁ : d₁ * e ≡ 1 [MOD m]) (h₂ : d₂ * e ≡ 1 [MOD m]) :
    d₁ ≡ d₂ [MOD m] := by
  calc d₁ = d₁ * 1 := (mul_one d₁).symm
    _ ≡ d₁ * (d₂ * e) [MOD m] := h₂.symm.mul_left d₁
    _ = d₁ * e * d₂ := by ring
    _ ≡ 1 * d₂ [MOD m] := h₁.mul_right d₂
    _ = d₂ := one_mul d₂

theorem inverse_pos {e d m : Nat} (hm : m ≠ 1) (h : d * e ≡ 1 [MOD m]) : 0 < d := by
  refine pos_of_ne_zero ?_
  rintro rfl
  rw [zero_mul] at h
  exact hm (dvd_one.mp (modEq_zero_iff_dvd.mp h.symm))

theorem coprime_of_inverse {e d m : Nat} (h : d * e ≡ 1 [MOD m]) : e.Coprime m := by
  have hgcd : Nat.gcd (d * e) m = 1 := h.gcd_eq.trans (Nat.gcd_one_left m)
  exact Nat.Coprime.coprime_dvd_left (dvd_mul_left e d) hgcd

theorem exists_inverse {e d₁ d₂ m₁ m₂ : Nat} (h₁ : d₁ * e ≡ 1 [MOD m₁]) (h₂ : d₂ * e ≡ 1 [MOD m₂])
    (hm : 1 < m₁ * m₂) : ∃ d, d * e ≡ 1 [MOD m₁ * m₂] := by
  obtain ⟨d, _, hd⟩ := exists_mul_mod_eq_one_of_coprime
    ((coprime_of_inverse h₁).mul_right (coprime_of_inverse h₂)) hm
  refine ⟨d, ?_⟩
  rw [mul_comm d, Nat.ModEq, hd, mod_eq_of_lt hm]

/-- The combination of a residue modulo `p` with a multiple of `p`, after Garner. -/
def garner (p q pInvModQ diff xp : Nat) : Nat := xp + diff * pInvModQ % q * p

theorem garner_modEq_left (p q pInvModQ diff xp : Nat) :
    garner p q pInvModQ diff xp ≡ xp [MOD p] := by
  rw [garner, Nat.ModEq, add_mul_mod_self_right]

theorem garner_modEq_right {p q pInvModQ diff xp xq : Nat} (hinv : pInvModQ * p ≡ 1 [MOD q])
    (hdiff : xp + diff ≡ xq [MOD q]) : garner p q pInvModQ diff xp ≡ xq [MOD q] := by
  calc xp + diff * pInvModQ % q * p
      ≡ xp + diff * pInvModQ * p [MOD q] := ((mod_modEq _ q).mul_right p).add_left xp
    _ = xp + diff * (pInvModQ * p) := by rw [mul_assoc]
    _ ≡ xp + diff * 1 [MOD q] := (hinv.mul_left diff).add_left xp
    _ = xp + diff := by rw [mul_one]
    _ ≡ xq [MOD q] := hdiff

theorem garner_lt (pInvModQ diff : Nat) {p q xp : Nat} (hp : xp < p) (hq : 0 < q) :
    garner p q pInvModQ diff xp < p * q := by
  calc xp + diff * pInvModQ % q * p < p + diff * pInvModQ % q * p := Nat.add_lt_add_right hp _
    _ = (diff * pInvModQ % q + 1) * p := by ring
    _ ≤ q * p := Nat.mul_le_mul_right p (mod_lt _ hq)
    _ = p * q := mul_comm q p

theorem garner_eq_pow {p q e d dp dq pInvModQ diff y : Nat} (hp : p.Prime) (hq : q.Prime)
    (hp2 : p ≠ 2) (hq2 : q ≠ 2) (hpq : p ≠ q) (hd : d * e ≡ 1 [MOD (p - 1) * (q - 1)])
    (hdp : dp * e ≡ 1 [MOD p - 1]) (hdq : dq * e ≡ 1 [MOD q - 1])
    (hinv : pInvModQ * p ≡ 1 [MOD q]) (hdiff : y ^ dp % p + diff ≡ y ^ dq [MOD q]) :
    garner p q pInvModQ diff (y ^ dp % p) = y ^ d % (p * q) := by
  have hone {r : Nat} (hr : r.Prime) (hr2 : r ≠ 2) : r - 1 ≠ 1 := by
    omega
  have hdpos : 0 < d := inverse_pos (fun h => hone hp hp2 (eq_one_of_mul_eq_one_right h)) hd
  have hleft : garner p q pInvModQ diff (y ^ dp % p) ≡ y ^ d [MOD p] :=
    calc garner p q pInvModQ diff (y ^ dp % p) ≡ y ^ dp % p [MOD p] := garner_modEq_left ..
      _ ≡ y ^ dp [MOD p] := mod_modEq _ p
      _ ≡ y ^ d [MOD p] := pow_modEq_pow hp (inverse_pos (hone hp hp2) hdp) hdpos
          (inverse_modEq hdp (hd.of_mul_right _)) y
  have hright : garner p q pInvModQ diff (y ^ dp % p) ≡ y ^ d [MOD q] :=
    calc garner p q pInvModQ diff (y ^ dp % p) ≡ y ^ dq [MOD q] := garner_modEq_right hinv hdiff
      _ ≡ y ^ d [MOD q] := pow_modEq_pow hq (inverse_pos (hone hq hq2) hdq) hdpos
          (inverse_modEq hdq (hd.of_mul_left _)) y
  have hboth := modEq_mul ((coprime_primes hp hq).mpr hpq) hleft hright
  exact (mod_eq_of_modEq hboth.symm (garner_lt _ _ (mod_lt _ hp.pos) hq.pos)).symm

end CocoonFs.ChineseRemainder
