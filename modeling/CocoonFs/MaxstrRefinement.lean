import CocoonFs.MaxstrLens

namespace CocoonFs.MaxstrLens

open Bitmap BitmapWords Checked Lanes Nat
open BitVec (getLsbD_and getLsbD_shiftLeft getLsbD_zero lt_of_getLsbD)
open Bool (and_eq_true eq_false_iff)
open Nat (pow_le_pow_right pow_lt_pow_right two_pow_pos)

section Blocks

variable {w word mask : BitmapWord} {log2 a : Nat}

/-- The next block begins with the only string in it, of length one, and the block
itself has a string of the length determined so far that ends at the distance of
the bit to be determined from it. -/
def DisturbedAt (w : BitmapWord) (log2 k t : Nat) : Prop :=
  w.getLsbD (2 ^ log2 * (k + 1)) = true ∧ blockMaxstrLen w log2 0 (k + 1) = 1 ∧
    2 ^ (t + 1) ≤ blockMaxstrLen w log2 0 k ∧
    EndsString w (2 ^ log2 * k) 0 (blockMaxstrLen w log2 0 k / 2 ^ (t + 1) * 2 ^ (t + 1))
      (2 ^ log2 * k + (2 ^ log2 - 2 ^ t))

def Disturbed (w : BitmapWord) (log2 k : Nat) : Prop := ∃ t < log2, DisturbedAt w log2 k t

/-- What the lengths of the blocks are while their bits are determined, down to some
bit. A disturbed block's length stays below, or else it is beyond, and no string is
left of the block. -/
inductive BlockState (w word sPerBlock : BitmapWord) (log2 a t k : Nat) : Prop where
  | exact (hmeas : Measured w word sPerBlock log2 a k (prefixLen t (blockMaxstrLen w log2 a k)))
      (hund : a = 0 → ∀ t', t ≤ t' → ¬ DisturbedAt w log2 k t')
  | below (len : Nat) (hmeas : Measured w word sPerBlock log2 a k len) (hmod : len % 2 ^ t = 0)
      (hge : 2 ^ t ≤ len) (hlt : len + 2 ^ t ≤ blockMaxstrLen w log2 a k) (ha : a = 0)
      (hdist : Disturbed w log2 k)
  | above (hclear : ∀ q < 2 ^ log2, word.getLsbD (2 ^ log2 * k + q) = false)
      (hge : 2 ^ t ≤ blockMaxstrLen w log2 a k)
      (hgt : blockMaxstrLen w log2 a k < (lane (2 ^ log2) sPerBlock k).toNat)
      (hbound : 4 * (lane (2 ^ log2) sPerBlock k).toNat ≤ 3 * 2 ^ log2 ∨
        2 ^ log2 < (lane (2 ^ log2) sPerBlock k).toNat) (ha : a = 0) (hdist : Disturbed w log2 k)

section Refining

variable {sPerBlock carried : BitmapWord} {t k : Nat}

theorem lt_log2_of_ge (hge : 2 ^ (t + 1) ≤ blockMaxstrLen w log2 a k) : t < log2 := by
  have hle := le_trans hge (maxstrLen_le w (2 ^ log2 * k) (2 ^ log2) a)
  exact (Nat.pow_le_pow_iff_right (by omega)).mp hle

theorem DisturbedAt.disturbed (h : DisturbedAt w log2 k t) : Disturbed w log2 k :=
  ⟨t, lt_log2_of_ge h.2.2.1, h⟩

variable {len : Nat}

theorem Measured.refined_bits (h : IsLsbsMask log2 mask) (hk : k < 2 ^ (6 - log2))
    (hmeas : Measured w word sPerBlock log2 a k len) (hlen : 2 ^ t < len) {q : Nat}
    (hq : q < 2 ^ log2) :
    (word &&& word <<< 2 ^ t).getLsbD (2 ^ log2 * k + q) = true ↔
      word.getLsbD (2 ^ log2 * k + q) = true ∧ 2 ^ t ≤ q ∧
        word.getLsbD (2 ^ log2 * k + (q - 2 ^ t)) = true := by
  have hle := h.block_le hk
  rw [getLsbD_and, getLsbD_shiftLeft, and_eq_true, and_eq_true,
    decide_eq_true (show 2 ^ log2 * k + q < 64 by omega), Bool.true_and, Bool.not_eq_true',
    decide_eq_false_iff_not]
  constructor
  · rintro ⟨hbit, hge, hbit'⟩
    -- No string that long ends further below.
    have hend := ((hmeas.bits q hq).mp hbit).2.1
    have htq : 2 ^ t ≤ q := by omega
    rw [Nat.add_sub_assoc htq] at hbit'
    exact ⟨hbit, htq, hbit'⟩
  · rintro ⟨hbit, htq, hbit'⟩
    rw [← Nat.add_sub_assoc htq] at hbit'
    exact ⟨hbit, by omega, hbit'⟩

theorem prefixLen_gt (hge : 2 ^ (t + 1) ≤ len) : 2 ^ t < prefixLen (t + 1) len := by
  have hpos := two_pow_pos t
  have hmul : 1 * 2 ^ (t + 1) ≤ len / 2 ^ (t + 1) * 2 ^ (t + 1) :=
    Nat.mul_le_mul_right _ ((Nat.one_le_div_iff (two_pow_pos _)).mpr hge)
  rw [prefixLen_of_ge hge]
  rw [pow_succ] at hmul ⊢
  omega

theorem prefixLen_one (t : Nat) : prefixLen t 1 = 1 := by
  rw [prefixLen, if_neg one_ne_zero, log_one_right, pow_zero]
  split
  · rfl
  · rename_i hge
    obtain rfl : t = 0 := by
      by_contra hne
      exact hge (Nat.one_lt_two_pow hne)
    rfl

theorem eq_one_of_prefixLen (h : prefixLen (t + 1) len = 1) : len = 1 := by
  rw [prefixLen] at h
  split at h
  · cases h
  · rename_i hne
    split at h
    · have hlog := (Nat.pow_eq_one.mp h).resolve_left (by omega)
      rcases log_eq_zero_iff.mp hlog with hlt | hle
      · omega
      · omega
    · rw [pow_succ, ← mul_assoc] at h
      omega

/-- A block whose least significant bit ends some string has no other string. -/
theorem BlockState.lsb (ha : a ≤ log2) (hstate : BlockState w word sPerBlock log2 a (t + 1) k)
    (hlsb : word.getLsbD (2 ^ log2 * k) = true) :
    a = 0 ∧ w.getLsbD (2 ^ log2 * k) = true ∧ blockMaxstrLen w log2 a k = 1 := by
  have hpos := two_pow_pos log2
  have hends {len : Nat} (hmeas : Measured w word sPerBlock log2 a k len) :
      0 < len ∧ len ≤ 1 ∧ a = 0 ∧ w.getLsbD (2 ^ log2 * k) = true := by
    have hbits := hmeas.bits 0 hpos
    rw [add_zero] at hbits
    obtain ⟨hlen, hle, halign, hall⟩ := hbits.mp hlsb
    refine ⟨hlen, by omega, ?_, hall 0 hlen⟩
    have hone := Nat.dvd_sub (dvd_of_mod_eq_zero halign)
      (dvd_of_mod_eq_zero (block_aligned ha k))
    rw [Nat.add_sub_cancel_left, dvd_one, Nat.pow_eq_one] at hone
    omega
  cases hstate with
  | exact hmeas hund =>
    obtain ⟨hlen, hle, hzero, hbit⟩ := hends hmeas
    exact ⟨hzero, hbit, eq_one_of_prefixLen (t := t) (by omega)⟩
  | below len hmeas hmod hge hlt hzero hdist =>
    obtain ⟨hlen, hle, -, -⟩ := hends hmeas
    omega
  | above hclear hge hgt hbound hzero hdist =>
    have hzero := hclear 0 hpos
    rw [add_zero, hlsb] at hzero
    cases hzero

/-- Something combines into the next block's least significant bit only if the block is
disturbed. -/
theorem refined_next (h : IsLsbsMask log2 mask) (ha : a ≤ log2)
    (hstate : ∀ k < 2 ^ (6 - log2), BlockState w word sPerBlock log2 a (t + 1) k)
    (hbit : (word &&& word <<< 2 ^ t).getLsbD (2 ^ log2 * (k + 1)) = true) (ht : t < log2) :
    a = 0 ∧ w.getLsbD (2 ^ log2 * (k + 1)) = true ∧ blockMaxstrLen w log2 0 (k + 1) = 1 ∧
      word.getLsbD (2 ^ log2 * k + (2 ^ log2 - 2 ^ t)) = true := by
  have hpow := pow_lt_pow_right (show 1 < 2 by omega) ht
  rw [getLsbD_and, getLsbD_shiftLeft, and_eq_true, and_eq_true] at hbit
  obtain ⟨hlsb, -, hprev⟩ := hbit
  have hnext : k + 1 < 2 ^ (6 - log2) := by
    have hlt := lt_of_getLsbD hlsb
    rw [h.words_split] at hlt
    exact Nat.lt_of_mul_lt_mul_left hlt
  obtain ⟨rfl, hset, hone⟩ := (hstate (k + 1) hnext).lsb ha hlsb
  have hpos' : 2 ^ log2 * (k + 1) - 2 ^ t = 2 ^ log2 * k + (2 ^ log2 - 2 ^ t) := by
    rw [mul_succ]
    omega
  rw [hpos'] at hprev
  exact ⟨rfl, hset, hone, hprev⟩

theorem prefixLen_mod (hge : 2 ^ t ≤ len) : prefixLen t len % 2 ^ t = 0 := by
  rw [prefixLen_of_ge hge, mul_mod_left]

theorem prefixLen_le_iff (hge : 2 ^ (t + 1) ≤ len) :
    prefixLen (t + 1) len + 2 ^ t ≤ len ↔ len.testBit t = true := by
  have hstep := prefixLen_step hge
  have hge' : 2 ^ t ≤ len := le_trans (pow_le_pow_right (by omega) (by omega)) hge
  rw [prefixLen_of_ge hge'] at hstep
  have hle := div_mul_le_self len (2 ^ t)
  have hlt := lt_div_mul_add (a := len) (two_pow_pos t)
  split at hstep <;> rename_i hbit <;> rw [hstep] at hle hlt
  · exact ⟨fun _ => hbit, fun _ => hle⟩
  · exact ⟨fun hle' => by omega, fun hset => absurd hset hbit⟩

theorem refined_exists_iff (h : IsLsbsMask log2 mask) (ha : a ≤ log2)
    (hmeas : Measured w word sPerBlock log2 a k (prefixLen (t + 1) (blockMaxstrLen w log2 a k)))
    (hk : k < 2 ^ (6 - log2)) (hge : 2 ^ (t + 1) ≤ blockMaxstrLen w log2 a k) :
    (∃ j < 2 ^ log2, (word &&& word <<< 2 ^ t).getLsbD (2 ^ log2 * k + j) = true) ↔
      (blockMaxstrLen w log2 a k).testBit t = true := by
  have hgt := prefixLen_gt hge
  by_cases hat : a ≤ t
  · have hmod : prefixLen (t + 1) (blockMaxstrLen w log2 a k) % 2 ^ a = 0 :=
      mod_eq_zero_of_dvd (dvd_trans (pow_dvd_pow 2 (by omega))
        (dvd_of_mod_eq_zero (prefixLen_mod hge)))
    rw [hmeas.exists_combined_iff (zero_lt_of_lt hgt) hgt.le (two_pow_mod hat)
      (fun q hq => hmeas.refined_bits h hk hgt hq) ha hmod, prefixLen_le_iff hge]
  · -- The strings' ends are further apart than that.
    constructor
    · rintro ⟨j, hj, hbit⟩
      obtain ⟨hlast, htj, hfirst⟩ := (hmeas.refined_bits h hk hgt hj).mp hbit
      rw [hmeas.bits j hj] at hlast
      rw [hmeas.bits _ (lt_of_le_of_lt (sub_le j _) hj), ← Nat.add_sub_assoc htj] at hfirst
      have hmod := hlast.2.dvd_of_sub (by omega) hfirst.2
      rw [mod_eq_of_lt (pow_lt_pow_right (by omega) (by omega))] at hmod
      have hpos := two_pow_pos t
      omega
    · intro hset
      have hmod := testBit_mod_two_pow (blockMaxstrLen w log2 a k) a t
      rw [blockMaxstrLen, maxstrLen_mod, zero_testBit, decide_eq_true (by omega),
        Bool.true_and] at hmod
      rw [blockMaxstrLen, ← hmod] at hset
      cases hset

theorem aligned_of_testBit (hset : (blockMaxstrLen w log2 a k).testBit t = true) : a ≤ t := by
  by_contra hlt
  have hmod := testBit_mod_two_pow (blockMaxstrLen w log2 a k) a t
  rw [blockMaxstrLen, maxstrLen_mod, zero_testBit, decide_eq_true (by omega),
    Bool.true_and, ← blockMaxstrLen, hset] at hmod
  cases hmod

theorem prefixLen_eq_two_pow {top : Nat} (hge : 2 ^ top ≤ len) (hlt : len < 2 ^ (top + 1))
    (ht : t + 1 ≤ top) (hclear : ∀ t', t < t' → t' < top → len.testBit t' = false) :
    prefixLen (t + 1) len = 2 ^ top := by
  rw [prefixLen_of_ge (le_trans (pow_le_pow_right (by omega) ht) hge)]
  apply eq_of_testBit_eq
  intro j
  rw [testBit_mul_two_pow, testBit_div_two_pow, testBit_two_pow]
  rcases lt_or_ge j (t + 1) with hj | hj
  · rw [decide_eq_false (Nat.not_le_of_lt hj), decide_eq_false (by omega), Bool.false_and]
  · rw [decide_eq_true hj, Bool.true_and, Nat.sub_add_cancel hj]
    rcases lt_trichotomy j top with hjt | rfl | hjt
    · rw [hclear j hj hjt, decide_eq_false hjt.ne']
    · rw [testBit_eq_decide_div_mod_eq, Nat.div_eq_of_lt_le (k := 1) (by omega)
        (by rw [pow_succ] at hlt; omega), decide_eq_true rfl, decide_eq_true rfl]
    · rw [testBit_lt_two_pow (lt_of_lt_of_le hlt (pow_le_pow_right (by omega) hjt)),
        decide_eq_false hjt.ne]

/-- The string disturbing at some bit has a string in it that disturbs at any other bit of
the length. -/
theorem DisturbedAt.above (h : DisturbedAt w log2 k t) {t' : Nat} (ht : t < t')
    (hge : 2 ^ (t' + 1) ≤ blockMaxstrLen w log2 0 k)
    (hset : (blockMaxstrLen w log2 0 k).testBit t' = true) : DisturbedAt w log2 k t' := by
  obtain ⟨hlsb, hone, hge', hle, -, hall⟩ := h
  have hpow : 2 ^ (t + 1) ≤ 2 ^ t' := pow_le_pow_right (by omega) ht
  have hpow' : 2 ^ t < 2 ^ (t + 1) := pow_lt_pow_right (by omega) (by omega)
  have hstep := prefixLen_step hge
  have hge'' : 2 ^ t' ≤ blockMaxstrLen w log2 0 k :=
    le_trans (pow_le_pow_right (by omega) (by omega)) hge
  rw [if_pos hset, prefixLen_of_ge hge, prefixLen_of_ge hge''] at hstep
  have hmono : blockMaxstrLen w log2 0 k / 2 ^ t' * 2 ^ t' ≤
      blockMaxstrLen w log2 0 k / 2 ^ (t + 1) * 2 ^ (t + 1) := by
    obtain ⟨c, hc⟩ := pow_dvd_pow 2 ht
    rw [hc, mul_comm (2 ^ (t + 1)) c, ← mul_assoc]
    apply Nat.mul_le_mul_right
    rw [mul_comm c, ← Nat.div_div_eq_div_mul]
    exact div_mul_le_self _ c
  refine ⟨hlsb, hone, hge, by omega, mod_one _, fun j hj => ?_⟩
  have hbit := hall (j + (2 ^ t' - 2 ^ t)) (by omega)
  rwa [show 2 ^ log2 * k + (2 ^ log2 - 2 ^ t) - (j + (2 ^ t' - 2 ^ t)) =
    2 ^ log2 * k + (2 ^ log2 - 2 ^ t') - j by omega] at hbit

/-- An overstated length is that of the whole block, or else half of it with a single
other bit added. -/
theorem prefixLen_bound (hund : ∀ t', t + 1 ≤ t' → ¬ DisturbedAt w log2 k t')
    (hdist : DisturbedAt w log2 k t) :
    4 * (prefixLen (t + 1) (blockMaxstrLen w log2 0 k) + 2 ^ t) ≤ 3 * 2 ^ log2 ∨
      2 ^ log2 < prefixLen (t + 1) (blockMaxstrLen w log2 0 k) + 2 ^ t := by
  have hge := hdist.2.2.1
  have hpos := two_pow_pos (t + 1)
  have hne : blockMaxstrLen w log2 0 k ≠ 0 := by omega
  have htop := pow_log_le_self 2 hne
  have hlt := lt_pow_succ_log_self (show 1 < 2 by omega) (blockMaxstrLen w log2 0 k)
  have ht : t + 1 ≤ Nat.log 2 (blockMaxstrLen w log2 0 k) := le_log_of_pow_le (by omega) hge
  generalize Nat.log 2 (blockMaxstrLen w log2 0 k) = top at htop hlt ht
  rw [prefixLen_eq_two_pow htop hlt ht]
  · have hle : 2 ^ top ≤ 2 ^ log2 := le_trans htop (maxstrLen_le w (2 ^ log2 * k) (2 ^ log2) 0)
    rcases lt_or_eq_of_le hle with hsmall | heq
    · left
      have hdouble : 2 ^ (top + 1) ≤ 2 ^ log2 :=
        pow_le_pow_right (by omega) ((Nat.pow_lt_pow_iff_right (by omega)).mp hsmall)
      have hhalf : 2 ^ (t + 1) ≤ 2 ^ top := pow_le_pow_right (by omega) ht
      omega
    · right
      omega
  · intro t' htt' ht'top
    apply eq_false_iff.mpr
    intro hset
    exact hund t' htt' (hdist.above htt' (le_trans (pow_le_pow_right (by omega) ht'top) htop) hset)

section Step

variable {word' sPerBlock' : BitmapWord} {selected : Bool}
  (h : IsLsbsMask log2 mask) (ha : a ≤ log2)
  (hstate : ∀ k < 2 ^ (6 - log2), BlockState w word sPerBlock log2 a (t + 1) k)
  (hk : k < 2 ^ (6 - log2)) (hge : 2 ^ (t + 1) ≤ blockMaxstrLen w log2 a k)
  (hselected : selected =
    (decide (∃ j < 2 ^ log2, (word &&& word <<< 2 ^ t).getLsbD (2 ^ log2 * k + j) = true) ^^
      (word &&& word <<< 2 ^ t).getLsbD (2 ^ log2 * (k + 1))))
  (hword : ∀ q < 2 ^ log2, word'.getLsbD (2 ^ log2 * k + q) =
    if selected = true then (word &&& word <<< 2 ^ t).getLsbD (2 ^ log2 * k + q)
    else word.getLsbD (2 ^ log2 * k + q))
  (hfield : (lane (2 ^ log2) sPerBlock' k).toNat =
    (lane (2 ^ log2) sPerBlock k).toNat ||| if selected = true then 2 ^ t else 0)

theorem or_two_pow {len : Nat} (hmod : len % 2 ^ (t + 1) = 0) : len ||| 2 ^ t = len + 2 ^ t := by
  obtain ⟨c, rfl⟩ := dvd_of_mod_eq_zero hmod
  exact (two_pow_add_eq_or_of_lt (pow_lt_pow_right (by omega) (lt_succ_self t)) c).symm

include h ha hstate hge in
/-- An undisturbed block has nothing combine into the next block's least significant bit. -/
theorem refined_next_iff
    (hmeas : Measured w word sPerBlock log2 a k (prefixLen (t + 1) (blockMaxstrLen w log2 a k))) :
    (word &&& word <<< 2 ^ t).getLsbD (2 ^ log2 * (k + 1)) = true ↔ a = 0 ∧ DisturbedAt w log2 k t := by
  have hpow := pow_lt_pow_right (show 1 < 2 by omega) (lt_log2_of_ge hge)
  have hpos := two_pow_pos t
  constructor
  · intro hbit
    obtain ⟨rfl, hset, hone, hprev⟩ := refined_next h ha hstate hbit (lt_log2_of_ge hge)
    have hend := (hmeas.bits _ (by omega)).mp hprev
    rw [prefixLen_of_ge hge] at hend
    exact ⟨rfl, hset, hone, hge, hend.2⟩
  · rintro ⟨rfl, hset, hone, -, hend⟩
    have hnext : k + 1 < 2 ^ (6 - log2) := by
      have hlt := lt_of_getLsbD hset
      rw [h.words_split] at hlt
      exact Nat.lt_of_mul_lt_mul_left hlt
    have hlsb : word.getLsbD (2 ^ log2 * (k + 1)) = true := by
      cases hstate (k + 1) hnext with
      | exact hmeas' hund =>
        have hbits := hmeas'.bits 0 (two_pow_pos log2)
        rw [hone, prefixLen_one, add_zero] at hbits
        refine hbits.mpr ⟨one_pos, by omega, mod_one _, fun j hj => ?_⟩
        obtain rfl : j = 0 := by omega
        exact hset
      | below len hmeas' hmod hge' hlt hzero hdist => omega
      | above hclear hge' hgt hbound hzero hdist => omega
    have hprev := (hmeas.bits (2 ^ log2 - 2 ^ t) (by omega)).mpr
      ⟨zero_lt_of_lt (prefixLen_gt hge), by rw [prefixLen_of_ge hge]; exact hend⟩
    have hlt := lt_of_getLsbD hset
    rw [getLsbD_and, getLsbD_shiftLeft, hlsb, decide_eq_true hlt, Bool.true_and,
      Bool.true_and, and_eq_true, Bool.not_eq_true', decide_eq_false_iff_not,
      show 2 ^ log2 * (k + 1) - 2 ^ t = 2 ^ log2 * k + (2 ^ log2 - 2 ^ t) by rw [mul_succ]; omega]
    exact ⟨by rw [mul_succ]; omega, hprev⟩

include h ha hstate hk hge hselected hword hfield in
theorem BlockState.step : BlockState w word' sPerBlock' log2 a t k := by
  have hpow : 2 ^ t < 2 ^ (t + 1) := pow_lt_pow_right (by omega) (by omega)
  have hstate' := hstate k hk
  cases hstate' with
  | exact hmeas hund =>
    have hgt := prefixLen_gt hge
    have hnext := refined_next_iff h ha hstate hge hmeas
    have hex : decide (∃ j < 2 ^ log2, (word &&& word <<< 2 ^ t).getLsbD (2 ^ log2 * k + j) = true) =
        (blockMaxstrLen w log2 a k).testBit t := by
      rw [Bool.eq_iff_iff, decide_eq_true_eq]
      exact refined_exists_iff h ha hmeas hk hge
    have hmod := prefixLen_mod hge
    have hle := prefixLen_le_iff hge
    have hstep := prefixLen_step hge
    rw [hex] at hselected
    rw [hmeas.field] at hfield
    cases hdist : (word &&& word <<< 2 ^ t).getLsbD (2 ^ log2 * (k + 1)) with
    | false =>
      rw [hdist, Bool.xor_false] at hselected
      have hund' (hzero : a = 0) (t' : Nat) (ht' : t ≤ t') : ¬ DisturbedAt w log2 k t' := by
        rcases lt_or_eq_of_le ht' with hlt | rfl
        · exact hund hzero t' hlt
        · intro hdist'
          rw [hnext.mpr ⟨hzero, hdist'⟩] at hdist
          cases hdist
      refine .exact ?_ hund'
      cases hset : (blockMaxstrLen w log2 a k).testBit t with
      | true =>
        rw [hset] at hselected
        rw [hselected, if_pos rfl, or_two_pow hmod] at hfield
        rw [hset, if_pos rfl] at hstep
        rw [hstep]
        exact hmeas.selected (zero_lt_of_lt hgt) hgt.le (two_pow_mod (aligned_of_testBit hset))
          (fun q hq => hmeas.refined_bits h hk hgt hq)
          (fun q hq => by rw [hword q hq, hselected, if_pos rfl]) hfield
      | false =>
        rw [hset] at hselected
        rw [hselected, if_neg Bool.false_ne_true, or_zero] at hfield
        rw [hset, if_neg Bool.false_ne_true, add_zero] at hstep
        rw [hstep]
        exact hmeas.unselected
          (fun q hq => by rw [hword q hq, hselected, if_neg Bool.false_ne_true]) hfield
    | true =>
      obtain ⟨rfl, hdist'⟩ := hnext.mp hdist
      rw [hdist, Bool.xor_true] at hselected
      cases hset : (blockMaxstrLen w log2 0 k).testBit t with
      | true =>
        -- The block is taken for one without a string of the length.
        rw [hset, Bool.not_true] at hselected
        rw [hselected, if_neg Bool.false_ne_true, or_zero] at hfield
        have hmod' := mod_eq_zero_of_dvd
          (dvd_trans (pow_dvd_pow 2 (le_succ t)) (dvd_of_mod_eq_zero hmod))
        exact .below _ (hmeas.unselected
          (fun q hq => by rw [hword q hq, hselected, if_neg Bool.false_ne_true]) hfield)
          hmod' hgt.le (hle.mpr hset) rfl hdist'.disturbed
      | false =>
        rw [hset, Bool.not_false] at hselected
        rw [hselected, if_pos rfl, or_two_pow hmod] at hfield
        rw [hset] at hex hle
        refine .above (fun q hq => ?_) (by omega) ?_ ?_ rfl hdist'.disturbed
        · rw [hword q hq, hselected, if_pos rfl]
          apply eq_false_iff.mpr
          intro hbit
          exact (of_decide_eq_false hex) ⟨q, hq, hbit⟩
        · rw [hfield]
          by_contra hge'
          exact Bool.false_ne_true (hle.mp (Nat.le_of_not_lt hge'))
        · rw [hfield]
          exact prefixLen_bound (hund rfl) hdist'
  | below len hmeas hmod hge' hlt hzero hdist =>
    subst hzero
    have hgt : 2 ^ t < len := by omega
    have hmod' := mod_eq_zero_of_dvd
      (dvd_trans (pow_dvd_pow 2 (le_succ t)) (dvd_of_mod_eq_zero hmod))
    have hex : (∃ j < 2 ^ log2, (word &&& word <<< 2 ^ t).getLsbD (2 ^ log2 * k + j) = true) :=
      (hmeas.exists_combined_iff (zero_lt_of_lt hgt) hgt.le (mod_one _)
        (fun q hq => hmeas.refined_bits h hk hgt hq) ha (mod_one _)).mpr (by omega)
    rw [decide_eq_true hex] at hselected
    rw [hmeas.field] at hfield
    cases hnext : (word &&& word <<< 2 ^ t).getLsbD (2 ^ log2 * (k + 1)) with
    | false =>
      rw [hnext, Bool.xor_false] at hselected
      rw [hselected, if_pos rfl, or_two_pow hmod] at hfield
      have hsum : (len + 2 ^ t) % 2 ^ t = 0 := by rw [add_mod_right, hmod']
      exact .below _ (hmeas.selected (zero_lt_of_lt hgt) hgt.le (mod_one _)
        (fun q hq => hmeas.refined_bits h hk hgt hq)
        (fun q hq => by rw [hword q hq, hselected, if_pos rfl]) hfield)
        hsum (Nat.le_add_left _ _) (by omega) rfl hdist
    | true =>
      rw [hnext, Bool.xor_true, Bool.not_true] at hselected
      rw [hselected, if_neg Bool.false_ne_true, or_zero] at hfield
      exact .below len (hmeas.unselected
        (fun q hq => by rw [hword q hq, hselected, if_neg Bool.false_ne_true]) hfield)
        hmod' hgt.le (by omega) rfl hdist
  | above hclear hge' hgt hbound hzero hdist =>
    -- There are no bits left to combine with any ones.
    have hnone : ¬ ∃ j < 2 ^ log2, (word &&& word <<< 2 ^ t).getLsbD (2 ^ log2 * k + j) = true := by
      rintro ⟨q, hq, hbit⟩
      rw [getLsbD_and, hclear q hq, Bool.false_and] at hbit
      cases hbit
    have hnext : (word &&& word <<< 2 ^ t).getLsbD (2 ^ log2 * (k + 1)) = false := by
      apply eq_false_iff.mpr
      intro hbit
      have hlog := pow_lt_pow_right (show 1 < 2 by omega) (lt_log2_of_ge hge)
      obtain ⟨-, -, -, hprev⟩ := refined_next h ha hstate hbit (lt_log2_of_ge hge)
      rw [hclear _ (by omega)] at hprev
      cases hprev
    rw [decide_eq_false hnone, hnext, Bool.xor_false] at hselected
    rw [hselected, if_neg Bool.false_ne_true, or_zero] at hfield
    refine .above (fun q hq => ?_) (by omega) (by omega) (by omega) hzero hdist
    rw [hword q hq, hselected, if_neg Bool.false_ne_true, hclear q hq]

theorem BlockState.keep (hstate : BlockState w word sPerBlock log2 a (t + 1) k)
    (hlt : blockMaxstrLen w log2 a k < 2 ^ (t + 1))
    (hword : ∀ q < 2 ^ log2, word'.getLsbD (2 ^ log2 * k + q) = word.getLsbD (2 ^ log2 * k + q))
    (hfield : (lane (2 ^ log2) sPerBlock' k).toNat = (lane (2 ^ log2) sPerBlock k).toNat) :
    Measured w word' sPerBlock' log2 a k (doubledLen t (blockMaxstrLen w log2 a k)) ∧
      BlockState w word' sPerBlock' log2 a t k := by
  cases hstate with
  | exact hmeas hund =>
    rw [hmeas.field] at hfield
    have hmeas' := hmeas.unselected hword hfield
    rw [← prefixLen_step_of_lt hlt] at hmeas'
    refine ⟨by rwa [prefixLen_of_lt hlt] at hmeas', .exact hmeas' fun hzero t' ht' => ?_⟩
    rcases lt_or_eq_of_le ht' with hlt' | rfl
    · exact hund hzero t' hlt'
    · subst hzero
      exact fun hdist => absurd hdist.2.2.1 (Nat.not_le_of_lt hlt)
  | below len hmeas hmod hge hle hzero hdist => omega
  | above hclear hge hgt hbound hzero hdist => omega

end Step

end Refining

section Start

variable {anchors nonzero : BitmapWord} {k : Nat}

theorem alignStrings_start (w : BitmapWord) (h : IsLsbsMask log2 mask) (a : Nat) :
    IsLowMask log2 a (alignStrings a 0 mask w).2 ∧
      ∀ k < 2 ^ (6 - log2), ∀ q < 2 ^ log2,
        (alignStrings a 0 mask w).1.getLsbD (2 ^ log2 * k + q) = true ↔
          EndsString w (2 ^ log2 * k) 0 (2 ^ a) (2 ^ log2 * k + q) := by
  have hsingle (k : Nat) (_ : k < 2 ^ (6 - log2)) (q : Nat) (_ : q < 2 ^ log2) :
      w.getLsbD (2 ^ log2 * k + q) = true ↔
        EndsString w (2 ^ log2 * k) 0 (2 ^ 0) (2 ^ log2 * k + q) := by
    constructor
    · intro hbit
      refine ⟨by omega, mod_one _, fun j hj => ?_⟩
      obtain rfl : j = 0 := by omega
      exact hbit
    · exact fun hend => hend.2.2 0 one_pos
  have hspec := alignStrings_spec h a (isLowMask_zero h) hsingle
  rwa [zero_add] at hspec

theorem getLsbD_anchored (h : IsLsbsMask log2 mask) (hanchors : IsLsbsMask a anchors)
    (hk : k < 2 ^ (6 - log2)) {q : Nat} (hq : q < 2 ^ log2) :
    ((alignStrings a 0 mask w).1 &&& anchors <<< (2 ^ a - 1)).getLsbD (2 ^ log2 * k + q) = true ↔
      EndsString w (2 ^ log2 * k) a (2 ^ a) (2 ^ log2 * k + q) := by
  have hle := h.block_le hk
  have hspec := (alignStrings_start w h a).2 k hk q hq
  rw [getLsbD_and, getLsbD_shiftLeft, and_eq_true, hspec, and_eq_true,
    and_eq_true, decide_eq_true (show 2 ^ log2 * k + q < 64 by omega), Bool.not_eq_true',
    decide_eq_false_iff_not]
  constructor
  · rintro ⟨⟨hle', -, hall⟩, ⟨-, hge⟩, hanchor⟩
    refine ⟨hle', ?_, hall⟩
    rw [hanchors.bits _ (by omega), decide_eq_true_eq] at hanchor
    have hsplit : 2 ^ log2 * k + q + 1 = 2 ^ log2 * k + q - (2 ^ a - 1) + 2 ^ a := by omega
    rw [hsplit, add_mod_right, hanchor]
  · rintro ⟨hle', halign, hall⟩
    refine ⟨⟨hle', mod_one _, hall⟩, ⟨rfl, by omega⟩, ?_⟩
    rw [hanchors.bits _ (by omega), decide_eq_true_eq]
    have hsub := Nat.dvd_sub (dvd_of_mod_eq_zero halign) (dvd_refl (2 ^ a))
    rw [show 2 ^ log2 * k + q + 1 - 2 ^ a = 2 ^ log2 * k + q - (2 ^ a - 1) by omega] at hsub
    exact mod_eq_zero_of_dvd hsub

theorem blockMaxstrLen_eq_zero (h : blockMaxstrLen w log2 a k < 2 ^ a) :
    blockMaxstrLen w log2 a k = 0 := by
  have hmod : blockMaxstrLen w log2 a k % 2 ^ a = 0 := maxstrLen_mod w _ _ a
  rwa [mod_eq_of_lt h] at hmod

theorem measured_start (h : IsLsbsMask log2 mask) (ha : a < log2)
    (hword : ∀ q < 2 ^ log2, word.getLsbD (2 ^ log2 * k + q) = true ↔
      EndsString w (2 ^ log2 * k) a (2 ^ a) (2 ^ log2 * k + q))
    (hnonzero : ∀ p < 64, nonzero.getLsbD p = (decide (p % 2 ^ log2 = 0) &&
      decide (∃ j < 2 ^ log2, word.getLsbD (p + j) = true))) (hk : k < 2 ^ (6 - log2)) :
    Measured w word (nonzero <<< a) log2 a k (doubledLen a (blockMaxstrLen w log2 a k)) := by
  have hle := h.block_le hk
  have halog : a < 2 ^ log2 := lt_trans ha Nat.lt_two_pow_self
  have hex : (∃ q < 2 ^ log2, word.getLsbD (2 ^ log2 * k + q) = true) ↔
      2 ^ a ≤ blockMaxstrLen w log2 a k := by
    rw [blockMaxstrLen, ← exists_endsString_iff (block_aligned ha.le k) (two_pow_pos a)
      (mod_self _)]
    constructor
    · rintro ⟨q, hq, hbit⟩
      exact ⟨q, hq, (hword q hq).mp hbit⟩
    · rintro ⟨q, hq, hend⟩
      exact ⟨q, hq, (hword q hq).mpr hend⟩
  have hlsbs : LsbsOnly log2 nonzero := by
    intro p hp
    rw [hnonzero p (lt_of_getLsbD hp), and_eq_true, decide_eq_true_eq] at hp
    exact hp.1
  have hbit : nonzero.getLsbD (2 ^ log2 * k) = true ↔ 2 ^ a ≤ blockMaxstrLen w log2 a k := by
    rw [hnonzero _ (by omega), mul_mod_right, decide_eq_true rfl, Bool.true_and,
      decide_eq_true_eq, hex]
  have hfield : (lane (2 ^ log2) (nonzero <<< a) k).toNat =
      doubledLen a (blockMaxstrLen w log2 a k) := by
    rw [lane_lsbs_shiftLeft h hlsbs halog hk]
    split
    · rename_i hset
      rw [doubledLen_of_ge (hbit.mp hset), BitVec.toNat_twoPow,
        mod_eq_of_lt (pow_lt_pow_right (by omega) halog)]
    · rename_i hclear
      rw [hbit] at hclear
      rw [blockMaxstrLen_eq_zero (Nat.lt_of_not_le hclear)]
      rfl
  refine ⟨hfield, fun q hq => ?_⟩
  rcases lt_or_ge (blockMaxstrLen w log2 a k) (2 ^ a) with hlt | hge
  · rw [blockMaxstrLen_eq_zero hlt]
    constructor
    · intro hset
      have hge := hex.mp ⟨q, hq, hset⟩
      omega
    · intro hlen
      exact absurd hlen.1 (lt_irrefl 0)
  · rw [doubledLen_of_ge hge, hword q hq]
    exact ⟨fun hend => ⟨two_pow_pos a, hend⟩, And.right⟩

end Start

theorem refined_sStr (h : IsLsbsMask log2 mask) {t : Nat} (ht : t < log2)
    {sStr sPerBlock : BitmapWord}
    (hs : SelectsBlocks log2 sStr (fun k => 2 ^ (t + 1) ≤ blockMaxstrLen w log2 a k))
    (hmeas : ∀ k < 2 ^ (6 - log2), blockMaxstrLen w log2 a k < 2 ^ (t + 1) →
      Measured w word sPerBlock log2 a k (doubledLen t (blockMaxstrLen w log2 a k))) :
    SelectsBlocks log2 (sStr ||| (sPerBlock >>> t &&& mask))
      (fun k => 2 ^ t ≤ blockMaxstrLen w log2 a k) := by
  have hadded : SelectsBlocks log2 (sPerBlock >>> t &&& mask)
      (fun k => (sPerBlock >>> t).getLsbD (2 ^ log2 * k) = true) :=
    h.selectsBlocks (fun k _ => Iff.rfl)
  have hpow : 2 ^ t ≤ 2 ^ (t + 1) := pow_le_pow_right (by omega) (by omega)
  have hbit (k : Nat) (hk : k < 2 ^ (6 - log2)) (hlt : blockMaxstrLen w log2 a k < 2 ^ (t + 1)) :
      (sPerBlock >>> t).getLsbD (2 ^ log2 * k) = decide (2 ^ t ≤ blockMaxstrLen w log2 a k) := by
    rw [(hmeas k hk hlt).testBit (lt_trans ht Nat.lt_two_pow_self), testBit_doubledLen]
  intro p
  rw [BitVec.getLsbD_or, Bool.or_eq_true, hs p, hadded p]
  constructor
  · rintro (⟨k, hk, rfl, hge⟩ | ⟨k, hk, rfl, hset⟩)
    · exact ⟨k, hk, rfl, le_trans hpow hge⟩
    · refine ⟨k, hk, rfl, ?_⟩
      rcases lt_or_ge (blockMaxstrLen w log2 a k) (2 ^ (t + 1)) with hlt | hge
      · rw [hbit k hk hlt, decide_eq_true_eq] at hset
        exact hset
      · exact le_trans hpow hge
  · rintro ⟨k, hk, rfl, hge⟩
    rcases lt_or_ge (blockMaxstrLen w log2 a k) (2 ^ (t + 1)) with hlt | hge'
    · exact .inr ⟨k, hk, rfl, (hbit k hk hlt).trans (decide_eq_true hge)⟩
    · exact .inl ⟨k, hk, rfl, hge'⟩

theorem refineLengths_ok (pr : Profile) (h : IsLsbsMask log2 mask) (ha : a ≤ log2) (t : Nat)
    {s : Refined} (ht : t ≤ log2)
    (hs : SelectsBlocks log2 s.blocksWithSStrLsbs (fun k => 2 ^ t ≤ blockMaxstrLen w log2 a k))
    (hstate : ∀ k < 2 ^ (6 - log2), BlockState w s.bitmapWord s.sPerBlock log2 a t k) :
    ∃ r, refineLengths pr log2 mask t s = .ok r ∧
      ∀ k < 2 ^ (6 - log2), BlockState w r.bitmapWord r.sPerBlock log2 a 0 k := by
  induction t generalizing s with
  | zero => exact ⟨s, rfl, hstate⟩
  | succ t ih =>
    obtain ⟨word, sPerBlock, sMax, maxStr, sStr⟩ := s
    rw [refineLengths]
    dsimp only
    obtain ⟨carried, hcarried, hbits⟩ := carriedLsbs_ok pr h (word &&& word <<< 2 ^ t)
    have hlsb (k : Nat) (hk : k < 2 ^ (6 - log2)) (hge : 2 ^ (t + 1) ≤ blockMaxstrLen w log2 a k) :
        (word &&& word <<< 2 ^ t).getLsbD (2 ^ log2 * k) = false := by
      apply eq_false_iff.mpr
      intro hbit
      rw [getLsbD_and, and_eq_true] at hbit
      have hone := ((hstate k hk).lsb ha hbit.1).2.2
      have htwo : 2 ≤ 2 ^ (t + 1) := Nat.le_self_pow (succ_ne_zero t) 2
      omega
    split
    · have hassert : word &&& word <<< 2 ^ t &&& sStr = 0 := by
        apply BitVec.eq_of_getLsbD_eq
        intro p _
        rw [getLsbD_and, show (0 : BitmapWord).getLsbD p = false from getLsbD_zero]
        apply eq_false_iff.mpr
        intro hbit
        rw [and_eq_true, hs p] at hbit
        obtain ⟨hbit, k, hk, rfl, hge⟩ := hbit
        rw [hlsb k hk hge] at hbit
        cases hbit
      have hx : LsbsOnly log2 (carried &&& sStr) := by
        intro p hp
        rw [getLsbD_and, and_eq_true] at hp
        exact hs.lsbsOnly p hp.2
      obtain ⟨select, hselect, hselected⟩ := blocksSelectMask_ok pr h hx
      rw [debugAssert_ok pr hassert, ok_bind, hcarried, ok_bind, hselect, ok_bind]
      have hword (k : Nat) (hk : k < 2 ^ (6 - log2)) (q : Nat) (hq : q < 2 ^ log2) :
          (word ^^^ ((word ^^^ (word &&& word <<< 2 ^ t)) &&& select)).getLsbD (2 ^ log2 * k + q) =
            if (carried &&& sStr).getLsbD (2 ^ log2 * k) = true
            then (word &&& word <<< 2 ^ t).getLsbD (2 ^ log2 * k + q)
            else word.getLsbD (2 ^ log2 * k + q) := by
        rw [getLsbD_select, hselected k hk q hq]
      have hfield (k : Nat) (hk : k < 2 ^ (6 - log2)) :
          (lane (2 ^ log2) (sPerBlock ||| (carried &&& sStr) <<< t) k).toNat =
            (lane (2 ^ log2) sPerBlock k).toNat |||
              if (carried &&& sStr).getLsbD (2 ^ log2 * k) = true then 2 ^ t else 0 := by
        have htlog : t < 2 ^ log2 := lt_trans ht Nat.lt_two_pow_self
        rw [lane_or, BitVec.toNat_or, lane_lsbs_shiftLeft h hx htlog hk]
        split
        · rw [BitVec.toNat_twoPow, mod_eq_of_lt (pow_lt_pow_right (by omega) htlog)]
        · rfl
      generalize word ^^^ ((word ^^^ (word &&& word <<< 2 ^ t)) &&& select) = word' at hword
      generalize sPerBlock ||| (carried &&& sStr) <<< t = sPerBlock' at hfield
      have hkept (k : Nat) (hk : k < 2 ^ (6 - log2))
          (hlt : blockMaxstrLen w log2 a k < 2 ^ (t + 1)) :
          Measured w word' sPerBlock' log2 a k (doubledLen t (blockMaxstrLen w log2 a k)) ∧
            BlockState w word' sPerBlock' log2 a t k := by
        have hclear : ¬ (carried &&& sStr).getLsbD (2 ^ log2 * k) = true := by
          rw [getLsbD_and, and_eq_true, hs.getLsbD hk]
          omega
        refine (hstate k hk).keep hlt (fun q hq => ?_) ?_
        · rw [hword k hk q hq, if_neg hclear]
        · rw [hfield k hk, if_neg hclear, or_zero]
      have hstate' (k : Nat) (hk : k < 2 ^ (6 - log2)) :
          BlockState w word' sPerBlock' log2 a t k := by
        rcases lt_or_ge (blockMaxstrLen w log2 a k) (2 ^ (t + 1)) with hlt | hge
        · exact (hkept k hk hlt).2
        · refine BlockState.step h ha hstate hk hge ?_ (hword k hk) (hfield k hk)
          rw [getLsbD_and, (hs.getLsbD hk).mpr hge, Bool.and_true, hbits k hk (hlsb k hk hge)]
      exact ih (by omega) (refined_sStr h ht hs (fun k hk hlt => (hkept k hk hlt).1)) hstate'
    · rename_i hzero
      have hstate' (k : Nat) (hk : k < 2 ^ (6 - log2)) :
          BlockState w word sPerBlock log2 a t k := by
        rcases lt_or_ge (blockMaxstrLen w log2 a k) (2 ^ (t + 1)) with hlt | hge
        · exact ((hstate k hk).keep hlt (fun _ _ => rfl) rfl).2
        · have hnone : false =
              (decide (∃ j < 2 ^ log2, (word &&& word <<< 2 ^ t).getLsbD (2 ^ log2 * k + j) = true) ^^
                (word &&& word <<< 2 ^ t).getLsbD (2 ^ log2 * (k + 1))) := by
            have hclear (p : Nat) : (word &&& word <<< 2 ^ t).getLsbD p = false := by
              rw [not_not.mp hzero]
              exact getLsbD_zero
            simp only [hclear, Bool.false_eq_true, and_false, exists_false, decide_false,
              Bool.xor_false]
          exact BlockState.step h ha hstate hk hge hnone (fun _ _ => rfl) (or_zero _).symm
      exact ih (by omega) (refined_sStr h ht hs (fun k hk hlt =>
        ((hstate k hk).keep hlt (fun _ _ => rfl) rfl).1)) hstate'

/-- How a length determined relates to the one that is to be: it is off if and only if
the block is disturbed. -/
def LengthFound (w : BitmapWord) (log2 a k len : Nat) : Prop :=
  len = blockMaxstrLen w log2 a k ∧ (a = 0 → ¬ Disturbed w log2 k) ∨
    a = 0 ∧ Disturbed w log2 k ∧ (len < blockMaxstrLen w log2 a k ∨
      blockMaxstrLen w log2 a k < len ∧ (4 * len ≤ 3 * 2 ^ log2 ∨ 2 ^ log2 < len))

theorem BlockState.lengthFound {word sPerBlock : BitmapWord} {k : Nat}
    (h : BlockState w word sPerBlock log2 a 0 k) :
    LengthFound w log2 a k (lane (2 ^ log2) sPerBlock k).toNat := by
  cases h with
  | exact hmeas hund =>
    rw [hmeas.field, prefixLen_zero]
    exact .inl ⟨rfl, fun hzero ⟨t, _, hdist⟩ => hund hzero t (zero_le t) hdist⟩
  | below len hmeas hmod hge hlt hzero hdist =>
    rw [hmeas.field]
    exact .inr ⟨hzero, hdist, .inl hlt⟩
  | above hclear hge hgt hbound hzero hdist => exact .inr ⟨hzero, hdist, .inr ⟨hgt, hbound⟩⟩

theorem blocksMaxstrLens_ok (pr : Profile) (w : BitmapWord) {anchors : BitmapWord}
    (h : IsLsbsMask log2 mask) (hanchors : IsLsbsMask a anchors) (ha : a < log2) :
    ∃ sMax sPerBlock, blocksMaxstrLens pr w log2 mask a anchors = .ok (sMax, sPerBlock) ∧
      ∀ k < 2 ^ (6 - log2), LengthFound w log2 a k (lane (2 ^ log2) sPerBlock k).toNat := by
  have hlow := (alignStrings_start w h a).1
  have hanchored (k : Nat) (hk : k < 2 ^ (6 - log2)) (q : Nat) (hq : q < 2 ^ log2) :=
    getLsbD_anchored (w := w) h hanchors hk hq
  have hempty (k : Nat) (hlt : blockMaxstrLen w log2 a k < 2 ^ a) :
      LengthFound w log2 a k (lane (2 ^ log2) (0 : BitmapWord) k).toNat := by
    have hzero := blockMaxstrLen_eq_zero hlt
    rw [show lane (2 ^ log2) (0 : BitmapWord) k = 0#(2 ^ log2) from lane_zero k]
    refine .inl ⟨hzero.symm, ?_⟩
    rintro rfl ⟨t, -, -, -, hge, -⟩
    have hpos := two_pow_pos (t + 1)
    omega
  have hends (k : Nat) (hge : 2 ^ a ≤ blockMaxstrLen w log2 a k) :
      ∃ q < 2 ^ log2, EndsString w (2 ^ log2 * k) a (2 ^ a) (2 ^ log2 * k + q) :=
    (exists_endsString_iff (block_aligned ha.le k) (two_pow_pos a) (mod_self _)).mpr hge
  rw [blocksMaxstrLens, debugAssert_ok pr ha, ok_bind]
  split
  · rename_i hzero
    refine ⟨_, _, rfl, fun k _ => hempty k (Nat.lt_of_not_le fun hge => ?_)⟩
    obtain ⟨q, -, hend⟩ := hends k hge
    have hbit := hend.2.2 0 (two_pow_pos a)
    rw [hzero, show (0 : BitmapWord).getLsbD _ = false from getLsbD_zero] at hbit
    cases hbit
  · dsimp only
    split
    · rename_i hzero
      refine ⟨_, _, rfl, fun k hk => hempty k (Nat.lt_of_not_le fun hge => ?_)⟩
      obtain ⟨q, hq, hend⟩ := hends k hge
      have hbit := (hanchored k hk q hq).mpr hend
      rw [hzero, show (0 : BitmapWord).getLsbD _ = false from getLsbD_zero] at hbit
      cases hbit
    · obtain ⟨nonzero, hnonzero, hbits⟩ := nonzeroBlocksLsbs_ok pr h
        ((alignStrings a 0 mask w).1 &&& anchors <<< (2 ^ a - 1))
      have hstart (k : Nat) (hk : k < 2 ^ (6 - log2)) :=
        measured_start h ha (hanchored k hk) hbits hk
      obtain ⟨r, hr, -, hle, hlt, -, hlens⟩ := doubleLengths_ok pr h ha.le (log2 - a)
        (s := ⟨a, _, nonzero <<< a⟩) (by omega) (le_refl a) hlow rfl hstart
      have hlongest : SelectsBlocks log2 (r.sPerBlock >>> r.sLog2 &&& mask)
          (fun k => 2 ^ r.sLog2 ≤ blockMaxstrLen w log2 a k) :=
        h.selectsBlocks (fun k hk => by
          rw [(hlens k hk).testBit (lt_of_le_of_lt hle Nat.lt_two_pow_self), testBit_doubledLen,
            decide_eq_true_eq])
      have hstate (k : Nat) (hk : k < 2 ^ (6 - log2)) :
          BlockState w r.bitmapWord r.sPerBlock log2 a r.sLog2 k := by
        refine .exact (by rw [prefixLen_of_lt (hlt k hk)]; exact hlens k hk) ?_
        rintro rfl t' ht' ⟨-, -, hge, -⟩
        have hpow : 2 ^ (r.sLog2 + 1) ≤ 2 ^ (t' + 1) := pow_le_pow_right (by omega) (by omega)
        exact absurd (hlt k hk) (Nat.not_lt_of_le (le_trans hpow hge))
      obtain ⟨refined, hrefined, hfields⟩ := refineLengths_ok pr h ha.le r.sLog2
        (s := ⟨r.bitmapWord, r.sPerBlock, 2 ^ r.sLog2, _, _⟩) hle hlongest hstate
      rw [hnonzero, ok_bind, hr, ok_bind, hrefined, ok_bind]
      exact ⟨_, _, rfl, fun k hk => (hfields k hk).lengthFound⟩

end Blocks

end CocoonFs.MaxstrLens
