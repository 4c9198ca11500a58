import CocoonFs.MaxstrRefinement
import Mathlib.Data.Finset.Lattice.Fold
import Mathlib.Order.Lattice.Nat

namespace CocoonFs.MaxstrLens

open Bitmap BitmapWords Checked Lanes Nat
open BitVec (getLsbD_and getLsbD_or getLsbD_zero)

section Maximum

variable {w mask anchors : BitmapWord} {log2 a t : Nat}

/-- What the maximum is while the lengths' bits are determined, down to some bit. The
lengths less than that are powers of two, and nothing gets added to them any more. -/
structure MaxFound (log2 t : Nat) (s : Refined) : Prop where
  lsbs : LsbsOnly log2 s.blocksWithSStrLsbs
  selected : ∀ k < 2 ^ (6 - log2), s.blocksWithSStrLsbs.getLsbD (2 ^ log2 * k) = true →
    (lane (2 ^ log2) s.sPerBlock k).toNat % 2 ^ t = 0 ∧ 2 ^ t ≤ (lane (2 ^ log2) s.sPerBlock k).toNat
  unselected : ∀ k < 2 ^ (6 - log2), s.blocksWithSStrLsbs.getLsbD (2 ^ log2 * k) = false →
    (lane (2 ^ log2) s.sPerBlock k).toNat = 0 ∨
      ∃ j < t, (lane (2 ^ log2) s.sPerBlock k).toNat = 2 ^ j
  le : ∀ k < 2 ^ (6 - log2), (lane (2 ^ log2) s.sPerBlock k).toNat ≤ s.sMax
  attained : ∃ k < 2 ^ (6 - log2), (lane (2 ^ log2) s.sPerBlock k).toNat = s.sMax
  maximal : ∀ k < 2 ^ (6 - log2), s.blocksWithMaxStrLsbs.getLsbD (2 ^ log2 * k) = true ↔
    (lane (2 ^ log2) s.sPerBlock k).toNat = s.sMax

variable {s : Refined}

theorem MaxFound.lt_of_unselected (h : MaxFound log2 t s) {k : Nat}
    (hk : k < 2 ^ (6 - log2)) (hbit : s.blocksWithSStrLsbs.getLsbD (2 ^ log2 * k) = false) :
    (lane (2 ^ log2) s.sPerBlock k).toNat < 2 ^ t := by
  rcases h.unselected k hk hbit with hzero | ⟨j, hj, hpow⟩
  · rw [hzero]
    exact Nat.two_pow_pos t
  · rw [hpow]
    exact Nat.pow_lt_pow_right (by omega) hj

/-- The longest strings are among the ones in the game as long as there are any. -/
theorem MaxFound.sMax_mod (h : MaxFound log2 t s) {k : Nat} (hk : k < 2 ^ (6 - log2))
    (hbit : s.blocksWithSStrLsbs.getLsbD (2 ^ log2 * k) = true) : s.sMax % 2 ^ t = 0 := by
  obtain ⟨m, hm, hmax⟩ := h.attained
  rw [← hmax]
  cases hsel : s.blocksWithSStrLsbs.getLsbD (2 ^ log2 * m) with
  | true => exact (h.selected m hm hsel).1
  | false =>
    have hlt := h.lt_of_unselected hm hsel
    have hle := le_trans (h.selected k hk hbit).2 (h.le k hk)
    omega

theorem add_le_of_mod {x y d : Nat} (hx : x % d = 0) (hy : y % d = 0) (hlt : x < y) : x + d ≤ y := by
  obtain ⟨c, rfl⟩ := dvd_of_mod_eq_zero hx
  obtain ⟨e, rfl⟩ := dvd_of_mod_eq_zero hy
  have hce : c + 1 ≤ e := Nat.lt_of_mul_lt_mul_left hlt
  have hmul := Nat.mul_le_mul_left d hce
  rwa [mul_succ] at hmul

theorem MaxFound.step (h : MaxFound log2 (t + 1) s) (hmask : IsLsbsMask log2 mask)
    (word sPerBlock added : BitmapWord) (ht : t < log2)
    (hsub : ∀ k < 2 ^ (6 - log2), added.getLsbD (2 ^ log2 * k) = true →
      s.blocksWithSStrLsbs.getLsbD (2 ^ log2 * k) = true) (hlsbs : LsbsOnly log2 added)
    (hlane : ∀ k < 2 ^ (6 - log2), (lane (2 ^ log2) sPerBlock k).toNat =
      (lane (2 ^ log2) s.sPerBlock k).toNat |||
        if added.getLsbD (2 ^ log2 * k) = true then 2 ^ t else 0) :
    MaxFound log2 t ⟨word, sPerBlock,
      if s.blocksWithMaxStrLsbs &&& added ≠ 0 then s.sMax ||| 2 ^ t else s.sMax,
      if s.blocksWithMaxStrLsbs &&& added ≠ 0 then s.blocksWithMaxStrLsbs &&& added
      else s.blocksWithMaxStrLsbs,
      s.blocksWithSStrLsbs ||| (sPerBlock >>> t &&& mask)⟩ := by
  have hpos := Nat.two_pow_pos t
  -- The bit had been clear before in all of the lengths it gets added to.
  have hfield (k : Nat) (hk : k < 2 ^ (6 - log2)) : (lane (2 ^ log2) sPerBlock k).toNat =
      (lane (2 ^ log2) s.sPerBlock k).toNat +
        if added.getLsbD (2 ^ log2 * k) = true then 2 ^ t else 0 := by
    rw [hlane k hk]
    split
    · rename_i hadd
      exact or_two_pow (h.selected k hk (hsub k hk hadd)).1
    · rw [or_zero, add_zero]
  have htest (k : Nat) : (sPerBlock >>> t &&& mask).getLsbD (2 ^ log2 * k) = true ↔
      k < 2 ^ (6 - log2) ∧ (lane (2 ^ log2) sPerBlock k).toNat.testBit t = true := by
    have hbit := getLsbD_lane (w := 2 ^ log2) sPerBlock k t
    rw [decide_eq_true (lt_trans ht Nat.lt_two_pow_self), Bool.true_and, BitVec.getLsbD,
      add_comm, ← BitVec.getLsbD_ushiftRight] at hbit
    rw [hmask.selectsBlocks (fun k _ => Iff.rfl), hbit]
    constructor
    · rintro ⟨i, hi, heq, hset⟩
      obtain rfl := Nat.eq_of_mul_eq_mul_left (Nat.two_pow_pos log2) heq
      exact ⟨hi, hset⟩
    · exact fun ⟨hk, hset⟩ => ⟨k, hk, rfl, hset⟩
  have hselected (k : Nat) (hk : k < 2 ^ (6 - log2))
      (hsel : s.blocksWithSStrLsbs.getLsbD (2 ^ log2 * k) = true) :
      (lane (2 ^ log2) sPerBlock k).toNat % 2 ^ t = 0 ∧ 2 ^ t ≤ (lane (2 ^ log2) sPerBlock k).toNat := by
    obtain ⟨hmod, hge⟩ := h.selected k hk hsel
    have hdvd := dvd_trans (pow_dvd_pow 2 (le_succ t)) (dvd_of_mod_eq_zero hmod)
    rw [hfield k hk]
    split
    · exact ⟨mod_eq_zero_of_dvd (Nat.dvd_add hdvd (dvd_refl _)), by omega⟩
    · exact ⟨mod_eq_zero_of_dvd hdvd, by omega⟩
  have hkept (k : Nat) (hk : k < 2 ^ (6 - log2))
      (hsel : s.blocksWithSStrLsbs.getLsbD (2 ^ log2 * k) = false) :
      (lane (2 ^ log2) sPerBlock k).toNat = (lane (2 ^ log2) s.sPerBlock k).toNat := by
    rw [hfield k hk, if_neg, add_zero]
    intro hadd
    rw [hsub k hk hadd] at hsel
    cases hsel
  have hmaximum : (∀ k < 2 ^ (6 - log2), (lane (2 ^ log2) sPerBlock k).toNat ≤
        if s.blocksWithMaxStrLsbs &&& added ≠ 0 then s.sMax ||| 2 ^ t else s.sMax) ∧
      (∃ k < 2 ^ (6 - log2), (lane (2 ^ log2) sPerBlock k).toNat =
        if s.blocksWithMaxStrLsbs &&& added ≠ 0 then s.sMax ||| 2 ^ t else s.sMax) ∧
      ∀ k < 2 ^ (6 - log2), (if s.blocksWithMaxStrLsbs &&& added ≠ 0
        then s.blocksWithMaxStrLsbs &&& added else s.blocksWithMaxStrLsbs).getLsbD (2 ^ log2 * k) = true ↔
        (lane (2 ^ log2) sPerBlock k).toNat =
          if s.blocksWithMaxStrLsbs &&& added ≠ 0 then s.sMax ||| 2 ^ t else s.sMax := by
    split
    · rename_i hany
      obtain ⟨p, -, hp⟩ := exists_bit hany
      rw [getLsbD_and, Bool.and_eq_true] at hp
      obtain ⟨m, hm, rfl⟩ := hmask.exists_block (BitVec.lt_of_getLsbD hp.2) (hlsbs p hp.2)
      have hmax := (h.maximal m hm).mp hp.1
      rw [or_two_pow (h.sMax_mod hm (hsub m hm hp.2))]
      refine ⟨fun k hk => ?_, ⟨m, hm, ?_⟩, fun k hk => ?_⟩
      · have hle := h.le k hk
        rw [hfield k hk]
        split <;> omega
      · rw [hfield m hm, if_pos hp.2, hmax]
      · have hle := h.le k hk
        rw [getLsbD_and, Bool.and_eq_true, h.maximal k hk, hfield k hk]
        split
        · rename_i hadd
          exact ⟨fun hboth => by omega, fun heq => ⟨by omega, hadd⟩⟩
        · rename_i hadd
          exact ⟨fun hboth => absurd hboth.2 hadd, fun heq => by omega⟩
    · rename_i hnone
      have hless (k : Nat) (hk : k < 2 ^ (6 - log2)) (hadd : added.getLsbD (2 ^ log2 * k) = true) :
          (lane (2 ^ log2) s.sPerBlock k).toNat + 2 ^ (t + 1) ≤ s.sMax := by
        have hsel := hsub k hk hadd
        refine add_le_of_mod (h.selected k hk hsel).1 (h.sMax_mod hk hsel)
          (lt_of_le_of_ne (h.le k hk) fun heq => hnone ?_)
        apply ne_zero_of_bit (p := 2 ^ log2 * k)
        rw [getLsbD_and, (h.maximal k hk).mpr heq, hadd, Bool.and_self]
      have hsame (k : Nat) (hk : k < 2 ^ (6 - log2)) : (lane (2 ^ log2) s.sPerBlock k).toNat = s.sMax ↔
          (lane (2 ^ log2) sPerBlock k).toNat = s.sMax := by
        rw [hfield k hk]
        split
        · rename_i hadd
          have hlt := hless k hk hadd
          exact ⟨fun heq => by omega, fun heq => by omega⟩
        · rw [add_zero]
      refine ⟨fun k hk => ?_, ?_, fun k hk => ?_⟩
      · have hle := h.le k hk
        rw [hfield k hk]
        split
        · rename_i hadd
          have hlt := hless k hk hadd
          omega
        · omega
      · obtain ⟨m, hm, hmax⟩ := h.attained
        exact ⟨m, hm, (hsame m hm).mp hmax⟩
      · rw [h.maximal k hk]
        exact hsame k hk
  refine ⟨fun p hp => ?_, fun k hk hbit => ?_, fun k hk hbit => ?_, hmaximum.1, hmaximum.2.1,
    hmaximum.2.2⟩
  · rw [getLsbD_or, Bool.or_eq_true] at hp
    rcases hp with hp | hp
    · exact h.lsbs p hp
    · rw [getLsbD_and, Bool.and_eq_true] at hp
      exact hmask.lsbsOnly p hp.2
  · cases hsel : s.blocksWithSStrLsbs.getLsbD (2 ^ log2 * k) with
    | true => exact hselected k hk hsel
    | false =>
      rw [getLsbD_or, hsel, Bool.false_or, htest, hkept k hk hsel] at hbit
      rw [hkept k hk hsel]
      rcases h.unselected k hk hsel with hzero | ⟨j, hj, hpow⟩
      · rw [hzero, zero_testBit] at hbit
        cases hbit.2
      · rw [hpow, testBit_two_pow, decide_eq_true_eq] at hbit
        rw [hpow, hbit.2]
        exact ⟨mod_self _, le_refl _⟩
  · rw [getLsbD_or, Bool.or_eq_false_iff] at hbit
    obtain ⟨hsel, hclear⟩ := hbit
    rw [hkept k hk hsel]
    refine (h.unselected k hk hsel).imp id ?_
    rintro ⟨j, hj, hpow⟩
    refine ⟨j, ?_, hpow⟩
    have hne : j ≠ t := by
      rintro rfl
      have hset := (htest k).mpr ⟨hk, by rw [hkept k hk hsel, hpow, testBit_two_pow_self]⟩
      rw [hset] at hclear
      cases hclear
    omega

/-- The maximum is that of the lengths, whether or not some of these are off. -/
theorem refineLengths_max {pr : Profile} (hmask : IsLsbsMask log2 mask) (t : Nat) {s r : Refined}
    (ht : t ≤ log2) (h : MaxFound log2 t s) (hr : refineLengths pr log2 mask t s = .ok r) :
    MaxFound log2 0 r := by
  induction t generalizing s with
  | zero =>
    cases hr
    exact h
  | succ t ih =>
    obtain ⟨word, sPerBlock, sMax, maxStr, sStr⟩ := s
    rw [refineLengths] at hr
    split at hr
    · obtain ⟨-, -, hr⟩ := bind_eq_ok hr
      obtain ⟨carried, -, hr⟩ := bind_eq_ok hr
      obtain ⟨select, -, hr⟩ := bind_eq_ok hr
      have hx : LsbsOnly log2 (carried &&& sStr) := by
        intro p hp
        rw [getLsbD_and, Bool.and_eq_true] at hp
        exact h.lsbs p hp.2
      have htlog : t < 2 ^ log2 := lt_trans (lt_of_succ_le ht) Nat.lt_two_pow_self
      refine ih (by omega) (h.step hmask _ _ (carried &&& sStr) ht (fun k hk hadd => ?_) hx
        (fun k hk => ?_)) hr
      · rw [getLsbD_and, Bool.and_eq_true] at hadd
        exact hadd.2
      · rw [lane_or, BitVec.toNat_or, lane_lsbs_shiftLeft hmask hx htlog hk]
        split
        · rw [BitVec.toNat_twoPow, mod_eq_of_lt (Nat.pow_lt_pow_right (by omega) htlog)]
        · rfl
    · have hstep := h.step hmask word sPerBlock 0 ht (fun k hk hadd => ?_) (fun p hp => ?_)
        (fun k hk => ?_)
      · rw [show maxStr &&& (0 : BitmapWord) = 0 from BitVec.and_zero, if_neg (not_not.mpr rfl),
          if_neg (not_not.mpr rfl)] at hstep
        exact ih (by omega) hstep hr
      · rw [show (0 : BitmapWord).getLsbD _ = false from getLsbD_zero] at hadd
        cases hadd
      · rw [show (0 : BitmapWord).getLsbD _ = false from getLsbD_zero] at hp
        cases hp
      · rw [show (0 : BitmapWord).getLsbD _ = false from getLsbD_zero,
          if_neg Bool.false_ne_true, or_zero]

theorem maxFound_start (hmask : IsLsbsMask log2 mask) {word sPerBlock : BitmapWord} (ht : t ≤ log2)
    (hex : ∃ k < 2 ^ (6 - log2), 2 ^ t ≤ blockMaxstrLen w log2 a k)
    (hmeas : ∀ k < 2 ^ (6 - log2), Measured w word sPerBlock log2 a k
      (doubledLen t (blockMaxstrLen w log2 a k))) :
    MaxFound log2 t ⟨word, sPerBlock, 2 ^ t, sPerBlock >>> t &&& mask, sPerBlock >>> t &&& mask⟩ := by
  have hselects : SelectsBlocks log2 (sPerBlock >>> t &&& mask)
      (fun k => 2 ^ t ≤ blockMaxstrLen w log2 a k) :=
    hmask.selectsBlocks (fun k hk => by
      rw [(hmeas k hk).testBit (lt_of_le_of_lt ht Nat.lt_two_pow_self), testBit_doubledLen,
        decide_eq_true_eq])
  have hsmall {len : Nat} (hlen : ¬ 2 ^ t ≤ len) :
      doubledLen t len = 0 ∨ ∃ j < t, doubledLen t len = 2 ^ j := by
    rw [doubledLen]
    split
    · exact .inl rfl
    · rename_i hne
      rw [if_pos (Nat.lt_of_not_le hlen)]
      exact .inr ⟨_, (log_lt_iff_lt_pow (by omega) hne).mpr (Nat.lt_of_not_le hlen), rfl⟩
  have hle (len : Nat) : doubledLen t len ≤ 2 ^ t := by
    by_cases hge : 2 ^ t ≤ len
    · rw [doubledLen_of_ge hge]
    · rcases hsmall hge with hzero | ⟨j, hj, hpow⟩
      · rw [hzero]
        exact zero_le _
      · rw [hpow]
        exact Nat.pow_le_pow_right (by omega) hj.le
  refine ⟨hselects.lsbsOnly, fun k hk hbit => ?_, fun k hk hbit => ?_, fun k hk => ?_, ?_,
    fun k hk => ?_⟩
  · rw [(hmeas k hk).field, doubledLen_of_ge ((hselects.getLsbD hk).mp hbit)]
    exact ⟨mod_self _, le_refl _⟩
  · rw [(hmeas k hk).field]
    refine hsmall fun hge => ?_
    rw [(hselects.getLsbD hk).mpr hge] at hbit
    cases hbit
  · rw [(hmeas k hk).field]
    exact hle _
  · obtain ⟨k, hk, hge⟩ := hex
    refine ⟨k, hk, ?_⟩
    rw [(hmeas k hk).field, doubledLen_of_ge hge]
  · dsimp only
    rw [hselects.getLsbD hk, (hmeas k hk).field]
    constructor
    · exact fun hge => doubledLen_of_ge hge
    · intro heq
      by_contra hge
      rcases hsmall hge with hzero | ⟨j, hj, hpow⟩
      · omega
      · have hne := Nat.pow_lt_pow_right (show 1 < 2 by omega) hj
        omega

theorem blocksMaxstrLens_max {pr : Profile} (h : IsLsbsMask log2 mask) (hanchors : IsLsbsMask a anchors)
    (ha : a < log2) {sMax : Nat} {sPerBlock : BitmapWord}
    (hok : blocksMaxstrLens pr w log2 mask a anchors = .ok (sMax, sPerBlock)) :
    (∀ k < 2 ^ (6 - log2), (lane (2 ^ log2) sPerBlock k).toNat ≤ sMax) ∧
      (sMax ≠ 0 → ∃ k < 2 ^ (6 - log2), (lane (2 ^ log2) sPerBlock k).toNat = sMax) := by
  have hnone : (∀ k < 2 ^ (6 - log2), (lane (2 ^ log2) (0 : BitmapWord) k).toNat ≤ 0) ∧
      (0 ≠ 0 → ∃ k < 2 ^ (6 - log2), (lane (2 ^ log2) (0 : BitmapWord) k).toNat = 0) := by
    refine ⟨fun k _ => ?_, fun hne => absurd rfl hne⟩
    rw [show lane (2 ^ log2) (0 : BitmapWord) k = 0#(2 ^ log2) from lane_zero k]
    exact le_refl 0
  obtain ⟨-, -, hok⟩ := bind_eq_ok hok
  split at hok
  · cases Except.ok.inj hok
    exact hnone
  · dsimp only at hok
    split at hok
    · cases Except.ok.inj hok
      exact hnone
    · rename_i hne
      obtain ⟨nonzero, hnonzero, hbits⟩ := nonzeroBlocksLsbs_ok pr h
        ((alignStrings a 0 mask w).1 &&& anchors <<< (2 ^ a - 1))
      have hanchored (k : Nat) (hk : k < 2 ^ (6 - log2)) (q : Nat) (hq : q < 2 ^ log2) :=
        getLsbD_anchored (w := w) h hanchors hk hq
      obtain ⟨r, hr, -, hle, -, hlast, hlens⟩ := doubleLengths_ok pr h ha.le (log2 - a)
        (s := ⟨a, _, nonzero <<< a⟩) (by omega) (le_refl a) (alignStrings_start w h a).1 rfl
        (fun k hk => measured_start h ha (hanchored k hk) hbits hk)
      have hex : ∃ k < 2 ^ (6 - log2), 2 ^ r.sLog2 ≤ blockMaxstrLen w log2 a k := by
        refine hlast.elim (fun heq => ?_) id
        -- Some string is as long as the alignment at least.
        obtain ⟨p, hp, hbit⟩ := exists_bit hne
        rw [h.words_split] at hp
        have hblock : p / 2 ^ log2 < 2 ^ (6 - log2) := Nat.div_lt_of_lt_mul hp
        have hoff : p % 2 ^ log2 < 2 ^ log2 := mod_lt p (Nat.two_pow_pos log2)
        rw [← div_add_mod p (2 ^ log2), hanchored _ hblock _ hoff] at hbit
        refine ⟨p / 2 ^ log2, hblock, ?_⟩
        rw [heq, blockMaxstrLen, ← exists_endsString_iff (block_aligned ha.le _) (Nat.two_pow_pos a)
          (mod_self _)]
        exact ⟨_, hoff, hbit⟩
      rw [hnonzero, ok_bind, hr, ok_bind] at hok
      obtain ⟨refined, hrefined, hok⟩ := bind_eq_ok hok
      cases Except.ok.inj hok
      have hfound := refineLengths_max h r.sLog2 hle (maxFound_start h hle hex hlens) hrefined
      exact ⟨hfound.le, fun _ => hfound.attained⟩

/-- Every field is the length of the block's longest string, and the number the longest one's. -/
def LengthsCorrect (pr : Profile) (w : BitmapWord) (log2 a : Nat) : Prop :=
  ∃ mask anchors sMax sPerBlock, getBlocksLsbsMask log2 = .ok mask ∧
    getBlocksLsbsMask a = .ok anchors ∧
    blocksMaxstrLens pr w log2 mask a anchors = .ok (sMax, sPerBlock) ∧
    (∀ k < 2 ^ (6 - log2), (lane (2 ^ log2) sPerBlock k).toNat = blockMaxstrLen w log2 a k) ∧
    sMax = (Finset.range (2 ^ (6 - log2))).sup (blockMaxstrLen w log2 a)

theorem LengthFound.eq_iff {k len : Nat} (h : LengthFound w log2 a k len) :
    len = blockMaxstrLen w log2 a k ↔ (a = 0 → ¬ Disturbed w log2 k) := by
  rcases h with ⟨rfl, hund⟩ | ⟨hzero, hdist, hoff⟩
  · exact iff_of_true rfl hund
  · refine iff_of_false ?_ fun hund => hund hzero hdist
    rcases hoff with hlt | ⟨hgt, -⟩
    · exact hlt.ne
    · exact hgt.ne'

/-- With any alignment at all the lengths are those of the strings. Without, they are as long as
no block is disturbed by a lone bit at the begin of the next. -/
theorem blocksMaxstrLens_correct_iff (pr : Profile) (w : BitmapWord) {log2 a : Nat}
    (hlog2 : log2 ≤ 6) (ha : a < log2) :
    LengthsCorrect pr w log2 a ↔ (a = 0 → ∀ k < 2 ^ (6 - log2), ¬ Disturbed w log2 k) := by
  obtain ⟨mask, hmask, h⟩ := getBlocksLsbsMask_ok hlog2
  obtain ⟨anchors, hanchors, h'⟩ := getBlocksLsbsMask_ok (ha.le.trans hlog2)
  obtain ⟨sMax, sPerBlock, hok, hfound⟩ := blocksMaxstrLens_ok pr w h h' ha
  constructor
  · rintro ⟨_, _, _, _, hmask', hanchors', hok', hlens, -⟩ hzero k hk
    rw [hmask] at hmask'
    rw [hanchors] at hanchors'
    cases hmask'
    cases hanchors'
    rw [hok] at hok'
    cases hok'
    exact (hfound k hk).eq_iff.mp (hlens k hk) hzero
  · intro hund
    have hlens (k : Nat) (hk : k < 2 ^ (6 - log2)) :=
      (hfound k hk).eq_iff.mpr fun hzero => hund hzero k hk
    refine ⟨mask, anchors, sMax, sPerBlock, hmask, hanchors, hok, hlens, ?_⟩
    obtain ⟨hle, hattained⟩ := blocksMaxstrLens_max h h' ha hok
    apply le_antisymm
    · by_cases hpos : sMax = 0
      · exact hpos ▸ Nat.zero_le _
      · obtain ⟨k, hk, heq⟩ := hattained hpos
        rw [← heq, hlens k hk]
        exact Finset.le_sup (Finset.mem_range.mpr hk)
    · refine Finset.sup_le fun k hk => ?_
      rw [← hlens k (Finset.mem_range.mp hk)]
      exact hle k (Finset.mem_range.mp hk)

theorem blocksMaxstrLens_correct_alignedPairs : LengthsCorrect .release 0b11110111 3 1 :=
  (blocksMaxstrLens_correct_iff .release 0b11110111 (by decide) (by decide)).mpr
    (fun h => absurd h (by decide))

/-- The lone bit of the second block completes a string with the ones in the first. -/
theorem blocksMaxstrLens_across_blocks : ¬ LengthsCorrect .release 0b0111 1 0 := by
  rintro ⟨mask, anchors, sMax, sPerBlock, hmask, hanchors, hok, hlens, -⟩
  cases hmask
  cases hanchors
  have hok' : blocksMaxstrLens .release 0b0111 1 (lsbsMaskAfter 5) 0 (~~~0) = .ok (3, 0b0111) := by
    decide +kernel
  rw [hok'] at hok
  cases hok
  exact absurd (hlens 0 (by decide)) (by decide +kernel)

end Maximum

end CocoonFs.MaxstrLens
