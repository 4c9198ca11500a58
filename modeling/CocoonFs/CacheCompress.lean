import CocoonFs.CacheRows

namespace CocoonFs.CacheCompress

open CacheSet CacheRows Lanes BitVec

variable {r : Nat}

section Rows

theorem row_xor (x y : BitVec 64) (r : Nat) : row (x ^^^ y) r = row x r ^^^ row y r := lane_xor x y r

theorem getLsbD_row (x : BitVec 64) (r : Nat) {j : Nat} (hj : j < 8) :
    (row x r).getLsbD j = x.getLsbD (8 * r + j) := by
  rw [row, getLsbD_lane, decide_eq_true hj, Bool.true_and]

/-- What a shift to the left moves out of a row gets cleared in the next one. -/
theorem row_shiftLeft_clear {x c : BitVec 64} {r k : Nat} (hr : r < 8) {v : BitVec 8}
    (hc : row c r = v) (hv : ∀ j, j < k → v.getLsbD j = true) :
    row ((x <<< k) &&& ~~~c) r = (row x r <<< k) &&& ~~~v := by
  apply eq_of_getLsbD_eq
  intro j hj
  rw [row_and, row_not c hr, hc, getLsbD_and, getLsbD_and, BitVec.getLsbD_not,
    decide_eq_true hj, Bool.true_and]
  by_cases hjk : j < k
  · rw [hv j hjk, Bool.not_true, Bool.and_false, Bool.and_false]
  · congr 1
    rw [getLsbD_row _ _ hj, getLsbD_shiftLeft, getLsbD_shiftLeft,
      decide_eq_true (show 8 * r + j < 64 by omega), decide_eq_true hj,
      decide_eq_false (show ¬ 8 * r + j < k by omega), decide_eq_false hjk,
      getLsbD_row _ _ (show j - k < 8 by omega), show 8 * r + j - k = 8 * r + (j - k) by omega]

/-- A shift to the right moves no bits from one row to another if there are none among
the low ones. -/
theorem row_ushiftRight {x : BitVec 64} {k : Nat} (hk : k ≤ 8)
    (hlow : ∀ r, r < 8 → ∀ j, j < k → (row x r).getLsbD j = false) (hr : r < 8) :
    row (x >>> k) r = row x r >>> k := by
  apply eq_of_getLsbD_eq
  intro j hj
  rw [getLsbD_row _ _ hj, getLsbD_ushiftRight, getLsbD_ushiftRight]
  by_cases hjk : k + j < 8
  · rw [getLsbD_row _ _ hjk, show k + (8 * r + j) = 8 * r + (k + j) by omega]
  · rw [getLsbD_of_ge (row x r) _ (by omega)]
    by_cases hr7 : r = 7
    · rw [getLsbD_of_ge x _ (by omega)]
    · have hnext := hlow (r + 1) (by omega) (k + j - 8) (by omega)
      rw [getLsbD_row _ _ (by omega)] at hnext
      rw [show k + (8 * r + j) = 8 * (r + 1) + (k + j - 8) by omega, hnext]

end Rows

section Rounds

def moved {n : Nat} (maskLsb mk : BitVec n) : BitVec n :=
  let mp := mk ^^^ ((mk <<< 1) &&& ~~~maskLsb)
  let clear := maskLsb ||| maskLsb <<< 1
  let mp := mp ^^^ ((mp <<< 2) &&& ~~~clear)
  let clear := clear ||| clear <<< 2
  mp ^^^ ((mp <<< 4) &&& ~~~clear)

theorem compressRound_eq {n : Nat} (maskLsb x m mk : BitVec n) (d : Nat) :
    compressRound maskLsb d x m mk =
      ((x ^^^ (x &&& (moved maskLsb mk &&& m))) ||| ((x &&& (moved maskLsb mk &&& m)) >>> d),
        (m ^^^ (moved maskLsb mk &&& m)) ||| ((moved maskLsb mk &&& m) >>> d),
        mk &&& ~~~moved maskLsb mk) := rfl

theorem row_moved (mk : BitVec 64) (hr : r < 8) :
    row (moved subwords8MaskLsb mk) r = moved 1#8 (row mk r) := by
  have hone : ∀ r < 8, row subwords8MaskLsb r = 1#8 := by decide
  have htwo : ∀ r < 8, row (subwords8MaskLsb ||| subwords8MaskLsb <<< 1) r = 1#8 ||| 1#8 <<< 1 := by
    decide
  have hfour : ∀ r < 8, row (subwords8MaskLsb ||| subwords8MaskLsb <<< 1 |||
      (subwords8MaskLsb ||| subwords8MaskLsb <<< 1) <<< 2) r =
        1#8 ||| 1#8 <<< 1 ||| (1#8 ||| 1#8 <<< 1) <<< 2 := by
    decide
  simp only [moved]
  rw [row_xor, row_shiftLeft_clear hr (hfour r hr) (by decide), row_xor,
    row_shiftLeft_clear hr (htwo r hr) (by decide), row_xor,
    row_shiftLeft_clear hr (hone r hr) (by decide)]

theorem row_compressRound (x m mk : BitVec 64) {d : Nat} (hd : d ≤ 8)
    (hlow : ∀ r, r < 8 → ∀ j, j < d → (moved 1#8 (row mk r) &&& row m r).getLsbD j = false)
    (hr : r < 8) :
    row (compressRound subwords8MaskLsb d x m mk).1 r =
        (compressRound 1#8 d (row x r) (row m r) (row mk r)).1 ∧
      row (compressRound subwords8MaskLsb d x m mk).2.1 r =
        (compressRound 1#8 d (row x r) (row m r) (row mk r)).2.1 ∧
      row (compressRound subwords8MaskLsb d x m mk).2.2 r =
        (compressRound 1#8 d (row x r) (row m r) (row mk r)).2.2 := by
  have hmv (r : Nat) (hr : r < 8) : row (moved subwords8MaskLsb mk &&& m) r =
      moved 1#8 (row mk r) &&& row m r := by
    rw [row_and, row_moved mk hr]
  have hmvlow : ∀ r, r < 8 → ∀ j, j < d →
      (row (moved subwords8MaskLsb mk &&& m) r).getLsbD j = false := by
    intro r hr j hj
    rw [hmv r hr, hlow r hr j hj]
  have htlow : ∀ r, r < 8 → ∀ j, j < d →
      (row (x &&& (moved subwords8MaskLsb mk &&& m)) r).getLsbD j = false := by
    intro r hr j hj
    rw [row_and, getLsbD_and, hmvlow r hr j hj, Bool.and_false]
  rw [compressRound_eq, compressRound_eq]
  refine ⟨?_, ?_, ?_⟩
  · rw [row_or, row_xor, row_ushiftRight hd htlow hr, row_and, hmv r hr]
  · rw [row_or, row_xor, row_ushiftRight hd hmvlow hr, hmv r hr]
  · rw [row_and, row_not _ hr, row_moved mk hr]

end Rounds

section Compression

variable {n : Nat} (maskLsb x m : BitVec n)

/-- The masks before a round. They don't depend on what gets compressed. -/
def masks : Nat → BitVec n × BitVec n
  | 0 => (m, (~~~m <<< 1) &&& ~~~maskLsb)
  | i + 1 => (compressRound maskLsb (2 ^ i) 0#n (masks i).1 (masks i).2).2

def stage : Nat → BitVec n
  | 0 => x &&& m
  | i + 1 => (compressRound maskLsb (2 ^ i) (stage i) (masks maskLsb m i).1 (masks maskLsb m i).2).1

theorem subwordsCompress_eq : subwordsCompress maskLsb x m = stage maskLsb x m 3 := rfl

def compress8 (x m : BitVec 8) : BitVec 8 := subwordsCompress 1#8 x m

theorem masks_low : ∀ m : BitVec 8, ∀ i < 3, ∀ j < 2 ^ i,
    (moved 1#8 (masks 1#8 m i).2 &&& (masks 1#8 m i).1).getLsbD j = false := by
  decide +kernel

theorem row_masks (m : BitVec 64) {i : Nat} (hi : i ≤ 3) (hr : r < 8) :
    row (masks subwords8MaskLsb m i).1 r = (masks 1#8 (row m r) i).1 ∧
      row (masks subwords8MaskLsb m i).2 r = (masks 1#8 (row m r) i).2 := by
  induction i generalizing r with
  | zero =>
    have hone : ∀ r < 8, row subwords8MaskLsb r = 1#8 := by decide
    refine ⟨rfl, ?_⟩
    rw [masks, row_shiftLeft_clear hr (hone r hr) (by decide), row_not m hr]
    rfl
  | succ i ih =>
    have hd : 2 ^ i ≤ 8 := by
      have : i < 3 := by omega
      interval_cases i <;> decide
    obtain ⟨-, hm, hmk⟩ := row_compressRound 0#64 (masks subwords8MaskLsb m i).1
      (masks subwords8MaskLsb m i).2 hd (by
        intro r hr j hj
        rw [(ih (by omega) hr).1, (ih (by omega) hr).2]
        exact masks_low _ i (by omega) j hj) hr
    rw [masks, hm, hmk, (ih (by omega) hr).1, (ih (by omega) hr).2]
    exact ⟨rfl, rfl⟩

theorem row_stage (x m : BitVec 64) {i : Nat} (hi : i ≤ 3) (hr : r < 8) :
    row (stage subwords8MaskLsb x m i) r = stage 1#8 (row x r) (row m r) i := by
  induction i with
  | zero => exact row_and x m r
  | succ i ih =>
    have hd : 2 ^ i ≤ 8 := by
      have : i < 3 := by omega
      interval_cases i <;> decide
    obtain ⟨hx, -, -⟩ := row_compressRound (stage subwords8MaskLsb x m i)
      (masks subwords8MaskLsb m i).1 (masks subwords8MaskLsb m i).2 hd (by
        intro r hr j hj
        rw [(row_masks m (by omega) hr).1, (row_masks m (by omega) hr).2]
        exact masks_low _ i (by omega) j hj) hr
    rw [stage, hx, ih (by omega), (row_masks m (by omega) hr).1, (row_masks m (by omega) hr).2]
    rfl

theorem row_subwords8Compress (x m : BitVec 64) (hr : r < 8) :
    row (subwords8Compress x m) r = compress8 (row x r) (row m r) := by
  rw [subwords8Compress, subwordsCompress_eq, row_stage x m le_rfl hr]
  rfl

theorem compressRound_or (d : Nat) (x y m mk : BitVec n) :
    (compressRound maskLsb d (x ||| y) m mk).1 =
      (compressRound maskLsb d x m mk).1 ||| (compressRound maskLsb d y m mk).1 := by
  rw [compressRound_eq, compressRound_eq, compressRound_eq]
  apply eq_of_getLsbD_eq
  intro j hj
  simp only [getLsbD_or, getLsbD_xor, getLsbD_and, getLsbD_ushiftRight]
  generalize x.getLsbD j = a, y.getLsbD j = b, x.getLsbD (d + j) = c, y.getLsbD (d + j) = e,
    (moved maskLsb mk).getLsbD j = f, m.getLsbD j = g, (moved maskLsb mk).getLsbD (d + j) = h,
    m.getLsbD (d + j) = k
  revert a b c e f g h k
  decide

theorem compress8_or (x y m : BitVec 8) : compress8 (x ||| y) m = compress8 x m ||| compress8 y m := by
  have hstage (i : Nat) : stage 1#8 (x ||| y) m i = stage 1#8 x m i ||| stage 1#8 y m i := by
    induction i with
    | zero => exact and_or_distrib_right
    | succ i ih => rw [stage, ih, compressRound_or, stage, stage]
  exact hstage 3

def rank (evicted : BitVec 8) (c : Nat) : Nat := (List.range c).countP fun i => !evicted.getLsbD i

theorem compress8_bit : ∀ evicted : BitVec 8, ∀ c < 8, compress8 (1#8 <<< c) (~~~evicted) =
    if evicted.getLsbD c then 0#8 else 1#8 <<< rank evicted c := by
  decide +kernel

theorem getLsbD_one_shiftLeft : ∀ k < 8, ∀ j < 8, (1#8 <<< k).getLsbD j = decide (k = j) := by
  decide

theorem getLsbD_ones : ∀ k < 9, ∀ j < 8, (ones k).getLsbD j = decide (j < k) := by decide

theorem and_ones_succ (x : BitVec 8) (k : Nat) (hk : k < 8) : x &&& ones (k + 1) =
    (x &&& ones k) ||| if x.getLsbD k then 1#8 <<< k else 0#8 := by
  have hbit (j : Nat) (hj : j < 8) : (if x.getLsbD k then 1#8 <<< k else 0#8).getLsbD j =
      (x.getLsbD k && decide (k = j)) := by
    cases x.getLsbD k with
    | true => exact getLsbD_one_shiftLeft k hk j hj
    | false => exact getLsbD_zero
  apply eq_of_getLsbD_eq
  intro j hj
  rw [getLsbD_or, getLsbD_and, getLsbD_and, hbit j hj, getLsbD_ones _ (by omega) j hj,
    getLsbD_ones _ (by omega) j hj]
  rcases Nat.lt_trichotomy j k with hlt | rfl | hgt
  · simp [hlt, hlt.ne', Nat.lt_succ_of_lt hlt]
  · simp
  · simp [hgt.ne, Nat.lt_asymm hgt, show ¬ j < k + 1 by omega]

theorem compress8_zero (m : BitVec 8) : compress8 0#8 m = 0#8 := by
  have hstage (i : Nat) : stage 1#8 0#8 m i = 0#8 := by
    induction i with
    | zero => exact zero_and
    | succ i ih =>
      rw [stage, ih, compressRound_eq]
      simp
  exact hstage 3

theorem rank_le (evicted : BitVec 8) (c : Nat) : rank evicted c ≤ c := by
  have := List.countP_le_length (p := fun i => !evicted.getLsbD i) (l := List.range c)
  rwa [List.length_range] at this

/-- Compressing moves each bit retained by the number of bits evicted before it. -/
theorem getLsbD_compress8 (x evicted : BitVec 8) {j : Nat} (hj : j < 8) :
    (compress8 x (~~~evicted)).getLsbD j = true ↔
      ∃ c, c < 8 ∧ evicted.getLsbD c = false ∧ rank evicted c = j ∧ x.getLsbD c = true := by
  -- By induction on how many of the bits are there.
  have hlow (k : Nat) (hk : k ≤ 8) : (compress8 (x &&& ones k) (~~~evicted)).getLsbD j = true ↔
      ∃ c, c < k ∧ evicted.getLsbD c = false ∧ rank evicted c = j ∧ x.getLsbD c = true := by
    induction k with
    | zero =>
      rw [show x &&& ones 0 = 0#8 from and_zero, compress8_zero, getLsbD_zero]
      simp
    | succ k ih =>
      have hbit : (compress8 (if x.getLsbD k then 1#8 <<< k else 0#8) (~~~evicted)).getLsbD j = true ↔
          evicted.getLsbD k = false ∧ rank evicted k = j ∧ x.getLsbD k = true := by
        have hle := rank_le evicted k
        cases hx : x.getLsbD k with
        | false => simp [compress8_zero]
        | true =>
          simp only [if_true, and_true]
          rw [compress8_bit evicted k (by omega)]
          cases he : evicted.getLsbD k with
          | true => simp
          | false =>
            simp only [Bool.false_eq_true, if_false, true_and]
            rw [getLsbD_one_shiftLeft _ (by omega) j hj, decide_eq_true_eq]
      rw [and_ones_succ x k (by omega), compress8_or, getLsbD_or, Bool.or_eq_true,
        ih (by omega), hbit]
      constructor
      · rintro (⟨c, hc, h⟩ | h)
        · exact ⟨c, by omega, h⟩
        · exact ⟨k, by omega, h⟩
      · rintro ⟨c, hc, h⟩
        rcases Nat.lt_succ_iff_lt_or_eq.mp hc with hck | rfl
        · exact Or.inl ⟨c, hck, h⟩
        · exact Or.inr h
  have hall : x &&& ones 8 = x := and_allOnes
  have := hlow 8 le_rfl
  rwa [hall] at this

end Compression

end CocoonFs.CacheCompress
