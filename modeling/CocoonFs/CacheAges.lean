import CocoonFs.CacheShrink

namespace CocoonFs.CacheAges

open Checked CacheSet CacheRows CacheOrder CacheInsert CacheCalls CacheLru CacheOps CacheCompress List
  Lanes

variable {K T : Type} (pr : Profile)

def shortestCompressed (compressed : BitVec 64) : BitVec 64 :=
  let shortest := compressed
  let shortest := shortest &&& shortest >>> 8
  let shortest := shortest &&& shortest >>> 16
  let shortest := shortest &&& shortest >>> 32
  shortest &&& 0xff#64

def debugAssertShortestUnique (compressed repeated : BitVec 64) (capacity slot : Nat) : Comp Unit :=
  match pr with
  | .debug => do
    let mask ← trailingBitsMask .debug (8 * capacity)
    let bit ← shl .debug 1#64 (8 * slot)
    let next ← findLeastSignificantZeroByte .debug
      (((compressed ||| ~~~mask) ^^^ repeated) ||| bit)
    debugAssert .debug (next = maxAssociativity)
  | .release => .ok ()

def leastRecentlyUsedOccupiedSlot (s : SetAssocCacheSet K T) : Comp (Option Nat) := do
  let compressed := subwords8Compress (BitVec.allOnes 64) s.lruReferenceMatrix
  let shortest := shortestCompressed compressed
  if shortest = 0xff#64 then
    -- All bits set for all slots, meaning all are unoccupied.
    pure none
  else do
    let repeated ← mul pr shortest subwords8MaskLsb
    let slot ← findLeastSignificantZeroByte pr (compressed ^^^ repeated)
    debugAssert pr (slot < maxAssociativity)
    debugAssertShortestUnique pr compressed repeated s.capacity slot
    pure (some slot)

def debugAssertAgeUnique (compressed expected : BitVec 64) (capacity slot : Nat) : Comp Unit :=
  match pr with
  | .debug =>
    if slot = capacity then .ok ()
    else do
      let bit ← shl .debug 1#64 (8 * slot)
      let next ← findLeastSignificantZeroByte .debug ((compressed ^^^ expected) ||| bit)
      debugAssert .debug (next = capacity)
  | .release => .ok ()

def slotWithAge (s : SetAssocCacheSet K T) (age : Nat) : Comp (Option Nat) := do
  debugAssert pr (age < maxAssociativity)
  if s.capacity ≤ age then pure none
  else do
    let compressed := subwords8Compress (BitVec.allOnes 64) s.lruReferenceMatrix
    let newest ← subU32 pr s.capacity 1
    let bits ← subU32 pr newest age
    let high ← shl pr subwords8MaskLsb bits
    let expected ← sub pr high subwords8MaskLsb
    let slot ← findLeastSignificantZeroByte pr (compressed ^^^ expected)
    debugAssertAgeUnique pr compressed expected s.capacity slot
    pure (if slot < s.capacity then some slot else none)

section Counts

def setBits (v : BitVec 8) : Nat := (Finset.univ.filter fun c : Fin 8 => v.getLsbD c = true).card

theorem setBits_le (v : BitVec 8) : setBits v ≤ 8 := by
  refine (Finset.card_filter_le _ _).trans ?_
  rw [Finset.card_univ, Fintype.card_fin]

theorem compress8_allOnes : ∀ v : BitVec 8, compress8 allOnes v = ones (setBits v) := by
  decide +kernel

theorem setBits_eq_eight_iff : ∀ v : BitVec 8, setBits v = 8 ↔ v = allOnes := by
  decide +kernel

theorem ones_injective : ∀ m < 9, ∀ n < 9, ones m = ones n → m = n := by decide

theorem row_compressed (x : BitVec 64) (r : Fin 8) :
    row (subwords8Compress (BitVec.allOnes 64) x) r = ones (setBits (row x r)) := by
  have hones : ∀ r : Fin 8, row (BitVec.allOnes 64) r = allOnes := by decide
  rw [row_subwords8Compress _ _ r.isLt, hones, compress8_allOnes]

theorem setBits_lt {v w : BitVec 8} {c : Fin 8} (hsub : ∀ j : Fin 8, v.getLsbD j = true → w.getLsbD j = true)
    (hv : v.getLsbD c = false) (hw : w.getLsbD c = true) : setBits v < setBits w := by
  apply Finset.card_lt_card
  rw [Finset.ssubset_iff_of_subset]
  · refine ⟨c, by simpa using hw, ?_⟩
    rw [Finset.mem_filter, hv]
    simp
  · intro j hj
    rw [Finset.mem_filter] at hj ⊢
    exact ⟨hj.1, hsub j hj.2⟩

variable [LinearOrder K] {s : SetAssocCacheSet K T} {order ages : List (Fin 8)}

theorem setBits_oldest_lt (h : Shape s order) (hages : AgeOrder s.lruReferenceMatrix s.slots ages)
    (hn : Nested s.lruReferenceMatrix s.slots) (h8 : s.capacity = 8) {l : List (Fin 8)} {a : Fin 8}
    (heq : ages = l ++ [a]) (r : Fin 8) (hr : r ≠ a) :
    setBits (row s.lruReferenceMatrix a) < setBits (row s.lruReferenceMatrix r) := by
  have ha : (s.slots a).isSome = true := (hages.mem_iff a).mp (by simp [heq])
  by_cases hsome : (s.slots r).isSome = true
  · have hmem := (hages.mem_iff r).mpr hsome
    have hpair := hages.pairwise
    rw [heq, mem_append, mem_singleton] at hmem
    rw [heq, pairwise_append] at hpair
    have hra := (hpair.2.2 r (hmem.resolve_right hr) a (by simp)).1
    exact setBits_lt (hn r a hsome ha hra) (h.own_clear a ha) hra
  · have hfree := h.free_row r (by omega) (by simpa using hsome)
    rw [hfree, (setBits_eq_eight_iff allOnes).mpr rfl]
    refine lt_of_le_of_ne (setBits_le _) fun hv => ?_
    exact h.row_ne_allOnes ha ((setBits_eq_eight_iff _).mp hv)

end Counts

section Shortest

variable {x : BitVec 64} {n : Nat → Nat}

theorem ones_and_ones : ∀ m < 9, ∀ n < 9, ones m &&& ones n = ones (min m n) := by decide

theorem row_and_shifted (hrow : ∀ r, row x r = ones (n r)) (hle : ∀ r, n r ≤ 8) (k r : Nat) :
    row (x &&& x >>> (8 * k)) r = ones (min (n r) (n (k + r))) := by
  have hshift : row (x >>> (8 * k)) r = row x (k + r) := lane_ushiftRight x k
  have h := hle r
  have h' := hle (k + r)
  rw [row_and, hshift, hrow, hrow, ones_and_ones _ (by omega) _ (by omega)]

theorem shortestCompressed_eq (hrow : ∀ r, row x r = ones (n r)) (hle : ∀ r, n r ≤ 8) {a : Nat}
    (ha : a < 8) (hmin : ∀ r, r < 8 → n a ≤ n r) :
    shortestCompressed x = (ones (n a)).setWidth 64 := by
  have hwidth : ∀ n < 9, ∀ r < 8, row ((ones n).setWidth 64) r = if r = 0 then ones n else 0#8 := by
    decide
  have hmask : ∀ r < 8, row 0xff#64 r = if r = 0 then 0xff#8 else 0#8 := by decide
  have hone := row_and_shifted hrow hle 1
  have htwo := row_and_shifted hone (fun r => (min_le_left _ _).trans (hle r)) 2
  have hfour := row_and_shifted htwo
    (fun r => (min_le_left _ _).trans ((min_le_left _ _).trans (hle r))) 4
  have h := hle a
  apply row_ext
  intro r hr
  rw [shortestCompressed, row_and, hfour, hmask r hr, hwidth _ (by omega) r hr]
  by_cases hr0 : r = 0
  · have hall : min (min (min (n 0) (n 1)) (min (n 2) (n 3)))
        (min (min (n 4) (n 5)) (min (n 6) (n 7))) = n a := by
      refine le_antisymm ?_ ?_
      · interval_cases a <;> omega
      · simp only [Nat.le_min]
        exact ⟨⟨⟨hmin 0 (by omega), hmin 1 (by omega)⟩, hmin 2 (by omega), hmin 3 (by omega)⟩,
          ⟨hmin 4 (by omega), hmin 5 (by omega)⟩, hmin 6 (by omega), hmin 7 (by omega)⟩
    rw [if_pos hr0, if_pos hr0, hr0, show (0xff#8) = BitVec.allOnes 8 from rfl, BitVec.and_allOnes]
    exact congrArg ones hall
  · rw [if_neg hr0, if_neg hr0, BitVec.and_zero]

theorem find_none {z : BitVec 64} (hz : ∀ r, r < 8 → row z r ≠ 0#8) :
    findLeastSignificantZeroByte pr z = .ok 8 := by
  obtain ⟨i, hfind, ⟨hlt, hzero, -⟩ | ⟨rfl, -⟩⟩ := findLeastSignificantZeroByte_spec pr z
  · exact absurd hzero (hz i hlt)
  · exact hfind

theorem find_count {y : BitVec 64} (hrow : ∀ r, row x r = ones (n r)) (hle : ∀ r, n r ≤ 8) {a : Nat}
    (ha : a < 8) (hy : ∀ r, r < 8 → row y r = ones (n a))
    (hunique : ∀ r, r < 8 → r ≠ a → n r ≠ n a) :
    findLeastSignificantZeroByte pr (x ^^^ y) = .ok a := by
  have hzero (r : Nat) (hr : r < 8) : lane 8 (x ^^^ y) r = 0#8 ↔ r = a := by
    have h := hle r
    have h' := hle a
    change row (x ^^^ y) r = 0#8 ↔ _
    rw [row_xor, hrow, hy r hr, BitVec.xor_eq_zero_iff]
    constructor
    · intro heq
      by_contra hne
      exact hunique r hr hne (ones_injective _ (by omega) _ (by omega) heq)
    · rintro rfl
      rfl
  obtain ⟨i, hfind, ⟨hlt, hi, -⟩ | ⟨-, hnone⟩⟩ := findLeastSignificantZeroByte_spec pr (x ^^^ y)
  · rw [hfind, (hzero i hlt).mp hi]
  · exact absurd ((hzero a ha).mpr rfl) (hnone a ha)

theorem row_bit : ∀ a < 8, ∀ r < 8, row (1#64 <<< (8 * a)) r = if r = a then 1#8 else 0#8 := by
  decide

theorem find_other {y z : BitVec 64} (hrow : ∀ r, row x r = ones (n r)) (hle : ∀ r, n r ≤ 8)
    {a : Nat} (ha : a < 8) (hy : ∀ r, r < 8 → row y r = ones (n a))
    (hunique : ∀ r, r < 8 → r ≠ a → n r ≠ n a) (hz : ∀ r, r < 8 → row z r = row (x ^^^ y) r) :
    findLeastSignificantZeroByte pr (z ||| 1#64 <<< (8 * a)) = .ok 8 := by
  have hlow : ∀ v : BitVec 8, v ||| 1#8 ≠ 0#8 := by decide
  apply find_none
  intro r hr
  rw [row_or, row_bit a ha r hr, hz r hr]
  by_cases hra : r = a
  · rw [if_pos hra]
    exact hlow _
  · have h := hle r
    have h' := hle a
    rw [if_neg hra, BitVec.or_zero, row_xor, hrow, hy r hr, Ne, BitVec.xor_eq_zero_iff]
    exact fun heq => hunique r hr hra (ones_injective _ (by omega) _ (by omega) heq)

end Shortest

section Lookups

variable [LinearOrder K] {s : SetAssocCacheSet K T} {order ages : List (Fin 8)}

theorem row_compressed_nat (x : BitVec 64) (r : Nat) :
    row (subwords8Compress (BitVec.allOnes 64) x) r = ones (setBits (row x r)) := by
  by_cases hr : r < 8
  · exact row_compressed x ⟨r, hr⟩
  · rw [row, row, lane_of_le _ (by omega), lane_of_le _ (by omega)]
    rfl

theorem row_repeated : ∀ n < 9, ∀ r < 8,
    row ((ones n).setWidth 64 * subwords8MaskLsb) r = ones n := by
  decide

theorem repeated_fits : ∀ n < 9,
    ((ones n).setWidth 64).toNat * subwords8MaskLsb.toNat < 2 ^ 64 := by
  decide

section

variable (h : Shape s order) (hages : AgeOrder s.lruReferenceMatrix s.slots ages)
include h hages

/-- With the capacity at its maximum, the last one in the order of their ages is found. -/
theorem leastRecentlyUsedOccupiedSlot_spec
    (hn : Nested s.lruReferenceMatrix s.slots) (h8 : s.capacity = 8) :
    leastRecentlyUsedOccupiedSlot pr s = .ok (ages.getLast?.map Fin.val) := by
  have hle (r : Nat) : setBits (row s.lruReferenceMatrix r) ≤ 8 := setBits_le _
  have hrow := row_compressed_nat s.lruReferenceMatrix
  obtain hnil | ⟨l, a, hla⟩ := ages.eq_nil_or_concat
  · have hall (r : Nat) (hr : r < 8) : setBits (row s.lruReferenceMatrix r) = 8 := by
      have hnone : ¬ (s.slots ⟨r, hr⟩).isSome = true := by
        rw [← hages.mem_iff, hnil]
        exact not_mem_nil
      exact (setBits_eq_eight_iff _).mpr (h.free_row ⟨r, hr⟩ (by omega) (by simpa using hnone))
    have hshortest := shortestCompressed_eq hrow hle (show 0 < 8 by omega)
      (fun r hr => by rw [hall 0 (by omega), hall r hr])
    rw [leastRecentlyUsedOccupiedSlot, hshortest, hall 0 (by omega), if_pos (by decide), hnil]
    rfl
  · rw [concat_eq_append] at hla
    have hlt (r : Nat) (hr : r < 8) (hra : r ≠ a.val) :=
      setBits_oldest_lt h hages hn h8 hla ⟨r, hr⟩ (fun heq => hra (congrArg Fin.val heq))
    have ha : (s.slots a).isSome = true := (hages.mem_iff a).mp (by simp [hla])
    have hcount : setBits (row s.lruReferenceMatrix a) < 8 := by
      refine lt_of_le_of_ne (hle a) fun hv => ?_
      exact h.row_ne_allOnes ha ((setBits_eq_eight_iff _).mp hv)
    have hshortest := shortestCompressed_eq hrow hle a.isLt (fun r hr => by
      by_cases hra : r = a.val
      · rw [hra]
      · exact (hlt r hr hra).le)
    have hne : ∀ n < 8, (ones n).setWidth 64 ≠ 0xff#64 := by decide
    have hunique (r : Nat) (hr : r < 8) (hra : r ≠ a.val) := (hlt r hr hra).ne'
    have hrepeated (r : Nat) (hr : r < 8) :=
      row_repeated (setBits (row s.lruReferenceMatrix a)) (by omega) r hr
    have hassert : debugAssertShortestUnique pr
        (subwords8Compress (BitVec.allOnes 64) s.lruReferenceMatrix)
        ((ones (setBits (row s.lruReferenceMatrix a))).setWidth 64 * subwords8MaskLsb)
        s.capacity a.val = .ok () := by
      cases pr with
      | release => rfl
      | debug =>
        obtain ⟨mask, hmask, hmaskrow⟩ := trailingBitsMask_spec .debug (le_refl 8)
        have hz (r : Nat) (hr : r < 8) :
            row ((subwords8Compress (BitVec.allOnes 64) s.lruReferenceMatrix ||| ~~~mask) ^^^
              (ones (setBits (row s.lruReferenceMatrix a))).setWidth 64 * subwords8MaskLsb) r =
            row (subwords8Compress (BitVec.allOnes 64) s.lruReferenceMatrix ^^^
              (ones (setBits (row s.lruReferenceMatrix a))).setWidth 64 * subwords8MaskLsb) r := by
          rw [row_xor, row_or, row_not _ hr, hmaskrow r hr, if_pos hr, row_xor,
            show ~~~allOnes = 0#8 from rfl, BitVec.or_zero]
        rw [debugAssertShortestUnique, h8, hmask, ok_bind, shl_ok .debug _ (by omega), ok_bind,
          find_other .debug hrow hle a.isLt hrepeated hunique hz, ok_bind]
        exact debugAssert_ok .debug rfl
    rw [leastRecentlyUsedOccupiedSlot, hshortest, if_neg (hne _ hcount), mul_ok pr (repeated_fits _ (by omega)), ok_bind,
      find_count pr hrow hle a.isLt hrepeated hunique, ok_bind,
      debugAssert_ok pr (show a.val < maxAssociativity from a.isLt), ok_bind, hassert, ok_bind, hla,
      getLast?_append]
    rfl

theorem setBits_aged
    (hfull : ∀ c, c ∈ ages) {l₁ l₂ : List (Fin 8)} {a : Fin 8} (heq : ages = l₁ ++ a :: l₂) :
    setBits (row s.lruReferenceMatrix a) = l₂.length := by
  have hnodup := hages.nodup
  have hpair := hages.pairwise
  rw [heq, nodup_append, nodup_cons] at hnodup
  rw [heq, pairwise_append, pairwise_cons] at hpair
  have hset : (Finset.univ.filter fun c : Fin 8 => (row s.lruReferenceMatrix a).getLsbD c = true) =
      l₂.toFinset := by
    ext c
    rw [Finset.mem_filter, mem_toFinset]
    have hc := hfull c
    rw [heq, mem_append, mem_cons] at hc
    constructor
    · rintro ⟨-, hbit⟩
      rcases hc with hc | rfl | hc
      · rw [(hpair.2.2 c hc a (by simp)).2] at hbit
        cases hbit
      · rw [h.own_clear c ((hages.mem_iff c).mp (hfull c))] at hbit
        cases hbit
      · exact hc
    · intro hc
      exact ⟨Finset.mem_univ c, (hpair.2.1.1 c hc).1⟩
  rw [setBits, hset, toFinset_card_of_nodup hnodup.2.1.2]

end

theorem row_expected : ∀ k < 8, ∀ r < 8,
    row (subwords8MaskLsb <<< k - subwords8MaskLsb) r = ones k := by
  decide

theorem expected_fits : ∀ k < 8, subwords8MaskLsb.toNat ≤ (subwords8MaskLsb <<< k).toNat := by
  decide

theorem slotWithAge_spec (h : Shape s order)
    (hages : AgeOrder s.lruReferenceMatrix s.slots ages) (h8 : s.capacity = 8)
    (hlen : ages.length = 8) {age : Nat} (hage : age < 8) :
    slotWithAge pr s age = .ok (ages[age]?.map Fin.val) := by
  have hle (r : Nat) : setBits (row s.lruReferenceMatrix r) ≤ 8 := setBits_le _
  have hrow := row_compressed_nat s.lruReferenceMatrix
  have hfull (c : Fin 8) : c ∈ ages := by
    have huniv : ages.toFinset = Finset.univ := by
      apply Finset.eq_univ_of_card
      rw [toFinset_card_of_nodup hages.nodup, hlen, Fintype.card_fin]
    rw [← mem_toFinset, huniv]
    exact Finset.mem_univ c
  have hcount (b : Nat) (hb : b < ages.length) : setBits (row s.lruReferenceMatrix ages[b]) = 7 - b := by
    have hsplit : ages = ages.take b ++ ages[b] :: ages.drop (b + 1) := by
      rw [← drop_eq_getElem_cons hb, take_append_drop]
    rw [setBits_aged h hages hfull hsplit, length_drop, hlen]
    omega
  have hlt : age < ages.length := by omega
  have hunique (r : Nat) (hr : r < 8) (hne : r ≠ ages[age].val) :
      setBits (row s.lruReferenceMatrix r) ≠ setBits (row s.lruReferenceMatrix ages[age]) := by
    obtain ⟨b, hb, hget⟩ := mem_iff_getElem.mp (hfull ⟨r, hr⟩)
    have hcb := hcount b hb
    rw [hget] at hcb
    rw [hcb, hcount age hlt]
    intro heq
    have hba : b = age := by omega
    subst hba
    rw [hget] at hne
    exact hne rfl
  have hexpected (r : Nat) (hr : r < 8) :
      row (subwords8MaskLsb <<< (7 - age) - subwords8MaskLsb) r =
        ones (setBits (row s.lruReferenceMatrix ages[age])) := by
    rw [row_expected _ (by omega) r hr, hcount age hlt]
  have hassert : debugAssertAgeUnique pr
      (subwords8Compress (BitVec.allOnes 64) s.lruReferenceMatrix)
      (subwords8MaskLsb <<< (8 - 1 - age) - subwords8MaskLsb) 8 ages[age].val = .ok () := by
    cases pr with
    | release => rfl
    | debug =>
      rw [debugAssertAgeUnique, if_neg (by omega), shl_ok .debug _ (by omega), ok_bind,
        find_other .debug hrow hle ages[age].isLt hexpected hunique (fun r hr => rfl), ok_bind]
      exact debugAssert_ok .debug rfl
  rw [slotWithAge, debugAssert_ok pr (show age < maxAssociativity from hage), ok_bind, h8,
    if_neg (by omega), subU32_ok pr (by omega) (by omega), ok_bind,
    subU32_ok pr (by omega) (by omega), ok_bind, shl_ok pr _ (by omega), ok_bind,
    sub_ok pr (expected_fits _ (by omega)), ok_bind,
    find_count pr hrow hle ages[age].isLt hexpected hunique, ok_bind, hassert, ok_bind, if_pos ages[age].isLt, getElem?_eq_getElem hlt]
  rfl

end Lookups

end CocoonFs.CacheAges
