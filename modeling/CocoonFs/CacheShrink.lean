import CocoonFs.CacheMoves
import CocoonFs.CacheOps

namespace CocoonFs.CacheShrink

open Checked CacheSet CacheRows CacheOrder CacheInsert CacheCalls CacheLru CacheOps CacheCompress List
  CacheMoves Lanes
open BitVec (getLsbD_and getLsbD_zero)

variable {K T : Type} [LinearOrder K] (pr : Profile)
variable {s : SetAssocCacheSet K T} {order ages : List (Fin 8)} {l : Lru K T}
  {dead' free' : List (Fin 8)} {unoccupied : BitVec 64}

section Marking

/-- The slots marked for eviction are unoccupied ones, and then those least recently
used. The rows of the slots that remain have the columns of the slots marked cleared. -/
structure Marked (s : SetAssocCacheSet K T) (ages : List (Fin 8)) (st : Evicting) (evicted : BitVec 8)
    (live dead free : List (Fin 8)) : Prop where
  ages_eq : ages = live ++ dead
  free_nodup : free.Nodup
  free_mem : ∀ r ∈ free, r.val < s.capacity ∧ s.slots r = none
  dead_nil : free ≠ [] → dead = []
  evicted_iff : ∀ r : Fin 8, evicted.getLsbD r = true ↔ r.val < s.capacity ∧ r ∉ live ∧ r ∉ free
  unoccupied_row : ∀ r : Fin 8, row st.unoccupied r = if r ∈ free then allOnes else 0#8
  column : ∀ r : Fin 8, row st.allEvicted r = evicted
  nibble : ∀ r : Fin 8, lane 4 st.slotIsEvicted r = if evicted.getLsbD r then 1#4 else 0#4
  live_row : ∀ r ∈ live, row st.matrix r = row s.lruReferenceMatrix r &&& ~~~evicted
  evicted_row : ∀ r c : Fin 8, evicted.getLsbD r = true → evicted.getLsbD c = false →
    (row st.matrix r).getLsbD c = true
  beyond_row : ∀ r : Fin 8, s.capacity ≤ r.val → row st.matrix r = 0#8

/-- The slot to be evicted next: an unoccupied one, or the last of those alive. -/
def Next (live dead free : List (Fin 8)) (slot : Fin 8) (live' dead' free' : List (Fin 8)) : Prop :=
  slot ∈ free ∧ live' = live ∧ dead' = dead ∧ free' = free.erase slot ∨
    free = [] ∧ live = live' ++ [slot] ∧ dead' = slot :: dead ∧ free' = []

theorem ctz_of_allOnes {x : BitVec 64} (hx : row x (x.ctz.toNat / 8) = allOnes) :
    x.ctz.toNat = 8 * (x.ctz.toNat / 8) := by
  by_contra hne
  have hbit : x.getLsbD (8 * (x.ctz.toNat / 8) + 0) = true := by
    rw [← getLsbD_row x _ (by decide), hx]
    rfl
  rw [BitVec.getLsbD_false_of_lt_ctz (by omega)] at hbit
  cases hbit

variable {st : Evicting} {evicted : BitVec 8} {live dead free : List (Fin 8)}

omit [LinearOrder K] in
theorem Marked.unoccupied_eq_zero_iff (hm : Marked s ages st evicted live dead free) :
    st.unoccupied = 0#64 ↔ free = [] := by
  constructor
  · intro hzero
    rw [eq_nil_iff_forall_not_mem]
    intro r hr
    have hrow := hm.unoccupied_row r
    rw [if_pos hr, hzero, row, lane_zero] at hrow
    cases hrow
  · rintro rfl
    apply row_ext
    intro r hr
    have hrow := hm.unoccupied_row ⟨r, hr⟩
    exact hrow.trans (lane_zero r).symm

variable {slot r : Fin 8} {live' : List (Fin 8)}

theorem Marked.firstZero_eq (h : Holds s order ages l)
    (hm : Marked s ages st evicted (live' ++ [slot]) dead []) {i : Nat}
    (hi : IsFirstZero 8 8 st.matrix i) : i = slot.val := by
  have hages := hm.ages_eq
  have hlive {r : Fin 8} (hr : r ∈ live' ++ [slot]) : (s.slots r).isSome = true := by
    rw [← h.age.mem_iff, hages]
    exact mem_append_left _ hr
  have hslot : slot ∈ live' ++ [slot] := mem_append_right _ (mem_singleton.mpr rfl)
  have hevicted {r : Fin 8} (hr : r ∈ live' ++ [slot]) : evicted.getLsbD r = false := by
    by_contra hbit
    exact ((hm.evicted_iff r).mp (Bool.not_eq_false _ ▸ hbit)).2.1 hr
  have hpair {r : Fin 8} (hr : r ∈ live') : (row s.lruReferenceMatrix r).getLsbD slot = true ∧
      (row s.lruReferenceMatrix slot).getLsbD r = false := by
    have hpw := h.age.pairwise
    rw [hages, pairwise_append, pairwise_append] at hpw
    exact hpw.1.2.2 r hr slot (mem_singleton.mpr rfl)
  have hzero : row st.matrix slot = 0#8 := by
    rw [hm.live_row slot hslot]
    apply BitVec.eq_of_getLsbD_eq
    intro c hc
    rw [getLsbD_and, BitVec.getLsbD_not, decide_eq_true hc, Bool.true_and, getLsbD_zero]
    rcases hev : evicted.getLsbD c with _ | _
    · have hnot := (hm.evicted_iff ⟨c, hc⟩).not.mp (by rw [hev]; exact Bool.false_ne_true)
      by_cases hcc : c < s.capacity
      · have hmem : (⟨c, hc⟩ : Fin 8) ∈ live' ++ [slot] := by
          by_contra hmem
          exact hnot ⟨hcc, hmem, not_mem_nil⟩
        rcases mem_append.mp hmem with hc' | hc'
        · rw [(hpair hc').2, Bool.false_and]
        · have hcs := mem_singleton.mp hc'
          have hown := h.shape.own_clear slot (hlive hslot)
          rw [← hcs] at hown ⊢
          rw [hown, Bool.false_and]
      · rw [h.shape.high_clear slot ⟨c, hc⟩ (hlive hslot) (not_lt.mp hcc), Bool.false_and]
    · rw [Bool.not_true, Bool.and_false]
  rcases hi with ⟨hi8, hrow, hbelow⟩ | ⟨-, hall⟩
  · have hle : i ≤ slot.val := by
      by_contra hgt
      exact hbelow slot.val (not_le.mp hgt) hzero
    have hcap := h.shape.lt_capacity slot (hlive hslot)
    have hnot : evicted.getLsbD i = false := by
      by_contra hbit
      have := hm.evicted_row ⟨i, hi8⟩ slot (Bool.not_eq_false _ ▸ hbit) (hevicted hslot)
      rw [show row st.matrix (⟨i, hi8⟩ : Fin 8) = 0#8 from hrow, getLsbD_zero] at this
      cases this
    have hmem : (⟨i, hi8⟩ : Fin 8) ∈ live' ++ [slot] := by
      by_contra hmem
      rw [(hm.evicted_iff ⟨i, hi8⟩).mpr ⟨show i < s.capacity by omega, hmem, not_mem_nil⟩] at hnot
      cases hnot
    rcases mem_append.mp hmem with hi' | hi'
    · have hbit := congrArg (fun v => v.getLsbD slot) (hm.live_row _ hmem)
      rw [show row st.matrix (⟨i, hi8⟩ : Fin 8) = 0#8 from hrow] at hbit
      simp only [getLsbD_zero, getLsbD_and, BitVec.getLsbD_not, hevicted hslot,
        (hpair hi').1, slot.isLt, decide_true, Bool.not_false, Bool.and_self] at hbit
      cases hbit
    · exact congrArg Fin.val (mem_singleton.mp hi')
  · exact absurd hzero (hall slot slot.isLt)

theorem nextEvicted_spec (h : Holds s order ages l) (hm : Marked s ages st evicted live dead free)
    (hlen : live.length + free.length ≠ 0) :
    ∃ (slot : Fin 8) (live' dead' free' : List (Fin 8)) (unoccupied : BitVec 64),
      nextEvicted pr st = .ok (slot.val, unoccupied) ∧ Next live dead free slot live' dead' free' ∧
      ∀ r : Fin 8, row unoccupied r = if r ∈ free' then allOnes else 0#8 := by
  by_cases hzero : st.unoccupied = 0#64
  · have hfree := hm.unoccupied_eq_zero_iff.mp hzero
    subst hfree
    have hne : live ≠ [] := by
      rintro rfl
      exact hlen rfl
    obtain ⟨live', slot, rfl⟩ := eq_nil_or_concat' live |>.resolve_left hne
    obtain ⟨i, hfind, hi⟩ := findLeastSignificantZeroByte_spec pr st.matrix
    obtain rfl := hm.firstZero_eq h hi
    refine ⟨slot, live', slot :: dead, [], st.unoccupied, ?_, Or.inr ⟨rfl, rfl, rfl, rfl⟩,
      hm.unoccupied_row⟩
    rw [nextEvicted, if_neg (not_not.mpr hzero), hfind]
    rfl
  · rcases ctz_div_spec (w := 8) (n := 8) (by decide) (x := st.unoccupied) rfl with
      ⟨hlt, hne, -⟩ | ⟨-, hall⟩
    · have hmem : (⟨_, hlt⟩ : Fin 8) ∈ free := by
        by_contra hmem
        have hrow := hm.unoccupied_row ⟨_, hlt⟩
        rw [if_neg hmem] at hrow
        exact hne hrow
      have hrow := hm.unoccupied_row ⟨_, hlt⟩
      rw [if_pos hmem] at hrow
      have hctz := ctz_of_allOnes hrow
      refine ⟨⟨_, hlt⟩, live, dead, free.erase ⟨_, hlt⟩,
        st.unoccupied ^^^ 0xff#64 <<< (8 * (st.unoccupied.ctz.toNat / 8)), ?_,
        Or.inl ⟨hmem, rfl, rfl, rfl⟩, ?_⟩
      · rw [nextEvicted, if_pos hzero]
        dsimp only
        rw [shl_ok pr _ (by omega), ← hctz]
        rfl
      · intro r
        rw [row_xor, row_ff _ hlt r r.isLt, hm.unoccupied_row r]
        by_cases hr : r = ⟨_, hlt⟩
        · rw [if_pos (hr ▸ hmem), if_pos (congrArg Fin.val hr),
            if_neg (by rw [hr, hm.free_nodup.mem_erase_iff]; simp), BitVec.xor_self]
        · have hiff : r ∈ free.erase ⟨_, hlt⟩ ↔ r ∈ free := by
            rw [hm.free_nodup.mem_erase_iff]
            simp [hr]
          rw [if_neg (fun hv => hr (Fin.ext hv)), BitVec.xor_zero]
          simp only [hiff]
    · exact absurd (lane_ext (w := 8) (n := 8) le_rfl
        (fun i _ => (hall i).trans (lane_zero i).symm)) hzero

theorem getLsbD_marked (evicted : BitVec 8) (slot r : Fin 8) :
    (evicted ||| 1#8 <<< slot.val).getLsbD r = (evicted.getLsbD r || decide (r = slot)) := by
  have hval : decide (slot.val = r.val) = decide (r = slot) := by
    rw [decide_eq_decide, Fin.ext_iff, eq_comm]
  rw [BitVec.getLsbD_or, getLsbD_one_shiftLeft _ slot.isLt _ r.isLt, hval]

theorem lane_one : ∀ slot r : Fin 8, lane 4 (1#32 <<< (4 * slot.val)) r = if r = slot then 1#4 else 0#4 := by
  decide

section

variable (h : Holds s order ages l) (hm : Marked s ages st evicted live dead free)
include h hm

theorem Marked.lt_capacity (hr : r ∈ live ∨ r ∈ free) : r.val < s.capacity := by
  rcases hr with hr | hr
  · apply h.shape.lt_capacity
    rw [← h.age.mem_iff, hm.ages_eq]
    exact mem_append_left _ hr
  · exact (hm.free_mem r hr).1

theorem Marked.notMem_live (hr : r ∈ free) : r ∉ live := by
  intro hlive
  have hsome : (s.slots r).isSome = true := by
    rw [← h.age.mem_iff, hm.ages_eq]
    exact mem_append_left _ hlive
  rw [(hm.free_mem r hr).2] at hsome
  cases hsome

theorem Next.notMem_iff (hn : Next live dead free slot live' dead' free')
    (r : Fin 8) : r ∉ live' ∧ r ∉ free' ↔ r ∉ live ∧ r ∉ free ∨ r = slot := by
  rcases hn with ⟨hmem, rfl, -, rfl⟩ | ⟨rfl, rfl, -, rfl⟩
  · rw [hm.free_nodup.mem_erase_iff]
    by_cases hr : r = slot
    · subst hr
      simp [hm.notMem_live h hmem]
    · simp [hr]
  · by_cases hr : r = slot
    · subst hr
      have hnodup := h.age.nodup
      rw [hm.ages_eq, nodup_append, nodup_append] at hnodup
      have hnot : r ∉ live' := fun hr => hnodup.1.2.2 r hr r (mem_singleton.mpr rfl) rfl
      simp [hnot]
    · simp [hr]

theorem Marked.step (hn : Next live dead free slot live' dead' free')
    (hrow : ∀ r : Fin 8, row unoccupied r = if r ∈ free' then allOnes else 0#8) :
    Marked s ages
      ⟨unoccupied, (st.matrix &&& ~~~(st.allEvicted ||| subwords8MaskLsb <<< slot.val)) |||
        0xff#64 <<< (8 * slot.val), st.allEvicted ||| subwords8MaskLsb <<< slot.val,
        st.slotIsEvicted ||| 1#32 <<< (4 * slot.val)⟩
      (evicted ||| 1#8 <<< slot.val) live' dead' free' := by
  have hnot := hn.notMem_iff h hm
  have hslot : slot ∈ live ∨ slot ∈ free := by
    rcases hn with ⟨hmem, -⟩ | ⟨-, rfl, -⟩
    · exact Or.inr hmem
    · exact Or.inl (mem_append_right _ (mem_singleton.mpr rfl))
  have hcolumn (r : Fin 8) : row (st.allEvicted ||| subwords8MaskLsb <<< slot.val) r =
      evicted ||| 1#8 <<< slot.val := by
    rw [row_or, hm.column r, row_column slot slot.isLt r r.isLt]
  have hmatrix (r : Fin 8) : row ((st.matrix &&& ~~~(st.allEvicted ||| subwords8MaskLsb <<< slot.val)) |||
      0xff#64 <<< (8 * slot.val)) r = (row st.matrix r &&& ~~~(evicted ||| 1#8 <<< slot.val)) |||
        if r = slot then allOnes else 0#8 := by
    rw [row_or, row_and, row_not _ r.isLt, hcolumn r, row_ff slot slot.isLt r r.isLt]
    simp only [Fin.ext_iff]
  refine ⟨?_, ?_, ?_, ?_, ?_, hrow, hcolumn, ?_, ?_, ?_, ?_⟩
  · rcases hn with ⟨-, rfl, rfl, -⟩ | ⟨-, rfl, rfl, -⟩
    · exact hm.ages_eq
    · rw [hm.ages_eq, append_assoc, singleton_append]
  · rcases hn with ⟨-, -, -, rfl⟩ | ⟨-, -, -, rfl⟩
    · exact hm.free_nodup.erase slot
    · exact nodup_nil
  · intro r hr
    rcases hn with ⟨-, -, -, rfl⟩ | ⟨-, -, -, rfl⟩
    · exact hm.free_mem r (mem_of_mem_erase hr)
    · exact absurd hr not_mem_nil
  · intro hne
    rcases hn with ⟨hmem, -, rfl, -⟩ | ⟨-, -, -, rfl⟩
    · exact hm.dead_nil (ne_nil_of_mem hmem)
    · exact absurd rfl hne
  · intro r
    rw [getLsbD_marked, Bool.or_eq_true, decide_eq_true_eq, hm.evicted_iff, hnot]
    constructor
    · rintro (⟨hr, hr'⟩ | rfl)
      · exact ⟨hr, Or.inl hr'⟩
      · exact ⟨hm.lt_capacity h hslot, Or.inr rfl⟩
    · rintro ⟨hr, hr' | rfl⟩
      · exact Or.inl ⟨hr, hr'⟩
      · exact Or.inr rfl
  · intro r
    rw [getLsbD_marked]
    rw [lane_or, hm.nibble r, lane_one]
    by_cases hr : r = slot
    · rw [if_pos hr, decide_eq_true hr, Bool.or_true]
      split <;> rfl
    · rw [if_neg hr, decide_eq_false hr, Bool.or_false, BitVec.or_zero]
  · intro r hr
    have hne : r ≠ slot := by
      rintro rfl
      exact ((hnot r).mpr (Or.inr rfl)).1 hr
    have hlive : r ∈ live := by
      rcases hn with ⟨-, rfl, -, -⟩ | ⟨-, rfl, -, -⟩
      · exact hr
      · exact mem_append_left _ hr
    refine (hmatrix r).trans ?_
    rw [if_neg hne, BitVec.or_zero, hm.live_row r hlive, BitVec.and_assoc, ← BitVec.not_or,
      ← BitVec.or_assoc, BitVec.or_self]
  · intro r c hr hc
    rw [getLsbD_marked, Bool.or_eq_false_iff] at hc
    refine (congrArg (fun v => v.getLsbD c) (hmatrix r)).trans ?_
    by_cases hrs : r = slot
    · rw [if_pos hrs, BitVec.getLsbD_or, (eq_allOnes_iff allOnes).mp rfl c c.isLt, Bool.or_true]
    · rw [getLsbD_marked, decide_eq_false hrs, Bool.or_false] at hr
      rw [if_neg hrs, BitVec.or_zero, getLsbD_and, hm.evicted_row r c hr hc.1,
        BitVec.getLsbD_not, getLsbD_marked, hc.1, hc.2, decide_eq_true c.isLt]
      rfl
  · intro r hr
    have hrs : r ≠ slot := by
      rintro rfl
      exact absurd (hm.lt_capacity h hslot) (not_lt.mpr hr)
    refine (hmatrix r).trans ?_
    rw [if_neg hrs, hm.beyond_row r hr, BitVec.zero_and, BitVec.zero_or]

theorem evictSlots_spec {n : Nat} (hn : n ≤ live.length + free.length) :
    ∃ st' evicted' live' dead' free', evictSlots pr n st = .ok st' ∧
      Marked s ages st' evicted' live' dead' free' ∧
      live'.length + free'.length + n = live.length + free.length := by
  induction n generalizing st evicted live dead free with
  | zero => exact ⟨st, evicted, live, dead, free, rfl, hm, rfl⟩
  | succ n ih =>
    obtain ⟨slot, live₁, dead₁, free₁, unoccupied, hok, hnext, hrow⟩ :=
      nextEvicted_spec pr h hm (by omega)
    have hlen₁ : live₁.length + free₁.length + 1 = live.length + free.length := by
      rcases hnext with ⟨hmem, rfl, -, rfl⟩ | ⟨rfl, rfl, -, rfl⟩
      · have := length_erase_add_one hmem
        omega
      · rw [length_append, length_singleton]
        omega
    obtain ⟨st', evicted', live', dead', free', hok', hm', hlen'⟩ :=
      ih (hm.step h hnext hrow) (by omega)
    refine ⟨st', evicted', live', dead', free', ?_, hm', by omega⟩
    rw [evictSlots, hok, ok_bind]
    dsimp only
    rw [debugAssert_ok pr (p := slot.val < maxAssociativity) slot.isLt, ok_bind,
      shl_ok pr _ (by omega), ok_bind, shl_ok pr _ (by omega), ok_bind, shl_ok pr _ (by omega), ok_bind,
      hok']

end

def unoccupiedSlots (s : SetAssocCacheSet K T) : List (Fin 8) :=
  (List.finRange 8).filter fun r => decide (r.val < s.capacity) && (s.slots r).isNone

omit [LinearOrder K] in
theorem mem_unoccupiedSlots :
    r ∈ unoccupiedSlots s ↔ r.val < s.capacity ∧ s.slots r = none := by
  rw [unoccupiedSlots, mem_filter]
  simp [mem_finRange]

theorem length_lt_capacity : ∀ c < 9, ((List.finRange 8).filter fun r : Fin 8 => decide (r.val < c)).length = c := by
  decide

theorem length_add_unoccupied (h : Holds s order ages l) :
    ages.length + (unoccupiedSlots s).length = s.capacity := by
  have hnodup : (ages ++ unoccupiedSlots s).Nodup := by
    rw [nodup_append]
    refine ⟨h.age.nodup, (nodup_finRange 8).filter _, ?_⟩
    rintro a ha b hb rfl
    have hsome := (h.age.mem_iff a).mp ha
    rw [(mem_unoccupiedSlots.mp hb).2] at hsome
    cases hsome
  have hperm : (ages ++ unoccupiedSlots s).Perm
      ((List.finRange 8).filter fun r : Fin 8 => decide (r.val < s.capacity)) := by
    rw [perm_ext_iff_of_nodup hnodup ((nodup_finRange 8).filter _)]
    intro r
    rw [mem_append, h.age.mem_iff, mem_unoccupiedSlots, mem_filter, decide_eq_true_eq]
    constructor
    · rintro (hsome | ⟨hlt, -⟩)
      · exact ⟨mem_finRange r, h.shape.lt_capacity r hsome⟩
      · exact ⟨mem_finRange r, hlt⟩
    · rintro ⟨-, hlt⟩
      rcases hr : s.slots r with _ | e
      · exact Or.inr ⟨hlt, rfl⟩
      · exact Or.inl rfl
  have hcap := h.shape.capacity_le
  rw [← length_append, hperm.length_eq, length_lt_capacity _ (by omega)]

theorem marked_none (h : Holds s order ages l)
    (hrow : ∀ r < 8, row unoccupied r = if row s.lruReferenceMatrix r = allOnes then allOnes else 0#8) :
    Marked s ages ⟨unoccupied, s.lruReferenceMatrix, 0#64, 0#32⟩ 0#8 ages [] (unoccupiedSlots s) := by
  refine ⟨(List.append_nil _).symm, (nodup_finRange 8).filter _, ?_, fun _ => rfl, ?_, ?_, ?_, ?_, ?_,
    ?_, h.shape.beyond_row⟩
  · intro r hr
    exact mem_unoccupiedSlots.mp hr
  · intro r
    rw [getLsbD_zero]
    simp only [Bool.false_eq_true, false_iff]
    rintro ⟨hlt, hages, hfree⟩
    rw [h.age.mem_iff] at hages
    exact hfree (mem_unoccupiedSlots.mpr ⟨hlt, by simpa using hages⟩)
  · intro r
    rw [hrow r r.isLt]
    simp only [h.shape.row_eq_allOnes_iff, mem_unoccupiedSlots]
  · intro r
    exact lane_zero _
  · intro r
    rw [getLsbD_zero]
    exact lane_zero _
  · intro r _
    rw [BitVec.not_zero, BitVec.and_allOnes]
  · intro r c hr
    rw [getLsbD_zero] at hr
    cases hr

end Marking

variable {s' : SetAssocCacheSet K T}

section Shrunken

variable {st : Evicting} {evicted : BitVec 8} {live dead free : List (Fin 8)} {newCapacity : Nat}

theorem rank_eq_length (evicted : BitVec 8) (c : Nat) (hc : c < 9) : rank evicted c =
    ((List.finRange 8).filter fun r : Fin 8 => decide (r.val < c) && !evicted.getLsbD r).length := by
  have hrange : List.range 8 = List.range c ++ (List.range (8 - c)).map (c + ·) := by
    rw [← range_add, show c + (8 - c) = 8 by omega]
  have hbelow : (List.range c).countP (fun i => decide (i < c) && !evicted.getLsbD i) = rank evicted c := by
    apply countP_congr
    intro i hi
    rw [decide_eq_true (mem_range.mp hi), Bool.true_and]
  have habove : ((List.range (8 - c)).map (c + ·)).countP
      (fun i => decide (i < c) && !evicted.getLsbD i) = 0 := by
    rw [countP_eq_zero]
    intro i hi
    obtain ⟨j, _, rfl⟩ := mem_map.mp hi
    simp
  rw [← countP_eq_length_filter, ← hbelow, ← Nat.add_zero (List.countP _ (List.range c)), ← habove,
    ← countP_append, ← hrange, ← map_coe_finRange_eq_range, countP_map]
  rfl

theorem Marked.rank_capacity (h : Holds s order ages l) (hm : Marked s ages st evicted live dead free) :
    rank evicted s.capacity = live.length + free.length := by
  have hcap := h.shape.capacity_le
  have hnodup : (live ++ free).Nodup := by
    have hages := h.age.nodup
    rw [hm.ages_eq, nodup_append] at hages
    rw [nodup_append]
    refine ⟨hages.1, hm.free_nodup, ?_⟩
    rintro a ha b hb rfl
    exact hm.notMem_live h hb ha
  rw [rank_eq_length _ _ (by omega), ← length_append]
  apply List.Perm.length_eq
  rw [perm_ext_iff_of_nodup ((nodup_finRange 8).filter _) hnodup]
  intro r
  rw [mem_filter, mem_append, Bool.and_eq_true, decide_eq_true_eq, Bool.not_eq_true',
    ← Bool.not_eq_true, hm.evicted_iff]
  constructor
  · rintro ⟨-, hlt, hnot⟩
    by_contra hmem
    rw [not_or] at hmem
    exact hnot ⟨hlt, hmem⟩
  · intro hmem
    refine ⟨mem_finRange r, hm.lt_capacity h hmem, ?_⟩
    rintro ⟨-, hnot⟩
    rcases hmem with hr | hr
    · exact hnot.1 hr
    · exact hnot.2 hr

omit [LinearOrder K] in
theorem Marked.live_eq_take (hm : Marked s ages st evicted live dead free)
    (hlen : live.length + free.length = newCapacity) : live = ages.take newCapacity := by
  rw [hm.ages_eq]
  by_cases hfree : free = []
  · subst hfree
    rw [take_append_of_le_length (by simp at hlen; omega), take_of_length_le (by simp at hlen; omega)]
  · rw [hm.dead_nil hfree, List.append_nil, take_of_length_le (by omega)]

omit [LinearOrder K] in
/-- The rows of the slots that remain, with the columns of those evicted removed. -/
theorem Marked.row_compressed (hm : Marked s ages st evicted live dead free) (r : Fin 8) :
    row (subwords8Compress st.matrix (~~~st.allEvicted) ||| st.unoccupied) r =
      compress8 (row st.matrix r) (~~~evicted) ||| if r ∈ free then allOnes else 0#8 := by
  rw [row_or, row_subwords8Compress _ _ r.isLt, row_not _ r.isLt, hm.column r, hm.unoccupied_row r]

variable {r : Fin 8}

section

variable (h : Holds s order ages l) (hm : Marked s ages st evicted live dead free) (hr : r ∈ live)
include h hm hr

theorem Marked.bit_compressed {j : Nat} (hj : j < 8) :
    (row (subwords8Compress st.matrix (~~~st.allEvicted) ||| st.unoccupied) r).getLsbD j = true ↔
      ∃ c, c < 8 ∧ evicted.getLsbD c = false ∧ rank evicted c = j ∧
        (row s.lruReferenceMatrix r).getLsbD c = true := by
  have hfree : r ∉ free := fun hfree => hm.notMem_live h hfree hr
  rw [hm.row_compressed r, if_neg hfree, BitVec.or_zero, getLsbD_compress8 _ _ hj, hm.live_row r hr]
  constructor
  · rintro ⟨c, hc, hkept, hrank, hbit⟩
    rw [getLsbD_and, Bool.and_eq_true] at hbit
    exact ⟨c, hc, hkept, hrank, hbit.1⟩
  · rintro ⟨c, hc, hkept, hrank, hbit⟩
    refine ⟨c, hc, hkept, hrank, ?_⟩
    rw [getLsbD_and, hbit, BitVec.getLsbD_not, hkept, decide_eq_true hc]
    rfl

theorem Marked.bit_compact {c : Fin 8} (hc : evicted.getLsbD c = false) :
    (row (subwords8Compress st.matrix (~~~st.allEvicted) ||| st.unoccupied) r).getLsbD (compact evicted c) =
      (row s.lruReferenceMatrix r).getLsbD c := by
  rw [Bool.eq_iff_iff, hm.bit_compressed h hr (compact evicted c).isLt]
  constructor
  · rintro ⟨c', hc', hkept, hrank, hbit⟩
    obtain rfl := rank_injective evicted hkept hc hrank
    exact hbit
  · intro hbit
    exact ⟨c, c.isLt, hc, rfl, hbit⟩

end

theorem sorted_iff_pairwise {slots : Fin 8 → Option (K × T)} {order : List (Fin 8)} :
    (∀ (i j : Nat) (a b : Fin 8) (x y : K × T), i < j → order[i]? = some a → order[j]? = some b →
      slots a = some x → slots b = some y → x.1 < y.1) ↔
    order.Pairwise fun (a b : Fin 8) => ∀ x y, slots a = some x → slots b = some y → x.1 < y.1 := by
  rw [pairwise_iff_getElem]
  constructor
  · intro h i j hi hj hij x y hx hy
    exact h i j _ _ x y hij (getElem?_eq_getElem hi) (getElem?_eq_getElem hj) hx hy
  · intro h i j a b x y hij ha hb hx hy
    obtain ⟨hi, rfl⟩ := List.getElem?_eq_some_iff.mp ha
    obtain ⟨hj, rfl⟩ := List.getElem?_eq_some_iff.mp hb
    exact h i j hi hj hij x y hx hy

structure Compacted (s : SetAssocCacheSet K T) (st : Evicting) (evicted : BitVec 8)
    (s' : SetAssocCacheSet K T) : Prop where
  slots_eq : ∀ r : Fin 8, evicted.getLsbD r = false → s'.slots (compact evicted r) = s.slots r
  slots_none : ∀ i : Fin 8, rank evicted 8 ≤ i.val → s'.slots i = none
  rows_eq : ∀ r : Fin 8, evicted.getLsbD r = false → row s'.lruReferenceMatrix (compact evicted r) =
    row (subwords8Compress st.matrix (~~~st.allEvicted) ||| st.unoccupied) r
  rows_zero : ∀ i : Fin 8, rank evicted 8 ≤ i.val → row s'.lruReferenceMatrix i = 0#8

omit [LinearOrder K] in
theorem compacted_of_moved
    (h : Moved ⟨subwords8Compress st.matrix (~~~st.allEvicted) ||| st.unoccupied, s.slots, s.orderedSlots,
      s.capacity⟩ s' order evicted 8) :
    Compacted s st evicted s' := by
  refine ⟨?_, ?_, ?_, ?_⟩
  · intro r hr
    exact h.slots_moved r (compact evicted r) r.isLt hr rfl
  · intro i hi
    exact h.slots_none i hi i.isLt
  · intro r hr
    exact h.rows_moved r r.isLt hr
  · intro i hi
    have hrow := h.rows_rest (i.val - rank evicted 8)
    rw [show rank evicted 8 + (i.val - rank evicted 8) = i.val by omega] at hrow
    rw [hrow, row, lane_of_le _ (by omega)]

theorem compact_or_beyond (evicted : BitVec 8) (i : Fin 8) :
    (∃ r : Fin 8, evicted.getLsbD r = false ∧ i = compact evicted r) ∨ rank evicted 8 ≤ i.val := by
  by_cases hi : i.val < rank evicted 8
  · obtain ⟨r, hr, hkept, hrank⟩ := exists_rank_eq evicted hi
    exact Or.inl ⟨⟨r, hr⟩, hkept, Fin.ext hrank.symm⟩
  · exact Or.inr (not_lt.mp hi)

omit [LinearOrder K] in
theorem Compacted.isSome_iff (h : Compacted s st evicted s') (i : Fin 8) :
    (s'.slots i).isSome = true ↔
      ∃ r : Fin 8, evicted.getLsbD r = false ∧ i = compact evicted r ∧ (s.slots r).isSome = true := by
  constructor
  · intro hsome
    rcases compact_or_beyond evicted i with ⟨r, hr, rfl⟩ | hi
    · rw [h.slots_eq r hr] at hsome
      exact ⟨r, hr, rfl, hsome⟩
    · rw [h.slots_none i hi] at hsome
      cases hsome
  · rintro ⟨r, hr, rfl, hsome⟩
    rwa [h.slots_eq r hr]

theorem Marked.mem_live_iff (h : Holds s order ages l) (hm : Marked s ages st evicted live dead free)
    (r : Fin 8) : r ∈ live ↔ evicted.getLsbD r = false ∧ (s.slots r).isSome = true := by
  rw [← Bool.not_eq_true, hm.evicted_iff]
  constructor
  · intro hr
    refine ⟨fun hev => hev.2.1 hr, ?_⟩
    rw [← h.age.mem_iff, hm.ages_eq]
    exact mem_append_left _ hr
  · rintro ⟨hkept, hsome⟩
    by_contra hr
    apply hkept
    refine ⟨h.shape.lt_capacity r hsome, hr, ?_⟩
    intro hfree
    rw [(hm.free_mem r hfree).2] at hsome
    cases hsome

variable {s' : SetAssocCacheSet K T}

theorem Marked.compact_lt_iff (h : Holds s order ages l) (hm : Marked s ages st evicted live dead free)
    (hr : evicted.getLsbD r = false) :
    (compact evicted r).val < live.length + free.length ↔ r.val < s.capacity := by
  rw [← hm.rank_capacity h]
  constructor
  · intro hlt
    by_contra hge
    exact absurd hlt (not_lt.mpr (rank_mono evicted (not_lt.mp hge)))
  · intro hlt
    exact rank_lt evicted hlt hr

section

variable (hc : Compacted s st evicted s') (h : Holds s order ages l)
  (hm : Marked s ages st evicted live dead free)
include hc h hm

theorem Compacted.shape {os : BitVec 32}
    (hos : Packs os ((order.filter fun r : Fin 8 => !evicted.getLsbD r).map (compact evicted))) :
    Shape ⟨s'.lruReferenceMatrix, s'.slots, os, live.length + free.length⟩
      ((order.filter fun r : Fin 8 => !evicted.getLsbD r).map (compact evicted)) := by
  have hcap := h.shape.capacity_le
  have hlive {i : Fin 8} (hi : (s'.slots i).isSome = true) :
      ∃ r, r ∈ live ∧ evicted.getLsbD r = false ∧ i = compact evicted r := by
    obtain ⟨r, hr, rfl, hsome⟩ := (hc.isSome_iff i).mp hi
    exact ⟨r, (hm.mem_live_iff h r).mpr ⟨hr, hsome⟩, hr, rfl⟩
  refine ⟨⟨hos, ?_, ?_⟩, ?_, ?_, ?_, ?_, ?_, ?_⟩
  · intro i
    rw [mem_map, hc.isSome_iff]
    constructor
    · rintro ⟨r, hr, rfl⟩
      rw [mem_filter, h.shape.ordered.mem_iff, Bool.not_eq_true'] at hr
      exact ⟨r, hr.2, rfl, hr.1⟩
    · rintro ⟨r, hr, rfl, hsome⟩
      refine ⟨r, ?_, rfl⟩
      rw [mem_filter, h.shape.ordered.mem_iff, Bool.not_eq_true']
      exact ⟨hsome, hr⟩
  · rw [sorted_iff_pairwise, pairwise_map]
    apply ((sorted_iff_pairwise.mp h.shape.ordered.sorted).sublist filter_sublist).imp_of_mem
    intro a b ha hb hab x y hx hy
    rw [mem_filter, Bool.not_eq_true'] at ha hb
    rw [hc.slots_eq a ha.2] at hx
    rw [hc.slots_eq b hb.2] at hy
    exact hab x y hx hy
  · have hle := rank_le evicted s.capacity
    rw [hm.rank_capacity h] at hle
    exact hle.trans hcap
  · intro i hi
    obtain ⟨r, hr, hkept, rfl⟩ := hlive hi
    exact (hm.compact_lt_iff h hkept).mpr (hm.lt_capacity h (Or.inl hr))
  · intro i hi hnone
    change i.val < live.length + free.length at hi
    rcases compact_or_beyond evicted i with ⟨r, hr, rfl⟩ | hge
    · have hlt := (hm.compact_lt_iff h hr).mp hi
      rw [hc.slots_eq r hr] at hnone
      have hfree : r ∈ free := by
        by_contra hfree
        have hev := (hm.evicted_iff r).mpr ⟨hlt, ?_, hfree⟩
        · rw [hr] at hev
          cases hev
        · intro hmem
          have hsome := ((hm.mem_live_iff h r).mp hmem).2
          rw [hnone] at hsome
          cases hsome
      rw [hc.rows_eq r hr, hm.row_compressed r, if_pos hfree]
      exact BitVec.or_allOnes
    · have hle := rank_mono evicted hcap
      rw [hm.rank_capacity h] at hle
      omega
  · intro i hi
    rcases compact_or_beyond evicted i with ⟨r, hr, rfl⟩ | hge
    · have hge : s.capacity ≤ r.val := by
        by_contra hlt
        exact absurd ((hm.compact_lt_iff h hr).mpr (not_le.mp hlt)) (not_lt.mpr hi)
      have hfree : r ∉ free := fun hfree => absurd (hm.free_mem r hfree).1 (not_lt.mpr hge)
      rw [hc.rows_eq r hr, hm.row_compressed r, if_neg hfree, hm.beyond_row r hge, compress8_zero,
        BitVec.or_zero]
    · exact hc.rows_zero i hge
  · intro i hi
    obtain ⟨r, hr, hkept, rfl⟩ := hlive hi
    rw [hc.rows_eq r hkept, hm.bit_compact h hr hkept,
      h.shape.own_clear r ((hm.mem_live_iff h r).mp hr).2]
  · intro i c hi hge
    obtain ⟨r, hr, hkept, rfl⟩ := hlive hi
    change live.length + free.length ≤ c.val at hge
    rw [hc.rows_eq r hkept, ← Bool.not_eq_true, hm.bit_compressed h hr c.isLt]
    rintro ⟨c', hc', hkept', hrank, hbit⟩
    have hcc : s.capacity ≤ c' := by
      by_contra hlt
      have := (hm.compact_lt_iff h (r := ⟨c', hc'⟩) hkept').mpr (not_le.mp hlt)
      change rank evicted c' < _ at this
      omega
    rw [h.shape.high_clear r ⟨c', hc'⟩ ((hm.mem_live_iff h r).mp hr).2 hcc] at hbit
    cases hbit

theorem Compacted.ageOrder :
    AgeOrder s'.lruReferenceMatrix s'.slots (live.map (compact evicted)) := by
  have hkept {r : Fin 8} (hr : r ∈ live) : evicted.getLsbD r = false := ((hm.mem_live_iff h r).mp hr).1
  have hages := h.age.nodup
  have hpair := h.age.pairwise
  rw [hm.ages_eq, nodup_append] at hages
  rw [hm.ages_eq, pairwise_append] at hpair
  refine ⟨?_, ?_, ?_⟩
  · intro i
    rw [mem_map, hc.isSome_iff]
    constructor
    · rintro ⟨r, hr, rfl⟩
      exact ⟨r, hkept hr, rfl, ((hm.mem_live_iff h r).mp hr).2⟩
    · rintro ⟨r, hr, rfl, hsome⟩
      exact ⟨r, (hm.mem_live_iff h r).mpr ⟨hr, hsome⟩, rfl⟩
  · apply hages.1.map_on
    intro a ha b hb hab
    exact Fin.ext (rank_injective evicted (hkept ha) (hkept hb) (congrArg Fin.val hab))
  · rw [pairwise_map]
    apply hpair.1.imp_of_mem
    intro a b ha hb hab
    rw [hc.rows_eq a (hkept ha), hc.rows_eq b (hkept hb), hm.bit_compact h ha (hkept hb),
      hm.bit_compact h hb (hkept ha)]
    exact hab

theorem Compacted.nested (hn : Nested s.lruReferenceMatrix s.slots) :
    Nested s'.lruReferenceMatrix s'.slots := by
  have hslot {i : Fin 8} (hi : (s'.slots i).isSome = true) : ∃ r : Fin 8, i = compact evicted r ∧
      evicted.getLsbD r = false ∧ (s.slots r).isSome = true ∧ r ∈ live := by
    obtain ⟨r, hr, hri, hsome⟩ := (hc.isSome_iff i).mp hi
    exact ⟨r, hri, hr, hsome, (hm.mem_live_iff h r).mpr ⟨hr, hsome⟩⟩
  intro i j hi hj hij c hjc
  obtain ⟨a, rfl, hka, ha, hla⟩ := hslot hi
  obtain ⟨b, rfl, hkb, hb, hlb⟩ := hslot hj
  rw [hc.rows_eq a hka, hm.bit_compact h hla hkb] at hij
  rw [hc.rows_eq b hkb, hm.bit_compressed h hlb c.isLt] at hjc
  rw [hc.rows_eq a hka, hm.bit_compressed h hla c.isLt]
  obtain ⟨k, hk, hkk, hrank, hbit⟩ := hjc
  exact ⟨k, hk, hkk, hrank, hn a b ha hb hij ⟨k, hk⟩ hbit⟩

end

theorem debugAssertTrailing_ok {matrix : BitVec 64} (hnew : newCapacity ≤ 8)
    (hrow : ∀ r : Fin 8, newCapacity ≤ r.val → row matrix r = 0#8) :
    debugAssertTrailing pr matrix newCapacity = .ok () := by
  cases pr with
  | release => rfl
  | debug =>
    obtain ⟨mask, hmask, hrows⟩ := trailingBitsMask_spec .debug hnew
    have hzero : matrix &&& ~~~mask = 0#64 := by
      apply row_ext
      intro r hr
      rw [row_and, row_not _ hr, hrows r hr, show row 0#64 r = 0#8 from lane_zero r]
      by_cases hlt : r < newCapacity
      · rw [if_pos hlt]
        exact BitVec.and_zero
      · rw [hrow ⟨r, hr⟩ (not_lt.mp hlt), BitVec.zero_and]
    rw [debugAssertTrailing, hmask, ok_bind, debugAssert_ok .debug hzero]

theorem shrinkCapacity_refines (h : Holds s order ages l) (hlt : newCapacity < s.capacity) :
    ∃ s' order' ages', shrinkCapacity pr s newCapacity = .ok s' ∧
      Holds s' order' ages' (l.resize newCapacity) ∧ (Nested s.lruReferenceMatrix s.slots →
        Nested s'.lruReferenceMatrix s'.slots) := by
  have hcap := h.shape.capacity_le
  have hlen := length_add_unoccupied h
  obtain ⟨unoccupied, hunoccupied, hrow⟩ := subwords8MaskAllSet_spec pr s.lruReferenceMatrix
  obtain ⟨st, evicted, live, dead, free, hevict, hm, hlen'⟩ :=
    evictSlots_spec pr h (marked_none h hrow) (n := s.capacity - newCapacity) (by omega)
  have hnew : live.length + free.length = newCapacity := by omega
  obtain ⟨counts, hcounts, hlanes⟩ := evictedLeCounts_spec pr hm.nibble
  obtain ⟨s₁, hmove, hmoved⟩ := moveSlots_spec pr h.shape.ordered.nodup (t := 0) (n := 8) rfl
    st.slotIsEvicted counts
    (fun i hi => by rw [Nat.zero_add] at hi ⊢; exact hm.nibble ⟨i, hi⟩)
    (fun i hi => by rw [Nat.zero_add] at hi ⊢; exact hlanes ⟨i, hi⟩)
    (moved_zero (s := ⟨subwords8Compress st.matrix (~~~st.allEvicted) ||| st.unoccupied, s.slots,
      s.orderedSlots, s.capacity⟩) h.shape.ordered.packs evicted)
  have hmove' : moveSlots pr maxAssociativity st.slotIsEvicted counts
      { s with
        lruReferenceMatrix := subwords8Compress st.matrix (~~~st.allEvicted) ||| st.unoccupied } =
      .ok s₁ := hmove
  have hc := compacted_of_moved hmoved
  have hpacks := hmoved.packs
  have hfilter : (order.filter fun r : Fin 8 => !(decide (r.val < 8) && evicted.getLsbD r)) =
      order.filter fun r : Fin 8 => !evicted.getLsbD r := by
    apply filter_congr
    intro r _
    rw [decide_eq_true r.isLt, Bool.true_and]
  rw [hfilter] at hpacks
  obtain ⟨i, c, os, hi, hcs, hos, hpacks'⟩ := subCounts_spec pr counts hpacks hlanes (by
    intro r hr
    rw [mem_filter, Bool.not_eq_true'] at hr
    exact hr.2)
  have hshape := hc.shape h hm hpacks'
  rw [hnew] at hshape
  refine ⟨_, _, _, ?_, ⟨hshape, hc.ageOrder h hm, ?_, rfl⟩, hc.nested h hm⟩
  · have hassert := debugAssertTrailing_ok pr (show newCapacity ≤ 8 by omega) hshape.beyond_row
    rw [shrinkCapacity, debugAssert_ok pr (p := newCapacity ≤ maxAssociativity) (by rw [maxAssociativity]; omega),
      ok_bind, debugAssert_ok pr hlt, ok_bind, hunoccupied, ok_bind, hevict, ok_bind]
    rw [hcounts, ok_bind, hmove', ok_bind, hassert, ok_bind, hi, ok_bind, hcs, ok_bind, hos, ok_bind]
    rfl
  · rw [List.map_map, Lru.resize]
    rw [map_take, ← h.entries_eq, ← map_take, ← hm.live_eq_take hnew]
    apply map_congr_left
    intro r hr
    exact hc.slots_eq r ((hm.mem_live_iff h r).mp hr).1

end Shrunken

end CocoonFs.CacheShrink
