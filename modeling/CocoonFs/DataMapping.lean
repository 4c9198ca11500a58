import CocoonFs.DataBlocksMap

namespace CocoonFs.DataMapping

open Checked DataBlocksMap Extents List
open scoped List

/-- The count of the last entry in front that satisfies a predicate, or else the
count from before the entries. -/
def countBy (q : Nat × Nat → Bool) (prev : Nat) : List (Nat × Nat) → Nat
  | [] => prev
  | e :: es => if q e then countBy q e.2 es else prev

def countBefore (prev : Nat) (es : List (Nat × Nat)) (d : Nat) : Nat :=
  countBy (fun e => dataBegin e ≤ d) prev es

def physicalAt (es : List (Nat × Nat)) (d : Nat) : Nat := d + countBefore 0 es d

def InTreeExtents (prev : Nat) : List (Nat × Nat) → Nat → Prop
  | [], _ => False
  | e :: es, p => (dataBegin e + prev ≤ p ∧ p < e.1) ∨ InTreeExtents e.2 es p

/-- The entries behind a physical position up to which some number of blocks
belong to the tree. -/
structure EntriesFrom (b prev : Nat) (es : List (Nat × Nat)) : Prop where
  le : prev ≤ b
  begins : ∀ e ∈ es, b ≤ dataBegin e + prev
  ascending : (es.map dataBegin).Pairwise (· < ·)
  counts : (prev :: es.map Prod.snd).Pairwise (· < ·)
  count_le : ∀ e ∈ es, e.2 ≤ e.1

variable {b prev : Nat} {es : List (Nat × Nat)} {e : Nat × Nat}

theorem EntriesFrom.tail (h : EntriesFrom b prev (e :: es)) :
    EntriesFrom e.1 e.2 es := by
  have hle := h.count_le e (by simp)
  have hasc := pairwise_cons.mp h.ascending
  refine ⟨hle, ?_, hasc.2, (pairwise_cons.mp h.counts).2,
    fun f hf => h.count_le f (by simp [hf])⟩
  intro f hf
  have hlt := hasc.1 _ (mem_map_of_mem hf)
  rw [dataBegin] at hlt
  omega

theorem EntriesFrom.head_count (h : EntriesFrom b prev (e :: es)) :
    prev < e.2 := (pairwise_cons.mp h.counts).1 e.2 (by simp)

theorem le_countBefore (h : EntriesFrom b prev es) (d : Nat) : prev ≤ countBefore prev es d := by
  induction es generalizing b prev with
  | nil => exact le_refl _
  | cons e es ih =>
    rw [countBefore, countBy]
    split
    · exact h.head_count.le.trans (ih h.tail)
    · exact le_refl _

theorem countBefore_mono (h : EntriesFrom b prev es) {d d' : Nat} (hd : d ≤ d') :
    countBefore prev es d ≤ countBefore prev es d' := by
  induction es generalizing b prev with
  | nil => exact le_refl _
  | cons e es ih =>
    by_cases he : dataBegin e ≤ d
    · rw [countBefore, countBy, if_pos (by simpa using he), countBefore, countBy,
        if_pos (by simpa using he.trans hd)]
      exact ih h.tail
    · rw [countBefore, countBy, if_neg (by simpa using he)]
      exact le_countBefore h d'

theorem physicalAt_strictMono (h : EntriesFrom 0 0 es) : StrictMono (physicalAt es) := by
  intro d d' hd
  have hmono := countBefore_mono h hd.le
  rw [physicalAt, physicalAt]
  omega

variable {p : Nat}

theorem not_inTreeExtents_of_lt (h : EntriesFrom b prev es) (hp : p < b) :
    ¬ InTreeExtents prev es p := by
  induction es generalizing b prev with
  | nil => exact id
  | cons e es ih =>
    have hb := h.begins e (by simp)
    rintro (⟨hle, -⟩ | htail)
    · omega
    · have hcount := h.head_count
      have hle := h.count_le e (by simp)
      rw [dataBegin] at hb
      exact ih h.tail (by omega) htail

theorem not_inTreeExtents_iff (h : EntriesFrom b prev es) (hp : b ≤ p) :
    ¬ InTreeExtents prev es p ↔ ∃ d, b ≤ d + prev ∧ d + countBefore prev es d = p := by
  induction es generalizing b prev with
  | nil =>
    have hle := h.le
    exact ⟨fun _ => ⟨p - prev, by omega, Nat.sub_add_cancel (hle.trans hp)⟩, fun _ => id⟩
  | cons e es ih =>
    have hle := h.le
    have hb := h.begins e (by simp)
    have hcount := h.head_count
    have hcountLe := h.count_le e (by simp)
    have hbegin : dataBegin e + e.2 = e.1 := by
      rw [dataBegin]
      omega
    by_cases hlt : p < e.1
    · have htail := not_inTreeExtents_of_lt h.tail hlt
      have hhead : ¬ InTreeExtents prev (e :: es) p ↔ p < dataBegin e + prev := by
        rw [InTreeExtents, or_iff_left htail]
        omega
      rw [hhead]
      constructor
      · intro hp'
        have hneg : ¬ dataBegin e ≤ p - prev := by omega
        refine ⟨p - prev, by omega, ?_⟩
        rw [countBefore, countBy, if_neg (by simpa using hneg)]
        omega
      · rintro ⟨d, -, hd⟩
        by_cases he : dataBegin e ≤ d
        · rw [countBefore, countBy, if_pos (by simpa using he)] at hd
          have hge := le_countBefore h.tail d
          rw [countBefore] at hge
          omega
        · rw [countBefore, countBy, if_neg (by simpa using he)] at hd
          omega
    · have hhead : ¬ InTreeExtents prev (e :: es) p ↔ ¬ InTreeExtents e.2 es p := by
        rw [InTreeExtents, or_iff_right (by omega)]
      rw [hhead, ih h.tail (Nat.le_of_not_lt hlt)]
      constructor
      · rintro ⟨d, hge, hd⟩
        have hpos : dataBegin e ≤ d := by omega
        refine ⟨d, by omega, ?_⟩
        rw [countBefore, countBy, if_pos (by simpa using hpos)]
        exact hd
      · rintro ⟨d, -, hd⟩
        by_cases he : dataBegin e ≤ d
        · rw [countBefore, countBy, if_pos (by simpa using he)] at hd
          exact ⟨d, by omega, hd⟩
        · rw [countBefore, countBy, if_neg (by simpa using he)] at hd
          omega

variable {entries : List (Nat × Nat)}

/-- Accumulating the counts and merging adjoining extents keeps the tree's blocks. -/
theorem accumulate_inTreeExtents (pr : Profile) (es : List (Nat × Nat)) (last : Nat × Nat)
    (hle : last.2 ≤ last.1) (hlt : last.1 < 2 ^ 64) (hes : SortedEntries es)
    (hsep : ∀ e ∈ es, Separate last e)
    (hok : accumulate pr last es = .ok entries) (prev : Nat) (hprev : prev ≤ last.2) (p : Nat) :
    InTreeExtents prev entries p ↔ (dataBegin last + prev ≤ p ∧ p < last.1) ∨
      ∃ e ∈ es, e.1 - e.2 ≤ p ∧ p < e.1 := by
  induction es generalizing last entries prev with
  | nil =>
    cases hok
    simp [InTreeExtents]
  | cons e es ih =>
    have hcount := hes.count_le e (by simp)
    have hend := hes.lt e (by simp)
    have hnext : last.1 ≤ e.1 - e.2 := hsep e (by simp)
    obtain ⟨hsepe, -⟩ := pairwise_cons.mp hes.separate
    rw [accumulate, addU64_ok pr (by omega), ok_bind, subU64_ok pr hcount, ok_bind] at hok
    obtain ⟨rest, hrest, hok⟩ := bind_eq_ok hok
    have hih := ih (e.1, last.2 + e.2) (by dsimp only; omega) hend hes.tail
      (fun f hf => hsepe f hf) hrest
    have hbegin : dataBegin (e.1, last.2 + e.2) + last.2 = e.1 - e.2 := by
      rw [dataBegin]
      omega
    split at hok
    · cases hok
      rw [InTreeExtents, hih last.2 (by dsimp only; omega), hbegin, exists_mem_cons_iff]
    next hadj =>
      cases hok
      rw [hih prev (by dsimp only; omega), exists_mem_cons_iff, ← or_assoc]
      refine or_congr ?_ Iff.rfl
      simp only [dataBegin]
      omega

structure Describes (ranges : List BlockRange) (m : AuthTreeDataAllocationBlocksMap) : Prop where
  entries : EntriesFrom 0 0 m.authTreeStoragePhysicalExtents
  lt : ∀ e ∈ m.authTreeStoragePhysicalExtents, e.1 < 2 ^ 64
  free : ∀ p, Free ranges p ↔ ¬ InTreeExtents 0 m.authTreeStoragePhysicalExtents p
  total : m.totalAuthTreeExtentsAllocationBlocks = treeBlocks ranges

theorem entriesFrom_of_accumulated {first total : Nat}
    (h : Accumulated first total entries) (hpos : ∀ e ∈ entries, 0 < e.2) :
    EntriesFrom 0 0 entries where
  le := le_refl 0
  begins _ _ := Nat.zero_le _
  ascending := h.ascending
  counts := by
    refine pairwise_cons.mpr ⟨?_, h.count_ascending⟩
    intro c hc
    obtain ⟨e, he, rfl⟩ := mem_map.mp hc
    exact hpos e he
  count_le := h.count_le

theorem describes_of_new (pr : Profile) (x : LogicalExtents) (h : TreeRanges x.ranges) :
    ∃ m, AuthTreeDataAllocationBlocksMap.new pr x = .ok m ∧ Describes x.ranges m := by
  have hranges := x.physicalRanges_ok pr h.lt
  have hsorted := sortByEnd_sorted h
  have hperm : sortByEnd (x.ranges.map endAndCount) ~ x.ranges.map endAndCount :=
    perm_insertionSort _ _
  have hmem (p : Nat) : ¬ Free x.ranges p ↔
      ∃ e ∈ sortByEnd (x.ranges.map endAndCount), e.1 - e.2 ≤ p ∧ p < e.1 := by
    have hiff : (∃ e ∈ sortByEnd (x.ranges.map endAndCount), e.1 - e.2 ≤ p ∧ p < e.1) ↔
        ∃ r ∈ x.ranges, r.e - (r.e - r.b) ≤ p ∧ p < r.e := by
      simp [hperm.mem_iff, endAndCount]
    rw [hiff, Free]
    push Not
    refine exists_congr fun r => and_congr_right fun hr => ?_
    have := h.nonempty r hr
    omega
  rw [AuthTreeDataAllocationBlocksMap.new, hranges, ok_bind]
  cases hes : sortByEnd (x.ranges.map endAndCount) with
  | nil =>
    rw [hes] at hperm hmem
    have hnil : x.ranges = [] := by simpa using hperm.symm.eq_nil
    refine ⟨⟨[]⟩, rfl, ⟨?_, by simp, ?_, ?_⟩⟩
    · exact ⟨le_refl 0, by simp, by simp, by simp, by simp⟩
    · intro p
      simpa [InTreeExtents] using hmem p
    · rw [hnil]
      rfl
  | cons e es =>
    rw [hes] at hsorted hperm hmem
    obtain ⟨hsep, htail⟩ := pairwise_cons.mp hsorted.separate
    have hpos := hsorted.count_pos e (by simp)
    have hle := hsorted.count_le e (by simp)
    have hlt := hsorted.lt e (by simp)
    have htail : SortedEntries es :=
      ⟨fun f hf => hsorted.count_pos f (by simp [hf]),
        fun f hf => hsorted.count_le f (by simp [hf]),
        fun f hf => hsorted.lt f (by simp [hf]), htail⟩
    obtain ⟨entries, hok, hacc, hge⟩ := accumulate_ok pr es e hle hlt htail hsep
    have htotal : e.2 + (es.map Prod.snd).sum = treeBlocks x.ranges := by
      have := (hperm.map Prod.snd).sum_nat
      simpa [treeBlocks, endAndCount, Function.comp_def] using this
    refine ⟨⟨entries⟩, by simp only [hok, ok_bind, pure_eq_ok], ⟨?_, hacc.lt, ?_, ?_⟩⟩
    · exact entriesFrom_of_accumulated hacc fun f hf => hpos.trans_le (hge f hf)
    · intro p
      rw [accumulate_inTreeExtents pr es e hle hlt htail hsep hok 0 (Nat.zero_le _), ← not_iff_not,
        not_not, hmem p, exists_mem_cons_iff, Nat.add_zero, dataBegin]
    · obtain ⟨l, hl, hlast⟩ := hacc.last
      rw [AuthTreeDataAllocationBlocksMap.totalAuthTreeExtentsAllocationBlocks, hl]
      exact hlast.trans htotal

variable {ranges : List BlockRange} {m : AuthTreeDataAllocationBlocksMap}

section

variable (h : Describes ranges m)
include h

theorem Describes.free_iff (p : Nat) :
    Free ranges p ↔ ∃ d, physicalAt m.authTreeStoragePhysicalExtents d = p := by
  rw [h.free, not_inTreeExtents_iff h.entries (Nat.zero_le p)]
  simp only [Nat.zero_le, true_and, physicalAt]

theorem Describes.dataIndex_physicalAt (d : Nat) :
    dataIndex ranges (physicalAt m.authTreeStoragePhysicalExtents d) = d := by
  have hmono := physicalAt_strictMono h.entries
  have himage : (Finset.range (physicalAt m.authTreeStoragePhysicalExtents d)).filter
      (Free ranges) = (Finset.range d).image (physicalAt m.authTreeStoragePhysicalExtents) := by
    ext p
    simp only [Finset.mem_filter, Finset.mem_range, Finset.mem_image, h.free_iff]
    constructor
    · rintro ⟨hp, d', rfl⟩
      exact ⟨d', hmono.lt_iff_lt.mp hp, rfl⟩
    · rintro ⟨d', hd', rfl⟩
      exact ⟨hmono hd', d', rfl⟩
  rw [dataIndex, himage, Finset.card_image_of_injective _ hmono.injective, Finset.card_range]

theorem Describes.physicalAt_dataIndex (hp : Free ranges p) :
    physicalAt m.authTreeStoragePhysicalExtents (dataIndex ranges p) = p := by
  obtain ⟨d, rfl⟩ := (h.free_iff p).mp hp
  rw [h.dataIndex_physicalAt]

theorem Describes.free_physicalAt (d : Nat) :
    Free ranges (physicalAt m.authTreeStoragePhysicalExtents d) := (h.free_iff _).mpr ⟨d, rfl⟩

end

theorem dataIndex_succ (p : Nat) :
    dataIndex ranges (p + 1) = dataIndex ranges p + if Free ranges p then 1 else 0 := by
  rw [dataIndex, Finset.range_add_one, Finset.filter_insert, dataIndex]
  split
  · rw [Finset.card_insert_of_notMem (by simp)]
  · rfl

variable {p n : Nat}

theorem dataIndex_add (hfree : ∀ i < n, Free ranges (p + i)) :
    dataIndex ranges (p + n) = dataIndex ranges p + n := by
  induction n with
  | zero => rfl
  | succ n ih =>
    rw [← Nat.add_assoc, dataIndex_succ, if_pos (hfree n (by omega)),
      ih fun i hi => hfree i (by omega), Nat.add_assoc]

theorem dataIndex_add_of_not_free (hfree : ∀ i < n, ¬ Free ranges (p + i)) :
    dataIndex ranges (p + n) = dataIndex ranges p := by
  induction n with
  | zero => rfl
  | succ n ih =>
    rw [← Nat.add_assoc, dataIndex_succ, if_neg (hfree n (by omega)),
      ih fun i hi => hfree i (by omega), Nat.add_zero]

theorem free_congr {n p q : Nat} (hn : 0 < n) (hranges : ∀ r ∈ ranges, n ∣ r.b ∧ n ∣ r.e)
    (hpq : p / n = q / n) : Free ranges p ↔ Free ranges q := by
  refine forall_congr' fun r => forall_congr' fun hr => not_congr ?_
  obtain ⟨⟨x, hx⟩, y, hy⟩ := hranges r hr
  rw [hx, hy, Nat.mul_comm _ x, Nat.mul_comm _ y, ← Nat.le_div_iff_mul_le hn,
    ← Nat.le_div_iff_mul_le hn, ← Nat.div_lt_iff_lt_mul hn, ← Nat.div_lt_iff_lt_mul hn, hpq]

/-- Extents aligned to Data Blocks keep the data indices of Data Blocks aligned. -/
theorem dvd_dataIndex {n : Nat} (hn : 0 < n) (hranges : ∀ r ∈ ranges, n ∣ r.b ∧ n ∣ r.e)
    (hp : n ∣ p) : n ∣ dataIndex ranges p := by
  obtain ⟨j, rfl⟩ := hp
  rw [Nat.mul_comm]
  induction j with
  | zero => simp [dataIndex]
  | succ j ih =>
    -- The blocks from there on belong to the tree either all or not at all.
    have hsame (i : Nat) (hi : i < n) : Free ranges (j * n + i) ↔ Free ranges (j * n) := by
      refine free_congr hn hranges ?_
      rw [Nat.mul_comm, Nat.mul_add_div hn, Nat.div_eq_of_lt hi, Nat.mul_div_cancel_left _ hn,
        Nat.add_zero]
    rw [Nat.succ_mul]
    by_cases hfree : Free ranges (j * n)
    · rw [dataIndex_add fun i hi => (hsame i hi).mpr hfree]
      exact Nat.dvd_add ih (Nat.dvd_refl n)
    · rw [dataIndex_add_of_not_free fun i hi => mt (hsame i hi).mp hfree]
      exact ih

theorem dataIndex_le (ranges : List BlockRange) (p : Nat) : dataIndex ranges p ≤ p := by
  simpa [dataIndex] using Finset.card_filter_le (Finset.range p) (Free ranges)

theorem dataIndex_mono {p q : Nat} (h : p ≤ q) : dataIndex ranges p ≤ dataIndex ranges q :=
  Finset.card_le_card (Finset.filter_subset_filter _ (Finset.range_subset_range.mpr h))

theorem countBy_eq (q : Nat × Nat → Bool) (prev : Nat) (es : List (Nat × Nat)) :
    (partitionPoint q es = 0 ∧ countBy q prev es = prev) ∨
      ∃ i e, partitionPoint q es = i + 1 ∧ es[i]? = some e ∧ q e = true ∧
        countBy q prev es = e.2 := by
  induction es generalizing prev with
  | nil => exact .inl ⟨rfl, rfl⟩
  | cons e es ih =>
    by_cases hq : q e = true
    · right
      have hpoint : partitionPoint q (e :: es) = partitionPoint q es + 1 := by
        simp [partitionPoint, hq]
      rw [countBy, if_pos hq, hpoint]
      rcases ih e.2 with ⟨hzero, hcount⟩ | ⟨i, f, hsucc, hf, hqf, hcount⟩
      · exact ⟨0, e, by rw [hzero], rfl, hq, hcount⟩
      · exact ⟨i + 1, f, by rw [hsucc], hf, hqf, hcount⟩
    · exact .inl ⟨by simp [partitionPoint, hq], by rw [countBy, if_neg hq]⟩

theorem accumulatedBefore_partitionPoint (q : Nat × Nat → Bool) :
    m.accumulatedBefore (partitionPoint q m.authTreeStoragePhysicalExtents) =
      .ok (countBy q 0 m.authTreeStoragePhysicalExtents) := by
  rcases countBy_eq q 0 m.authTreeStoragePhysicalExtents with
    ⟨hzero, hcount⟩ | ⟨i, e, hsucc, he, -, hcount⟩
  · rw [hzero, hcount]
    rfl
  · rw [hsucc, hcount, AuthTreeDataAllocationBlocksMap.accumulatedBefore, index_ok he]
    rfl

theorem countBy_congr {q q' : Nat × Nat → Bool} {prev : Nat} {es : List (Nat × Nat)}
    (h : ∀ e ∈ es, q e = q' e) : countBy q prev es = countBy q' prev es := by
  induction es generalizing prev with
  | nil => rfl
  | cons e es ih =>
    rw [countBy, countBy, h e (by simp), ih fun f hf => h f (by simp [hf])]

/-- An extent ends before the place of a data index if its own data index comes
before that. -/
theorem end_le_iff (h : EntriesFrom b prev es) (d : Nat) (e : Nat × Nat) (he : e ∈ es) :
    e.1 ≤ d + countBefore prev es d ↔ dataBegin e ≤ d := by
  induction es generalizing b prev with
  | nil => simp at he
  | cons f fs ih =>
    have hle := h.count_le e he
    have hbegin : dataBegin e + e.2 = e.1 := by
      rw [dataBegin]
      omega
    by_cases hf : dataBegin f ≤ d
    · rw [countBefore, countBy, if_pos (by simpa using hf)]
      rcases mem_cons.mp he with rfl | hmem
      · have hge := le_countBefore h.tail d
        rw [countBefore] at hge
        omega
      · exact ih h.tail hmem
    · rw [countBefore, countBy, if_neg (by simpa using hf)]
      have hcount : prev < e.2 :=
        (pairwise_cons.mp h.counts).1 _ (mem_map_of_mem he)
      have hfirst : dataBegin f ≤ dataBegin e := by
        rcases mem_cons.mp he with rfl | hmem
        · exact le_refl _
        · exact ((pairwise_cons.mp h.ascending).1 _ (mem_map_of_mem hmem)).le
      omega

/-- The extent at the partition point begins as many blocks behind its data
index as belong to the tree before. -/
theorem partitionPoint_entry (h : EntriesFrom b prev es) (q : Nat × Nat → Bool)
    (he : es[partitionPoint q es]? = some e) :
    q e = false ∧ countBy q prev es < e.2 ∧
      ∀ x, dataBegin e + countBy q prev es ≤ x → x < e.1 → InTreeExtents prev es x := by
  induction es generalizing b prev with
  | nil => simp at he
  | cons f fs ih =>
    by_cases hq : q f = true
    · have hpoint : partitionPoint q (f :: fs) = partitionPoint q fs + 1 := by
        simp [partitionPoint, hq]
      rw [hpoint, getElem?_cons_succ] at he
      obtain ⟨hqe, hcount, hin⟩ := ih h.tail he
      rw [countBy, if_pos hq]
      exact ⟨hqe, hcount, fun x hx hlt => Or.inr (hin x hx hlt)⟩
    · have hpoint : partitionPoint q (f :: fs) = 0 := by simp [partitionPoint, hq]
      rw [hpoint] at he
      cases he
      rw [countBy, if_neg hq]
      exact ⟨Bool.eq_false_iff.mpr hq, h.head_count, fun x hx hlt => Or.inl ⟨hx, hlt⟩⟩

theorem countBy_end_le (h : Describes ranges m) (d : Nat) :
    countBy (fun e => e.1 ≤ physicalAt m.authTreeStoragePhysicalExtents d) 0
      m.authTreeStoragePhysicalExtents = countBefore 0 m.authTreeStoragePhysicalExtents d := by
  rw [countBefore]
  refine countBy_congr fun e he => ?_
  rw [decide_eq_decide, physicalAt]
  exact end_le_iff h.entries d e he

/-- A physical range outside of the tree does not reach up to the next extent. -/
theorem Describes.assertBeforeNext (h : Describes ranges m) (pr : Profile)
    (hfree : ∀ q, p ≤ q → q < p + n → Free ranges q) (hn : 0 < n) :
    m.assertBeforeNext pr ⟨p, p + n⟩
      (partitionPoint (fun e => e.1 ≤ p) m.authTreeStoragePhysicalExtents)
      (countBy (fun e => e.1 ≤ p) 0 m.authTreeStoragePhysicalExtents) = .ok () := by
  rw [AuthTreeDataAllocationBlocksMap.assertBeforeNext]
  split
  next hlt =>
    have he := getElem?_eq_getElem hlt
    obtain ⟨hq, hcount, hin⟩ := partitionPoint_entry h.entries _ he
    set e := m.authTreeStoragePhysicalExtents[partitionPoint (fun e => e.1 ≤ p)
      m.authTreeStoragePhysicalExtents]
    have hle := h.entries.count_le e (getElem_mem hlt)
    set count := countBy (fun e => e.1 ≤ p) 0 m.authTreeStoragePhysicalExtents
    have hpe : ¬ e.1 ≤ p := of_decide_eq_false hq
    have hnot (x : Nat) (hx : dataBegin e + count ≤ x) (hxe : x < e.1) (hpx : p ≤ x) :
        p + n ≤ x := by
      by_contra hxn
      exact (h.free x).mp (hfree x hpx (by omega)) (hin x hx hxe)
    have hbehind : p < dataBegin e + count := by
      by_contra hbegin
      have := hnot p (by omega) (by omega) (le_refl p)
      omega
    have hend := hnot (e.1 - e.2 + count) (le_refl _) (by omega) hbehind.le
    simp only [index_ok he, ok_bind, subU64_ok pr hcount.le,
      subU64_ok pr (show e.2 - count ≤ e.1 by omega)]
    exact debugAssert_ok pr (by omega)
  next => rfl

theorem Describes.mapPhysical (h : Describes ranges m) (pr : Profile)
    (hfree : ∀ q, p ≤ q → q < p + n → Free ranges q) (hn : 0 < n) (hlt : p + n < 2 ^ 64) :
    m.mapPhysicalToDataAllocationBlocks pr ⟨p, p + n⟩ =
      .ok ⟨dataIndex ranges p, dataIndex ranges p + n⟩ := by
  have hassert := h.assertBeforeNext pr hfree hn
  have hp := h.physicalAt_dataIndex (hfree p (le_refl p) (by omega))
  have hcount := countBy_end_le h (dataIndex ranges p)
  rw [hp] at hcount
  rw [physicalAt] at hp
  have hblocks : BlockRange.blockCount ⟨p, p + n⟩ = .ok n := by
    rw [BlockRange.blockCount, checkedSub_ok (Nat.le_add_right _ _), Nat.add_sub_cancel_left]
  simp only [AuthTreeDataAllocationBlocksMap.mapPhysicalToDataAllocationBlocks,
    accumulatedBefore_partitionPoint, ok_bind, hassert]
  rw [hcount, subU64_ok pr (by omega), ok_bind, hblocks, ok_bind]
  have hindex : p - countBefore 0 m.authTreeStoragePhysicalExtents (dataIndex ranges p) =
      dataIndex ranges p := by omega
  rw [hindex, checkedAdd_ok (by omega)]
  rfl

/-- The pieces of a data range before the first of the entries and those between
and behind them. -/
def piecesFrom (prev : Nat) : List (Nat × Nat) → Nat → Nat → List (BlockRange × Nat)
  | [], b, e => if b = e then [] else [(⟨b, e⟩, b + prev)]
  | x :: xs, b, e =>
    if b = e then []
    else if dataBegin x < e then
      (⟨b, dataBegin x⟩, b + prev) :: piecesFrom x.2 xs (dataBegin x) e
    else [(⟨b, e⟩, b + prev)]

def CountAt (es : List (Nat × Nat)) (k prev b : Nat) : Prop :=
  (k = 0 ∧ prev = 0) ∨ ∃ i x, k = i + 1 ∧ es[i]? = some x ∧ prev = x.2 ∧ dataBegin x ≤ b

theorem accumulated_ok (pr : Profile) {k prev b e : Nat}
    (h : CountAt m.authTreeStoragePhysicalExtents k prev b) :
    AuthTreeDataAllocationBlocksMapIterator.accumulated pr ⟨m, k, b, e⟩ = .ok prev := by
  rw [AuthTreeDataAllocationBlocksMapIterator.accumulated]
  rcases h with ⟨rfl, rfl⟩ | ⟨i, x, rfl, hx, rfl, hle⟩
  · rfl
  · rw [if_pos (Nat.succ_pos i)]
    simp only [Nat.add_sub_cancel, index_ok hx, ok_bind, pure_eq_ok]
    rw [debugAssert_ok pr (by exact hle), ok_bind]

theorem next_piece (pr : Profile) {k prev b e : Nat}
    (h : CountAt m.authTreeStoragePhysicalExtents k prev b) (hbe : b < e) (hlt : e + prev < 2 ^ 64)
    {stop next : Nat}
    (hstop : AuthTreeDataAllocationBlocksMapIterator.pieceEnd ⟨m, k, b, e⟩ = (stop, next))
    (hb : b < stop) :
    AuthTreeDataAllocationBlocksMapIterator.next pr ⟨m, k, b, e⟩ =
      .ok (some (⟨b, stop⟩, b + prev), ⟨m, next, stop, e⟩) := by
  simp only [AuthTreeDataAllocationBlocksMapIterator.next, if_neg hbe.ne, accumulated_ok pr h,
    ok_bind, hstop, addU64_ok pr (show b + prev < 2 ^ 64 by omega), BlockRange.new,
    debugAssert_ok pr hb, pure_eq_ok]

theorem next_end (pr : Profile) (k e : Nat) :
    AuthTreeDataAllocationBlocksMapIterator.next pr ⟨m, k, e, e⟩ = .ok (none, ⟨m, k, e, e⟩) :=
  if_pos rfl

theorem collect_last (pr : Profile) (fuel : Nat) {k prev b e : Nat}
    (h : CountAt m.authTreeStoragePhysicalExtents k prev b) (hbe : b < e) (hlt : e + prev < 2 ^ 64)
    (hstop : AuthTreeDataAllocationBlocksMapIterator.pieceEnd ⟨m, k, b, e⟩ = (e, k)) :
    AuthTreeDataAllocationBlocksMapIterator.collect pr (fuel + 2) ⟨m, k, b, e⟩ =
      .ok [(⟨b, e⟩, b + prev)] := by
  simp only [AuthTreeDataAllocationBlocksMapIterator.collect, next_piece pr h hbe hlt hstop hbe,
    next_end, ok_bind, pure_eq_ok]

theorem collect_eq (pr : Profile) (post : List (Nat × Nat)) (fuel k prev b e : Nat)
    (hpost : m.authTreeStoragePhysicalExtents.drop k = post)
    (hfuel : post.length + 2 ≤ fuel) (hcount : CountAt m.authTreeStoragePhysicalExtents k prev b)
    (hbe : b ≤ e) (hlt : e + prev < 2 ^ 64) (hpostLt : ∀ x ∈ post, e + x.2 < 2 ^ 64)
    (hbegins : (b :: post.map dataBegin).Pairwise (· < ·)) :
    AuthTreeDataAllocationBlocksMapIterator.collect pr fuel ⟨m, k, b, e⟩ =
      .ok (piecesFrom prev post b e) := by
  induction post generalizing fuel k prev b with
  | nil =>
    obtain ⟨fuel, rfl⟩ : ∃ n, fuel = n + 2 := ⟨fuel - 2, by simp at hfuel; omega⟩
    rw [piecesFrom]
    have hnone : m.authTreeStoragePhysicalExtents[k]? = none := by
      rw [List.getElem?_eq_none_iff]
      exact drop_eq_nil_iff.mp hpost
    split
    next heq =>
      subst heq
      simp only [AuthTreeDataAllocationBlocksMapIterator.collect, next_end, ok_bind, pure_eq_ok]
    next hne =>
      refine collect_last pr fuel hcount (by omega) hlt ?_
      rw [AuthTreeDataAllocationBlocksMapIterator.pieceEnd]
      simp only [hnone]
  | cons x xs ih =>
    obtain ⟨fuel, rfl⟩ : ∃ n, fuel = n + 2 := ⟨fuel - 2, by simp at hfuel; omega⟩
    have hx : m.authTreeStoragePhysicalExtents[k]? = some x := by
      rw [← Nat.add_zero k, ← getElem?_drop, hpost]
      rfl
    obtain ⟨hb, htail⟩ := pairwise_cons.mp hbegins
    have hbx : b < dataBegin x := hb _ (by simp)
    rw [piecesFrom]
    split
    next heq =>
      subst heq
      simp only [AuthTreeDataAllocationBlocksMapIterator.collect, next_end, ok_bind, pure_eq_ok]
    next hne =>
      have hend : AuthTreeDataAllocationBlocksMapIterator.pieceEnd ⟨m, k, b, e⟩ =
          if dataBegin x < e then (dataBegin x, k + 1) else (e, k) := by
        rw [AuthTreeDataAllocationBlocksMapIterator.pieceEnd]
        simp only [hx]
        rfl
      split
      next hxe =>
        rw [if_pos hxe] at hend
        have hrest := ih (fuel + 1) (k + 1) x.2 (dataBegin x)
          (by rw [← drop_drop, hpost, drop_one, tail_cons])
          (by simp at hfuel; omega) (.inr ⟨k, x, rfl, hx, rfl, le_refl _⟩) hxe.le
          (hpostLt x (by simp)) (fun y hy => hpostLt y (by simp [hy])) htail
        rw [AuthTreeDataAllocationBlocksMapIterator.collect,
          next_piece pr hcount (by omega) hlt hend hbx]
        simp only [ok_bind, hrest, pure_eq_ok]
      next hxe =>
        rw [if_neg hxe] at hend
        exact collect_last pr fuel hcount (by omega) hlt hend

theorem drop_partitionPoint (h : EntriesFrom b prev es) (d : Nat) :
    (d :: (es.drop (partitionPoint (fun e => dataBegin e ≤ d) es)).map dataBegin).Pairwise
      (· < ·) ∧
    (∃ b', EntriesFrom b' (countBefore prev es d)
      (es.drop (partitionPoint (fun e => dataBegin e ≤ d) es))) ∧
    ∀ d', d ≤ d' → countBefore prev es d' = countBefore (countBefore prev es d)
      (es.drop (partitionPoint (fun e => dataBegin e ≤ d) es)) d' := by
  induction es generalizing b prev with
  | nil => exact ⟨by simp, ⟨b, h⟩, fun _ _ => rfl⟩
  | cons e es ih =>
    by_cases he : dataBegin e ≤ d
    · have hpoint : partitionPoint (fun e => dataBegin e ≤ d) (e :: es) =
          partitionPoint (fun e => dataBegin e ≤ d) es + 1 := by
        simp [partitionPoint, he]
      obtain ⟨hasc, hfrom, hcount⟩ := ih h.tail
      have hsame : countBefore prev (e :: es) d = countBefore e.2 es d := by
        rw [countBefore, countBy, if_pos (by simpa using he)]
        rfl
      rw [hpoint, drop_succ_cons, hsame]
      refine ⟨hasc, hfrom, fun d' hd' => ?_⟩
      rw [← hcount d' hd', countBefore, countBy, if_pos (by simpa using he.trans hd')]
      rfl
    · have hpoint : partitionPoint (fun e => dataBegin e ≤ d) (e :: es) = 0 := by
        simp [partitionPoint, he]
      have hasc := h.ascending
      have hsame : countBefore prev (e :: es) d = prev := by
        rw [countBefore, countBy, if_neg (by simpa using he)]
      rw [hpoint, drop_zero, hsame]
      refine ⟨pairwise_cons.mpr ⟨?_, hasc⟩, ⟨b, h⟩, fun d' _ => rfl⟩
      intro x hx
      rcases mem_cons.mp hx with rfl | hx
      · omega
      · have := (pairwise_cons.mp hasc).1 x hx
        omega

theorem le_total (h : Describes ranges m)
    (he : e ∈ m.authTreeStoragePhysicalExtents) : e.2 ≤ treeBlocks ranges := by
  rw [← h.total, AuthTreeDataAllocationBlocksMap.totalAuthTreeExtentsAllocationBlocks]
  have hcounts := (pairwise_cons.mp h.entries.counts).2
  obtain ⟨es, last, hes⟩ : ∃ es last, m.authTreeStoragePhysicalExtents = es ++ [last] :=
    ⟨_, _, (dropLast_append_getLast (ne_nil_of_mem he)).symm⟩
  rw [hes] at he hcounts ⊢
  rw [getLast?_concat]
  rcases mem_append.mp he with he | he
  · rw [map_append, pairwise_append] at hcounts
    exact (hcounts.2.2 e.2 (mem_map_of_mem he) last.2 (by simp)).le
  · obtain rfl := mem_singleton.mp he
    exact le_refl _

theorem Describes.le_dataIndex_add (h : Describes ranges m) (hp : Free ranges p) :
    p ≤ dataIndex ranges p + treeBlocks ranges := by
  have hplace := h.physicalAt_dataIndex hp
  rw [physicalAt, countBefore] at hplace
  rcases countBy_eq (fun e => dataBegin e ≤ dataIndex ranges p) 0 m.authTreeStoragePhysicalExtents
    with ⟨-, hcount⟩ | ⟨i, e, -, he, -, hcount⟩
  · omega
  · have := le_total h (mem_of_getElem? he)
    omega

def segmentOf (piece : BlockRange × Nat) : BlockRange :=
  ⟨piece.2, piece.2 + (piece.1.e - piece.1.b)⟩

def segments (pieces : List (BlockRange × Nat)) : List BlockRange := pieces.map segmentOf

@[simp] theorem segments_nil : segments [] = [] := rfl

@[simp] theorem segments_cons (piece : BlockRange × Nat) (pieces : List (BlockRange × Nat)) :
    segments (piece :: pieces) = segmentOf piece :: segments pieces := rfl

/-- The segments are in order and consist of what a data range is mapped to. -/
structure Segments (prev : Nat) (es : List (Nat × Nat)) (b e : Nat) (ss : List BlockRange) :
    Prop where
  nonempty : ∀ s ∈ ss, s.b < s.e
  ge : ∀ s ∈ ss, b + prev ≤ s.b
  ascending : ss.Pairwise (fun s t => s.e ≤ t.b)
  mem_iff : ∀ p, (∃ s ∈ ss, s.b ≤ p ∧ p < s.e) ↔
    ∃ d, b ≤ d ∧ d < e ∧ d + countBefore prev es d = p

theorem segments_single {x y : Nat} (hxy : x < y) (h : ∀ d, d < y → countBefore prev es d = prev) :
    Segments prev es x y [⟨x + prev, x + prev + (y - x)⟩] where
  nonempty := by
    simp only [mem_singleton, forall_eq]
    omega
  ge := by simp
  ascending := by simp
  mem_iff p := by
    simp only [mem_singleton, exists_eq_left]
    constructor
    · rintro ⟨hb, he⟩
      refine ⟨p - prev, by omega, by omega, ?_⟩
      rw [h _ (by omega)]
      omega
    · rintro ⟨d, hx, hy, hd⟩
      rw [h d hy] at hd
      omega

theorem segments_piecesFrom (h : EntriesFrom b prev es) {x y : Nat} (hxy : x ≤ y)
    (hx : ∀ e ∈ es, x < dataBegin e) : Segments prev es x y (segments (piecesFrom prev es x y)) := by
  induction es generalizing b prev x with
  | nil =>
    rw [piecesFrom]
    split
    next heq =>
      subst heq
      refine ⟨by simp, by simp, by simp, fun p => ?_⟩
      simp only [segments_nil, not_mem_nil, false_and, exists_false, false_iff]
      rintro ⟨d, hb, he, -⟩
      omega
    next hne => exact segments_single (by omega) fun _ _ => rfl
  | cons e es ih =>
    have hxe := hx e (by simp)
    have hasc := pairwise_cons.mp h.ascending
    rw [piecesFrom]
    split
    next heq =>
      subst heq
      refine ⟨by simp, by simp, by simp, fun p => ?_⟩
      simp only [segments_nil, not_mem_nil, false_and, exists_false, false_iff]
      rintro ⟨d, hb, he, -⟩
      omega
    next hne =>
      split
      next hlt =>
        -- The rest lies behind the extent, the first piece before it.
        have hrest := ih h.tail hlt.le fun f hf => hasc.1 _ (mem_map_of_mem hf)
        have hcount := h.head_count
        have hfirst : Segments prev (e :: es) x (dataBegin e)
            [⟨x + prev, x + prev + (dataBegin e - x)⟩] :=
          segments_single hxe fun d hd => by
            rw [countBefore, countBy, if_neg (by simpa using hd)]
        refine ⟨?_, ?_, ?_, fun p => ?_⟩
        · intro s hs
          rcases mem_cons.mp hs with rfl | hs
          · exact hfirst.nonempty _ (mem_singleton.mpr rfl)
          · exact hrest.nonempty s hs
        · intro s hs
          rcases mem_cons.mp hs with rfl | hs
          · exact le_refl _
          · have := hrest.ge s hs
            omega
        · refine pairwise_cons.mpr ⟨fun s hs => ?_, hrest.ascending⟩
          have := hrest.ge s hs
          simp only [segmentOf]
          omega
        · have hmem := hfirst.mem_iff p
          simp only [mem_singleton, exists_eq_left] at hmem
          rw [segments_cons, segmentOf, exists_mem_cons_iff, hrest.mem_iff p, hmem]
          constructor
          · rintro (⟨d, hb, he, hd⟩ | ⟨d, hb, he, hd⟩)
            · exact ⟨d, hb, by omega, hd⟩
            · refine ⟨d, by omega, he, ?_⟩
              rw [countBefore, countBy, if_pos (by simpa using hb)]
              exact hd
          · rintro ⟨d, hb, he, hd⟩
            by_cases hde : d < dataBegin e
            · exact .inl ⟨d, hb, hde, hd⟩
            · rw [countBefore, countBy, if_pos (by simpa using hde)] at hd
              exact .inr ⟨d, by omega, he, hd⟩
      next hge =>
        refine segments_single (by omega) fun d hd => ?_
        rw [countBefore, countBy, if_neg (by simp; omega)]

theorem Describes.dataRangePieces (h : Describes ranges m) (pr : Profile) {x y : Nat} (hxy : x ≤ y)
    (hlt : y + treeBlocks ranges < 2 ^ 64) :
    ∃ pieces, m.dataRangePieces pr ⟨x, y⟩ = .ok pieces ∧
      Segments 0 m.authTreeStoragePhysicalExtents x y (segments pieces) := by
  obtain ⟨hasc, ⟨b', hfrom⟩, hcount⟩ := drop_partitionPoint h.entries x
  set es := m.authTreeStoragePhysicalExtents with hes
  set k := partitionPoint (fun e => dataBegin e ≤ x) es with hk
  have hmax : subU64 pr (2 ^ 64 - 1) m.totalAuthTreeExtentsAllocationBlocks =
      .ok (2 ^ 64 - 1 - treeBlocks ranges) := by
    rw [h.total]
    exact subU64_ok pr (by omega)
  have hiter : m.iterDataRangeMapping pr ⟨x, y⟩ = .ok ⟨m, k, x, y⟩ := by
    simp only [AuthTreeDataAllocationBlocksMap.iterDataRangeMapping, hmax, ok_bind,
      Nat.min_eq_left (show x ≤ 2 ^ 64 - 1 - treeBlocks ranges by omega),
      Nat.min_eq_left (show y ≤ 2 ^ 64 - 1 - treeBlocks ranges by omega), pure_eq_ok]
    rfl
  have hbound (e : Nat × Nat) (he : e ∈ es) : y + e.2 < 2 ^ 64 := by
    have := le_total h he
    omega
  have hat : CountAt es k (countBefore 0 es x) x := by
    rcases countBy_eq (fun e => dataBegin e ≤ x) 0 es with
      ⟨hzero, hc⟩ | ⟨i, e, hsucc, he, hq, hc⟩
    · exact .inl ⟨hzero, hc⟩
    · exact .inr ⟨i, e, hsucc, he, hc, of_decide_eq_true hq⟩
  have hprev : y + countBefore 0 es x < 2 ^ 64 := by
    rcases hat with ⟨-, hzero⟩ | ⟨i, e, -, he, hc, -⟩
    · omega
    · rw [hc]
      exact hbound e (mem_of_getElem? he)
  have hpieces := collect_eq pr (es.drop k) (es.length + 2) k (countBefore 0 es x) x y rfl
    (by rw [length_drop]; omega) hat hxy hprev
    (fun e he => hbound e (mem_of_mem_drop he)) hasc
  refine ⟨_, by rw [AuthTreeDataAllocationBlocksMap.dataRangePieces, hiter, ok_bind, hpieces], ?_⟩
  have hss := segments_piecesFrom hfrom hxy fun e he =>
    (pairwise_cons.mp hasc).1 _ (mem_map_of_mem he)
  refine ⟨hss.nonempty, fun s hs => ?_, hss.ascending, fun p => ?_⟩
  · have := hss.ge s hs
    omega
  · rw [hss.mem_iff p]
    refine exists_congr fun d => and_congr_right fun hd => and_congr_right fun _ => ?_
    rw [hcount d hd]

end CocoonFs.DataMapping
