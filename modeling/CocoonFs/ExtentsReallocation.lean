import CocoonFs.ExtentsLayouts

namespace CocoonFs.ExtentsReallocation

open Checked Extents ExtentsLayouts List

structure ExtentsAllocationRequest where
  totalEffectivePayloadLen : Nat
  layout : ExtentsLayout
  deriving DecidableEq, Repr

inductive ExtentsReallocationRequest where
  | keep
  | shrink (lastRetainedExtentIndex lastRetainedExtentAllocationBlocks : Nat)
  | grow (request : ExtentsAllocationRequest)
  deriving DecidableEq, Repr

/-- The extents yet to come, and what's left to provide by those. -/
def reallocateFrom (pr : Profile) (l : ExtentsLayout) :
    List (Nat × Nat) → Nat → Bool → Nat → Comp ExtentsReallocationRequest
  | [], _, isFirst, remainingEffectivePayloadLen =>
    if remainingEffectivePayloadLen = 0 then pure .keep
    else
      pure (.grow ⟨remainingEffectivePayloadLen,
        if isFirst then l else { l with extentsHdrLen := 0 }⟩)
  | entry :: entries, i, isFirst, remainingEffectivePayloadLen => do
    let extent ← PhysicalExtents.unpackEntry entry
    let (maxBlocks, _) ←
      l.extentPayloadLenToAllocationBlocks pr remainingEffectivePayloadLen isFirst
    let blockCount ← extent.blockCount
    if blockCount ≤ maxBlocks then do
      let provided ← l.extentEffectivePayloadLen pr blockCount isFirst
      reallocateFrom pr l entries (i + 1) false (remainingEffectivePayloadLen - provided)
    else if l.maxExtentAllocationBlocks < blockCount then formatErr .invalidExtents
    else pure (.shrink i maxBlocks)

def newReallocate (pr : Profile) (preexistingExtents : PhysicalExtents)
    (totalEffectivePayloadLen : Nat) (l : ExtentsLayout) : Comp ExtentsReallocationRequest :=
  reallocateFrom pr l preexistingExtents.extents 0 true totalEffectivePayloadLen

/-- The extents' boundaries are aligned and their lengths within the bounds. -/
structure Conforming (l : ExtentsLayout) (x : PhysicalExtents) : Prop where
  aligned : ∀ e ∈ x.extents, 2 ^ l.extentAlignmentAllocationBlocksLog2 ∣ e.1 ∧
    2 ^ l.extentAlignmentAllocationBlocksLog2 ∣ e.2
  end_lt : ∀ e ∈ x.extents, e.1 + e.2 < 2 ^ 64
  le_max : ∀ e ∈ x.extents, e.2 ≤ l.maxExtentAllocationBlocks
  min_le : ∃ head tail, l.minExtentsAllocationBlocks .debug = .ok (head, tail) ∧
    (∀ e ∈ x.extents.head?, head ≤ e.2) ∧ ∀ e ∈ x.extents.tail, tail ≤ e.2

def counts (x : PhysicalExtents) : List Nat := x.extents.map Prod.snd

def offeredLen (l : ExtentsLayout) : Bool → List Nat → Nat
  | _, [] => 0
  | isFirst, n :: ns => l.providedLen n isFirst + offeredLen l false ns

/-- The extents before the one at the given index, together with some of its blocks,
offer enough. -/
def Sufficient (l : ExtentsLayout) (ns : List Nat) (totalLen i n : Nat) : Prop :=
  ∃ len, l.Holds n (decide (i = 0)) len ∧ totalLen ≤ offeredLen l true (ns.take i) + len

def retainedBlocks (ns : List Nat) (i n : Nat) : Nat := (ns.take i).sum + n

def Correct (l : ExtentsLayout) (ns : List Nat) (totalLen : Nat) :
    ExtentsReallocationRequest → Prop
  | .keep => totalLen ≤ offeredLen l true ns
  | .shrink i n =>
    totalLen ≤ offeredLen l true ns ∧ i < ns.length ∧ Sufficient l ns totalLen i n ∧
      ∀ i' n', i' < ns.length → n' ≤ ns.getD i' 0 →
        2 ^ l.extentAlignmentAllocationBlocksLog2 ∣ n' →
          retainedBlocks ns i' n' < retainedBlocks ns i n → ¬Sufficient l ns totalLen i' n'
  | .grow request =>
    offeredLen l true ns < totalLen ∧
      request = ⟨totalLen - offeredLen l true ns,
        { l with extentsHdrLen := if ns = [] then l.extentsHdrLen else 0 }⟩

variable {l : ExtentsLayout} {n n' len len' totalLen : Nat} {first : Bool} {ns pre : List Nat}

theorem Holds.of_le (hv : l.Bounded) (h : l.Holds n first len) (hlen : len' ≤ len) :
    l.Holds n first len' := by
  rcases h with ⟨hfirst, hn, hzero⟩ | hfits
  · exact .inl ⟨hfirst, hn, by omega⟩
  · exact .inr (hfits.of_le hv.payloadAlignment_pos hlen)

theorem Holds.le_provided (hv : l.Bounded) (h : l.Holds n first len) (hn : n ≤ n')
    (hfits : l.Fits n' first 0) : len ≤ l.providedLen n' first := by
  rcases h with ⟨-, -, rfl⟩ | hlen
  · exact Nat.zero_le _
  · exact (hv.le_providedLen_iff hfits).mpr (hlen.mono hn)

theorem offeredLen_append (ns ms : List Nat) (first : Bool) :
    offeredLen l first (ns ++ ms) =
      offeredLen l first ns + offeredLen l (first && ns.isEmpty) ms := by
  induction ns generalizing first with
  | nil => simp [offeredLen]
  | cons n ns ih => simp [offeredLen, ih, Nat.add_assoc]

def HeadersFit (l : ExtentsLayout) : Bool → List Nat → Prop
  | _, [] => True
  | isFirst, n :: ns =>
    0 < n ∧ n ≤ l.maxExtentAllocationBlocks ∧ l.Fits n isFirst 0 ∧ HeadersFit l false ns

variable {ms : List Nat} {i : Nat}

theorem HeadersFit.append (h : HeadersFit l first (ns ++ ms)) :
    HeadersFit l first ns ∧ HeadersFit l (first && ns.isEmpty) ms := by
  induction ns generalizing first with
  | nil => exact ⟨trivial, by simpa using h⟩
  | cons n ns ih =>
    obtain ⟨hpos, hle, hfits, h⟩ := h
    obtain ⟨hns, hms⟩ := ih h
    refine ⟨⟨hpos, hle, hfits, hns⟩, ?_⟩
    simpa using hms

/-- What's sufficient within the first extents is provided by them as a whole. -/
theorem Sufficient.le_offeredLen (hv : l.Bounded) (hfit : HeadersFit l true pre)
    (h : Sufficient l pre totalLen i n) (hi : i < pre.length) (hn : n ≤ pre.getD i 0) :
    totalLen ≤ offeredLen l true pre := by
  obtain ⟨len, hlen, hle⟩ := h
  have hsplit : pre = pre.take i ++ pre[i] :: pre.drop (i + 1) := by
    rw [← drop_eq_getElem_cons hi, take_append_drop]
  have hfirst : (true && (pre.take i).isEmpty) = decide (i = 0) := by
    cases i with
    | zero => rfl
    | succ i =>
      obtain ⟨m, ms, rfl⟩ := exists_cons_of_ne_nil
        (ne_nil_of_length_pos (Nat.zero_lt_of_lt hi))
      rfl
  rw [hsplit] at hfit
  obtain ⟨-, hfit⟩ := hfit.append
  rw [hfirst] at hfit
  rw [getD_eq_getElem _ _ hi] at hn
  have hprovided := Holds.le_provided hv hlen hn hfit.2.2.1
  rw [hsplit, offeredLen_append, hfirst, offeredLen]
  omega

theorem sufficient_append_iff (hi : i ≤ pre.length) :
    Sufficient l (pre ++ ms) totalLen i n ↔ Sufficient l pre totalLen i n := by
  rw [Sufficient, Sufficient, take_append_of_le_length hi]

theorem retainedBlocks_append (hi : i ≤ pre.length) :
    retainedBlocks (pre ++ ms) i n = retainedBlocks pre i n := by
  rw [retainedBlocks, retainedBlocks, take_append_of_le_length hi]

theorem sum_le_retainedBlocks (pre : List Nat) (hi : i ≤ ns.length) (hle : pre.length ≤ i)
    (hns : pre <+: ns) : pre.sum ≤ retainedBlocks ns i n := by
  obtain ⟨ms, rfl⟩ := hns
  rw [retainedBlocks, List.take_append, take_of_length_le hle, sum_append]
  omega

def AllNeeded (l : ExtentsLayout) (pre : List Nat) (totalLen : Nat) : Prop :=
  ∀ i n, i < pre.length → n ≤ pre.getD i 0 → 2 ^ l.extentAlignmentAllocationBlocksLog2 ∣ n →
    Sufficient l pre totalLen i n → pre.sum ≤ retainedBlocks pre i n

/-- If the extents before offer enough already, then nothing is left for the next one. -/
theorem maxBlocks_eq_zero {maxBlocks : Nat} {fits : Bool}
    (hblocks : l.Blocks pre.isEmpty (totalLen - offeredLen l true pre) maxBlocks fits) (hne : pre ≠ []) (hle : totalLen ≤ offeredLen l true pre) :
    maxBlocks = 0 := by
  by_contra hpos
  refine hblocks.least 0 (Nat.dvd_zero _) (Nat.pos_of_ne_zero hpos) (.inl ⟨?_, rfl, by omega⟩)
  simpa using hne

section Step

variable {c maxBlocks : Nat} {fits : Bool} (hv : l.Bounded) (hfit : HeadersFit l true (pre ++ [c]))
  (hneeded : AllNeeded l pre totalLen)
  (hblocks : l.Blocks pre.isEmpty (totalLen - offeredLen l true pre) maxBlocks fits)

include hv hfit hneeded hblocks

/-- The parts of the next extent offering enough are those as large as what would get
allocated. -/
theorem maxBlocks_le_of_sufficient (hdvd : 2 ^ l.extentAlignmentAllocationBlocksLog2 ∣ n)
    (hsuff : Sufficient l (pre ++ [c]) totalLen pre.length n) : maxBlocks ≤ n := by
  obtain ⟨len, hlen, hle⟩ := hsuff
  rw [take_left] at hle
  by_contra hlt
  refine hblocks.least n hdvd (Nat.lt_of_not_le hlt) ?_
  have hfirst : decide (pre.length = 0) = pre.isEmpty := by cases pre <;> simp
  rw [hfirst] at hlen
  exact Holds.of_le hv hlen (by omega)

theorem AllNeeded.step (hc : c ≤ maxBlocks) : AllNeeded l (pre ++ [c]) totalLen := by
  intro i n hi hn hdvd hsuff
  rw [length_append, length_singleton] at hi
  rcases Nat.lt_or_ge i pre.length with hlt | hge
  · -- What's within the extents before would have ended the search before.
    rw [getD_append _ _ _ _ hlt] at hn
    rw [sufficient_append_iff hlt.le] at hsuff
    have hle := hsuff.le_offeredLen hv hfit.append.1 hlt hn
    have hzero := maxBlocks_eq_zero hblocks (ne_nil_of_length_pos
      (Nat.zero_lt_of_lt hlt)) hle
    have hpos := hfit.append.2.1
    omega
  · obtain rfl : i = pre.length := by omega
    have hle := maxBlocks_le_of_sufficient hv hfit hneeded hblocks hdvd hsuff
    rw [retainedBlocks, take_left, sum_append, sum_singleton]
    omega

theorem shrink_correct {ms : List Nat} (hc : maxBlocks < c) (hmax : c ≤ l.maxExtentAllocationBlocks) :
    Correct l (pre ++ c :: ms) totalLen (.shrink pre.length maxBlocks) := by
  have hfirst : decide (pre.length = 0) = pre.isEmpty := by cases pre <;> simp
  have hfits : fits = true := by
    by_contra hcapped
    have := (hblocks.capped (Bool.eq_false_of_not_eq_true hcapped)).1
    omega
  have hholds := hblocks.holds hfits
  have hprovided := Holds.le_provided hv hholds hc.le hfit.append.2.2.2.1
  refine ⟨?_, by simp, ⟨_, hfirst ▸ hholds, ?_⟩, ?_⟩
  · rw [offeredLen_append, Bool.true_and, offeredLen]
    omega
  · rw [take_left]
    omega
  · intro i n hi hn hdvd hlt hsuff
    have hretained : retainedBlocks (pre ++ c :: ms) pre.length maxBlocks = pre.sum + maxBlocks := by
      rw [retainedBlocks, take_left]
    rcases Nat.lt_trichotomy i pre.length with hltp | rfl | hgt
    · rw [getD_append _ _ _ _ hltp] at hn
      rw [sufficient_append_iff hltp.le] at hsuff
      rw [retainedBlocks_append hltp.le] at hlt
      have hle := hsuff.le_offeredLen hv hfit.append.1 hltp hn
      have hzero := maxBlocks_eq_zero hblocks (ne_nil_of_length_pos
        (Nat.zero_lt_of_lt hltp)) hle
      have hsum := hneeded i n hltp hn hdvd hsuff
      omega
    · rw [append_cons, sufficient_append_iff (by simp)] at hsuff
      have hle := maxBlocks_le_of_sufficient hv hfit hneeded hblocks hdvd hsuff
      rw [retainedBlocks, take_left] at hlt
      omega
    · have hsum := sum_le_retainedBlocks (n := n) (pre ++ [c]) hi.le
        (by rw [length_append, length_singleton]; omega) ⟨ms, by simp⟩
      rw [sum_append, sum_singleton] at hsum
      omega

end Step

theorem reallocateFrom_ok (pr : Profile) (hv : l.Bounded) (pre : List Nat)
    (entries : List (Nat × Nat)) (hend : ∀ e ∈ entries, e.1 + e.2 < 2 ^ 64)
    (hfit : HeadersFit l true (pre ++ entries.map Prod.snd)) (hneeded : AllNeeded l pre totalLen) :
    ∃ r, reallocateFrom pr l entries pre.length pre.isEmpty
        (totalLen - offeredLen l true pre) = .ok r ∧
      Correct l (pre ++ entries.map Prod.snd) totalLen r := by
  induction entries generalizing pre with
  | nil =>
    rw [reallocateFrom, map_nil, List.append_nil]
    by_cases hle : totalLen ≤ offeredLen l true pre
    · rw [if_pos (by omega)]
      exact ⟨_, rfl, hle⟩
    · rw [if_neg (by omega)]
      refine ⟨_, rfl, by omega, ?_⟩
      cases pre <;> rfl
  | cons entry entries ih =>
    obtain ⟨b, c⟩ := entry
    have hsum : b + c < 2 ^ 64 := hend (b, c) (mem_cons_self ..)
    rw [map_cons] at hfit ⊢
    obtain ⟨-, hpos, hmax, hhdr, -⟩ := hfit.append
    rw [Bool.true_and] at hhdr
    obtain ⟨maxBlocks, fits, hto, hblocks⟩ :=
      hv.exists_blocks pr pre.isEmpty (totalLen - offeredLen l true pre)
    have hfit' : HeadersFit l true (pre ++ [c] ++ entries.map Prod.snd) := by
      rwa [append_assoc]
    rw [reallocateFrom, PhysicalExtents.unpackEntry, checkedAdd_ok hsum, ok_bind, pure_eq_ok,
      ok_bind, hto, ok_bind]
    dsimp only
    rw [BlockRange.blockCount, checkedSub_ok (Nat.le_add_right b c), ok_bind,
      Nat.add_sub_cancel_left]
    by_cases hc : c ≤ maxBlocks
    · rw [if_pos hc, hv.extentEffectivePayloadLen_ok pr hmax hpos.ne' hhdr, ok_bind]
      have hprovided : totalLen - offeredLen l true pre - l.providedLen c pre.isEmpty =
          totalLen - offeredLen l true (pre ++ [c]) := by
        rw [offeredLen_append, Bool.true_and, offeredLen, offeredLen]
        omega
      have hempty : (pre ++ [c]).isEmpty = false := by simp
      have hrest := ih _ (fun e he => hend e (mem_cons_of_mem _ he)) hfit'
        (hneeded.step hv hfit'.append.1 hblocks hc)
      rw [length_append, length_singleton, hempty, append_assoc] at hrest
      rw [hprovided]
      exact hrest
    · rw [if_neg hc, if_neg (Nat.not_lt.mpr hmax)]
      exact ⟨_, rfl, shrink_correct hv hfit'.append.1 hneeded hblocks (Nat.lt_of_not_le hc) hmax⟩

theorem minExtentsAllocationBlocks_fits (hv : l.Bounded) {head tail : Nat}
    (h : l.minExtentsAllocationBlocks .debug = .ok (head, tail)) :
    l.Fits head true 0 ∧ l.Fits tail false 0 := by
  have hpos := hv.payloadAlignment_pos
  obtain ⟨tail', fits, htail, hblocks⟩ := hv.exists_blocks .debug false 1
  rw [ExtentsLayout.minExtentsAllocationBlocks, htail, ok_bind] at h
  obtain ⟨⟨⟩, hfits, h⟩ := bind_eq_ok h
  have htailFits : l.Fits tail' false 0 := by
    rcases hblocks.holds (of_debugAssert hfits) with ⟨-, -, hlen⟩ | hfits
    · cases hlen
    · exact hfits.of_le hpos (Nat.zero_le 1)
  split at h
  · obtain ⟨head', fits', hhead, hblocks'⟩ := hv.exists_blocks .debug true 0
    rw [hhead, ok_bind] at h
    obtain ⟨⟨⟩, hfits', h⟩ := bind_eq_ok h
    cases h
    rcases hblocks'.holds (of_debugAssert hfits') with ⟨hfirst, -, -⟩ | hheadFits
    · cases hfirst
    · exact ⟨hheadFits, htailFits⟩
  next hzero =>
    cases h
    refine ⟨?_, htailFits⟩
    rw [ExtentsLayout.Fits, ExtentsLayout.headersLen] at htailFits ⊢
    rwa [if_pos rfl, not_not.mp hzero]

theorem headersFit_tail {tail : Nat} (htail : l.Fits tail false 0)
    (hpos : ∀ n ∈ ns, 0 < n) (hmax : ∀ n ∈ ns, n ≤ l.maxExtentAllocationBlocks)
    (hmin : ∀ n ∈ ns, tail ≤ n) : HeadersFit l false ns := by
  induction ns with
  | nil => trivial
  | cons n ns ih =>
    rw [forall_mem_cons] at hpos hmax hmin
    exact ⟨hpos.1, hmax.1, htail.mono hmin.1, ih hpos.2 hmax.2 hmin.2⟩

theorem Conforming.headersFit (hv : l.Bounded) {x : PhysicalExtents} (h : Conforming l x) :
    HeadersFit l true (counts x) := by
  obtain ⟨head, tail, hlens, hhead, htail⟩ := h.min_le
  obtain ⟨hheadFits, htailFits⟩ := minExtentsAllocationBlocks_fits hv hlens
  have hpos := x.count_pos
  have hmax := h.le_max
  rw [counts]
  cases hx : x.extents with
  | nil => trivial
  | cons e es =>
    rw [hx] at hhead htail hpos hmax
    rw [forall_mem_cons] at hpos hmax
    refine ⟨hpos.1, hmax.1, hheadFits.mono (hhead e rfl), ?_⟩
    apply headersFit_tail htailFits
    · exact forall_mem_map.mpr hpos.2
    · exact forall_mem_map.mpr hmax.2
    · exact forall_mem_map.mpr htail

theorem Correct.grow_iff {r : ExtentsReallocationRequest} (h : Correct l ns totalLen r) :
    (∃ request, r = .grow request) ↔ offeredLen l true ns < totalLen := by
  cases r with
  | keep =>
    have hle : totalLen ≤ offeredLen l true ns := h
    refine iff_of_false ?_ (Nat.not_lt.mpr hle)
    rintro ⟨_, ⟨⟩⟩
  | shrink i n =>
    refine iff_of_false ?_ (Nat.not_lt.mpr h.1)
    rintro ⟨_, ⟨⟩⟩
  | grow request => exact iff_of_true ⟨request, rfl⟩ h.1

/-- For any layout accepted, the extents are kept, shrunken to the fewest blocks that
are sufficient or extended by just what's missing. -/
theorem newReallocate_spec {pr : Profile} {maxBlocks : Option Nat} {a H h p A s : Nat}
    (hH : H < 2 ^ 32) (hh : h < 2 ^ 32) (hp : p < 2 ^ 32) (hA : A < 2 ^ 8)
    (hl : ExtentsLayout.new pr maxBlocks a H h p A s = .ok l) {x : PhysicalExtents}
    (hx : Conforming l x) (totalLen : Nat) :
    ∃ r, newReallocate pr x totalLen l = .ok r ∧ Correct l (counts x) totalLen r ∧
      ((∃ request, r = .grow request) ↔ offeredLen l true (counts x) < totalLen) := by
  have hv := (ExtentsLayout.new_valid hH hh hp hA hl).toBounded
  have hneeded : AllNeeded l [] totalLen := fun i _ hi => absurd hi (Nat.not_lt_zero i)
  obtain ⟨r, hr, hcorrect⟩ := reallocateFrom_ok pr hv [] x.extents hx.end_lt
    (hx.headersFit hv) hneeded
  exact ⟨r, hr, hcorrect, hcorrect.grow_iff⟩

def plainLayout : ExtentsLayout := ⟨2 ^ 57 - 1, 0, 0, 0, 0, 1, 0⟩

def twoExtents : PhysicalExtents := ⟨[(0, 1), (2, 1)], by decide⟩

theorem plainLayout_new : ExtentsLayout.new .debug none 0 0 0 0 1 0 = .ok plainLayout := by
  decide +kernel

theorem twoExtents_conforming : Conforming plainLayout twoExtents where
  aligned := by decide
  end_lt := by decide
  le_max := by decide
  min_le := ⟨1, 1, by decide +kernel, by decide, by decide⟩

theorem newReallocate_spec_two :
    ∃ r, newReallocate .debug twoExtents 129 plainLayout = .ok r ∧
      Correct plainLayout (counts twoExtents) 129 r ∧
        ((∃ request, r = .grow request) ↔
          offeredLen plainLayout true (counts twoExtents) < 129) :=
  newReallocate_spec (by decide) (by decide) (by decide) (by decide) plainLayout_new
    twoExtents_conforming 129

/-- The second extent is shrunken to nothing at all where the first one offers enough
already. -/
theorem newReallocate_shrinks_to_zero :
    Conforming plainLayout twoExtents ∧
      newReallocate .debug twoExtents 128 plainLayout = .ok (.shrink 1 0) ∧
      newReallocate .release twoExtents 128 plainLayout = .ok (.shrink 1 0) ∧
      Sufficient plainLayout (counts twoExtents) 128 0 1 :=
  ⟨twoExtents_conforming, by decide +kernel, by decide +kernel, 128, .inr (by decide), by decide⟩

end CocoonFs.ExtentsReallocation
