import CocoonFs.SparseAddExtent

namespace CocoonFs.SparseAddExtents

open Checked Extents Bitmap SparseBitmap SparseAddExtent List
open SparseAllocBitmap (addExtents populateExtents populateMissingInRange pruneExtents
  pruneUnusedInRange)

/-- How many reservations populating some words gets memory for before one is
refused, if any is. -/
def refusedFrom (al : Allocator) (reserve : Nat) :
    Nat → Nat → Nat → Nat → List Entry → Option Nat
  | len, capacity, _, n, [] =>
    if n ≠ 0 ∧ al.tryReserveExact len capacity (n + reserve) = none then some 0 else none
  | len, capacity, w, n, e :: es =>
    if n = 0 then
      none
    else if e.bitmapWordIndex ≠ w then
      let missing := min (e.bitmapWordIndex - w) n
      match al.tryReserveExact len capacity (missing + reserve) with
      | none => some 0
      | some capacity =>
        (refusedFrom al reserve (len + missing) capacity (w + missing) (n - missing - 1) es).map
          (· + 1)
    else
      refusedFrom al reserve len capacity (w + 1) (n - 1) es

def refused (al : Allocator) (s : SparseAllocBitmap) (range : BlockRange) : Option Nat :=
  let w := range.b / 64
  let n := wordsEnd range - w
  match findEntryPosition s.entries w with
  | .ok i =>
    refusedFrom al s.removeRollbackReserveCapacity s.entries.length s.capacity (w + 1) (n - 1)
      (s.entries.drop (i + 1))
  | .error i =>
    refusedFrom al s.removeRollbackReserveCapacity s.entries.length s.capacity w n
      (s.entries.drop i)

/-- Some extents have all been populated and for the next one, a reservation is refused
after some others have been granted. -/
def RefusedAt (al : Allocator) (s : SparseAllocBitmap) (done : List BlockRange)
    (extent : BlockRange) (granted : Nat) : Prop :=
  ∃ s₁, (∀ pr, ∃ hint,
      populateExtents pr al none false [] s done = .ok (.ok hint, s₁)) ∧
    refused al s₁ extent = some granted

/-- The call fails for lack of memory, nothing goes wrong on the way and no entry
changes. -/
def Restores (al : Allocator) (s : SparseAllocBitmap) (extents : List BlockRange) : Prop :=
  ∀ pr, ∃ s', addExtents pr al s extents =
    .ok (.error .memoryAllocationFailure, s') ∧ s'.entries = s.entries

/-- The words a range overlaps with, the one an empty range begins in the middle of
included. -/
def InWords (range : BlockRange) (j : Nat) : Prop := range.b / 64 ≤ j ∧ j < wordsEnd range

instance (range : BlockRange) (j : Nat) : Decidable (InWords range j) :=
  inferInstanceAs (Decidable (_ ∧ _))

def unused (range : BlockRange) (e : Entry) : Bool :=
  e.bitmapWord == 0 && decide (InWords range e.bitmapWordIndex)

/-- None of the entries there are gets pruned with any of the ranges. -/
def Untouched (s : SparseAllocBitmap) (ranges : List BlockRange) : Prop :=
  ∀ range ∈ ranges, ∀ e ∈ s.entries, unused range e = false

/-- A word was missing before the first of the extents and has been populated with a
later one, but not pruned with the extent refused. -/
def Displaced (s : SparseAllocBitmap) (extent : BlockRange) : List BlockRange → Prop
  | [] => False
  | first :: later => ∃ x ∈ later, ∃ j, InWords x j ∧ j < first.b / 64 ∧
      j ∉ words s.entries ∧ ¬InWords extent j

def pruned (ranges : List BlockRange) (es : List Entry) : List Entry :=
  es.filter (fun e => !ranges.any (fun range => unused range e))

theorem pruned_nil (es : List Entry) : pruned [] es = es :=
  filter_eq_self.mpr (fun _ _ => rfl)

theorem pruned_cons (range : BlockRange) (ranges : List BlockRange) (es : List Entry) :
    pruned (range :: ranges) es = pruned ranges (pruned [range] es) := by
  rw [pruned, pruned, pruned, filter_filter]
  apply filter_congr
  intro e _
  simp only [any_cons, any_nil, Bool.or_false, Bool.not_or]
  exact Bool.and_comm _ _

variable {ranges : List BlockRange} {es : List Entry}

theorem mem_pruned {e : Entry} :
    e ∈ pruned ranges es ↔ e ∈ es ∧ ∀ range ∈ ranges, unused range e = false := by
  simp [pruned, mem_filter]

variable {s : SparseAllocBitmap}

theorem pruned_eq_self_iff :
    pruned ranges s.entries = s.entries ↔ Untouched s ranges := by
  rw [pruned, filter_eq_self]
  constructor
  · intro h range hrange e he
    have hnone := h e he
    simp only [Bool.not_eq_true', any_eq_false] at hnone
    exact Bool.eq_false_iff.mpr (hnone range hrange)
  · intro h e he
    simp only [Bool.not_eq_true', any_eq_false]
    intro range hrange
    exact Bool.eq_false_iff.mp (h range hrange e he)

variable {range : BlockRange} {ranges : List BlockRange} {hint : Option Nat}

section Prune

/-- An entry that's not pruned by the loop going up to some word. -/
def kept (wordsEnd : Nat) (e : Entry) : Bool :=
  !(e.bitmapWord == 0 && decide (e.bitmapWordIndex < wordsEnd))

theorem filter_kept_eq_self {n : Nat} (h : ∀ x ∈ es, n ≤ x.bitmapWordIndex) :
    es.filter (kept n) = es := by
  apply filter_eq_self.mpr
  intro x hx
  simp [kept, not_lt.mpr (h x hx)]

theorem pruneFrom_eq (pr : Profile) (fuel reserve w n : Nat)
    (hfuel : es.length ≤ fuel) (hreserve : reserve < 2 ^ 64) (hs : Sorted es)
    (hle : ∀ x ∈ es, w ≤ x.bitmapWordIndex) :
    pruneFrom pr false fuel reserve w n es = .ok (es.filter (kept (w + n)), reserve) := by
  induction fuel generalizing w n es with
  | zero =>
    obtain rfl := length_eq_zero_iff.mp (Nat.le_zero.mp hfuel)
    rfl
  | succ fuel ih =>
    cases es with
    | nil => rfl
    | cons e es =>
      obtain ⟨hhead, htail⟩ := pairwise_cons.mp hs
      have hwe := hle e (mem_cons_self ..)
      have hmin : ∀ x ∈ e :: es, e.bitmapWordIndex ≤ x.bitmapWordIndex := by
        intro x hx
        rcases mem_cons.mp hx with rfl | hx
        · exact le_refl _
        · exact (hhead x hx).le
      rw [pruneFrom, debugAssert_ok pr hwe, ok_bind, subU64_ok pr hwe, ok_bind]
      dsimp only
      split
      next hzero =>
        rw [filter_kept_eq_self (fun x hx => by rw [hzero]; exact hle x hx), pure_eq_ok]
      next hn =>
        split
        next hbeyond =>
          have hout : ∀ x ∈ e :: es, w + n ≤ x.bitmapWordIndex := by
            intro x hx
            have := hmin x hx
            omega
          rw [filter_kept_eq_self hout, pure_eq_ok]
        next hin =>
          split
          next hword =>
            obtain ⟨batchEnd, hbatch⟩ := findBatchEnd_ok pr (w := e.bitmapWordIndex)
              (n := n - (e.bitmapWordIndex - w)) (fun x hx => (hhead x hx).le)
            obtain ⟨hlen, htake⟩ := findBatchEnd_spec hbatch
            rw [hbatch, ok_bind, Nat.add_sub_cancel]
            generalize batchEnd.getD 0 = k at hlen htake
            have hk : k < (e :: es).length := Nat.lt_succ_of_le hlen
            obtain ⟨hmono, hlast, hafter⟩ := batch_last hs hin htake hk
            rw [index_ok (getElem?_eq_getElem hk), ok_bind]
            generalize (e :: es)[k] = last at hmono hlast hafter
            obtain ⟨hlt, hsorted⟩ := pairwise_cons.mp hafter
            have hdroplen : (es.drop k).length = es.length - k := length_drop
            rw [length_cons] at hfuel
            rw [subU64_ok pr (by omega), ok_bind, subU64_ok pr (by omega), ok_bind,
              addU64_ok pr (by simpa using hreserve), ok_bind, if_neg (by decide),
              add_zero, ih _ _ (by omega) hsorted (fun x hx => hlt x hx)]
            -- The batch goes as a whole and ends within the range.
            have hend : last.bitmapWordIndex + 1 +
                (n - (e.bitmapWordIndex - w) - (last.bitmapWordIndex + 1 - e.bitmapWordIndex)) =
                  w + n := by omega
            have hfirst : kept (w + n) e = false := by
              simp only [kept, hword, beq_self_eq_true, Bool.true_and, Bool.not_eq_false',
                decide_eq_true_eq]
              omega
            have hfront : (es.take k).filter (kept (w + n)) = [] := by
              apply filter_eq_nil_iff.mpr
              intro x hx
              obtain ⟨hzero, hdistance⟩ := htake x hx
              simp only [kept, hzero, beq_self_eq_true, Bool.true_and, Bool.not_eq_true',
                decide_eq_false_iff_not, not_not]
              omega
            rw [hend, filter_cons_of_neg (by rw [hfirst]; decide)]
            conv_rhs => rw [← take_append_drop k es]
            rw [filter_append, hfront, List.nil_append]
          next hword =>
            have hkeep : kept (w + n) e = true := by
              rw [kept, beq_eq_false_iff_ne.mpr hword, Bool.false_and, Bool.not_false]
            have hend : e.bitmapWordIndex + 1 + (n - (e.bitmapWordIndex - w) - 1) = w + n := by
              omega
            rw [ih _ _ (Nat.le_of_succ_le_succ hfuel) htail (fun x hx => hhead x hx), hend,
              ok_bind, filter_cons_of_pos hkeep]
            rfl

variable {l m : List Entry}

theorem pruned_singleton_append (hlt : ∀ x ∈ l, x.bitmapWordIndex < range.b / 64)
    (hle : ∀ x ∈ m, range.b / 64 ≤ x.bitmapWordIndex) :
    pruned [range] (l ++ m) = l ++ m.filter (kept (wordsEnd range)) := by
  rw [pruned, filter_append]
  congr 1
  · apply filter_eq_self.mpr
    intro x hx
    have hout : ¬InWords range x.bitmapWordIndex := fun hin => absurd hin.1 (not_le.mpr (hlt x hx))
    simp [unused, hout]
  · apply filter_congr
    intro x hx
    simp [unused, kept, InWords, hle x hx]

/-- With the position of the range's first entry as the hint or none at all, just the
entries unused in the range go. -/
theorem pruneUnusedInRange_eq (pr : Profile) (s : SparseAllocBitmap) (hs : Sorted s.entries)
    (hreserve : s.removeRollbackReserveCapacity < 2 ^ 64)
    (hr : InStorage range) (hsplit : s.entries = l ++ m)
    (hlt : ∀ x ∈ l, x.bitmapWordIndex < range.b / 64)
    (hle : ∀ x ∈ m, range.b / 64 ≤ x.bitmapWordIndex) (hhint : hint = none ∨ hint = some l.length) :
    pruneUnusedInRange pr s range hint false =
      .ok { s with entries := pruned [range] s.entries } := by
  have hfirst : firstEntryIndex pr (l ++ m) (range.b / 64) hint = .ok l.length := by
    rcases hhint with rfl | rfl
    · exact firstEntryIndex_none pr hlt hle
    · exact firstEntryIndex_hint pr hlt hle
  have hend : range.b / 64 + (wordsEnd range - range.b / 64) = wordsEnd range :=
    Nat.add_sub_cancel' (le_wordsEnd hr.1)
  rw [hsplit] at hs
  rw [pruneUnusedInRange, hr.rangeWords, ok_bind]
  dsimp only
  rw [hsplit, hfirst, ok_bind, drop_left,
    pruneFrom_eq pr _ _ _ _ (by simp) hreserve (pairwise_append.mp hs).2.1 hle, ok_bind,
    hend, pruned_singleton_append hlt hle, take_left]
  rfl

theorem sorted_pruned (hs : Sorted es) :
    Sorted (pruned ranges es) := hs.sublist filter_sublist

theorem pruneExtents_eq (pr : Profile) (s : SparseAllocBitmap) (hs : Sorted s.entries)
    (hreserve : s.removeRollbackReserveCapacity < 2 ^ 64) (hr : ∀ x ∈ ranges, InStorage x) :
    pruneExtents pr none s ranges =
      .ok { s with entries := pruned ranges s.entries } := by
  induction ranges generalizing s with
  | nil =>
    rw [pruned_nil]
    rfl
  | cons range ranges ih =>
    obtain ⟨l, m, hsplit, hlt, hle⟩ := exists_split hs (range.b / 64)
    rw [pruneExtents, pruneUnusedInRange_eq pr s hs hreserve
      (hr range (mem_cons_self ..)) hsplit hlt hle (.inl rfl), ok_bind,
      ih ⟨pruned [range] s.entries, s.capacity, s.removeRollbackReserveCapacity⟩ (sorted_pruned hs)
        hreserve (fun x hx => hr x (mem_cons_of_mem _ hx)), pruned_cons range ranges]

/-- With debug assertions, a hint other than the position of the first entry not before
the word isn't passed. -/
theorem firstEntryIndex_debug {w hint i : Nat}
    (hlt : ∀ x ∈ l, x.bitmapWordIndex < w) (hle : ∀ x ∈ m, w ≤ x.bitmapWordIndex)
    (h : firstEntryIndex .debug (l ++ m) w (some hint) = .ok i) : hint = l.length := by
  obtain ⟨_, hge, h⟩ := bind_eq_ok h
  obtain ⟨_, hbefore, h⟩ := bind_eq_ok h
  apply le_antisymm
  · by_contra hgt
    rcases of_debugAssert hbefore with hzero | hany
    · omega
    · obtain ⟨e, he, hidx⟩ := (Option.any_eq_true _ _).mp hany
      rw [getElem?_append_right (by omega)] at he
      have := hle e (mem_of_getElem? he)
      have := of_decide_eq_true hidx
      omega
  · by_contra hgt
    rcases of_debugAssert hge with hlen | hany
    · rw [length_append] at hlen
      omega
    · obtain ⟨e, he, hidx⟩ := (Option.any_eq_true _ _).mp hany
      rw [getElem?_append_left (by omega)] at he
      have := hlt e (mem_of_getElem? he)
      have := of_decide_eq_true hidx
      omega

end Prune

variable {granted : Nat}

section Populate

variable {p : Entry → Bool}

theorem filter_missingEntries {w n : Nat} (hp : ∀ j, w ≤ j → j < w + n → p ⟨j, 0⟩ = false) :
    (missingEntries w n).filter p = [] := by
  apply filter_eq_nil_iff.mpr
  intro x hx
  obtain ⟨j, hj, rfl⟩ := mem_map.mp hx
  obtain ⟨hwj, hjn⟩ := mem_range'_1.mp hj
  exact Bool.eq_false_iff.mp (hp j hwj hjn)

theorem filter_populated {w n : Nat} (hp : ∀ j, w ≤ j → j < w + n → p ⟨j, 0⟩ = false) :
    (populated w n es).filter p = es.filter p := by
  induction es generalizing w n with
  | nil => exact filter_missingEntries hp
  | cons e es ih =>
    rw [populated]
    split
    · rfl
    · split
      · rw [filter_append, filter_missingEntries (fun j hj hjn => hp j hj (by omega)),
          List.nil_append, filter_cons, filter_cons,
          ih (fun j hj hjn => hp j (by omega) (by omega))]
      · rw [filter_cons, filter_cons, ih (fun j hj hjn => hp j (by omega) (by omega))]

variable {al : Allocator} {reserve len capacity w n : Nat} {es : List Entry}

theorem populateFrom_refused_first (pr : Profile) (hs : Sorted es)
    (hle : ∀ x ∈ es, w ≤ x.bitmapWordIndex) (hn : n + reserve < 2 ^ 64)
    (h : refusedFrom al reserve len capacity w n es = some 0) :
    populateFrom pr al reserve len capacity w n es = .ok (false, es, capacity) := by
  induction es generalizing len capacity w n with
  | nil =>
    rw [refusedFrom] at h
    split at h
    next hnone =>
      rw [populateFrom, if_neg hnone.1, addU64_ok pr hn, ok_bind, hnone.2]
      rfl
    · cases h
  | cons e es ih =>
    obtain ⟨hhead, htail⟩ := pairwise_cons.mp hs
    rw [refusedFrom] at h
    rw [populateFrom]
    split at h
    · cases h
    next hzero =>
      rw [if_neg hzero]
      split at h
      next hne =>
        rw [if_pos hne, subU64_ok pr (hle e (mem_cons_self ..)), ok_bind]
        dsimp only at h ⊢
        rw [addU64_ok pr (by omega), ok_bind]
        cases hres : al.tryReserveExact len capacity (min (e.bitmapWordIndex - w) n + reserve) with
        | none => rfl
        | some c =>
          rw [hres] at h
          obtain ⟨g, -, hg⟩ := Option.map_eq_some_iff.mp h
          cases hg
      next heq =>
        have heq := not_not.mp heq
        rw [if_neg (not_not.mpr heq), ih htail (fun x hx => heq ▸ hhead x hx) (by omega) h]
        rfl

/-- Until after the second reservation the entries are in order and only zero words have
been added to them. -/
theorem populateFrom_refused (pr : Profile) (hs : Sorted es)
    (hle : ∀ x ∈ es, w ≤ x.bitmapWordIndex) (hn : n + reserve < 2 ^ 64)
    (hgranted : granted ≤ 1) (h : refusedFrom al reserve len capacity w n es = some granted) :
    ∃ es' capacity', populateFrom pr al reserve len capacity w n es = .ok (false, es', capacity') ∧
      Sorted es' ∧ (∀ x ∈ es', w ≤ x.bitmapWordIndex) ∧
      ∀ p : Entry → Bool, (∀ j, w ≤ j → j < w + n → p ⟨j, 0⟩ = false) →
        es'.filter p = es.filter p := by
  induction es generalizing len capacity w n with
  | nil =>
    rw [refusedFrom] at h
    split at h
    next hnone =>
      cases h
      exact ⟨[], capacity, populateFrom_refused_first pr hs hle hn (by rw [refusedFrom, if_pos hnone]),
        hs, hle, fun _ _ => rfl⟩
    · cases h
  | cons e es ih =>
    rcases Nat.le_one_iff_eq_zero_or_eq_one.mp hgranted with rfl | rfl
    · exact ⟨e :: es, capacity, populateFrom_refused_first pr hs hle hn h, hs, hle, fun _ _ => rfl⟩
    · obtain ⟨hhead, htail⟩ := pairwise_cons.mp hs
      have hwe := hle e (mem_cons_self ..)
      rw [refusedFrom] at h
      rw [populateFrom]
      split at h
      · cases h
      next hzero =>
        rw [if_neg hzero]
        split at h
        next hne =>
          rw [if_pos hne, subU64_ok pr hwe, ok_bind]
          dsimp only at h ⊢
          rw [addU64_ok pr (by omega), ok_bind]
          generalize hk : min (e.bitmapWordIndex - w) n = k at h ⊢
          cases hsome : al.tryReserveExact len capacity (k + reserve) with
          | none =>
            rw [hsome] at h
            cases h
          | some c =>
            rw [hsome] at h
            obtain ⟨g, hg, hg'⟩ := Option.map_eq_some_iff.mp h
            obtain rfl : g = 0 := Nat.succ.inj hg'
            have hrest : ∀ x ∈ e :: es, w + k ≤ x.bitmapWordIndex := by
              intro x hx
              rcases mem_cons.mp hx with rfl | hx
              · omega
              · have := hhead x hx
                omega
            dsimp only
            rw [debugAssert_ok pr (by omega), ok_bind, populateFrom_refused_first pr htail
              (fun x hx => hrest x (mem_cons_of_mem _ hx)) (by omega) hg]
            refine ⟨_, _, rfl, sorted_append (sorted_missingEntries w k) hs
              (fun x hx => (index_missingEntries hx).2) hrest, ?_, ?_⟩
            · intro x hx
              rcases mem_append.mp hx with hx | hx
              · exact (index_missingEntries hx).1
              · exact (Nat.le_add_right w k).trans (hrest x hx)
            · intro p hp
              rw [filter_append, filter_missingEntries (fun j hj hjk => hp j hj (by omega)),
                List.nil_append]
        next heq =>
          have heq := not_not.mp heq
          obtain ⟨es', c, hpop, hsorted, hge, hfilter⟩ :=
            ih htail (fun x hx => heq ▸ hhead x hx) (by omega) h
          rw [if_neg (not_not.mpr heq), hpop]
          refine ⟨_, _, rfl, pairwise_cons.mpr ⟨fun x hx => heq ▸ hge x hx, hsorted⟩, ?_, ?_⟩
          · intro x hx
            rcases mem_cons.mp hx with rfl | hx
            · exact hwe
            · exact (Nat.le_succ w).trans (hge x hx)
          · intro p hp
            rw [filter_cons, filter_cons,
              hfilter p (fun j hj hjn => hp j (by omega) (by omega))]

/-- What has been populated of the range the memory was refused for is pruned again. -/
theorem populateMissingInRange_refused (pr : Profile) (hw : Wf s) (hr : InStorage range)
    (hgranted : granted ≤ 1) (h : refused al s range = some granted) :
    ∃ s', populateMissingInRange pr al s range =
        .ok (.error .memoryAllocationFailure, s') ∧ s'.entries = pruned [range] s.entries ∧
      s'.removeRollbackReserveCapacity = s.removeRollbackReserveCapacity := by
  obtain ⟨l, m, hsplit, hlt, hle⟩ := exists_split hw.sorted (range.b / 64)
  have hend := index_lt_wordsEnd hr
  have hreserve : s.removeRollbackReserveCapacity < 2 ^ 59 :=
    ((Nat.le_add_left _ _).trans hw.room).trans_lt hw.capacity_lt
  obtain ⟨hsl, hsm, -⟩ := pairwise_append.mp (hsplit ▸ hw.sorted)
  -- Whatever the entries are, they're pruned from the range's first one on.
  have hprune : ∀ m' c, Sorted m' → (∀ x ∈ m', range.b / 64 ≤ x.bitmapWordIndex) →
      (∀ p : Entry → Bool, (∀ j, InWords range j → p ⟨j, 0⟩ = false) → m'.filter p = m.filter p) →
      ∃ s', pruneUnusedInRange pr
          ⟨l ++ m', c, s.removeRollbackReserveCapacity⟩ range (some l.length) false = .ok s' ∧
        s'.entries = pruned [range] s.entries ∧
        s'.removeRollbackReserveCapacity = s.removeRollbackReserveCapacity := by
    intro m' c hsorted hge hfilter
    refine ⟨_, pruneUnusedInRange_eq pr ⟨l ++ m', c, s.removeRollbackReserveCapacity⟩
      (sorted_append hsl hsorted hlt hge) (hreserve.trans (by decide)) hr rfl hlt hge (.inr rfl),
      ?_, rfl⟩
    rw [hsplit]
    dsimp only [pruned]
    rw [filter_append, filter_append, hfilter]
    intro j hj
    simp [unused, hj]
  rw [refused, hsplit, findEntryPosition_split hlt hle] at h
  rw [populateMissingInRange, hr.rangeWords, ok_bind]
  dsimp only
  rw [hsplit, findEntryPosition_split hlt hle]
  by_cases hfound : ∃ e ∈ m.head?, e.bitmapWordIndex = range.b / 64
  · obtain ⟨e, he, hidx⟩ := hfound
    obtain ⟨m₀, rfl⟩ := head?_eq_some_iff.mp he
    obtain ⟨hhead, htail⟩ := pairwise_cons.mp hsm
    have hlength : l.length + 1 = (l ++ [e]).length := by simp
    have happend : l ++ e :: m₀ = (l ++ [e]) ++ m₀ := by simp
    rw [if_pos ⟨e, he, hidx⟩] at h ⊢
    dsimp only at h ⊢
    rw [hlength, happend, drop_left] at h
    rw [hlength, happend, drop_left, take_left]
    obtain ⟨m', c, hpop, hsorted, hge, hfilter⟩ := populateFrom_refused pr htail
      (fun x hx => hidx ▸ hhead x hx) (by omega) hgranted h
    obtain ⟨s', hs', hentries, hres⟩ := hprune (e :: m') c
      (pairwise_cons.mpr ⟨fun x hx => hidx ▸ hge x hx, hsorted⟩)
      (fun x hx => (mem_cons.mp hx).elim (fun hx => hx ▸ hidx.ge)
        (fun hx => (Nat.le_succ _).trans (hge x hx)))
      (fun p hp => by
        rw [filter_cons, filter_cons,
          hfilter p (fun j hj hjn => hp j ⟨by omega, by omega⟩)])
    rw [hpop, ok_bind]
    dsimp only
    rw [if_neg (by decide), append_assoc, singleton_append, hs']
    exact ⟨s', rfl, hentries.trans (by rw [hsplit, happend]), hres⟩
  · rw [if_neg hfound] at h ⊢
    dsimp only at h ⊢
    rw [drop_left] at h
    rw [drop_left, take_left]
    obtain ⟨m', c, hpop, hsorted, hge, hfilter⟩ := populateFrom_refused pr hsm hle (by omega)
      hgranted h
    obtain ⟨s', hs', hentries, hres⟩ := hprune m' c hsorted hge
      (fun p hp => hfilter p (fun j hj hjn => hp j ⟨hj, by omega⟩))
    rw [hpop, ok_bind]
    dsimp only
    rw [if_neg (by decide), hs']
    exact ⟨s', rfl, hentries.trans (by rw [hsplit]), hres⟩

end Populate

structure Covers (ranges : List BlockRange) (s s₁ : SparseAllocBitmap) : Prop where
  wf : Wf s₁
  mem_iff : ∀ j, j ∈ words s₁.entries ↔ j ∈ words s.entries ∨ ∃ x ∈ ranges, InWords x j
  filter_eq : ∀ p : Entry → Bool, (∀ x ∈ ranges, ∀ j, InWords x j → p ⟨j, 0⟩ = false) →
    s₁.entries.filter p = s.entries.filter p

theorem Covers.nil (hw : Wf s) : Covers [] s s where
  wf := hw
  mem_iff j := by simp
  filter_eq _ _ := rfl

theorem Covers.cons {s s₁ s₂ : SparseAllocBitmap}
    (h : Covers [range] s s₁) (h' : Covers ranges s₁ s₂) : Covers (range :: ranges) s s₂ where
  wf := h'.wf
  mem_iff j := by
    rw [h'.mem_iff, h.mem_iff]
    simp [or_assoc]
  filter_eq p hp := by
    rw [h'.filter_eq p (fun x hx => hp x (mem_cons_of_mem _ hx)), h.filter_eq p]
    intro x hx
    rw [mem_singleton.mp hx]
    exact hp range (mem_cons_self ..)

def below (es : List Entry) (w : Nat) : Nat :=
  (es.takeWhile (fun e => e.bitmapWordIndex < w)).length

section Run

variable {pr : Profile} {al : Allocator} {s s₁ : SparseAllocBitmap}

theorem populateMissingInRange_covers (hw : Wf s) (hr : InStorage range)
    (hclean : Clean (· ∈ words s.entries) range) {first : Nat}
    (h : populateMissingInRange pr al s range = .ok (.ok first, s₁)) :
    Covers [range] s s₁ ∧ first = below s.entries (range.b / 64) := by
  obtain ⟨l, m, hsplit, hlt, hle⟩ := exists_split hw.sorted (range.b / 64)
  obtain ⟨hwf, hwords⟩ := populateMissingInRange_spec hw hr hclean h
  have hend : range.e < 2 ^ 64 := by
    have := hr.2
    omega
  obtain ⟨hfirst, hentries⟩ :=
    populateMissingInRange_entries hr.1 hend hw.sorted hsplit hlt hle h
  refine ⟨⟨hwf, fun j => ?_, fun p hp => ?_⟩, ?_⟩
  · rw [hwords first rfl]
    simp [withRange, InWords]
  · rw [hentries, hsplit, filter_append, filter_append, filter_populated]
    intro j hj hjn
    exact hp range (mem_singleton_self _) j ⟨hj, by omega⟩
  · rw [hfirst, hsplit, below, takeWhile_split hlt hle]

theorem populateExtents_covers (hw : Wf s) {hint : Nat} {reset : Bool}
    {done ranges : List BlockRange} (hr : ∀ x ∈ ranges, InStorage x)
    (hclean : CleanAll (· ∈ words s.entries) ranges) {r : Option Nat}
    (h : populateExtents pr al (some hint) reset done s ranges = .ok (.ok r, s₁)) :
    Covers ranges s s₁ ∧ ∀ rest, ∃ reset',
      populateExtents pr al (some hint) reset done s (ranges ++ rest) =
        populateExtents pr al (some hint) reset' (done ++ ranges) s₁ rest := by
  induction ranges generalizing reset done s with
  | nil =>
    cases h
    exact ⟨.nil hw, fun rest => ⟨reset, by rw [List.append_nil, List.nil_append]⟩⟩
  | cons range ranges ih =>
    obtain ⟨⟨r₁, s'⟩, hpop, h⟩ := bind_eq_ok h
    cases r₁ with
    | error e =>
      obtain ⟨_, -, h⟩ := bind_eq_ok h
      cases h
    | ok first =>
      have hrange := hr range (mem_cons_self ..)
      obtain ⟨hcovers, -⟩ := populateMissingInRange_covers hw hrange hclean.1 hpop
      have hwords := (populateMissingInRange_spec hw hrange hclean.1 hpop).2 first rfl
      obtain ⟨hcovers', happend⟩ := ih hcovers.wf (fun x hx => hr x (mem_cons_of_mem _ hx))
        ((CleanAll.congr hwords ranges).mpr hclean.2) h
      refine ⟨hcovers.cons hcovers', fun rest => ?_⟩
      obtain ⟨reset', hrest⟩ := happend rest
      refine ⟨reset', ?_⟩
      rw [List.cons_append, populateExtents, hpop, ok_bind]
      dsimp only
      rw [hrest, append_assoc, singleton_append]

/-- The hint for the first of the extents populated is from before the others. -/
def firstHint (s : SparseAllocBitmap) (done : List BlockRange) : Option Nat :=
  done.head?.map (fun first => below s.entries (first.b / 64))

theorem populateExtents_refused (hw : Wf s) {done : List BlockRange} {extent : BlockRange}
    (hr : ∀ x ∈ extent :: done, InStorage x)
    (hclean : CleanAll (· ∈ words s.entries) done) (hgranted : granted ≤ 1)
    (hpop : populateExtents pr al none false [] s done = .ok (.ok hint, s₁))
    (hrefused : refused al s₁ extent = some granted) (rest : List BlockRange) :
    Covers done s s₁ ∧ ∃ s₂, s₂.entries = pruned [extent] s₁.entries ∧
      s₂.removeRollbackReserveCapacity < 2 ^ 64 ∧
      populateExtents pr al none false [] s (done ++ extent :: rest) = (do
        let s' ← pruneExtents pr (firstHint s done) s₂ done
        pure (.error .memoryAllocationFailure, s')) := by
  have hfinish : ∀ reset, Covers done s s₁ → ∃ s₂, s₂.entries = pruned [extent] s₁.entries ∧
      s₂.removeRollbackReserveCapacity < 2 ^ 64 ∧
      populateExtents pr al (firstHint s done) reset done s₁ (extent :: rest) = (do
        let s' ← pruneExtents pr (firstHint s done) s₂ done
        pure (.error .memoryAllocationFailure, s')) := by
    intro reset hcovers
    obtain ⟨s₂, hs₂, hentries, hreserve⟩ := populateMissingInRange_refused pr hcovers.wf
      (hr extent (mem_cons_self ..)) hgranted hrefused
    have hlt : s₂.removeRollbackReserveCapacity < 2 ^ 64 := by
      have hroom := hcovers.wf.room
      have hcap := hcovers.wf.capacity_lt
      rw [hreserve]
      omega
    refine ⟨s₂, hentries, hlt, ?_⟩
    rw [populateExtents, hs₂]
    rfl
  cases done with
  | nil =>
    cases hpop
    have hcovers := Covers.nil hw
    exact ⟨hcovers, hfinish false hcovers⟩
  | cons first later =>
    obtain ⟨⟨r₁, s'⟩, hfirst, hlater⟩ := bind_eq_ok hpop
    cases r₁ with
    | error e =>
      obtain ⟨_, -, h⟩ := bind_eq_ok hlater
      cases h
    | ok i =>
      have hrange := hr first (by simp)
      obtain ⟨hcovers, hi⟩ := populateMissingInRange_covers hw hrange hclean.1 hfirst
      have hwords := (populateMissingInRange_spec hw hrange hclean.1 hfirst).2 i rfl
      obtain ⟨hcovers', happend⟩ := populateExtents_covers hcovers.wf
        (fun x hx => hr x (by simp [hx])) ((CleanAll.congr hwords later).mpr hclean.2) hlater
      obtain ⟨reset, hrest⟩ := happend (extent :: rest)
      have hall := hcovers.cons hcovers'
      obtain ⟨s₂, hentries, hlt, hs₂⟩ := hfinish reset hall
      refine ⟨hall, s₂, hentries, hlt, ?_⟩
      rw [List.cons_append, populateExtents, hfirst, ok_bind]
      dsimp only
      rw [hrest, hi]
      exact hs₂

end Run

section Below

variable {es es' : List Entry} {w : Nat}

theorem mem_words_before {l m : List Entry} (hlt : ∀ x ∈ l, x.bitmapWordIndex < w)
    (hle : ∀ x ∈ m, w ≤ x.bitmapWordIndex) (j : Nat) :
    j ∈ words l ↔ j ∈ words (l ++ m) ∧ j < w := by
  rw [words_append, mem_append]
  constructor
  · intro hj
    obtain ⟨x, hx, rfl⟩ := mem_words.mp hj
    exact ⟨.inl hj, hlt x hx⟩
  · rintro ⟨hj | hj, hjw⟩
    · exact hj
    · obtain ⟨x, hx, rfl⟩ := mem_words.mp hj
      exact absurd hjw (not_lt.mpr (hle x hx))

theorem exists_before (hs : Sorted es) (w : Nat) :
    ∃ js : List Nat, js.length = below es w ∧ js.Nodup ∧
      ∀ j, j ∈ js ↔ j ∈ words es ∧ j < w := by
  obtain ⟨l, m, rfl, hlt, hle⟩ := exists_split hs w
  refine ⟨words l, ?_, nodup_words (pairwise_append.mp hs).1, mem_words_before hlt hle⟩
  rw [below, takeWhile_split hlt hle, words, length_map]

theorem below_congr (hs : Sorted es) (hs' : Sorted es')
    (h : ∀ j, j < w → (j ∈ words es ↔ j ∈ words es')) : below es w = below es' w := by
  obtain ⟨js, hlen, hnodup, hjs⟩ := exists_before hs w
  obtain ⟨js', hlen', hnodup', hjs'⟩ := exists_before hs' w
  have hperm : js.Perm js' := by
    apply (perm_ext_iff_of_nodup hnodup hnodup').mpr
    intro j
    rw [hjs, hjs']
    exact and_congr_left (h j)
  rw [← hlen, ← hlen', hperm.length_eq]

theorem below_lt (hs : Sorted es) (hs' : Sorted es')
    (h : ∀ j, j < w → j ∈ words es → j ∈ words es') {j : Nat} (hj : j < w) (hin : j ∈ words es')
    (hout : j ∉ words es) : below es w < below es' w := by
  obtain ⟨js, hlen, hnodup, hjs⟩ := exists_before hs w
  obtain ⟨js', hlen', hnodup', hjs'⟩ := exists_before hs' w
  have hsub : (j :: js) ⊆ js' := by
    intro i hi
    rcases mem_cons.mp hi with rfl | hi
    · exact (hjs' i).mpr ⟨hin, hj⟩
    · obtain ⟨hmem, hlt⟩ := (hjs i).mp hi
      exact (hjs' i).mpr ⟨h i hlt hmem, hlt⟩
  have hcons : (j :: js).Nodup :=
    nodup_cons.mpr ⟨fun hmem => hout ((hjs j).mp hmem).1, hnodup⟩
  have hle := (subperm_of_subset hcons hsub).length_le
  rw [← hlen, ← hlen']
  exact hle

end Below

section Restore

variable {s s₁ : SparseAllocBitmap} {done : List BlockRange} {extent : BlockRange}

/-- What's left after the extent refused has been pruned is what has been there before
and what of the words populated isn't the extent's. -/
theorem Covers.mem_pruned_iff (h : Covers done s s₁) (huntouched : Untouched s (extent :: done))
    (j : Nat) : j ∈ words (pruned [extent] s₁.entries) ↔
      j ∈ words s.entries ∨ (∃ x ∈ done, InWords x j) ∧ ¬InWords extent j := by
  constructor
  · intro hj
    obtain ⟨e, he, rfl⟩ := mem_words.mp hj
    obtain ⟨hmem, hkept⟩ := mem_pruned.mp he
    rcases (h.mem_iff _).mp (mem_words.mpr ⟨e, hmem, rfl⟩) with hold | hnew
    · exact .inl hold
    · by_cases hin : InWords extent e.bitmapWordIndex
      · -- A word of the extent's that's still there isn't zero and has been there before.
        have hnonzero : (e.bitmapWord != 0) = true := by
          have hunused := hkept extent (mem_singleton_self _)
          simpa [unused, hin] using hunused
        have hfilter := h.filter_eq (fun e => e.bitmapWord != 0) (fun _ _ _ _ => by simp)
        have hold : e ∈ s.entries.filter (fun e => e.bitmapWord != 0) := by
          rw [← hfilter]
          exact mem_filter.mpr ⟨hmem, hnonzero⟩
        exact .inl (mem_words.mpr ⟨e, (mem_filter.mp hold).1, rfl⟩)
      · exact .inr ⟨hnew, hin⟩
  · rintro (hold | ⟨hnew, hout⟩)
    · obtain ⟨e, he, rfl⟩ := mem_words.mp hold
      have hkept : ∀ range ∈ done, unused range e = false :=
        fun range hrange => huntouched range (mem_cons_of_mem _ hrange) e he
      have hfilter : pruned done s₁.entries = pruned done s.entries := by
        apply h.filter_eq
        intro x hx j hj
        simp only [Bool.not_eq_false', List.any_eq_true]
        exact ⟨x, hx, by simp [unused, hj]⟩
      have hmem : e ∈ pruned done s₁.entries := by
        rw [hfilter]
        exact mem_pruned.mpr ⟨he, hkept⟩
      refine mem_words.mpr ⟨e, mem_pruned.mpr ⟨(mem_pruned.mp hmem).1, ?_⟩, rfl⟩
      intro range hrange
      rw [mem_singleton.mp hrange]
      exact huntouched extent (mem_cons_self ..) e he
    · obtain ⟨e, he, rfl⟩ := mem_words.mp ((h.mem_iff j).mpr (.inr hnew))
      refine mem_words.mpr ⟨e, mem_pruned.mpr ⟨he, ?_⟩, rfl⟩
      intro range hrange
      rw [mem_singleton.mp hrange]
      simp [unused, hout]

theorem Covers.below_eq_iff {first : BlockRange} {later : List BlockRange} (hs : Sorted s.entries)
    (h : Covers (first :: later) s s₁) (huntouched : Untouched s (extent :: first :: later)) :
    below s.entries (first.b / 64) = below (pruned [extent] s₁.entries) (first.b / 64) ↔
      ¬Displaced s extent (first :: later) := by
  have hmem := h.mem_pruned_iff huntouched
  have hs₁ : Sorted (pruned [extent] s₁.entries) := sorted_pruned h.wf.sorted
  constructor
  · rintro heq ⟨x, hx, j, hin, hlt, hout, hrefused⟩
    have hnew := (hmem j).mpr (.inr ⟨⟨x, mem_cons_of_mem _ hx, hin⟩, hrefused⟩)
    have hless := below_lt hs hs₁ (fun i _ hi => (hmem i).mpr (.inl hi)) hlt hnew hout
    exact absurd heq hless.ne
  · intro hplace
    apply below_congr hs hs₁
    intro j hlt
    rw [hmem]
    constructor
    · exact Or.inl
    · rintro (hj | ⟨⟨x, hx, hin⟩, hrefused⟩)
      · exact hj
      · rcases mem_cons.mp hx with rfl | hx
        · exact absurd hin.1 (not_le.mpr hlt)
        · by_contra hout
          exact hplace ⟨x, hx, j, hin, hlt, hout, hrefused⟩

theorem pruneExtents_right (pr : Profile) {s₂ : SparseAllocBitmap} (hs : Sorted s₂.entries)
    (hreserve : s₂.removeRollbackReserveCapacity < 2 ^ 64) (hr : ∀ x ∈ done, InStorage x)
    (hhint : ∀ first ∈ done.head?, below s.entries (first.b / 64) = below s₂.entries (first.b / 64)) :
    pruneExtents pr (firstHint s done) s₂ done =
      .ok { s₂ with entries := pruned done s₂.entries } := by
  cases done with
  | nil => exact pruneExtents_eq pr s₂ hs hreserve hr
  | cons first later =>
    obtain ⟨l, m, hsplit, hlt, hle⟩ := exists_split hs (first.b / 64)
    have hlength : below s₂.entries (first.b / 64) = l.length := by
      rw [hsplit, below, takeWhile_split hlt hle]
    have hfirst : firstHint s (first :: later) = some l.length := by
      rw [← hlength, ← hhint first rfl]
      rfl
    rw [pruneExtents, pruneUnusedInRange_eq pr s₂ hs hreserve
      (hr first (mem_cons_self ..)) hsplit hlt hle (.inr hfirst), ok_bind,
      pruneExtents_eq pr ⟨pruned [first] s₂.entries, s₂.capacity, s₂.removeRollbackReserveCapacity⟩
        (sorted_pruned hs) hreserve (fun x hx => hr x (mem_cons_of_mem _ hx)), ← pruned_cons]

theorem hint_right_of_debug {s₂ s' : SparseAllocBitmap} (hs : Sorted s₂.entries)
    (hr : ∀ x ∈ done, InStorage x)
    (h : pruneExtents .debug (firstHint s done) s₂ done = .ok s') :
    ∀ first ∈ done.head?, below s.entries (first.b / 64) = below s₂.entries (first.b / 64) := by
  intro first hfirst
  obtain ⟨later, rfl⟩ := head?_eq_some_iff.mp hfirst
  obtain ⟨l, m, hsplit, hlt, hle⟩ := exists_split hs (first.b / 64)
  obtain ⟨_, hprune, -⟩ := bind_eq_ok h
  rw [pruneUnusedInRange, (hr first (mem_cons_self ..)).rangeWords, ok_bind]
    at hprune
  obtain ⟨_, hindex, -⟩ := bind_eq_ok hprune
  rw [hsplit] at hindex ⊢
  have hright : below s.entries (first.b / 64) = l.length := firstEntryIndex_debug hlt hle hindex
  rw [hright, below, takeWhile_split hlt hle]

variable {al : Allocator} {granted : Nat}

/-- If no word has been populated twice, then the entries are restored if and only if no
zero word has been there before and the hint for the first extent is still right. -/
theorem addExtents_restores_iff (hw : Wf s) (hr : ∀ x ∈ extent :: done, InStorage x)
    (hclean : CleanAll (· ∈ words s.entries) done) (hgranted : granted ≤ 1)
    (hrefused : RefusedAt al s done extent granted) (rest : List BlockRange) :
    Restores al s (done ++ extent :: rest) ↔
      Untouched s (extent :: done) ∧ ¬Displaced s extent done := by
  obtain ⟨s₁, hpop, hrefused⟩ := hrefused
  have hdone : ∀ x ∈ done, InStorage x := fun x hx => hr x (mem_cons_of_mem _ hx)
  have hrun := fun pr => (hpop pr).elim fun _ h =>
    populateExtents_refused hw hr hclean hgranted h hrefused rest
  obtain ⟨hcovers, -⟩ := hrun .debug
  have hall : pruned done (pruned [extent] s₁.entries) = pruned (extent :: done) s.entries := by
    rw [← pruned_cons]
    apply hcovers.filter_eq
    intro x hx j hj
    simp only [Bool.not_eq_false', List.any_eq_true]
    exact ⟨x, mem_cons_of_mem _ hx, by simp [unused, hj]⟩
  constructor
  · intro hrestores
    obtain ⟨-, s₂, hentries, hreserve, hrun⟩ := hrun .debug
    obtain ⟨s', hadd, hsame⟩ := hrestores .debug
    rw [addExtents, hrun] at hadd
    obtain ⟨⟨r, s''⟩, hprunes, hadd⟩ := bind_eq_ok hadd
    obtain ⟨s₃, hprune, hprunes⟩ := bind_eq_ok hprunes
    cases hprunes
    cases hadd
    have hs₂ : Sorted s₂.entries := hentries ▸ sorted_pruned hcovers.wf.sorted
    have hhint := hint_right_of_debug hs₂ hdone hprune
    rw [pruneExtents_right .debug hs₂ hreserve hdone hhint] at hprune
    cases hprune
    have huntouched : Untouched s (extent :: done) := by
      rw [← pruned_eq_self_iff, ← hall, ← hentries]
      exact hsame
    refine ⟨huntouched, ?_⟩
    cases done with
    | nil => exact id
    | cons first later =>
      rw [← hcovers.below_eq_iff hw.sorted huntouched, ← hentries]
      exact hhint first rfl
  · rintro ⟨huntouched, hplace⟩ pr
    obtain ⟨-, s₂, hentries, hreserve, hrun⟩ := hrun pr
    have hs₂ : Sorted s₂.entries := hentries ▸ sorted_pruned hcovers.wf.sorted
    have hhint : ∀ first ∈ done.head?,
        below s.entries (first.b / 64) = below s₂.entries (first.b / 64) := by
      intro first hfirst
      obtain ⟨later, rfl⟩ := head?_eq_some_iff.mp hfirst
      rw [hentries]
      exact (hcovers.below_eq_iff hw.sorted huntouched).mpr hplace
    refine ⟨{ s₂ with entries := pruned done s₂.entries }, ?_, ?_⟩
    · rw [addExtents, hrun, pruneExtents_right pr hs₂ hreserve hdone hhint]
      rfl
    · rw [hentries, hall]
      exact pruned_eq_self_iff.mpr huntouched

end Restore

def scarceAllocator : Allocator where
  grow _ required := if required ≤ 2 then some required else none
  le_grow h := by
    split at h <;> cases h
    exact le_refl _
  grow_lt h := by
    split at h <;> cases h
    omega

theorem refusedAt_ascending :
    RefusedAt scarceAllocator .new [⟨0, 64⟩, ⟨128, 192⟩] ⟨256, 320⟩ 0 := by
  refine ⟨⟨[⟨0, 0⟩, ⟨2, 0⟩], 2, 0⟩, fun pr => ⟨none, ?_⟩, by decide⟩
  cases pr <;> decide +kernel

theorem wf_new : Wf .new := ⟨List.Pairwise.nil, fun _ he => (nomatch he), by decide, by decide⟩

theorem addExtents_restores_iff_ascending :
    Restores scarceAllocator .new ([⟨0, 64⟩, ⟨128, 192⟩] ++ [⟨256, 320⟩]) ↔
      Untouched .new [⟨256, 320⟩, ⟨0, 64⟩, ⟨128, 192⟩] ∧
        ¬Displaced .new ⟨256, 320⟩ [⟨0, 64⟩, ⟨128, 192⟩] := by
  have hclean : CleanAll (· ∈ words SparseAllocBitmap.new.entries) [⟨0, 64⟩, ⟨128, 192⟩] := by
    refine ⟨fun j hj => (not_mem_nil hj).elim, fun j _ hlt hend => ?_, trivial⟩
    dsimp only [wordsEnd] at hlt hend
    omega
  exact addExtents_restores_iff wf_new (by decide) hclean (Nat.zero_le 1) refusedAt_ascending []

/-- The word for the first extent isn't pruned once the one for the second has been
inserted before it. -/
theorem addExtents_keeps_unused :
    RefusedAt scarceAllocator .new [⟨128, 192⟩, ⟨0, 64⟩] ⟨256, 320⟩ 0 ∧
      addExtents .release scarceAllocator .new
        [⟨128, 192⟩, ⟨0, 64⟩, ⟨256, 320⟩] = .ok (.error .memoryAllocationFailure, ⟨[⟨2, 0⟩], 2, 0⟩) ∧
      ¬Restores scarceAllocator .new [⟨128, 192⟩, ⟨0, 64⟩, ⟨256, 320⟩] := by
  have hleft : addExtents .release scarceAllocator .new
      [⟨128, 192⟩, ⟨0, 64⟩, ⟨256, 320⟩] = .ok (.error .memoryAllocationFailure, ⟨[⟨2, 0⟩], 2, 0⟩) := by
    decide +kernel
  refine ⟨⟨⟨[⟨0, 0⟩, ⟨2, 0⟩], 2, 0⟩, fun pr => ⟨none, ?_⟩, by decide⟩, hleft, fun hrestores => ?_⟩
  · cases pr <;> decide +kernel
  · obtain ⟨s', hs', hentries⟩ := hrestores .release
    cases hs'
    cases hentries

end CocoonFs.SparseAddExtents
