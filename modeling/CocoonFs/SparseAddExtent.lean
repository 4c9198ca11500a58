import CocoonFs.SparseRollback

namespace CocoonFs.SparseAddExtent

open Checked Extents Bitmap SparseBitmap List
open SparseAllocBitmap (addExtent populateMissingInRange setInRange)
open BitVec (allOnes)

/-- The entries that the loop of populate_missing_in_range leaves behind if there's
enough memory. -/
def populated : Nat → Nat → List Entry → List Entry
  | w, n, [] => missingEntries w n
  | w, n, e :: es =>
    if n = 0 then
      e :: es
    else if e.bitmapWordIndex ≠ w then
      let missing := min (e.bitmapWordIndex - w) n
      missingEntries w missing ++ e :: populated (w + missing) (n - missing - 1) es
    else
      e :: populated (w + 1) (n - 1) es

theorem populated_zero (w : Nat) (es : List Entry) : populated w 0 es = es := by
  cases es with
  | nil => rfl
  | cons e es => rw [populated, if_pos rfl]

variable {es : List Entry} {n w : Nat} {e : Entry} {al : Allocator} {pr : Profile}

theorem populateFrom_enough {reserve len capacity : Nat}
    {es' : List Entry} {capacity' : Nat} (hs : Sorted es) (hle : ∀ x ∈ es, w ≤ x.bitmapWordIndex)
    (h : populateFrom pr al reserve len capacity w n es = .ok (true, es', capacity')) :
    es' = populated w n es := by
  induction es generalizing len capacity w n es' with
  | nil =>
    rw [populateFrom] at h
    split at h
    next hzero =>
      cases h
      rw [hzero]
      rfl
    · obtain ⟨additional, -, h⟩ := bind_eq_ok h
      split at h
      · cases h
      · split at h
        · cases h
          rfl
        · cases h
  | cons e es ih =>
    obtain ⟨hhead, htail⟩ := pairwise_cons.mp hs
    have hwe := hle e (mem_cons_self ..)
    rw [populateFrom] at h
    rw [populated]
    split at h
    next hzero =>
      cases h
      rw [if_pos hzero]
    next hzero =>
      rw [if_neg hzero]
      split at h
      next hne =>
        rw [if_pos hne]
        rw [subU64_ok pr hwe, ok_bind] at h
        obtain ⟨additional, -, h⟩ := bind_eq_ok h
        split at h
        · cases h
        · obtain ⟨_, -, h⟩ := bind_eq_ok h
          obtain ⟨⟨enough, es₁, c₁⟩, hrec, h⟩ := bind_eq_ok h
          cases h
          have hnext : ∀ x ∈ es, w + min (e.bitmapWordIndex - w) n ≤ x.bitmapWordIndex := by
            intro x hx
            have := hhead x hx
            omega
          rw [ih htail hnext hrec]
      next heq =>
        rw [if_neg heq]
        obtain ⟨⟨enough, es₁, c₁⟩, hrec, h⟩ := bind_eq_ok h
        cases h
        have heq : e.bitmapWordIndex = w := not_not.mp heq
        rw [ih htail (fun x hx => heq ▸ hhead x hx) hrec]

/-- Nothing goes wrong as long as no word is present in between the range's first and
last one unless the word right before it is present, too. -/
theorem populated_clean (hs : Sorted es)
    (hle : ∀ x ∈ es, w ≤ x.bitmapWordIndex) (hclean : CleanFrom w n es) :
    Populated w n es (populated w n es) true := by
  induction es generalizing w n with
  | nil =>
    refine ⟨sorted_missingEntries w n, fun x hx => (index_missingEntries hx).1,
      fun j hj => .inr (mem_words_missingEntries.mp hj), nil_subset _,
      fun _ j hj hjn => mem_words_missingEntries.mpr ⟨hj, hjn⟩⟩
  | cons e es ih =>
    obtain ⟨hhead, htail⟩ := pairwise_cons.mp hs
    have hwe := hle e (mem_cons_self ..)
    rw [populated]
    by_cases hzero : n = 0
    · rw [if_pos hzero]
      exact .refl hs hle (fun _ => hzero)
    · rw [if_neg hzero]
      by_cases hidx : e.bitmapWordIndex = w
      · rw [if_neg (not_not.mpr hidx)]
        exact .cons hidx hzero (ih htail (fun x hx => hidx ▸ hhead x hx) (hclean.tail hidx))
      · have hlt : w < e.bitmapWordIndex := Nat.lt_of_le_of_ne hwe (Ne.symm hidx)
        have hlast := hclean.last hs hlt
        have hrest : n - min (e.bitmapWordIndex - w) n - 1 = 0 := by omega
        rw [if_pos hidx]
        dsimp only
        rw [hrest, populated_zero]
        exact .splice hs (by omega) (Nat.min_le_right _ _) (by omega)

theorem first_mem_populated (hn : n ≠ 0)
    (hlt : ∀ x ∈ es, w < x.bitmapWordIndex) : w ∈ words (populated w n es) := by
  cases es with
  | nil => exact mem_words_missingEntries.mpr ⟨le_refl w, by omega⟩
  | cons e es =>
    have hwe := hlt e (mem_cons_self ..)
    rw [populated, if_neg hn, if_pos hwe.ne', words_append]
    exact mem_append_left _ (mem_words_missingEntries.mpr ⟨le_refl w, by omega⟩)

theorem cleanFrom_cons (he : e.bitmapWordIndex = w) (h : CleanFrom (w + 1) (n - 1) es) :
    CleanFrom w n (e :: es) := by
  intro x hx hwx hend
  rcases mem_cons.mp hx with rfl | hx
  · omega
  · rcases Nat.eq_or_lt_of_le (Nat.succ_le_of_lt hwx) with hidx | hidx
    · exact mem_words.mpr ⟨e, mem_cons_self .., by omega⟩
    · exact mem_cons_of_mem _ (h x hx hidx (by omega))

theorem not_sorted_populated (hs : Sorted es)
    (hle : ∀ x ∈ es, w ≤ x.bitmapWordIndex) (hclean : ¬CleanFrom w n es) :
    ¬Sorted (populated w n es) := by
  induction es generalizing w n with
  | nil => exact absurd (fun x hx => nomatch hx) hclean
  | cons e es ih =>
    obtain ⟨hhead, htail⟩ := pairwise_cons.mp hs
    have hwe := hle e (mem_cons_self ..)
    have hzero : n ≠ 0 := by
      rintro rfl
      exact hclean (fun x _ hlt hend => absurd hend (by omega))
    rw [populated, if_neg hzero]
    by_cases hidx : e.bitmapWordIndex = w
    · rw [if_neg (not_not.mpr hidx)]
      have hrest : ∀ x ∈ es, w < x.bitmapWordIndex := fun x hx => hidx ▸ hhead x hx
      intro hsorted
      exact ih htail hrest (fun h => hclean (cleanFrom_cons hidx h))
        (pairwise_cons.mp hsorted).2
    · have hend : e.bitmapWordIndex + 1 < w + n := by
        by_contra hge
        refine hclean (fun x hx _ hend => absurd hend ?_)
        have hex : e.bitmapWordIndex ≤ x.bitmapWordIndex := by
          rcases mem_cons.mp hx with rfl | hx
          · exact le_refl _
          · exact (hhead x hx).le
        omega
      rw [if_pos hidx]
      dsimp only
      intro hsorted
      have hword : w + min (e.bitmapWordIndex - w) n = e.bitmapWordIndex := by omega
      have hagain := first_mem_populated (n := n - min (e.bitmapWordIndex - w) n - 1) (by omega)
        hhead
      rw [hword] at hsorted
      obtain ⟨x, hx, hxe⟩ := mem_words.mp hagain
      have hlt := (pairwise_cons.mp (pairwise_append.mp hsorted).2.1).1 x hx
      exact hlt.ne' hxe

theorem tracked_populated (w n : Nat) (es : List Entry) (p : Nat) :
    tracked (populated w n es) p = tracked es p := by
  have hmissing (w n : Nat) : tracked (missingEntries w n) p = false := by
    rw [Bool.eq_false_iff]
    intro ht
    obtain ⟨x, hx, -, hbit⟩ := tracked_iff.mp ht
    obtain ⟨i, -, rfl⟩ := mem_map.mp hx
    simp at hbit
  induction es generalizing w n with
  | nil => exact hmissing w n
  | cons e es ih =>
    rw [populated]
    split
    · rfl
    · split
      · rw [tracked_append, hmissing, Bool.false_or, tracked_cons, tracked_cons, ih]
      · rw [tracked_cons, tracked_cons, ih]

theorem setFrom_covered (pr : Profile) (w count offset : Nat) (hs : Sorted es)
    (hle : ∀ x ∈ es, w ≤ x.bitmapWordIndex) (hoffset : offset < 64)
    (hcover : ∀ j, w ≤ j → j * 64 < w * 64 + offset + count → j ∈ words es) :
    ∃ es', setFrom pr true w count offset es = .ok es' ∧ ∀ p, tracked es' p =
      (tracked es p || decide (w * 64 + offset ≤ p ∧ p < w * 64 + offset + count)) := by
  induction es generalizing w count offset with
  | nil =>
    refine ⟨[], rfl, fun p => ?_⟩
    have hnone : ¬(w * 64 + offset ≤ p ∧ p < w * 64 + offset + count) := by
      intro hp
      exact absurd (hcover (p / 64) (by omega) (by omega)) not_mem_nil
    rw [decide_eq_false hnone, Bool.or_false]
  | cons e es ih =>
    obtain ⟨hhead, htail⟩ := pairwise_cons.mp hs
    rw [setFrom]
    by_cases hzero : count = 0
    · rw [if_pos hzero]
      refine ⟨_, rfl, fun p => ?_⟩
      rw [decide_eq_false (by omega), Bool.or_false]
    · obtain ⟨x, hx, hxw⟩ := mem_words.mp (hcover w (le_refl w) (by omega))
      have hidx : e.bitmapWordIndex = w := by
        have hwe := hle e (mem_cons_self ..)
        rcases mem_cons.mp hx with rfl | hx
        · exact hxw
        · have := hhead x hx
          omega
      have hskip : skipWords pr e w count offset = .ok (count, offset) := by
        rw [skipWords, if_neg (not_not.mpr hidx), pure_eq_ok]
      have hrest : ∀ j, w + 1 ≤ j →
          j * 64 < (w + 1) * 64 + 0 + (count - min count (64 - offset)) → j ∈ words es := by
        intro j hj hend
        rcases mem_cons.mp (hcover j (by omega) (by omega)) with hj' | hj'
        · omega
        · exact hj'
      obtain ⟨es₁, hrec, htracked⟩ := ih (w + 1) (count - min count (64 - offset)) 0 htail
        (fun x hx => hidx ▸ hhead x hx) (by decide) hrest
      rw [if_neg hzero, hskip, ok_bind]
      dsimp only
      rw [if_neg hzero, hidx, hrec, ok_bind]
      refine ⟨_, rfl, fun p => ?_⟩
      have hgt : ∀ x ∈ es, w < x.bitmapWordIndex := fun x hx => hidx ▸ hhead x hx
      obtain ⟨i, word⟩ := e
      obtain rfl : i = w := hidx
      by_cases hp : i = p / 64
      · have hnot : p / 64 ∉ words es := hp ▸ not_mem_words hgt
        have hnot₁ : p / 64 ∉ words es₁ := setFrom_words hrec ▸ hnot
        rw [tracked_cons_of_eq hp hnot, tracked_cons_of_eq hp hnot₁]
        have hmod : p % 64 < 64 := Nat.mod_lt p (by decide)
        have hbits : offset + min count (64 - offset) ≤ 64 := by omega
        rw [getLsbD_setWord hbits hmod]
        by_cases hin : offset ≤ p % 64 ∧ p % 64 < offset + min count (64 - offset)
        · rw [if_pos hin, decide_eq_true (by omega), Bool.or_true]
        · rw [if_neg hin, decide_eq_false (by omega), Bool.or_false]
      · rw [tracked_cons_of_ne hp, tracked_cons_of_ne hp, htracked p]
        by_cases hafter : i < p / 64
        · congr 1
          rw [decide_eq_decide]
          omega
        · rw [tracked_eq_false (not_mem_words (fun x hx => by have := hgt x hx; omega)),
            decide_eq_false (by omega), decide_eq_false (by omega)]

variable {l m : List Entry}

section Range

variable {extent : BlockRange} (hle : extent.b ≤ extent.e) (hend : extent.e < 2 ^ 64)
include hle

theorem rangeWords_ok (pr : Profile) (hend : extent.e < 2 ^ 64) :
    rangeWords pr extent = .ok (extent.b / 64, wordsEnd extent - extent.b / 64) := by
  have hwords : (if (extent.e - extent.b + extent.b % 64) / 64 * 64 ≠
      extent.e - extent.b + extent.b % 64 then (extent.e - extent.b + extent.b % 64) / 64 + 1
        else (extent.e - extent.b + extent.b % 64) / 64) = wordsEnd extent - extent.b / 64 := by
    rw [wordsEnd]
    split <;> omega
  rw [rangeWords, BlockRange.blockCount, checkedSub_ok hle, ok_bind, addU64_ok pr (by omega), ok_bind]
  dsimp only
  rw [hwords, pure_eq_ok]

theorem le_wordsEnd : extent.b / 64 ≤ wordsEnd extent := by
  rw [wordsEnd]
  omega

theorem clean_iff (hlt : ∀ x ∈ l, x.bitmapWordIndex < extent.b / 64) :
    Clean (· ∈ words (l ++ m)) extent ↔
      CleanFrom (extent.b / 64) (wordsEnd extent - extent.b / 64) m := by
  have hbe := le_wordsEnd hle
  constructor
  · intro hclean x hx hxlt hxend
    have hmem : x.bitmapWordIndex ∈ words (l ++ m) :=
      mem_words.mpr ⟨x, mem_append_right _ hx, rfl⟩
    exact mem_words_of_le hlt (hclean _ hmem hxlt (by omega)) (by omega)
  · intro hclean j hj hjlt hjend
    obtain ⟨x, hx, rfl⟩ := mem_words.mp (mem_words_of_le hlt hj hjlt.le)
    rw [words_append]
    exact mem_append_right _ (hclean x hx hjlt (by omega))

theorem populateMissingInRange_entries {s s' : SparseAllocBitmap}
    {first : Nat} (hend : extent.e < 2 ^ 64) (hs : Sorted s.entries)
    (hsplit : s.entries = l ++ m) (hlt : ∀ x ∈ l, x.bitmapWordIndex < extent.b / 64)
    (hge : ∀ x ∈ m, extent.b / 64 ≤ x.bitmapWordIndex)
    (h : populateMissingInRange pr al s extent = .ok (.ok first, s')) :
    first = l.length ∧
      s'.entries = l ++ populated (extent.b / 64) (wordsEnd extent - extent.b / 64) m := by
  have hsm := (pairwise_append.mp (hsplit ▸ hs)).2.1
  rw [populateMissingInRange, rangeWords_ok hle pr hend, ok_bind] at h
  dsimp only at h
  rw [hsplit, findEntryPosition_split hlt hge] at h
  by_cases hfound : ∃ e ∈ m.head?, e.bitmapWordIndex = extent.b / 64
  · obtain ⟨e, he, hidx⟩ := hfound
    obtain ⟨m₀, rfl⟩ := head?_eq_some_iff.mp he
    obtain ⟨hhead, htail⟩ := pairwise_cons.mp hsm
    rw [if_pos ⟨e, he, hidx⟩] at h
    dsimp only at h
    have hlength : l.length + 1 = (l ++ [e]).length := by simp
    have happend : l ++ e :: m₀ = (l ++ [e]) ++ m₀ := by simp
    rw [hlength, happend, drop_left, take_left] at h
    obtain ⟨⟨enough, m', capacity⟩, hpop, h⟩ := bind_eq_ok h
    cases enough with
    | false =>
      obtain ⟨s₂, -, h⟩ := bind_eq_ok h
      cases h
    | true =>
      cases h
      have hm' := populateFrom_enough htail (fun x hx => hidx ▸ hhead x hx) hpop
      refine ⟨rfl, ?_⟩
      rw [hm', populated, append_assoc, singleton_append]
      by_cases hzero : wordsEnd extent - extent.b / 64 = 0
      · rw [if_pos hzero, hzero, populated_zero]
      · rw [if_neg hzero, if_neg (not_not.mpr hidx)]
  · rw [if_neg hfound] at h
    rw [drop_left, take_left] at h
    obtain ⟨⟨enough, m', capacity⟩, hpop, h⟩ := bind_eq_ok h
    cases enough with
    | false =>
      obtain ⟨s₂, -, h⟩ := bind_eq_ok h
      cases h
    | true =>
      cases h
      exact ⟨rfl, congrArg (l ++ ·) (populateFrom_enough hsm hge hpop)⟩

end Range

structure AddsExtent (s s' : SparseAllocBitmap) (extent : BlockRange) : Prop where
  sorted : Sorted s'.entries
  nonzero : ∀ e ∈ s'.entries, e.bitmapWord ≠ 0
  tracked_eq : ∀ p, tracked s'.entries p =
    (tracked s.entries p || decide (extent.b ≤ p ∧ p < extent.e))
  covered : ∀ p, extent.b ≤ p → p < extent.e → p / 64 ∈ words s'.entries

/-- The words that are present strictly in between the extent's first and last one
are preceded by another, and an empty extent doesn't begin within a word missing. -/
def Addable (s : SparseAllocBitmap) (extent : BlockRange) : Prop :=
  Clean (· ∈ words s.entries) extent ∧
    (extent.b = extent.e → extent.b % 64 = 0 ∨ extent.b / 64 ∈ words s.entries)

theorem ne_zero_of_tracked (hs : Sorted es) (he : e ∈ es) {p : Nat}
    (hidx : e.bitmapWordIndex = p / 64) (hp : tracked es p = true) : e.bitmapWord ≠ 0 := by
  intro hzero
  have hbit := hs.tracked_eq he (Nat.mod_lt p (by decide : 0 < 64))
  rw [hidx, hzero, Nat.div_add_mod' p 64, hp] at hbit
  simp at hbit

theorem exists_tracked_of_ne_zero (hs : Sorted es) (he : e ∈ es)
    (hne : e.bitmapWord ≠ 0) : ∃ p, p / 64 = e.bitmapWordIndex ∧ tracked es p = true := by
  by_contra hnone
  apply hne
  apply BitVec.eq_of_getLsbD_eq
  intro k hk
  have hunset : tracked es (e.bitmapWordIndex * 64 + k) = false := by
    rw [← Bool.not_eq_true]
    exact fun hset => hnone ⟨e.bitmapWordIndex * 64 + k, by omega, hset⟩
  rw [← hs.tracked_eq he hk, hunset]
  exact BitVec.getLsbD_zero.symm

section AddExtent

variable {pr : Profile} {al : Allocator} {s s' : SparseAllocBitmap} {extent : BlockRange}
  (hs : Sorted s.entries) (hle : extent.b ≤ extent.e) (hend : extent.e < 2 ^ 64)
  (h : addExtent pr al s extent = .ok (.ok (), s'))
include hs hle hend h

theorem addExtent_words (hsplit : s.entries = l ++ m)
    (hlt : ∀ x ∈ l, x.bitmapWordIndex < extent.b / 64)
    (hge : ∀ x ∈ m, extent.b / 64 ≤ x.bitmapWordIndex) :
    words s'.entries = words (l ++ populated (extent.b / 64) (wordsEnd extent - extent.b / 64) m) := by
  obtain ⟨⟨r, s₁⟩, hpop, h⟩ := bind_eq_ok h
  cases r with
  | error e => cases h
  | ok first =>
    obtain ⟨⟨i, s₂⟩, hset, h⟩ := bind_eq_ok h
    cases h
    obtain ⟨-, hentries⟩ := populateMissingInRange_entries hle hend hs hsplit hlt hge hpop
    rw [(setInRange_spec hset).words_eq, hentries]

theorem addExtent_clean (hclean : Clean (· ∈ words s.entries) extent) :
    Sorted s'.entries ∧
      (∀ j, j ∈ words s'.entries ↔ withRange (· ∈ words s.entries) extent j) ∧
      ∀ p, tracked s'.entries p =
        (tracked s.entries p || decide (extent.b ≤ p ∧ p < extent.e)) := by
  obtain ⟨l, m, hsplit, hlt, hge⟩ := exists_split hs (extent.b / 64)
  obtain ⟨hsl, hsm, -⟩ := pairwise_append.mp (hsplit ▸ hs)
  rw [hsplit, clean_iff hle hlt] at hclean
  have hpop := populated_clean hsm hge hclean
  have hwords := addExtent_words hs hle hend h hsplit hlt hge
  have hsorted := sorted_append hsl hpop.sorted hlt hpop.le_index
  refine ⟨?_, fun j => ?_, ?_⟩
  · rw [sorted_iff_words, hwords, ← sorted_iff_words]
    exact hsorted
  · rw [hwords, words_append, mem_append, withRange, hsplit, words_append, mem_append]
    constructor
    · rintro (hj | hj)
      · exact .inl (.inl hj)
      · exact (hpop.of_mem_words j hj).imp .inr (fun hj => ⟨hj.1, by omega⟩)
    · rintro ((hj | hj) | ⟨hj, hjend⟩)
      · exact .inl hj
      · exact .inr (hpop.words_subset hj)
      · exact .inr (hpop.enough_mem rfl j hj (by omega))
  · obtain ⟨⟨r, s₁⟩, hpopulate, h⟩ := bind_eq_ok h
    cases r with
    | error e => cases h
    | ok first =>
      obtain ⟨⟨i, s₂⟩, hset, h⟩ := bind_eq_ok h
      cases h
      obtain ⟨rfl, hentries⟩ := populateMissingInRange_entries hle hend hs hsplit hlt hge hpopulate
      obtain ⟨m', hm', htracked⟩ := setFrom_covered pr (extent.b / 64) (extent.e - extent.b)
        (extent.b % 64) hpop.sorted hpop.le_index (Nat.mod_lt _ (by decide))
        (fun j hj hjend => hpop.enough_mem rfl j hj (by rw [wordsEnd]; omega))
      rw [setInRange, BlockRange.blockCount, checkedSub_ok hle, ok_bind, hentries,
        firstEntryIndex_hint pr hlt hpop.le_index, ok_bind, if_neg (by simp), drop_left,
        take_left, hm', ok_bind] at hset
      cases hset
      intro p
      have hrange : (extent.b / 64 * 64 + extent.b % 64 ≤ p ∧
          p < extent.b / 64 * 64 + extent.b % 64 + (extent.e - extent.b)) ↔
            (extent.b ≤ p ∧ p < extent.e) := by omega
      rw [hsplit, tracked_append, tracked_append, htracked, tracked_populated, Bool.or_assoc,
        decide_eq_decide.mpr hrange]

/-- An extent is added as it should be if and only if none of the words present has been
gone past. -/
theorem addExtent_correct_iff (hne : ∀ e ∈ s.entries, e.bitmapWord ≠ 0) :
    AddsExtent s s' extent ↔ Addable s extent := by
  constructor
  · intro hadds
    have hclean : Clean (· ∈ words s.entries) extent := by
      obtain ⟨l, m, hsplit, hlt, hge⟩ := exists_split hs (extent.b / 64)
      have hsm := (pairwise_append.mp (hsplit ▸ hs)).2.1
      by_contra hclean
      rw [hsplit, clean_iff hle hlt] at hclean
      have hsorted := sorted_iff_words.mp hadds.sorted
      rw [addExtent_words hs hle hend h hsplit hlt hge, ← sorted_iff_words] at hsorted
      exact not_sorted_populated hsm hge hclean (pairwise_append.mp hsorted).2.1
    refine ⟨hclean, fun hempty => ?_⟩
    obtain ⟨-, hwords, -⟩ := addExtent_clean hs hle hend h hclean
    rcases Nat.eq_zero_or_pos (extent.b % 64) with hzero | hpos
    · exact .inl hzero
    · right
      have hend' : wordsEnd extent = extent.b / 64 + 1 := by
        rw [wordsEnd]
        omega
      obtain ⟨e, he, hidx⟩ := mem_words.mp ((hwords (extent.b / 64)).mpr
        (.inr ⟨le_refl _, by omega⟩))
      obtain ⟨p, hp, htracked⟩ := exists_tracked_of_ne_zero hadds.sorted he (hadds.nonzero e he)
      rw [hadds.tracked_eq, decide_eq_false (by omega), Bool.or_false] at htracked
      obtain ⟨f, hf, hfidx, -⟩ := tracked_iff.mp htracked
      exact mem_words.mpr ⟨f, hf, by omega⟩
  · rintro ⟨hclean, hempty⟩
    obtain ⟨hsorted, hwords, htracked⟩ := addExtent_clean hs hle hend h hclean
    refine ⟨hsorted, fun e he => ?_, htracked, fun p hp hpe => ?_⟩
    · have hmem := (hwords e.bitmapWordIndex).mp (mem_words.mpr ⟨e, he, rfl⟩)
      -- A word of the extent has got one of its blocks, any other has been there before.
      have hin : e.bitmapWordIndex ∈ words s.entries ∨ extent.b < extent.e ∧
          extent.b / 64 ≤ e.bitmapWordIndex ∧ e.bitmapWordIndex < wordsEnd extent := by
        rcases hmem with hold | hnew
        · exact .inl hold
        · rcases Nat.eq_or_lt_of_le hle with heq | hlt
          · rw [wordsEnd] at hnew
            rcases hempty heq with hzero | hword
            · omega
            · left
              rwa [show e.bitmapWordIndex = extent.b / 64 by omega]
          · exact .inr ⟨hlt, hnew⟩
      rcases hin with hold | ⟨hlt, hb, hw⟩
      · obtain ⟨f, hf, hidx⟩ := mem_words.mp hold
        obtain ⟨p, hp, hset⟩ := exists_tracked_of_ne_zero hs hf (hne f hf)
        refine ne_zero_of_tracked hsorted he (p := p) (by omega) ?_
        rw [htracked, hset, Bool.true_or]
      · rw [wordsEnd] at hw
        refine ne_zero_of_tracked hsorted he (p := max extent.b (e.bitmapWordIndex * 64))
          (by omega) ?_
        rw [htracked, decide_eq_true (by omega), Bool.or_true]
    · exact (hwords (p / 64)).mpr (.inr ⟨by omega, by rw [wordsEnd]; omega⟩)

end AddExtent

def secondWord : SparseAllocBitmap := ⟨[⟨1, 1#64⟩], 1, 0⟩

theorem addExtent_correct_iff_prepended :
    AddsExtent secondWord ⟨[⟨0, allOnes 64⟩, ⟨1, allOnes 64⟩], 2, 0⟩ ⟨0, 128⟩ ↔
      Addable secondWord ⟨0, 128⟩ := by
  have hadd : addExtent .debug exactAllocator secondWord ⟨0, 128⟩ =
      .ok (.ok (), ⟨[⟨0, allOnes 64⟩, ⟨1, allOnes 64⟩], 2, 0⟩) := by
    decide +kernel
  exact addExtent_correct_iff (by decide) (by decide) (by decide) hadd (by decide)

/-- The word after the first one missing isn't gone past, but populated once more in
place of the third one. -/
theorem addExtent_duplicates :
    addExtent .release exactAllocator secondWord ⟨0, 192⟩ =
        .ok (.ok (), ⟨[⟨0, allOnes 64⟩, ⟨1, allOnes 64⟩, ⟨1, 0⟩], 3, 0⟩) ∧
      ¬AddsExtent secondWord ⟨[⟨0, allOnes 64⟩, ⟨1, allOnes 64⟩, ⟨1, 0⟩], 3, 0⟩
        ⟨0, 192⟩ := by
  refine ⟨by decide +kernel, fun h => ?_⟩
  exact absurd h.sorted (by decide)

end CocoonFs.SparseAddExtent
