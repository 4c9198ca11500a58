import CocoonFs.SparseBitmap
import Mathlib.Data.List.Perm.Subperm

namespace CocoonFs.SparseBitmap

open Checked Extents Bitmap List Nat BitVec

def words (es : List Entry) : List Nat := es.map Entry.bitmapWordIndex

variable {es es' : List Entry} {j p k n offset : Nat} {e : Entry} {word : BitmapWord}
    {enough : Bool}

theorem mem_words : j ∈ words es ↔ ∃ e ∈ es, e.bitmapWordIndex = j :=
  mem_map

theorem words_append (es fs : List Entry) : words (es ++ fs) = words es ++ words fs :=
  map_append

theorem sorted_iff_words : Sorted es ↔ (words es).Pairwise (· < ·) :=
  pairwise_map.symm

theorem nodup_words (hs : Sorted es) : (words es).Nodup :=
  (sorted_iff_words.mp hs).imp ne_of_lt

variable {w : Nat}

theorem sorted_append {l m : List Entry} (hl : Sorted l) (hm : Sorted m)
    (hlt : ∀ x ∈ l, x.bitmapWordIndex < w) (hle : ∀ x ∈ m, w ≤ x.bitmapWordIndex) :
    Sorted (l ++ m) :=
  pairwise_append.mpr ⟨hl, hm, fun x hx y hy => lt_of_lt_of_le (hlt x hx) (hle y hy)⟩

theorem tracked_cons (e : Entry) (es : List Entry) (p : Nat) :
    tracked (e :: es) p =
      (decide (e.bitmapWordIndex = p / 64) && e.bitmapWord.getLsbD (p % 64) || tracked es p) := rfl

theorem tracked_append (es fs : List Entry) (p : Nat) :
    tracked (es ++ fs) p = (tracked es p || tracked fs p) := any_append

theorem tracked_eq_false (h : p / 64 ∉ words es) :
    tracked es p = false := by
  rw [Bool.eq_false_iff]
  intro ht
  obtain ⟨e, he, hidx, -⟩ := tracked_iff.mp ht
  exact h (mem_words.mpr ⟨e, he, hidx⟩)

theorem getLsbD_bitsMask (bits offset : Nat) (hbits : offset + bits ≤ 64) (hk : k < 64) :
    (bitsMask bits offset).getLsbD k = decide (offset ≤ k ∧ k < offset + bits) := by
  rw [bitsMask, getLsbD_shiftLeft, getLsbD_trailingBitsMask (by omega)]
  by_cases hoff : offset ≤ k
  · simp only [hk, decide_true, Bool.true_and, not_lt.mpr hoff, decide_false, Bool.not_false,
      hoff, true_and]
    exact decide_eq_decide.mpr (by omega)
  · simp [hoff, Nat.lt_of_not_le hoff]

section Split

variable (pr : Profile) {l m : List Entry} {w : Nat}
  (hlt : ∀ x ∈ l, x.bitmapWordIndex < w) (hle : ∀ x ∈ m, w ≤ x.bitmapWordIndex)
include hlt hle

theorem takeWhile_split : (l ++ m).takeWhile (fun e => e.bitmapWordIndex < w) = l := by
  rw [takeWhile_append_of_pos (fun x hx => decide_eq_true (hlt x hx))]
  cases m with
  | nil => simp
  | cons e es =>
    rw [takeWhile_cons_of_neg, List.append_nil]
    simpa using hle e (mem_cons_self ..)

theorem findEntryPosition_split :
    findEntryPosition (l ++ m) w =
      if ∃ e ∈ m.head?, e.bitmapWordIndex = w then .ok l.length else .error l.length := by
  rw [findEntryPosition]
  simp only [takeWhile_split hlt hle, getElem?_append_right (le_refl _), Nat.sub_self]
  cases m with
  | nil => simp
  | cons e es => simp

theorem firstEntryIndex_none : firstEntryIndex pr (l ++ m) w none = .ok l.length := by
  rw [firstEntryIndex, findEntryPosition_split hlt hle]
  split <;> rename_i h <;> split at h <;> cases h <;> rfl

/-- Both the hint's debug assertions hold at the first entry not before a word. -/
theorem firstEntryIndex_hint : firstEntryIndex pr (l ++ m) w (some l.length) = .ok l.length := by
  rw [firstEntryIndex, debugAssert_ok, ok_bind, debugAssert_ok, ok_bind, pure_eq_ok]
  · rcases eq_nil_or_concat l with rfl | ⟨l', x, rfl⟩
    · exact .inl rfl
    · right
      have hx := hlt x (by simp)
      simpa using hx
  · cases m with
    | nil => simp
    | cons e es =>
      right
      have he := hle e (mem_cons_self ..)
      simpa using he

end Split

theorem exists_split (hs : Sorted es) (w : Nat) :
    ∃ l m, es = l ++ m ∧ (∀ x ∈ l, x.bitmapWordIndex < w) ∧ ∀ x ∈ m, w ≤ x.bitmapWordIndex := by
  induction es with
  | nil => exact ⟨[], [], by simp⟩
  | cons e es ih =>
    obtain ⟨hhead, htail⟩ := pairwise_cons.mp hs
    by_cases he : e.bitmapWordIndex < w
    · obtain ⟨l, m, rfl, hlt, hle⟩ := ih htail
      refine ⟨e :: l, m, rfl, ?_, hle⟩
      intro x hx
      rcases mem_cons.mp hx with rfl | hx
      · exact he
      · exact hlt x hx
    · refine ⟨[], e :: es, rfl, by simp, ?_⟩
      intro x hx
      rcases mem_cons.mp hx with rfl | hx
      · omega
      · have := hhead x hx
        omega

variable {pr : Profile}

theorem findBatchEnd_spec {r : Option Nat} (h : findBatchEnd pr w n es = .ok r) :
    r.getD 0 ≤ es.length ∧ ∀ f ∈ es.take (r.getD 0),
      f.bitmapWord = 0 ∧ (w ≤ f.bitmapWordIndex → f.bitmapWordIndex - w < n) := by
  induction es generalizing r with
  | nil =>
    cases h
    simp
  | cons e es ih =>
    rw [findBatchEnd] at h
    split at h
    · cases h
      simp
    next hzero =>
      obtain ⟨distance, hdistance, h⟩ := bind_eq_ok h
      split at h
      · cases h
        simp
      next hlt =>
        obtain ⟨i, hi, h⟩ := bind_eq_ok h
        cases h
        obtain ⟨hlen, htake⟩ := ih hi
        cases i with
        | none => simp
        | some i =>
          refine ⟨succ_le_succ hlen, ?_⟩
          intro f hf
          rcases mem_cons.mp hf with rfl | hf
          · refine ⟨not_not.mp hzero, fun hle => ?_⟩
            rw [subU64_ok pr hle] at hdistance
            cases hdistance
            exact Nat.lt_of_not_le hlt
          · exact htake f hf

theorem findBatchEnd_ok (pr : Profile)
    (hle : ∀ x ∈ es, w ≤ x.bitmapWordIndex) : ∃ r, findBatchEnd pr w n es = .ok r := by
  induction es with
  | nil => exact ⟨none, rfl⟩
  | cons e es ih =>
    obtain ⟨r, hr⟩ := ih (fun x hx => hle x (mem_cons_of_mem _ hx))
    rw [findBatchEnd, subU64_ok pr (hle e (mem_cons_self ..)), hr]
    split
    · exact ⟨_, rfl⟩
    · rw [ok_bind]
      split
      · exact ⟨_, rfl⟩
      · exact ⟨_, rfl⟩

/-- Only words with no bits set get pruned and the reserve grows by their number. -/
theorem pruneFrom_spec {prepare : Bool} {fuel reserve w : Nat}
    {reserve' : Nat} (hbound : reserve + es.length < 2 ^ 64)
    (h : pruneFrom pr prepare fuel reserve w n es = .ok (es', reserve')) :
    es'.Sublist es ∧ (∀ e ∈ es, e.bitmapWord ≠ 0 → e ∈ es') ∧
      reserve' = reserve + (if prepare then es.length - es'.length else 0) := by
  induction fuel generalizing reserve w n es es' reserve' with
  | zero =>
    cases h
    exact ⟨.refl _, fun _ hf _ => hf, by simp⟩
  | succ fuel ih =>
    cases es with
    | nil =>
      cases h
      simp
    | cons e es =>
      rw [pruneFrom] at h
      split at h
      · cases h
        exact ⟨.refl _, fun _ hf _ => hf, by simp⟩
      · obtain ⟨_, -, h⟩ := bind_eq_ok h
        obtain ⟨skipped, -, h⟩ := bind_eq_ok h
        dsimp only at h
        split at h
        · cases h
          exact ⟨.refl _, fun _ hf _ => hf, by simp⟩
        · split at h
          next hzero =>
            obtain ⟨batchEnd, hbatch, h⟩ := bind_eq_ok h
            obtain ⟨hlen, htake⟩ := findBatchEnd_spec hbatch
            generalize batchEnd.getD 0 = k at hlen htake h
            obtain ⟨last, -, h⟩ := bind_eq_ok h
            obtain ⟨_, -, h⟩ := bind_eq_ok h
            obtain ⟨n', -, h⟩ := bind_eq_ok h
            rw [length_cons] at hbound
            rw [addU64_ok pr (by split <;> omega), ok_bind, Nat.add_sub_cancel] at h
            have hdrop : (es.drop k).length = es.length - k := length_drop
            obtain ⟨hsub, hkeep, hreserve⟩ := ih (by split <;> omega) h
            have hsublen := hsub.length_le
            refine ⟨(hsub.trans (drop_sublist k es)).cons e, ?_, ?_⟩
            · intro f hf hne
              rcases mem_cons.mp hf with rfl | hf
              · exact absurd hzero hne
              · rw [← take_append_drop k es] at hf
                rcases mem_append.mp hf with hf | hf
                · exact absurd (htake f hf).1 hne
                · exact hkeep f hf hne
            · rw [hreserve, length_cons]
              split <;> omega
          · obtain ⟨⟨es₁, reserve₁⟩, hrec, h⟩ := bind_eq_ok h
            cases h
            rw [length_cons] at hbound
            obtain ⟨hsub, hkeep, hreserve⟩ := ih (by omega) hrec
            refine ⟨hsub.cons_cons e, ?_, ?_⟩
            · intro f hf hne
              rcases mem_cons.mp hf with rfl | hf
              · exact mem_cons_self ..
              · exact mem_cons_of_mem _ (hkeep f hf hne)
            · rw [hreserve, length_cons, length_cons, Nat.add_sub_add_right]

/-- The last entry of a batch is within the range and the ones after it aren't before the
next word. -/
theorem batch_last (hs : Sorted (e :: es)) (hn : n ≠ 0)
    (htake : ∀ f ∈ es.take k, f.bitmapWord = 0 ∧
      (e.bitmapWordIndex ≤ f.bitmapWordIndex → f.bitmapWordIndex - e.bitmapWordIndex < n))
    (hk : k < (e :: es).length) :
    e.bitmapWordIndex ≤ ((e :: es)[k]).bitmapWordIndex ∧
      ((e :: es)[k]).bitmapWordIndex - e.bitmapWordIndex < n ∧ Sorted ((e :: es)[k] :: es.drop k) := by
  obtain ⟨hhead, -⟩ := pairwise_cons.mp hs
  have hdrop := hs.drop (i := k)
  rw [drop_eq_getElem_cons hk] at hdrop
  cases k with
  | zero => exact ⟨le_refl _, by simp; omega, hdrop⟩
  | succ k =>
    rw [length_cons] at hk
    have hmem : es[k] ∈ es.take (k + 1) := by
      rw [mem_take_iff_getElem]
      exact ⟨k, by omega, rfl⟩
    have hle := (hhead _ (mem_of_mem_take hmem)).le
    exact ⟨hle, (htake _ hmem).2 hle, hdrop⟩

/-- Neither an assertion fails nor does anything overflow for sorted entries. -/
theorem pruneFrom_ok (pr : Profile) (prepare : Bool) (fuel reserve w n : Nat)
    (hbound : reserve + es.length < 2 ^ 64) (hs : Sorted es)
    (hle : ∀ x ∈ es, w ≤ x.bitmapWordIndex) :
    ∃ r, pruneFrom pr prepare fuel reserve w n es = .ok r := by
  induction fuel generalizing reserve w n es with
  | zero => exact ⟨_, rfl⟩
  | succ fuel ih =>
    cases es with
    | nil => exact ⟨_, rfl⟩
    | cons e es =>
      obtain ⟨hhead, htail⟩ := pairwise_cons.mp hs
      have hwe := hle e (mem_cons_self ..)
      rw [length_cons] at hbound
      rw [pruneFrom, debugAssert_ok pr hwe, ok_bind, subU64_ok pr hwe, ok_bind]
      dsimp only
      split
      · exact ⟨_, rfl⟩
      · split
        · exact ⟨_, rfl⟩
        · split
          next hn hzero =>
            obtain ⟨batchEnd, hbatch⟩ := findBatchEnd_ok pr (w := e.bitmapWordIndex)
              (n := n - (e.bitmapWordIndex - w)) (fun x hx => (hhead x hx).le)
            obtain ⟨hlen, htake⟩ := findBatchEnd_spec hbatch
            rw [hbatch, ok_bind, Nat.add_sub_cancel]
            generalize batchEnd.getD 0 = k at hlen htake
            have hk : k < (e :: es).length := lt_succ_of_le hlen
            obtain ⟨hmono, hlast, hafter⟩ := batch_last hs hn htake hk
            rw [index_ok (getElem?_eq_getElem hk), ok_bind]
            generalize (e :: es)[k] = last at hmono hlast hafter
            obtain ⟨hlt, hsorted⟩ := pairwise_cons.mp hafter
            have hdroplen : (es.drop k).length = es.length - k := length_drop
            rw [subU64_ok pr (by omega), ok_bind, subU64_ok pr (by omega), ok_bind,
              addU64_ok pr (by split <;> omega), ok_bind]
            exact ih _ _ _ (by split <;> omega) hsorted (fun x hx => hlt x hx)
          · obtain ⟨r, hr⟩ := ih reserve (e.bitmapWordIndex + 1)
              (n - (e.bitmapWordIndex - w) - 1) (by omega) htail (fun x hx => hhead x hx)
            rw [hr]
            exact ⟨_, rfl⟩

theorem setFrom_words {value : Bool} {w count : Nat}
    (h : setFrom pr value w count offset es = .ok es') : words es' = words es := by
  induction es generalizing w count offset es' with
  | nil =>
    cases h
    rfl
  | cons e es ih =>
    rw [setFrom] at h
    split at h
    · cases h
      rfl
    · obtain ⟨⟨count', offset'⟩, -, h⟩ := bind_eq_ok h
      dsimp only at h
      split at h
      · cases h
        rfl
      · obtain ⟨es₁, hrec, h⟩ := bind_eq_ok h
        cases h
        exact congrArg (e.bitmapWordIndex :: ·) (ih hrec)

/-- What's left of an entry's word once bits from some position on have been set. -/
theorem getLsbD_setWord {value : Bool} {bits : Nat} (hbits : offset + bits ≤ 64) (hk : k < 64) :
    (word &&& ~~~bitsMask bits offset ||| (if value then bitsMask bits offset else 0)).getLsbD k =
      if offset ≤ k ∧ k < offset + bits then value else word.getLsbD k := by
  have hmask := getLsbD_bitsMask bits offset hbits hk
  cases value with
  | true =>
    simp only [if_true, getLsbD_or, getLsbD_and, BitVec.getLsbD_not, hmask, hk]
    by_cases h : offset ≤ k ∧ k < offset + bits <;> simp [h]
  | false =>
    simp only [Bool.false_eq_true, if_false, getLsbD_or, getLsbD_and, BitVec.getLsbD_not, hmask, hk]
    by_cases h : offset ≤ k ∧ k < offset + bits <;> simp [h]

theorem skipWords_ok (pr : Profile) (count : Nat)
    (hw : w ≤ e.bitmapWordIndex) (he : e.bitmapWordIndex < 2 ^ 58) (hoffset : offset < 64) :
    ∃ count' offset', skipWords pr e w count offset = .ok (count', offset') ∧ offset' < 64 ∧
      (e.bitmapWordIndex = w ∧ count' = count ∧ offset' = offset ∨
        w < e.bitmapWordIndex ∧ offset' = 0 ∧
          count' = w * 64 + offset + count - e.bitmapWordIndex * 64) := by
  rw [skipWords]
  by_cases hne : e.bitmapWordIndex = w
  · rw [if_neg (not_not.mpr hne)]
    exact ⟨count, offset, rfl, hoffset, .inl ⟨hne, rfl, rfl⟩⟩
  · have hlt : w < e.bitmapWordIndex := Nat.lt_of_le_of_ne hw (Ne.symm hne)
    have hshl : (e.bitmapWordIndex - w - 1) * 2 ^ 6 < 2 ^ 64 := by omega
    rw [if_pos hne, subU64_ok pr hw, ok_bind, subU64_ok pr (by omega), ok_bind,
      shlU64_ok pr (by decide) hshl, ok_bind, addU64_ok pr (by omega), ok_bind]
    exact ⟨_, 0, rfl, by decide, .inr ⟨hlt, rfl, by omega⟩⟩

theorem tracked_cons_of_ne {i : Nat}
    (h : i ≠ p / 64) : tracked (⟨i, word⟩ :: es) p = tracked es p := by
  rw [tracked_cons, decide_eq_false h, Bool.false_and, Bool.false_or]

theorem tracked_cons_of_eq {i : Nat} (h : i = p / 64) (hlt : p / 64 ∉ words es) :
    tracked (⟨i, word⟩ :: es) p = word.getLsbD (p % 64) := by
  rw [tracked_cons, decide_eq_true h, Bool.true_and, tracked_eq_false hlt, Bool.or_false]

theorem not_mem_words (hlt : ∀ x ∈ es, j < x.bitmapWordIndex) :
    j ∉ words es := by
  intro hj
  obtain ⟨x, hx, rfl⟩ := mem_words.mp hj
  exact lt_irrefl _ (hlt x hx)

/-- The bits in the range get the value if there's an entry for their word, all
others stay as they are. -/
theorem setFrom_tracked (pr : Profile) (value : Bool) (w count offset : Nat)
    (hs : Sorted es) (hle : ∀ x ∈ es, w ≤ x.bitmapWordIndex)
    (hlt : ∀ x ∈ es, x.bitmapWordIndex < 2 ^ 58) (hoffset : offset < 64) :
    ∃ es', setFrom pr value w count offset es = .ok es' ∧ ∀ p, tracked es' p =
      if w * 64 + offset ≤ p ∧ p < w * 64 + offset + count then value && decide (p / 64 ∈ words es)
      else tracked es p := by
  induction es generalizing w count offset with
  | nil => exact ⟨[], rfl, by simp [tracked, words]⟩
  | cons e es ih =>
    obtain ⟨hhead, htail⟩ := pairwise_cons.mp hs
    rw [setFrom]
    split
    next hzero => exact ⟨_, rfl, fun p => (if_neg (by omega)).symm⟩
    next hcount =>
      have hwe := hle e (mem_cons_self ..)
      obtain ⟨count', offset', hskip, hoffset', hcase⟩ := skipWords_ok pr count hwe
        (hlt e (mem_cons_self ..)) hoffset
      rw [hskip, ok_bind]
      dsimp only
      -- From the entry's word on, the range is the one left after skipping.
      have hrange : ∀ p, e.bitmapWordIndex ≤ p / 64 →
          ((w * 64 + offset ≤ p ∧ p < w * 64 + offset + count) ↔
            (e.bitmapWordIndex * 64 + offset' ≤ p ∧
              p < e.bitmapWordIndex * 64 + offset' + count')) := by
        intro p hp
        rcases hcase with ⟨rfl, rfl, rfl⟩ | ⟨hwlt, rfl, rfl⟩
        · exact Iff.rfl
        · omega
      have hbefore : ∀ p, p / 64 < e.bitmapWordIndex → p / 64 ∉ words (e :: es) := by
        intro p hp
        apply not_mem_words
        intro x hx
        rcases mem_cons.mp hx with rfl | hx
        · exact hp
        · exact hp.trans (hhead x hx)
      split
      next hzero =>
        refine ⟨_, rfl, fun p => ?_⟩
        rcases Nat.lt_or_ge (p / 64) e.bitmapWordIndex with hp | hp
        · have hnot := hbefore p hp
          rw [tracked_eq_false hnot, decide_eq_false hnot, Bool.and_false, ite_self]
        · rw [if_neg]
          rw [hrange p hp]
          omega
      next hcount' =>
        obtain ⟨es₁, hrec, htracked⟩ := ih (e.bitmapWordIndex + 1)
          (count' - min count' (64 - offset')) 0 htail
          (fun x hx => hhead x hx) (fun x hx => hlt x (mem_cons_of_mem _ hx)) (by decide)
        have hwords := setFrom_words hrec
        rw [hrec, ok_bind]
        refine ⟨_, rfl, fun p => ?_⟩
        rcases Nat.lt_trichotomy (p / 64) e.bitmapWordIndex with hp | hp | hp
        · have hnot := hbefore p hp
          rw [decide_eq_false hnot, tracked_eq_false hnot, Bool.and_false, ite_self,
            tracked_eq_false]
          rw [words, map_cons, ← words, hwords]
          exact hnot
        · have hnot : p / 64 ∉ words es := not_mem_words (fun x hx => hp ▸ hhead x hx)
          have hin : p / 64 ∈ words (e :: es) := mem_words.mpr ⟨e, mem_cons_self .., hp.symm⟩
          have hnot₁ : p / 64 ∉ words es₁ := hwords ▸ hnot
          rw [tracked_cons_of_eq hp.symm hnot, tracked_cons_of_eq hp.symm hnot₁,
            getLsbD_setWord (by omega) (mod_lt _ (by decide)), decide_eq_true hin,
            Bool.and_true]
          apply if_congr _ rfl rfl
          rw [hrange p hp.ge]
          omega
        · rw [tracked_cons_of_ne hp.ne, tracked_cons_of_ne hp.ne, htracked p]
          have hmem : p / 64 ∈ words (e :: es) ↔ p / 64 ∈ words es := by
            rw [words, map_cons, mem_cons, ← words]
            exact or_iff_right hp.ne'
          rw [decide_eq_decide.mpr hmem]
          apply if_congr _ rfl rfl
          rw [hrange p hp.le]
          omega

/-- The entry for the current word, if there is one, is the first of those left. -/
theorem head_filter_eq (hs : Sorted es) (hle : ∀ x ∈ es, w ≤ x.bitmapWordIndex) :
    (∃ e es', es = e :: es' ∧ e.bitmapWordIndex = w ∧ Sorted es' ∧
        (∀ x ∈ es', w + 1 ≤ x.bitmapWordIndex) ∧
        es.head?.filter (fun e => e.bitmapWordIndex = w) = some e) ∨
      (∀ x ∈ es, w + 1 ≤ x.bitmapWordIndex) ∧
        es.head?.filter (fun e => e.bitmapWordIndex = w) = none := by
  cases es with
  | nil => exact .inr (by simp)
  | cons e es =>
    obtain ⟨hhead, htail⟩ := pairwise_cons.mp hs
    by_cases he : e.bitmapWordIndex = w
    · exact .inl ⟨e, es, rfl, he, htail, fun x hx => he ▸ hhead x hx, by simp [he]⟩
    · right
      have hlt : w < e.bitmapWordIndex :=
        Nat.lt_of_le_of_ne (hle e (mem_cons_self ..)) (Ne.symm he)
      refine ⟨?_, by simp [he]⟩
      intro x hx
      rcases mem_cons.mp hx with rfl | hx
      · exact hlt
      · exact hlt.trans (hhead x hx)

section Repopulate

variable (al : Allocator) (a : AllocBitmap) (value : Bool)

variable {es : List Entry} {count offset : Nat}

/-- Entries are drawn from the reserve only, so that their capacity never changes. -/
theorem repopulateFrom_ok (n len capacity reserve w count offset : Nat)
    (hs : Sorted es) (hle : ∀ x ∈ es, w ≤ x.bitmapWordIndex) (hroom : len + reserve ≤ capacity) :
    ∃ enough es' reserve', repopulateFrom al a value n len capacity reserve w count offset es =
        .ok (enough, es', capacity, reserve') ∧
      Sorted es' ∧ (∀ x ∈ es', w ≤ x.bitmapWordIndex) ∧
      (∀ j ∈ words es', j ∈ words es ∨ j < w + n) ∧
      es'.length + reserve' = es.length + reserve := by
  induction n generalizing len reserve w count offset es with
  | zero => exact ⟨true, es, reserve, rfl, hs, hle, fun j hj => .inl hj, rfl⟩
  | succ n ih =>
    rw [repopulateFrom]
    generalize count - min count (64 - offset) = count'
    generalize bitsMask (min count (64 - offset)) offset = mask
    rcases head_filter_eq hs hle with ⟨e, es₀, rfl, hidx, hs₀, hle₀, hhead⟩ | ⟨hle₀, hhead⟩
    · rw [hhead]
      obtain ⟨enough, es', reserve', hrec, hs', hle', hwords, hlen⟩ :=
        ih len reserve (w + 1) count' 0 hs₀ hle₀ hroom
      refine ⟨enough, ⟨w, e.bitmapWord ||| mask⟩ :: es', reserve', ?_, ?_, ?_, ?_, ?_⟩
      · rw [tail_cons, hrec]
        rfl
      · exact pairwise_cons.mpr ⟨fun x hx => hle' x hx, hs'⟩
      · intro x hx
        rcases mem_cons.mp hx with rfl | hx
        · exact le_refl _
        · exact (le_succ w).trans (hle' x hx)
      · intro j hj
        rcases mem_cons.mp hj with rfl | hj
        · exact .inr (by omega)
        · rcases hwords j hj with hj | hj
          · exact .inl (mem_cons_of_mem _ hj)
          · exact .inr (by omega)
      · rw [length_cons, length_cons]
        omega
    · rw [hhead]
      dsimp only
      by_cases hskip : a.word w &&& mask = if value then mask else 0
      · rw [if_pos hskip]
        obtain ⟨enough, es', reserve', hrec, hs', hle', hwords, hlen⟩ :=
          ih len reserve (w + 1) count' 0 hs hle₀ hroom
        refine ⟨enough, es', reserve', hrec, hs', fun x hx => (le_succ w).trans (hle' x hx),
          fun j hj => (hwords j hj).imp_right (fun h => by omega), hlen⟩
      · rw [if_neg hskip]
        split
        · exact ⟨false, es, reserve, rfl, hs, hle, fun j hj => .inl hj, rfl⟩
        next hreserve =>
          have hlt : len < capacity := by omega
          obtain ⟨enough, es', reserve', hrec, hs', hle', hwords, hlen⟩ :=
            ih (len + 1) (reserve - 1) (w + 1) count' 0 hs hle₀ (by omega)
          refine ⟨enough, ⟨w, mask⟩ :: es', reserve', ?_, ?_, ?_, ?_, ?_⟩
          · rw [Allocator.reserveForInsert, if_pos hlt, ok_bind, hrec]
            rfl
          · exact pairwise_cons.mpr ⟨fun x hx => hle' x hx, hs'⟩
          · intro x hx
            rcases mem_cons.mp hx with rfl | hx
            · exact le_refl _
            · exact (le_succ w).trans (hle' x hx)
          · intro j hj
            rcases mem_cons.mp hj with rfl | hj
            · exact .inr (by omega)
            · exact (hwords j hj).imp_right (fun h => by omega)
          · rw [length_cons]
            omega

/-- The blocks from some position on are those in the current word and the ones from
the next word on. -/
theorem blocks_succ {w p : Nat} (hoffset : offset < 64) :
    (w * 64 + offset ≤ p ∧ p < w * 64 + offset + count) ↔
      w = p / 64 ∧ offset ≤ p % 64 ∧ p % 64 < offset + min count (64 - offset) ∨
      (w + 1) * 64 + 0 ≤ p ∧ p < (w + 1) * 64 + 0 + (count - min count (64 - offset)) := by
  omega

/-- An entry in front sets the blocks in the current word, the entries after it set
those from the next word on. -/
theorem tracked_cons_or {w p : Nat} (hoffset : offset < 64) (word : BitmapWord)
    {es' : List Entry} (h : tracked es' p = (tracked es p ||
      decide ((w + 1) * 64 + 0 ≤ p ∧
        p < (w + 1) * 64 + 0 + (count - min count (64 - offset))))) :
    tracked (⟨w, word ||| bitsMask (min count (64 - offset)) offset⟩ :: es') p =
      (tracked (⟨w, word⟩ :: es) p ||
        decide (w * 64 + offset ≤ p ∧ p < w * 64 + offset + count)) := by
  have hbit := getLsbD_bitsMask (min count (64 - offset)) offset (by omega)
    (mod_lt p (by decide))
  rw [decide_eq_decide.mpr (blocks_succ hoffset), tracked_cons, tracked_cons, h]
  rw [getLsbD_or, hbit, Bool.decide_or, Bool.decide_and (w = p / 64)]
  cases decide (w = p / 64) <;> simp [Bool.or_assoc, Bool.or_left_comm]

variable {a : AllocBitmap} {value : Bool}

theorem blocks_empty_of_word_eq {mask : BitmapWord} (hoffset : offset < 64)
    (hmask : mask = bitsMask (min count (64 - offset)) offset)
    (hblocks : ∀ p, w * 64 + offset ≤ p → p < w * 64 + offset + count → a.allocated p ≠ value)
    (h : a.word w &&& mask = if value then mask else 0) : count = 0 := by
  by_contra hcount
  have hbit : mask.getLsbD offset = true := by
    rw [hmask, getLsbD_bitsMask _ _ (by omega) hoffset]
    exact decide_eq_true (by omega)
  have hget := congrArg (fun x : BitmapWord => x.getLsbD offset) h
  rw [getLsbD_and, hbit, Bool.and_true] at hget
  apply hblocks (w * 64 + offset) (le_refl _) (by omega)
  rw [AllocBitmap.allocated, show (w * 64 + offset) / 64 = w by omega,
    show (w * 64 + offset) % 64 = offset by omega, hget]
  cases value with
  | true => exact hbit
  | false => simp

/-- The reserve is enough if all words of the blocks are among some words K, for
which there has been memory before, and the bitmap rolled back to doesn't have any
of the blocks in the state wanted. -/
theorem repopulateFrom_enough {K P : List Nat} {n len capacity reserve w : Nat}
    {es' : List Entry} {enough : Bool} {capacity' reserve' : Nat}
    (hs : Sorted es) (hle : ∀ x ∈ es, w ≤ x.bitmapWordIndex)
    (hP : ∀ j ∈ P, j < w) (hnodup : P.Nodup) (hsub : P ++ words es ⊆ K)
    (hK : K.length ≤ P.length + es.length + reserve) (hoffset : offset < 64)
    (hcount : w * 64 + offset + count ≤ (w + n) * 64)
    (hblocks : ∀ p, w * 64 + offset ≤ p → p < w * 64 + offset + count →
      p / 64 ∈ K ∧ a.allocated p ≠ value)
    (h : repopulateFrom al a value n len capacity reserve w count offset es =
      .ok (enough, es', capacity', reserve')) :
    enough = true ∧ words es' ⊆ K ∧ ∀ p, tracked es' p = (tracked es p ||
      decide (w * 64 + offset ≤ p ∧ p < w * 64 + offset + count)) := by
  induction n generalizing P len capacity reserve w count offset es es' with
  | zero =>
    cases h
    refine ⟨rfl, List.Subset.trans (subset_append_right _ _) hsub, fun p => ?_⟩
    rw [decide_eq_false (by omega), Bool.or_false]
  | succ n ih =>
    rw [repopulateFrom] at h
    have hcount' : (w + 1) * 64 + 0 + (count - min count (64 - offset)) ≤ (w + 1 + n) * 64 := by
      omega
    have hblocks' : ∀ p, (w + 1) * 64 + 0 ≤ p →
        p < (w + 1) * 64 + 0 + (count - min count (64 - offset)) →
        p / 64 ∈ K ∧ a.allocated p ≠ value :=
      fun p hp hp' => hblocks p (by omega) (by omega)
    have hwP : w ∉ P := fun hw => lt_irrefl w (hP w hw)
    have hP' : ∀ j ∈ w :: P, j < w + 1 := by
      intro j hj
      rcases mem_cons.mp hj with rfl | hj
      · exact lt_succ_self _
      · exact lt_succ_of_lt (hP j hj)
    have hnodup' : (w :: P).Nodup := nodup_cons.mpr ⟨hwP, hnodup⟩
    rcases head_filter_eq hs hle with ⟨e, es₀, rfl, rfl, hs₀, hle₀, hhead⟩ | ⟨hle₀, hhead⟩
    · rw [hhead] at h
      obtain ⟨⟨enough₁, es₁, c₁, r₁⟩, hrec, h⟩ := bind_eq_ok h
      cases h
      have hsub' : e.bitmapWordIndex :: P ++ words es₀ ⊆ K := by
        have hperm : (P ++ words (e :: es₀)).Perm (e.bitmapWordIndex :: (P ++ words es₀)) :=
          perm_middle
        exact List.Subset.trans hperm.symm.subset hsub
      rw [length_cons] at hK
      obtain ⟨henough, hwords, htracked⟩ := ih hs₀ hle₀ hP' hnodup' hsub'
        (by rw [length_cons]; omega) (by decide) hcount' hblocks' hrec
      refine ⟨henough, ?_, fun p => tracked_cons_or hoffset e.bitmapWord (htracked p)⟩
      refine cons_subset.mpr ⟨?_, hwords⟩
      exact hsub' (mem_cons_self ..)
    · rw [hhead] at h
      by_cases hskip : a.word w &&& bitsMask (min count (64 - offset)) offset =
          if value then bitsMask (min count (64 - offset)) offset else 0
      · rw [if_pos hskip] at h
        have hzero := blocks_empty_of_word_eq hoffset rfl
          (fun p hp hp' => (hblocks p hp hp').2) hskip
        obtain ⟨henough, hwords, htracked⟩ := ih hs hle₀
          (fun j hj => lt_succ_of_lt (hP j hj)) hnodup hsub hK (by decide) hcount' hblocks' h
        refine ⟨henough, hwords, fun p => ?_⟩
        rw [htracked p]
        congr 1
        exact decide_eq_decide.mpr (by omega)
      · rw [if_neg hskip] at h
        have hpos : 0 < count := by
          rw [Nat.pos_iff_ne_zero]
          rintro rfl
          apply hskip
          cases value <;> simp [bitsMask, trailingBitsMask]
        have hwK : w ∈ K := by
          have hp := (hblocks (w * 64 + offset) (le_refl _) (by omega)).1
          rwa [show (w * 64 + offset) / 64 = w by omega] at hp
        have hsub' : w :: P ++ words es ⊆ K := cons_subset.mpr ⟨hwK, hsub⟩
        have hfits : (w :: P ++ words es).length ≤ K.length := by
          apply List.Subperm.length_le
          refine List.Nodup.subperm ?_ hsub'
          refine nodup_append.mpr ⟨hnodup', nodup_words hs, ?_⟩
          rintro x hx y hy rfl
          obtain ⟨z, hz, rfl⟩ := mem_words.mp hy
          exact lt_irrefl _ ((hP' _ hx).trans_le (hle₀ z hz))
        have hlen : (words es).length = es.length := length_map _
        rw [length_append, length_cons, hlen] at hfits
        rw [if_neg (by omega)] at h
        obtain ⟨c, -, h⟩ := bind_eq_ok h
        obtain ⟨⟨enough₁, es₁, c₁, r₁⟩, hrec, h⟩ := bind_eq_ok h
        cases h
        obtain ⟨henough, hwords, htracked⟩ := ih hs hle₀ hP' hnodup' hsub'
          (by rw [length_cons]; omega) (by decide) hcount' hblocks' hrec
        refine ⟨henough, cons_subset.mpr ⟨hwK, hwords⟩, fun p => ?_⟩
        have hcons := tracked_cons_or hoffset 0#64 (htracked p)
        rw [BitVec.zero_or] at hcons
        rw [hcons, tracked_cons]
        simp

end Repopulate

theorem tryReserveExact_spec {al : Allocator} {len capacity additional c : Nat}
    (hlen : len ≤ capacity) (hcap : capacity < 2 ^ 59)
    (h : al.tryReserveExact len capacity additional = some c) :
    len + additional ≤ c ∧ c < 2 ^ 59 := by
  rw [Allocator.tryReserveExact] at h
  split at h
  · cases h
    exact ⟨by omega, hcap⟩
  · exact ⟨al.le_grow h, al.grow_lt h⟩

theorem mem_words_missingEntries :
    j ∈ words (missingEntries w n) ↔ w ≤ j ∧ j < w + n := by
  simp [words, missingEntries, mem_range'_1]

theorem length_missingEntries (w n : Nat) : (missingEntries w n).length = n := by
  simp [missingEntries]

theorem sorted_missingEntries (w n : Nat) : Sorted (missingEntries w n) := by
  refine pairwise_map.mpr ?_
  exact pairwise_lt_range' 1

theorem index_missingEntries {x : Entry} (hx : x ∈ missingEntries w n) :
    w ≤ x.bitmapWordIndex ∧ x.bitmapWordIndex < w + n :=
  mem_words_missingEntries.mp (mem_words.mpr ⟨x, hx, rfl⟩)

/-- What populating some words does to the entries from the first of them on. -/
structure Populated (w n : Nat) (es es' : List Entry) (enough : Bool) : Prop where
  sorted : Sorted es'
  le_index : ∀ x ∈ es', w ≤ x.bitmapWordIndex
  of_mem_words : ∀ j ∈ words es', j ∈ words es ∨ w ≤ j ∧ j < w + n
  words_subset : words es ⊆ words es'
  enough_mem : enough = true → ∀ j, w ≤ j → j < w + n → j ∈ words es'

theorem Populated.refl (hs : Sorted es)
    (hle : ∀ x ∈ es, w ≤ x.bitmapWordIndex) (h : enough = true → n = 0) :
    Populated w n es es enough :=
  ⟨hs, hle, fun _ hj => .inl hj, List.Subset.refl _, fun henough j _ hj => by
    rw [h henough] at hj
    omega⟩

/-- The missing words are those up to the first entry, which is the last one needed
if it's needed at all. -/
theorem Populated.splice (hs : Sorted (e :: es)) (hk : w + k ≤ e.bitmapWordIndex) (hkn : k ≤ n)
    (hlast : k = n ∨ w + k = e.bitmapWordIndex ∧ w + n = e.bitmapWordIndex + 1) :
    Populated w n (e :: es) (missingEntries w k ++ e :: es) true := by
  have hhead : ∀ x ∈ e :: es, w + k ≤ x.bitmapWordIndex := by
    intro x hx
    rcases mem_cons.mp hx with rfl | hx
    · exact hk
    · exact hk.trans ((pairwise_cons.mp hs).1 x hx).le
  refine ⟨sorted_append (sorted_missingEntries w k) hs (fun x hx => (index_missingEntries hx).2)
    hhead, ?_, ?_, ?_, ?_⟩
  · intro x hx
    rcases mem_append.mp hx with hx | hx
    · exact (index_missingEntries hx).1
    · exact (Nat.le_add_right w k).trans (hhead x hx)
  · intro j hj
    rw [words_append, mem_append, mem_words_missingEntries] at hj
    rcases hj with hj | hj
    · exact .inr (by omega)
    · exact .inl hj
  · rw [words_append]
    exact subset_append_right _ _
  · intro _ j hj hjn
    rw [words_append, mem_append, mem_words_missingEntries]
    by_cases hjk : j < w + k
    · exact .inl ⟨hj, hjk⟩
    · right
      rw [words, map_cons, mem_cons]
      left
      omega

theorem Populated.cons
    (he : e.bitmapWordIndex = w) (hn : n ≠ 0) (h : Populated (w + 1) (n - 1) es es' enough) :
    Populated w n (e :: es) (e :: es') enough := by
  have hpos := Nat.pos_of_ne_zero hn
  refine ⟨pairwise_cons.mpr ⟨fun x hx => he ▸ h.le_index x hx, h.sorted⟩, ?_, ?_, ?_, ?_⟩
  · intro x hx
    rcases mem_cons.mp hx with rfl | hx
    · exact he.ge
    · exact (le_succ w).trans (h.le_index x hx)
  · intro j hj
    rcases mem_cons.mp hj with rfl | hj
    · exact .inl (mem_cons_self ..)
    · rcases h.of_mem_words j hj with hj | hj
      · exact .inl (mem_cons_of_mem _ hj)
      · exact .inr (by omega)
  · exact cons_subset_cons _ h.words_subset
  · intro henough j hj hjn
    rcases eq_or_lt_of_le hj with rfl | hj
    · exact mem_words.mpr ⟨e, mem_cons_self .., he⟩
    · exact mem_cons_of_mem _ (h.enough_mem henough j hj (by omega))

/-- An entry in between the first and the last of the words has got one right
before it. -/
def CleanFrom (w n : Nat) (es : List Entry) : Prop :=
  ∀ x ∈ es, w < x.bitmapWordIndex → x.bitmapWordIndex + 1 < w + n → x.bitmapWordIndex - 1 ∈ words es

theorem CleanFrom.tail (h : CleanFrom w n (e :: es))
    (he : e.bitmapWordIndex = w) : CleanFrom (w + 1) (n - 1) es := by
  intro x hx hlt hend
  have hmem := h x (mem_cons_of_mem _ hx) (by omega) (by omega)
  rcases mem_cons.mp hmem with hidx | hmem
  · omega
  · exact hmem

/-- After some missing words there is nothing left to populate beyond the next
entry. -/
theorem CleanFrom.last (h : CleanFrom w n (e :: es))
    (hs : Sorted (e :: es)) (hlt : w < e.bitmapWordIndex) : w + n ≤ e.bitmapWordIndex + 1 := by
  by_contra hend
  have hmem := h e (mem_cons_self ..) hlt (by omega)
  rcases mem_cons.mp hmem with hidx | hmem
  · omega
  · obtain ⟨x, hx, hidx⟩ := mem_words.mp hmem
    have := (pairwise_cons.mp hs).1 x hx
    omega

theorem populateFrom_zero (pr : Profile) (al : Allocator) (reserve len capacity w : Nat)
    (es : List Entry) : populateFrom pr al reserve len capacity w 0 es = .ok (true, es, capacity) := by
  cases es <;> rfl

theorem populateFrom_spec {al : Allocator} {reserve len capacity w : Nat}
    {capacity' : Nat} (hs : Sorted es)
    (hle : ∀ x ∈ es, w ≤ x.bitmapWordIndex) (hclean : CleanFrom w n es)
    (hn : w + n ≤ 2 ^ 58) (hroom : len + reserve ≤ capacity) (hcap : capacity < 2 ^ 59)
    (h : populateFrom pr al reserve len capacity w n es = .ok (enough, es', capacity')) :
    Populated w n es es' enough ∧ es.length ≤ es'.length ∧
      len + (es'.length - es.length) + reserve ≤ capacity' ∧ capacity' < 2 ^ 59 := by
  induction es generalizing len capacity w n es' with
  | nil =>
    rw [populateFrom] at h
    split at h
    next hzero =>
      cases h
      exact ⟨.refl hs hle (fun _ => hzero), le_refl _, by simpa using hroom, hcap⟩
    · rw [addU64_ok pr (by omega), ok_bind] at h
      split at h
      · cases h
        exact ⟨.refl hs hle (fun h => nomatch h), le_refl _, by simpa using hroom, hcap⟩
      next c hreserve =>
        obtain ⟨hc, hclt⟩ := tryReserveExact_spec (by omega) hcap hreserve
        rw [if_pos (by omega)] at h
        cases h
        refine ⟨⟨sorted_missingEntries w n, fun x hx => (index_missingEntries hx).1,
          fun j hj => .inr (mem_words_missingEntries.mp hj), nil_subset _,
          fun _ j hj hjn => mem_words_missingEntries.mpr ⟨hj, hjn⟩⟩, zero_le _, ?_, hclt⟩
        rw [length_missingEntries, length_nil]
        omega
  | cons e es ih =>
    obtain ⟨hhead, htail⟩ := pairwise_cons.mp hs
    have hwe := hle e (mem_cons_self ..)
    rw [populateFrom] at h
    split at h
    next hzero =>
      cases h
      exact ⟨.refl hs hle (fun _ => hzero), le_refl _, by simpa using hroom, hcap⟩
    next hzero =>
      split at h
      next hne =>
        have hlt : w < e.bitmapWordIndex := Nat.lt_of_le_of_ne hwe (Ne.symm hne)
        have hlast := hclean.last hs hlt
        rw [subU64_ok pr hwe, ok_bind] at h
        dsimp only at h
        rw [addU64_ok pr (by omega), ok_bind] at h
        split at h
        · cases h
          exact ⟨.refl hs hle (fun h => nomatch h), le_refl _, by simpa using hroom, hcap⟩
        next c hreserve =>
          obtain ⟨hc, hclt⟩ := tryReserveExact_spec (by omega) hcap hreserve
          have hrest : n - min (e.bitmapWordIndex - w) n - 1 = 0 := by omega
          obtain ⟨_, -, h⟩ := bind_eq_ok h
          rw [hrest, populateFrom_zero, ok_bind] at h
          cases h
          refine ⟨.splice hs (by omega) (min_le_right _ _) (by omega), ?_, ?_, hclt⟩
          · rw [length_append]
            exact Nat.le_add_left _ _
          · rw [length_append, length_missingEntries, Nat.add_sub_cancel]
            dsimp only
            omega
      next heq =>
        obtain ⟨⟨enough₁, es₁, c₁⟩, hrec, h⟩ := bind_eq_ok h
        cases h
        have heq : e.bitmapWordIndex = w := not_not.mp heq
        obtain ⟨hpop, hlen, hroom', hcap'⟩ := ih htail (fun x hx => heq ▸ hhead x hx)
          (hclean.tail heq) (by omega) hroom hcap hrec
        refine ⟨hpop.cons heq hzero, succ_le_succ hlen, ?_, hcap'⟩
        rw [length_cons, length_cons, Nat.add_sub_add_right]
        exact hroom'

end CocoonFs.SparseBitmap
