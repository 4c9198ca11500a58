import CocoonFs.Bitmap

namespace CocoonFs.SparseEntries

open Bitmap List

/-- The entry at a cursor is consumed if it is about the given word. -/
def takeWord (bitmapWordIndex : Nat) : List Entry → BitmapWord × List Entry
  | [] => (0, [])
  | e :: es => if e.bitmapWordIndex = bitmapWordIndex then (e.bitmapWord, es) else (0, e :: es)

def entriesFrom (bitmapWordIndex : Nat) (entries : List Entry) : List Entry :=
  entries.filter (fun e => bitmapWordIndex ≤ e.bitmapWordIndex)

def wordAt (entries : List Entry) (bitmapWordIndex : Nat) : BitmapWord :=
  match entries.find? (fun e => e.bitmapWordIndex = bitmapWordIndex) with
  | some e => e.bitmapWord
  | none => 0

variable {entries : List Entry} {n m : Nat}

theorem wordAt_eq_zero (h : ∀ e ∈ entries, e.bitmapWordIndex ≠ n) : wordAt entries n = 0 := by
  have hnone : entries.find? (fun e => e.bitmapWordIndex = n) = none := by
    rw [find?_eq_none]
    intro e he
    simpa using h e he
  rw [wordAt, hnone]

theorem entriesFrom_eq (hle : n ≤ m)
    (h : ∀ e ∈ entries, n ≤ e.bitmapWordIndex → m ≤ e.bitmapWordIndex) :
    entriesFrom n entries = entriesFrom m entries := by
  apply filter_congr
  intro e he
  have := h e he
  rw [decide_eq_decide]
  omega

/-- A cursor at some word yields what there is at the word and moves on to the
next one. -/
theorem takeWord_entriesFrom (h : Sorted entries) (n : Nat) :
    takeWord n (entriesFrom n entries) = (wordAt entries n, entriesFrom (n + 1) entries) := by
  induction entries with
  | nil => rfl
  | cons e es ih =>
    obtain ⟨hhead, htail⟩ := pairwise_cons.mp h
    rcases lt_trichotomy e.bitmapWordIndex n with hlt | rfl | hgt
    · have hdrop (m : Nat) (hm : n ≤ m) : entriesFrom m (e :: es) = entriesFrom m es :=
        filter_cons_of_neg (by simpa using lt_of_lt_of_le hlt hm)
      have hword : wordAt (e :: es) n = wordAt es n := by
        rw [wordAt, find?_cons_of_neg (by simpa using hlt.ne), wordAt]
      rw [hdrop n (le_refl n), hdrop (n + 1) (Nat.le_succ n), hword, ih htail]
    · have hkeep : entriesFrom e.bitmapWordIndex (e :: es) =
          e :: entriesFrom e.bitmapWordIndex es := filter_cons_of_pos (by simp)
      have hdrop : entriesFrom (e.bitmapWordIndex + 1) (e :: es) =
          entriesFrom (e.bitmapWordIndex + 1) es := filter_cons_of_neg (by simp)
      have hword : wordAt (e :: es) e.bitmapWordIndex = e.bitmapWord := by
        rw [wordAt, find?_cons_of_pos (by simp)]
      rw [hkeep, hdrop, hword, takeWord, if_pos rfl,
        entriesFrom_eq (Nat.le_succ _) (fun f hf _ => hhead f hf)]
    · have hall (f : Entry) (hf : f ∈ e :: es) : n + 1 ≤ f.bitmapWordIndex := by
        rcases mem_cons.mp hf with rfl | hf
        · exact hgt
        · exact lt_trans hgt (hhead f hf)
      have hfrom (m : Nat) (hm : m ≤ n + 1) : entriesFrom m (e :: es) = e :: es :=
        filter_eq_self.mpr (fun f hf => decide_eq_true (le_trans hm (hall f hf)))
      rw [hfrom n (Nat.le_succ n), hfrom (n + 1) (le_refl _), takeWord, if_neg hgt.ne',
        wordAt_eq_zero (fun f hf => ne_of_gt (hall f hf))]

theorem entriesFrom_entriesFrom (entries : List Entry) (hle : n ≤ m) :
    entriesFrom m (entriesFrom n entries) = entriesFrom m entries := by
  rw [entriesFrom, entriesFrom, entriesFrom, filter_filter]
  apply filter_congr
  intro e _
  by_cases h : m ≤ e.bitmapWordIndex
  · simp [h, le_trans hle h]
  · simp [h]

theorem mem_entriesFrom {e : Entry} :
    e ∈ entriesFrom n entries ↔ e ∈ entries ∧ n ≤ e.bitmapWordIndex := by
  simp [entriesFrom]

theorem sorted_entriesFrom (h : Sorted entries) (n : Nat) :
    Sorted (entriesFrom n entries) := h.filter _

theorem length_entriesFrom_lt (hle : n ≤ m) {e : Entry}
    (he : e ∈ entries) (hn : n ≤ e.bitmapWordIndex) (hm : e.bitmapWordIndex < m) :
    (entriesFrom m entries).length < (entriesFrom n entries).length := by
  rw [← entriesFrom_entriesFrom entries hle, SparseEntries.entriesFrom,
    length_filter_lt_length_iff_exists]
  exact ⟨e, mem_entriesFrom.mpr ⟨he, hn⟩, by simpa using hm⟩

theorem length_entriesFrom_le (entries : List Entry) (hle : n ≤ m) :
    (entriesFrom m entries).length ≤ (entriesFrom n entries).length := by
  rw [← entriesFrom_entriesFrom entries hle]
  exact length_filter_le _ _

theorem entriesFrom_zero (entries : List Entry) : entriesFrom 0 entries = entries :=
  filter_eq_self.mpr (fun _ _ => decide_eq_true (Nat.zero_le _))

theorem tracked_eq (h : Sorted entries) (b : Nat) :
    tracked entries b = (wordAt entries (b / 64)).getLsbD (b % 64) := by
  rw [tracked, wordAt]
  induction entries with
  | nil => exact BitVec.getLsbD_zero.symm
  | cons e es ih =>
    obtain ⟨hhead, htail⟩ := pairwise_cons.mp h
    have hrest := ih htail
    rw [any_cons]
    by_cases he : e.bitmapWordIndex = b / 64
    · have hnone : es.any (fun e => decide (e.bitmapWordIndex = b / 64) &&
          e.bitmapWord.getLsbD (b % 64)) = false := by
        rw [any_eq_false]
        intro g hg
        have := hhead g hg
        simp [show g.bitmapWordIndex ≠ b / 64 by omega]
      rw [find?_cons_of_pos (by simpa using he), hnone, decide_eq_true he, Bool.true_and,
        Bool.or_false]
    · rw [find?_cons_of_neg (by simpa using he), decide_eq_false he, Bool.false_and,
        Bool.false_or, hrest]

end CocoonFs.SparseEntries
