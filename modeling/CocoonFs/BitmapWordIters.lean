import CocoonFs.SparseBitmap
import CocoonFs.SparseEntries

namespace CocoonFs.BitmapWordIters

open Bitmap SparseBitmap SparseEntries List

/-- The first of the bitmaps with entries left, by its index, and its entry. -/
def firstHead : Nat → List (List Entry) → Option (Nat × Entry)
  | _, [] => none
  | i, [] :: its => firstHead (i + 1) its
  | i, (e :: _) :: _ => some (i, e)

/-- The loop over the bitmaps after the first one. -/
def mergeHeads : Nat → Nat × Entry → List (List Entry) → Nat × Entry
  | _, cur, [] => cur
  | j, cur, [] :: its => mergeHeads (j + 1) cur its
  | j, (i, cur), (e :: _) :: its =>
    match compare e.bitmapWordIndex cur.bitmapWordIndex with
    | .lt => mergeHeads (j + 1) (j, e) its
    | .eq => mergeHeads (j + 1) (i, ⟨cur.bitmapWordIndex, cur.bitmapWord ||| e.bitmapWord⟩) its
    | .gt => mergeHeads (j + 1) (i, cur) its

/-- SparseAllocBitmapUnionWordIterator::next, on the entries each of the bitmaps
has left. -/
def unionNext (its : List (List Entry)) : Option Entry × List (List Entry) :=
  match firstHead 0 its with
  | none => (none, its)
  | some (i, e) =>
    let (i, cur) := mergeHeads (i + 1) (i, e) (its.drop (i + 1))
    (some cur, its.take i ++ (its.drop i).map (fun es => (takeWord cur.bitmapWordIndex es).2))

def unionIterAt (bitmaps : List (List Entry)) (bitmapWordIndexBegin : Nat) : List (List Entry) :=
  bitmaps.map (fun es =>
    match findEntryPosition es bitmapWordIndexBegin with
    | .ok i => es.drop i
    | .error i => es.drop i)

/-- AllocBitmapWordIterator -/
structure WordIter where
  bitmap : AllocBitmap
  pendingAllocsIter : List (List Entry)
  nextPendingAlloc : Option Entry
  pendingFreesIter : List (List Entry)
  nextPendingFree : Option Entry
  nextBitmapWordIndex : Nat

def WordIter.newAtBitmapWordIndex (a : AllocBitmap) (pendingAllocs pendingFrees : List (List Entry))
    (bitmapWordIndexBegin : Nat) : WordIter :=
  let (allocs, frees) := if bitmapWordIndexBegin = 0 then (pendingAllocs, pendingFrees)
    else (unionIterAt pendingAllocs bitmapWordIndexBegin, unionIterAt pendingFrees bitmapWordIndexBegin)
  let (nextAlloc, allocs) := unionNext allocs
  let (nextFree, frees) := unionNext frees
  ⟨a, allocs, nextAlloc, frees, nextFree, bitmapWordIndexBegin⟩

def consumePending (bitmapWordIndex : Nat) (next : Option Entry) (its : List (List Entry)) :
    BitmapWord × Option Entry × List (List Entry) :=
  match next with
  | none => (0, none, its)
  | some e =>
    if e.bitmapWordIndex = bitmapWordIndex then
      let (next, its) := unionNext its
      (e.bitmapWord, next, its)
    else (0, some e, its)

def WordIter.next (it : WordIter) : Option (Nat × BitmapWord) × WordIter :=
  if it.bitmap.bitmap.length ≤ it.nextBitmapWordIndex then (none, it)
  else
    let i := it.nextBitmapWordIndex
    let (newAllocs, nextAlloc, allocs) := consumePending i it.nextPendingAlloc it.pendingAllocsIter
    let (newFrees, nextFree, frees) := consumePending i it.nextPendingFree it.pendingFreesIter
    (some (i, (it.bitmap.word i ||| newAllocs) &&& ~~~newFrees),
      ⟨it.bitmap, allocs, nextAlloc, frees, nextFree, i + 1⟩)

def WordIter.take : Nat → WordIter → List (Nat × BitmapWord)
  | 0, _ => []
  | count + 1, it =>
    match it.next with
    | (none, _) => []
    | (some item, it) => item :: WordIter.take count it

def unionWord (bitmaps : List (List Entry)) (n : Nat) : BitmapWord :=
  match bitmaps with
  | [] => 0
  | es :: bitmaps => wordAt es n ||| unionWord bitmaps n

def combinedWord (a : AllocBitmap) (pendingAllocs pendingFrees : List (List Entry)) (n : Nat) :
    BitmapWord :=
  (a.word n ||| unionWord pendingAllocs n) &&& ~~~unionWord pendingFrees n

def headsWord : List (List Entry) → Nat → BitmapWord
  | [], _ => 0
  | es :: its, n => (takeWord n es).1 ||| headsWord its n

theorem word_or_zero (w : BitmapWord) : w ||| 0 = w := BitVec.or_zero

theorem zero_or_word (w : BitmapWord) : 0 ||| w = w := BitVec.zero_or

theorem headsWord_append (its its' : List (List Entry)) (n : Nat) :
    headsWord (its ++ its') n = headsWord its n ||| headsWord its' n := by
  induction its with
  | nil => rw [List.nil_append, headsWord, zero_or_word]
  | cons es its ih => rw [List.cons_append, headsWord, headsWord, ih, BitVec.or_assoc]

structure Merged (its : List (List Entry)) (i : Nat) (cur : Entry) : Prop where
  least : ∀ es ∈ its, ∀ e ∈ es.head?, cur.bitmapWordIndex ≤ e.bitmapWordIndex
  first : ∀ es ∈ its.take i, ∀ e ∈ es.head?, e.bitmapWordIndex ≠ cur.bitmapWordIndex
  word_eq : cur.bitmapWord = headsWord its cur.bitmapWordIndex
  found : ∃ es ∈ its, ∃ e ∈ es.head?, e.bitmapWordIndex = cur.bitmapWordIndex
  lt : i < its.length

variable {n : Nat} {its : List (List Entry)}

theorem headsWord_eq_zero
    (h : ∀ es ∈ its, ∀ e ∈ es.head?, e.bitmapWordIndex ≠ n) : headsWord its n = 0 := by
  induction its with
  | nil => rfl
  | cons es its ih =>
    rw [headsWord, ih (fun fs hfs => h fs (mem_cons_of_mem _ hfs)), word_or_zero]
    cases es with
    | nil => rfl
    | cons e es =>
      rw [takeWord, if_neg (h (e :: es) (mem_cons_self ..) e rfl)]

theorem mergeHeads_spec (its : List (List Entry)) (pre : List (List Entry)) (i : Nat) (cur : Entry)
    (h : Merged pre i cur) :
    Merged (pre ++ its) (mergeHeads pre.length (i, cur) its).1 (mergeHeads pre.length (i, cur) its).2 := by
  induction its generalizing pre i cur with
  | nil =>
    rw [List.append_nil]
    exact h
  | cons es its ih =>
    have hsplit : pre ++ es :: its = (pre ++ [es]) ++ its := append_cons pre es its
    have hlen : pre.length + 1 = (pre ++ [es]).length := by
      rw [length_append, length_singleton]
    have htake : (pre ++ [es]).take i = pre.take i := take_append_of_le_length h.lt.le
    have hmem (fs : List Entry) (hfs : fs ∈ pre ++ [es]) : fs ∈ pre ∨ fs = es := by
      simpa using hfs
    rw [hsplit]
    cases es with
    | nil =>
      rw [mergeHeads, hlen]
      refine ih _ _ _ ⟨?_, ?_, ?_, ?_, by rw [← hlen]; exact Nat.lt_succ_of_lt h.lt⟩
      · intro fs hfs e he
        rcases hmem fs hfs with hpre | rfl
        · exact h.least fs hpre e he
        · cases he
      · rw [htake]
        exact h.first
      · rw [headsWord_append, ← h.word_eq, headsWord, headsWord, takeWord,
          word_or_zero, word_or_zero]
      · obtain ⟨fs, hfs, e, he⟩ := h.found
        exact ⟨fs, mem_append_left _ hfs, e, he⟩
    | cons e es =>
      have hword (n : Nat) : headsWord (pre ++ [e :: es]) n =
          headsWord pre n ||| if e.bitmapWordIndex = n then e.bitmapWord else 0 := by
        rw [headsWord_append, headsWord, headsWord, word_or_zero, takeWord]
        split <;> rfl
      rw [mergeHeads]
      cases hcmp : compare e.bitmapWordIndex cur.bitmapWordIndex with
      | lt =>
        have hlt : e.bitmapWordIndex < cur.bitmapWordIndex := compare_lt_iff_lt.mp hcmp
        rw [hlen]
        refine ih _ _ _ ⟨?_, ?_, ?_, ?_, by rw [← hlen]; exact Nat.lt_succ_self _⟩
        · intro fs hfs g hg
          rcases hmem fs hfs with hpre | rfl
          · exact le_trans hlt.le (h.least fs hpre g hg)
          · rw [head?_cons, Option.mem_some_iff] at hg
            rw [hg]
        · intro fs hfs g hg
          rw [take_append_of_le_length (le_refl _), take_length] at hfs
          have := h.least fs hfs g hg
          omega
        · rw [hword, if_pos rfl, headsWord_eq_zero, zero_or_word]
          intro fs hfs g hg
          have := h.least fs hfs g hg
          omega
        · exact ⟨e :: es, by simp, e, rfl, rfl⟩
      | eq =>
        have heq : e.bitmapWordIndex = cur.bitmapWordIndex := compare_eq_iff_eq.mp hcmp
        rw [hlen]
        refine ih _ _ _ ⟨?_, ?_, ?_, ?_, by rw [← hlen]; exact Nat.lt_succ_of_lt h.lt⟩
        · intro fs hfs g hg
          rcases hmem fs hfs with hpre | rfl
          · exact h.least fs hpre g hg
          · rw [head?_cons, Option.mem_some_iff] at hg
            rw [← hg]
            exact heq.ge
        · rw [htake]
          exact h.first
        · rw [hword, if_pos heq, ← h.word_eq]
        · obtain ⟨fs, hfs, g, hg⟩ := h.found
          exact ⟨fs, mem_append_left _ hfs, g, hg⟩
      | gt =>
        have hgt : cur.bitmapWordIndex < e.bitmapWordIndex := compare_gt_iff_gt.mp hcmp
        rw [hlen]
        refine ih _ _ _ ⟨?_, ?_, ?_, ?_, by rw [← hlen]; exact Nat.lt_succ_of_lt h.lt⟩
        · intro fs hfs g hg
          rcases hmem fs hfs with hpre | rfl
          · exact h.least fs hpre g hg
          · rw [head?_cons, Option.mem_some_iff] at hg
            rw [← hg]
            exact hgt.le
        · rw [htake]
          exact h.first
        · rw [hword, if_neg hgt.ne', ← h.word_eq, word_or_zero]
        · obtain ⟨fs, hfs, g, hg⟩ := h.found
          exact ⟨fs, mem_append_left _ hfs, g, hg⟩

theorem firstHead_spec (its : List (List Entry)) (k : Nat) :
    match firstHead k its with
    | none => ∀ es ∈ its, es = []
    | some (i, e) => ∃ j es, i = k + j ∧ its[j]? = some (e :: es) ∧ ∀ fs ∈ its.take j, fs = [] := by
  induction its generalizing k with
  | nil =>
    rw [firstHead]
    simp
  | cons es its ih =>
    cases es with
    | nil =>
      rw [firstHead]
      have hrest := ih (k + 1)
      cases hfirst : firstHead (k + 1) its with
      | none =>
        rw [hfirst] at hrest
        exact forall_mem_cons.mpr ⟨rfl, hrest⟩
      | some found =>
        obtain ⟨i, e⟩ := found
        rw [hfirst] at hrest
        obtain ⟨j, es, rfl, hget, htake⟩ := hrest
        refine ⟨j + 1, es, by omega, hget, ?_⟩
        rw [take_succ_cons]
        exact forall_mem_cons.mpr ⟨rfl, htake⟩
    | cons e es =>
      rw [firstHead]
      exact ⟨0, es, rfl, rfl, by simp⟩

/-- The union's next word is the one at the least position left in any of the
bitmaps. -/
theorem unionNext_spec (its : List (List Entry)) :
    ((∀ es ∈ its, es = []) ∧ unionNext its = (none, its)) ∨
    ∃ cur, unionNext its = (some cur, its.map (fun es => (takeWord cur.bitmapWordIndex es).2)) ∧
      (∀ es ∈ its, ∀ e ∈ es.head?, cur.bitmapWordIndex ≤ e.bitmapWordIndex) ∧
      cur.bitmapWord = headsWord its cur.bitmapWordIndex ∧
      ∃ es ∈ its, ∃ e ∈ es.head?, e.bitmapWordIndex = cur.bitmapWordIndex := by
  have hfirst := firstHead_spec its 0
  cases hhead : firstHead 0 its with
  | none =>
    left
    rw [hhead] at hfirst
    exact ⟨hfirst, by rw [unionNext, hhead]⟩
  | some found =>
    right
    obtain ⟨i, e⟩ := found
    rw [hhead] at hfirst
    obtain ⟨j, es, hi, hget, hempty⟩ := hfirst
    obtain rfl : i = j := by omega
    obtain ⟨hlt, hentry⟩ := List.getElem?_eq_some_iff.mp hget
    have htake : its.take (i + 1) = its.take i ++ [e :: es] := by
      rw [take_add_one, hget, Option.toList_some]
    have hlen : (its.take (i + 1)).length = i + 1 := by
      rw [length_take, min_eq_left hlt]
    have hmem (fs : List Entry) (hfs : fs ∈ its.take (i + 1)) : fs = [] ∨ fs = e :: es := by
      rw [htake, mem_append, mem_singleton] at hfs
      exact hfs.imp_left (hempty fs)
    have hmerged : Merged (its.take (i + 1)) i e := by
      refine ⟨?_, ?_, ?_, ⟨e :: es, by simp [htake], e, rfl, rfl⟩, by omega⟩
      · intro fs hfs g hg
        rcases hmem fs hfs with rfl | rfl
        · cases hg
        · rw [head?_cons, Option.mem_some_iff] at hg
          rw [hg]
      · intro fs hfs g hg
        rw [take_take, min_eq_left (Nat.le_succ i)] at hfs
        rw [hempty fs hfs] at hg
        cases hg
      · rw [htake, headsWord_append, headsWord_eq_zero, headsWord, headsWord, takeWord, if_pos rfl,
          word_or_zero, zero_or_word]
        intro fs hfs g hg
        rw [hempty fs hfs] at hg
        cases hg
    have hspec := mergeHeads_spec (its.drop (i + 1)) (its.take (i + 1)) i e hmerged
    rw [hlen, take_append_drop] at hspec
    generalize hcur : mergeHeads (i + 1) (i, e) (its.drop (i + 1)) = merged at hspec
    obtain ⟨k, cur⟩ := merged
    refine ⟨cur, ?_, hspec.least, hspec.word_eq, hspec.found⟩
    -- The bitmaps before the chosen one have got nothing at the position.
    have hkeep : (its.take k).map (fun es => (takeWord cur.bitmapWordIndex es).2) = its.take k := by
      calc (its.take k).map (fun es => (takeWord cur.bitmapWordIndex es).2)
          = (its.take k).map id := by
            apply map_congr_left
            intro fs hfs
            cases fs with
            | nil => rfl
            | cons g fs =>
              rw [takeWord, if_neg (hspec.first (g :: fs) hfs g rfl)]
              rfl
        _ = its.take k := map_id _
    rw [unionNext, hhead]
    dsimp only
    rw [hcur]
    conv_rhs => rw [← take_append_drop k its, map_append, hkeep]

section Pending

variable {bitmaps : List (List Entry)}

theorem headsWord_entriesFrom (h : ∀ es ∈ bitmaps, Sorted es) (n : Nat) :
    headsWord (bitmaps.map (entriesFrom n)) n = unionWord bitmaps n := by
  induction bitmaps with
  | nil => rfl
  | cons es bitmaps ih =>
    obtain ⟨hes, hrest⟩ := forall_mem_cons.mp h
    rw [map_cons, headsWord, unionWord, takeWord_entriesFrom hes, ih hrest]

theorem head_entriesFrom_le {es : List Entry} (h : Sorted es) {n m : Nat}
    (hhead : ∀ e ∈ (entriesFrom n es).head?, m ≤ e.bitmapWordIndex) :
    ∀ e ∈ es, n ≤ e.bitmapWordIndex → m ≤ e.bitmapWordIndex := by
  intro e he hn
  have hmem : e ∈ entriesFrom n es := mem_entriesFrom.mpr ⟨he, hn⟩
  have hsorted := sorted_entriesFrom h n
  match hfrom : entriesFrom n es with
  | [] =>
    rw [hfrom] at hmem
    cases hmem
  | f :: fs =>
    rw [hfrom] at hmem hsorted hhead
    have hle := hhead f rfl
    rcases mem_cons.mp hmem with rfl | hmem
    · exact hle
    · exact le_trans hle ((pairwise_cons.mp hsorted).1 e hmem).le

theorem unionNext_entriesFrom (h : ∀ es ∈ bitmaps, Sorted es) (n : Nat) :
    ((∀ es ∈ bitmaps, ∀ e ∈ es, e.bitmapWordIndex < n) ∧
      unionNext (bitmaps.map (entriesFrom n)) = (none, bitmaps.map (entriesFrom n))) ∨
    ∃ m, n ≤ m ∧ (∀ es ∈ bitmaps, ∀ e ∈ es, n ≤ e.bitmapWordIndex → m ≤ e.bitmapWordIndex) ∧
      unionNext (bitmaps.map (entriesFrom n)) =
        (some ⟨m, unionWord bitmaps m⟩, bitmaps.map (entriesFrom (m + 1))) := by
  rcases unionNext_spec (bitmaps.map (entriesFrom n)) with ⟨hempty, hnone⟩ | ⟨cur, hsome, hleast, hword, hfound⟩
  · left
    refine ⟨fun es hes e he => ?_, hnone⟩
    have hnil := hempty (entriesFrom n es) (mem_map_of_mem hes)
    by_contra hge
    have hmem : e ∈ entriesFrom n es := mem_entriesFrom.mpr ⟨he, Nat.le_of_not_lt hge⟩
    rw [hnil] at hmem
    cases hmem
  · right
    have hall : ∀ es ∈ bitmaps, ∀ e ∈ es, n ≤ e.bitmapWordIndex →
        cur.bitmapWordIndex ≤ e.bitmapWordIndex := fun es hes =>
      head_entriesFrom_le (h es hes) (hleast (entriesFrom n es) (mem_map_of_mem hes))
    have hle : n ≤ cur.bitmapWordIndex := by
      obtain ⟨fs, hfs, e, he, heq⟩ := hfound
      obtain ⟨es, hes, rfl⟩ := mem_map.mp hfs
      rw [← heq]
      exact (mem_entriesFrom.mp (mem_of_head? he)).2
    have hskip : bitmaps.map (entriesFrom n) = bitmaps.map (entriesFrom cur.bitmapWordIndex) :=
      map_congr_left (fun es hes => entriesFrom_eq hle (hall es hes))
    have hrest : (bitmaps.map (entriesFrom cur.bitmapWordIndex)).map
        (fun es => (takeWord cur.bitmapWordIndex es).2) =
          bitmaps.map (entriesFrom (cur.bitmapWordIndex + 1)) := by
      rw [List.map_map]
      apply map_congr_left
      intro es hes
      rw [Function.comp_apply, takeWord_entriesFrom (h es hes)]
    rw [hskip, headsWord_entriesFrom h] at hword
    refine ⟨cur.bitmapWordIndex, hle, hall, ?_⟩
    rw [hsome, ← hword, hskip, hrest]

/-- An iterator that has got everything from some position on to come. -/
def Pending (bitmaps : List (List Entry)) (n : Nat) (next : Option Entry) (its : List (List Entry)) :
    Prop := unionNext (bitmaps.map (entriesFrom n)) = (next, its)

theorem unionWord_eq_zero (h : ∀ es ∈ bitmaps, ∀ e ∈ es, e.bitmapWordIndex ≠ n) :
    unionWord bitmaps n = 0 := by
  induction bitmaps with
  | nil => rfl
  | cons es bitmaps ih =>
    obtain ⟨hes, hrest⟩ := forall_mem_cons.mp h
    rw [unionWord, wordAt_eq_zero hes, ih hrest, word_or_zero]

theorem Pending.consume (h : ∀ es ∈ bitmaps, Sorted es) {next : Option Entry}
    (hpending : Pending bitmaps n next its) :
    (consumePending n next its).1 = unionWord bitmaps n ∧
      Pending bitmaps (n + 1) (consumePending n next its).2.1 (consumePending n next its).2.2 := by
  have hskip (hno : ∀ es ∈ bitmaps, ∀ e ∈ es, e.bitmapWordIndex ≠ n) :
      bitmaps.map (entriesFrom (n + 1)) = bitmaps.map (entriesFrom n) :=
    (map_congr_left (fun es hes => entriesFrom_eq (Nat.le_succ n) (fun e he hle =>
      Nat.lt_of_le_of_ne hle (hno es hes e he).symm))).symm
  rw [Pending] at hpending ⊢
  rcases unionNext_entriesFrom h n with ⟨hall, hnone⟩ | ⟨m, hle, hall, hsome⟩
  · cases hnone.symm.trans hpending
    have hno : ∀ es ∈ bitmaps, ∀ e ∈ es, e.bitmapWordIndex ≠ n :=
      fun es hes e he => (hall es hes e he).ne
    rw [consumePending, unionWord_eq_zero hno, hskip hno]
    exact ⟨rfl, hnone⟩
  · cases hsome.symm.trans hpending
    rw [consumePending]
    rcases lt_or_eq_of_le hle with hlt | rfl
    · have hno : ∀ es ∈ bitmaps, ∀ e ∈ es, e.bitmapWordIndex ≠ n := by
        rintro es hes e he rfl
        have := hall es hes e he (le_refl _)
        omega
      rw [if_neg hlt.ne', unionWord_eq_zero hno, hskip hno]
      exact ⟨rfl, hsome⟩
    · rw [if_pos rfl]
      exact ⟨rfl, rfl⟩

end Pending

structure WordIter.At (it : WordIter) (a : AllocBitmap) (allocs frees : List (List Entry)) (n : Nat) :
    Prop where
  bitmap_eq : it.bitmap = a
  index_eq : it.nextBitmapWordIndex = n
  allocs_pending : Pending allocs n it.nextPendingAlloc it.pendingAllocsIter
  frees_pending : Pending frees n it.nextPendingFree it.pendingFreesIter

section Words

variable {a : AllocBitmap} {allocs frees : List (List Entry)}

theorem unionIterAt_eq {bitmaps : List (List Entry)} (h : ∀ es ∈ bitmaps, Sorted es) (n : Nat) :
    unionIterAt bitmaps n = bitmaps.map (entriesFrom n) := by
  apply map_congr_left
  intro es hes
  have hsorted := h es hes
  have hdrop : es.drop (es.takeWhile (fun e => e.bitmapWordIndex < n)).length = entriesFrom n es := by
    clear h hes
    induction es with
    | nil => rfl
    | cons e es ih =>
      obtain ⟨hhead, htail⟩ := pairwise_cons.mp hsorted
      by_cases hlt : e.bitmapWordIndex < n
      · rw [takeWhile_cons_of_pos (by simpa using hlt), length_cons, drop_succ_cons,
          ih htail, entriesFrom, entriesFrom, filter_cons_of_neg (by simpa using hlt)]
      · have hall : ∀ f ∈ e :: es, n ≤ f.bitmapWordIndex := by
          intro f hf
          rcases mem_cons.mp hf with rfl | hf
          · exact Nat.le_of_not_lt hlt
          · exact le_trans (Nat.le_of_not_lt hlt) (hhead f hf).le
        rw [takeWhile_cons_of_neg (by simpa using hlt), length_nil, drop_zero,
          entriesFrom, filter_eq_self.mpr (fun f hf => decide_eq_true (hall f hf))]
  have hposition : findEntryPosition es n =
        .ok (es.takeWhile (fun e => e.bitmapWordIndex < n)).length ∨
      findEntryPosition es n = .error (es.takeWhile (fun e => e.bitmapWordIndex < n)).length := by
    rw [findEntryPosition]
    cases es[(es.takeWhile (fun e => e.bitmapWordIndex < n)).length]? with
    | none => exact .inr rfl
    | some e =>
      by_cases heq : e.bitmapWordIndex = n
      · left
        simp only [heq, if_true]
      · right
        simp only [heq, if_false]
  rw [← hdrop]
  rcases hposition with hok | herror
  · rw [hok]
  · rw [herror]

theorem newAtBitmapWordIndex_at (a : AllocBitmap) (ha : ∀ es ∈ allocs, Sorted es)
    (hf : ∀ es ∈ frees, Sorted es) (n : Nat) :
    (WordIter.newAtBitmapWordIndex a allocs frees n).At a allocs frees n := by
  have hzero (bitmaps : List (List Entry)) : bitmaps.map (entriesFrom 0) = bitmaps := by
    calc bitmaps.map (entriesFrom 0) = bitmaps.map id :=
          map_congr_left (fun es _ => entriesFrom_zero es)
      _ = bitmaps := map_id _
  rw [WordIter.newAtBitmapWordIndex]
  by_cases hn : n = 0
  · rw [if_pos hn, hn]
    exact ⟨rfl, rfl, by rw [Pending, hzero], by rw [Pending, hzero]⟩
  · rw [if_neg hn, unionIterAt_eq ha, unionIterAt_eq hf]
    exact ⟨rfl, rfl, rfl, rfl⟩

theorem WordIter.At.next {it : WordIter} (ha : ∀ es ∈ allocs, Sorted es)
    (hf : ∀ es ∈ frees, Sorted es) (h : it.At a allocs frees n) :
    if n < a.bitmap.length then
      ∃ it', it.next = (some (n, combinedWord a allocs frees n), it') ∧ it'.At a allocs frees (n + 1)
    else it.next = (none, it) := by
  obtain ⟨rfl, rfl, hallocs, hfrees⟩ := h
  rw [WordIter.next]
  split
  · rename_i hlt
    obtain ⟨hallocsWord, hallocsNext⟩ := hallocs.consume ha
    obtain ⟨hfreesWord, hfreesNext⟩ := hfrees.consume hf
    rw [if_neg (Nat.not_le_of_lt hlt), combinedWord, ← hallocsWord, ← hfreesWord]
    exact ⟨_, rfl, rfl, rfl, hallocsNext, hfreesNext⟩
  · rename_i hge
    rw [if_pos (Nat.le_of_not_lt hge)]

theorem WordIter.At.take {it : WordIter} (ha : ∀ es ∈ allocs, Sorted es)
    (hf : ∀ es ∈ frees, Sorted es) (h : it.At a allocs frees n) (count : Nat) :
    WordIter.take count it = (List.range' n (min count (a.bitmap.length - n))).map
      (fun i => (i, combinedWord a allocs frees i)) := by
  induction count generalizing it n with
  | zero =>
    rw [WordIter.take, Nat.zero_min]
    rfl
  | succ count ih =>
    have hnext := h.next ha hf
    split at hnext
    · rename_i hlt
      obtain ⟨it', hit, hat⟩ := hnext
      have hcount : min (count + 1) (a.bitmap.length - n) =
          min count (a.bitmap.length - (n + 1)) + 1 := by omega
      rw [WordIter.take, hit]
      dsimp only
      rw [ih hat, hcount, range'_succ, map_cons]
    · rename_i hge
      have hcount : min (count + 1) (a.bitmap.length - n) = 0 := by omega
      rw [WordIter.take, hnext, hcount]
      rfl

end Words

end CocoonFs.BitmapWordIters
