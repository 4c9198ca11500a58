import CocoonFs.FindFreeBlock

namespace CocoonFs.FindFreeSubDoublewordChunk

open Bitmap BitmapWordIters Checked FindFreeBlock FreeChunks BitVec
open CacheSet (subU32)

/-- What a chunk extends into one of two words by, the other one being covered as a
whole. -/
structure SubwordRem where
  allocationBlocks : Nat
  freeHeadWordMask : BitmapWord
  freeTailWordMask : BitmapWord

def SubwordRem.new (chunkAllocationBlocks : Nat) : SubwordRem :=
  let rem := chunkAllocationBlocks - 64
  ⟨rem, trailingBitsMask rem, trailingBitsMask rem <<< (64 - rem)⟩

structure FoundCandidate where
  bitmapWordIndex : Nat
  firstBitmapWord : BitmapWord
  excessAllocationBlocks : Nat

structure DoublewordSearch where
  previousBitmapWord : Option BitmapWord
  best : Option FoundCandidate
  remainingDistance : Nat

def DoublewordSearch.armed (s : DoublewordSearch) : Nat :=
  if s.best.isNone then placementOptimizationSearchDistanceBitmapWords else s.remainingDistance

def DoublewordSearch.updateBest (i : Nat) (first : BitmapWord) (excess : Nat)
    (s : DoublewordSearch) : Outcome DoublewordSearch :=
  if ∀ c ∈ s.best, excess < c.excessAllocationBlocks then
    let s := { s with best := some ⟨i, first, excess⟩, remainingDistance := s.armed }
    if excess = 0 then .stop s else .next s
  else .next s

def examineFreeWord (pr : Profile) (rem : SubwordRem) (optimizePlacement : Bool) (i : Nat)
    (s : DoublewordSearch) : Comp (Outcome DoublewordSearch) :=
  match s.previousBitmapWord with
  | none => .ok (.next s)
  | some previous => do
    let i ← subU64 pr i 1
    if previous = 0 then
      if optimizePlacement = false then pure (.found (i * 64))
      else if s.best.isNone then
        pure (.next { s with
          best := some ⟨i, 0, 64 - rem.allocationBlocks⟩
          remainingDistance := placementOptimizationSearchDistanceBitmapWords })
      else pure (.next s)
    else do
      debugAssert pr (previous &&& rem.freeTailWordMask = 0)
      if optimizePlacement = false then
        pure (.found (i * 64 + (previous &&& rem.freeTailWordMask).ctz.toNat))
      else do
        let excess ← subU32 pr previous.clz.toNat rem.allocationBlocks
        pure (s.updateBest i previous excess)

def examineFreeHead (pr : Profile) (rem : SubwordRem) (optimizePlacement : Bool) (i : Nat)
    (w : BitmapWord) (s : DoublewordSearch) : Comp (Outcome DoublewordSearch) :=
  if s.previousBitmapWord = some 0 then do
    let i ← subU64 pr i 1
    if optimizePlacement = false then pure (.found (i * 64))
    else do
      let excess ← subU32 pr w.ctz.toNat rem.allocationBlocks
      pure (s.updateBest i 0 excess)
  else .ok (.next s)

def withPrevious (previous : Option BitmapWord) :
    Outcome DoublewordSearch → Outcome DoublewordSearch
  | .next s => .next { s with previousBitmapWord := previous }
  | outcome => outcome

def doublewordSearchStep (pr : Profile) (b : SearchedBitmap) (rem : SubwordRem)
    (optimizePlacement : Bool) (i : Nat) (w : BitmapWord) (s : DoublewordSearch) :
    Comp (Outcome DoublewordSearch) := do
  let remaining ← subU64 pr s.remainingDistance 1
  let s := { s with remainingDistance := remaining }
  if remaining = 0 then do
    debugAssert pr (optimizePlacement = true ∧ s.best.isSome = true)
    pure (.stop s)
  else
    let w := b.imageWord i w
    if w = ~~~0 then pure (.next { s with previousBitmapWord := none })
    else if w = 0 then do
      let outcome ← examineFreeWord pr rem optimizePlacement i s
      pure (withPrevious (some 0) outcome)
    else
      let previous := if w &&& rem.freeTailWordMask = 0 then some w else none
      if w &&& rem.freeHeadWordMask = 0 then do
        let outcome ← examineFreeHead pr rem optimizePlacement i w s
        pure (withPrevious previous outcome)
      else pure (.next { s with previousBitmapWord := previous })

def doublewordSearchLoop (pr : Profile) (b : SearchedBitmap) (rem : SubwordRem)
    (optimizePlacement : Bool) :
    List (Nat × BitmapWord) → DoublewordSearch → Comp (Outcome DoublewordSearch)
  | [], s => .ok (.next s)
  | (i, w) :: items, s => do
    let outcome ← doublewordSearchStep pr b rem optimizePlacement i w s
    match outcome with
    | .next s => doublewordSearchLoop pr b rem optimizePlacement items s
    | outcome => pure outcome

def DoublewordSearch.select (rem : SubwordRem) (s : DoublewordSearch) : Option Nat :=
  s.best.map (fun c =>
    let chunkBeginInFullwordBlock :=
      if c.firstBitmapWord = 0 then 0 else 64 - rem.allocationBlocks
    c.bitmapWordIndex * 64 + chunkBeginInFullwordBlock)

def findFreeSubDoublewordChunk (pr : Profile) (b : SearchedBitmap) (chunkAllocationBlocks : Nat)
    (optimizePlacement : Bool) : Comp (Option Nat) := do
  debugAssert pr (64 < chunkAllocationBlocks)
  debugAssert pr (chunkAllocationBlocks < 128)
  let rem := SubwordRem.new chunkAllocationBlocks
  let outcome ← doublewordSearchLoop pr b rem optimizePlacement
    (WordIter.take b.imageBitmapWords (b.wordIterAt 0)) ⟨none, none, b.imageBitmapWords + 1⟩
  match outcome with
  | .found chunk => pure (some chunk)
  | .stop s => pure (s.select rem)
  | .next s => pure (s.select rem)

theorem zero_and_word (w : BitmapWord) : 0 &&& w = 0 := zero_and

def freeWordAt (b : SearchedBitmap) (i : Nat) : BitmapWord := b.imageWord i (b.word i)

/-- Two words with enough free blocks in a row, all of the blocks of either of the two
included. -/
def Pair (b : SearchedBitmap) (rem : SubwordRem) (i : Nat) : Prop :=
  i + 1 < b.imageBitmapWords ∧
    (freeWordAt b i = 0 ∧ freeWordAt b (i + 1) &&& rem.freeHeadWordMask = 0 ∨
      freeWordAt b i &&& rem.freeTailWordMask = 0 ∧ freeWordAt b (i + 1) = 0)

def previousWordAt (b : SearchedBitmap) (rem : SubwordRem) : Nat → Option BitmapWord
  | 0 => none
  | i + 1 =>
    if freeWordAt b i &&& rem.freeTailWordMask = 0 then some (freeWordAt b i) else none

section Masks

variable {n : Nat} (hn : 64 < n) (hn' : n < 128)
include hn hn'

theorem and_head_iff (w : BitmapWord) :
    w &&& (SubwordRem.new n).freeHeadWordMask = 0 ↔ ∀ p < n - 64, w.getLsbD p = false := by
  rw [SubwordRem.new]
  constructor
  · intro h p hp
    have hbit := congrArg (fun x : BitmapWord => x.getLsbD p) h
    simp only [getLsbD_and, getLsbD_trailingBitsMask (show n - 64 ≤ 64 by omega)] at hbit
    simpa [hp] using hbit
  · intro h
    apply eq_of_getLsbD_eq
    intro p hp
    rw [getLsbD_and, getLsbD_trailingBitsMask (by omega)]
    by_cases hlt : p < n - 64
    · rw [h p hlt, Bool.false_and]
      exact getLsbD_zero.symm
    · rw [decide_eq_false hlt, Bool.and_false]
      exact getLsbD_zero.symm

theorem and_tail_iff (w : BitmapWord) :
    w &&& (SubwordRem.new n).freeTailWordMask = 0 ↔
      ∀ p < 64, 128 - n ≤ p → w.getLsbD p = false := by
  have hmask (p : Nat) (hp : p < 64) :
      ((SubwordRem.new n).freeTailWordMask).getLsbD p = decide (128 - n ≤ p) := by
    rw [SubwordRem.new, getLsbD_shiftLeft, getLsbD_trailingBitsMask (by omega),
      decide_eq_true hp, Bool.true_and, ← decide_not, ← Bool.decide_and, decide_eq_decide]
    omega
  constructor
  · intro h p hp hle
    have hbit := congrArg (fun x : BitmapWord => x.getLsbD p) h
    simp only [getLsbD_and, hmask p hp, decide_eq_true hle] at hbit
    simpa using hbit
  · intro h
    apply eq_of_getLsbD_eq
    intro p hp
    rw [getLsbD_and, hmask p hp]
    by_cases hle : 128 - n ≤ p
    · rw [h p hp hle, Bool.false_and]
      exact getLsbD_zero.symm
    · rw [decide_eq_false hle, Bool.and_false]
      exact getLsbD_zero.symm

end Masks

section Search

variable (pr : Profile) {b : SearchedBitmap} {n m : Nat} {opt : Bool} {s : DoublewordSearch}

/-- What is known once the words before some position have been looked at. -/
structure DoublewordSearch.Ok (b : SearchedBitmap) (rem : SubwordRem) (opt : Bool) (m : Nat)
    (s : DoublewordSearch) : Prop where
  previous_eq : s.previousBitmapWord = previousWordAt b rem m
  none_before : s.best = none → ∀ i, i + 1 < m → ¬Pair b rem i
  distance_eq : s.best = none → s.remainingDistance = b.imageBitmapWords + 1 - m
  distance_pos : 0 < s.remainingDistance
  best : ∀ c ∈ s.best, opt = true ∧ Pair b rem c.bitmapWordIndex ∧
    c.firstBitmapWord = freeWordAt b c.bitmapWordIndex

/-- Where the chunk at the first pair is taken to begin if the placement isn't to be
optimized. -/
def firstFitBegin (b : SearchedBitmap) (i : Nat) : Nat :=
  if freeWordAt b i = 0 then i * 64 else (i + 1) * 64

def FirstPair (b : SearchedBitmap) (rem : SubwordRem) (i : Nat) : Prop :=
  Pair b rem i ∧ ∀ j < i, ¬Pair b rem j

def OutcomeOk (b : SearchedBitmap) (rem : SubwordRem) (opt : Bool) (m : Nat) :
    Outcome DoublewordSearch → Prop
  | .found chunk => opt = false ∧ ∃ i, FirstPair b rem i ∧ chunk = firstFitBegin b i
  | .stop s => ∃ c ∈ s.best, opt = true ∧ Pair b rem c.bitmapWordIndex ∧
      c.firstBitmapWord = freeWordAt b c.bitmapWordIndex
  | .next s => s.Ok b rem opt m

variable {i : Nat} {rem : SubwordRem}

/-- Nothing has been found yet if the search goes on without optimizing the
placement. -/
theorem DoublewordSearch.Ok.firstPair (h : s.Ok b rem opt (i + 1))
    (hopt : opt = false) (hpair : Pair b rem i) : FirstPair b rem i := by
  refine ⟨hpair, fun j hj => h.none_before ?_ j (by omega)⟩
  cases hbest : s.best with
  | none => rfl
  | some c =>
    have := (h.best c hbest).1
    rw [hopt] at this
    cases this

variable {previous : Option BitmapWord}

/-- The search goes on past a word that doesn't make a pair with the one before. -/
theorem next_ok (h : s.Ok b rem opt m) (hpair : ∀ i, i + 1 = m → ¬Pair b rem i)
    {distance : Nat} (hdistance : distance + 1 = s.remainingDistance) (hpos : 0 < distance)
    (hprevious : previous = previousWordAt b rem (m + 1)) :
    DoublewordSearch.Ok b rem opt (m + 1) ⟨previous, s.best, distance⟩ := by
  refine ⟨hprevious, fun hbest i hi => ?_, fun hbest => ?_, hpos, h.best⟩
  · rcases lt_or_eq_of_le (Nat.le_of_lt_succ hi) with hlt | heq
    · exact h.none_before hbest i hlt
    · exact hpair i heq
  · have heq := h.distance_eq hbest
    dsimp only
    omega

/-- The search goes on past a pair, or it ends there, with the best one so far. -/
theorem updateBest_ok {excess distance : Nat}
    (h : s.Ok b rem opt (i + 1)) (hopt : opt = true) (hpair : Pair b rem i)
    {first : BitmapWord} (hfirst : first = freeWordAt b i) (hpos : 0 < distance)
    (hprevious : previous = previousWordAt b rem (i + 1 + 1)) :
    OutcomeOk b rem opt (i + 1 + 1) (withPrevious previous
      (DoublewordSearch.updateBest i first excess ⟨s.previousBitmapWord, s.best, distance⟩)) := by
  have hcandidate : ∀ c ∈ some (FoundCandidate.mk i first excess), opt = true ∧
      Pair b rem c.bitmapWordIndex ∧ c.firstBitmapWord = freeWordAt b c.bitmapWordIndex := by
    intro c hc
    obtain rfl := Option.mem_some_iff.mp hc
    exact ⟨hopt, hpair, hfirst⟩
  rw [DoublewordSearch.updateBest]
  split
  · split
    · exact ⟨_, rfl, hcandidate _ rfl⟩
    · refine ⟨hprevious, fun hbest => (by cases hbest), fun hbest => (by cases hbest), ?_, hcandidate⟩
      dsimp only [DoublewordSearch.armed]
      split
      · exact Nat.succ_pos _
      · exact hpos
  · rename_i hbetter
    have hsome : s.best ≠ none := by
      intro hnone
      apply hbetter
      intro c hc
      rw [hnone] at hc
      cases hc
    exact ⟨hprevious, fun hbest => absurd hbest hsome, fun hbest => absurd hbest hsome, hpos, h.best⟩

theorem pair_iff (hi : i + 1 < b.imageBitmapWords) :
    Pair b (SubwordRem.new n) i ↔
      freeWordAt b i = 0 ∧ freeWordAt b (i + 1) &&& (SubwordRem.new n).freeHeadWordMask = 0 ∨
        freeWordAt b (i + 1) = 0 ∧ previousWordAt b (SubwordRem.new n) (i + 1) = some (freeWordAt b i) := by
  rw [Pair, previousWordAt, and_iff_right hi]
  apply or_congr_right
  by_cases htail : freeWordAt b i &&& (SubwordRem.new n).freeTailWordMask = 0
  · rw [if_pos htail]
    exact ⟨fun h => ⟨h.2, rfl⟩, fun h => ⟨htail, h.1⟩⟩
  · rw [if_neg htail]
    exact ⟨fun h => absurd h.1 htail, fun h => by cases h.2⟩

section Words

variable (hn : 64 < n) (hn' : n < 128)
include hn hn'

theorem le_clz {w : BitmapWord} (hw : w ≠ 0) (h : w &&& (SubwordRem.new n).freeTailWordMask = 0) :
    (SubwordRem.new n).allocationBlocks ≤ w.clz.toNat := by
  by_contra hlt
  have hrem : (SubwordRem.new n).allocationBlocks = n - 64 := rfl
  have hbit := getLsbD_true_clz_of_ne_zero (by decide) hw
  rw [(and_tail_iff hn hn' w).mp h _ (by omega) (by omega)] at hbit
  cases hbit

theorem le_ctz {w : BitmapWord} (hw : w ≠ 0) (h : w &&& (SubwordRem.new n).freeHeadWordMask = 0) :
    (SubwordRem.new n).allocationBlocks ≤ w.ctz.toNat := by
  by_contra hlt
  have hrem : (SubwordRem.new n).allocationBlocks = n - 64 := rfl
  have hbit := getLsbD_true_ctz_of_ne_zero hw
  rw [(and_head_iff hn hn' w).mp h _ (by omega)] at hbit
  cases hbit

section

variable (h : s.Ok b (SubwordRem.new n) opt m) (hm : m < b.imageBitmapWords)
include h hm

theorem examineFreeWord_ok
    (hw : freeWordAt b m = 0) {distance : Nat} (hdistance : distance + 1 = s.remainingDistance)
    (hpos : 0 < distance) :
    ∃ outcome, examineFreeWord pr (SubwordRem.new n) opt m
        ⟨s.previousBitmapWord, s.best, distance⟩ = .ok outcome ∧
      OutcomeOk b (SubwordRem.new n) opt (m + 1) (withPrevious (some 0) outcome) := by
  have hprevious : some 0 = previousWordAt b (SubwordRem.new n) (m + 1) := by
    rw [previousWordAt, hw, zero_and_word, if_pos rfl]
  have hskip (hnone : previousWordAt b (SubwordRem.new n) m = none) :
      ∀ i, i + 1 = m → ¬Pair b (SubwordRem.new n) i := by
    rintro i rfl hpair
    rcases (pair_iff hm).mp hpair with ⟨hzero, -⟩ | ⟨-, hsome⟩
    · rw [previousWordAt, hzero, zero_and_word, if_pos rfl] at hnone
      cases hnone
    · rw [hnone] at hsome
      cases hsome
  rw [examineFreeWord]
  cases hprev : s.previousBitmapWord with
  | none =>
    refine ⟨_, rfl, ?_⟩
    exact next_ok h (hskip (h.previous_eq.symm.trans hprev)) hdistance hpos hprevious
  | some previous =>
    have heq := h.previous_eq.symm.trans hprev
    cases m with
    | zero => cases heq
    | succ i =>
      have htail : freeWordAt b i &&& (SubwordRem.new n).freeTailWordMask = 0 := by
        by_contra htail
        rw [previousWordAt, if_neg htail] at heq
        cases heq
      obtain rfl : freeWordAt b i = previous := by
        rw [previousWordAt, if_pos htail] at heq
        exact Option.some.inj heq
      have hpair : Pair b (SubwordRem.new n) i :=
        (pair_iff hm).mpr (.inr ⟨hw, heq⟩)
      dsimp only
      rw [subU64_ok pr (Nat.le_add_left 1 i), ok_bind, Nat.add_sub_cancel]
      by_cases hzero : freeWordAt b i = 0
      · rw [if_pos hzero]
        cases opt with
        | false =>
          refine ⟨_, rfl, rfl, i, h.firstPair rfl hpair, ?_⟩
          rw [firstFitBegin, if_pos hzero]
        | true =>
          rw [if_neg (by decide)]
          cases hbest : s.best with
          | none =>
            refine ⟨_, rfl, hprevious, fun hbest => (by cases hbest),
              fun hbest => (by cases hbest), Nat.succ_pos _, ?_⟩
            intro c hc
            obtain rfl := Option.mem_some_iff.mp hc
            exact ⟨rfl, hpair, hzero.symm⟩
          | some c =>
            refine ⟨_, rfl, hprevious, fun hbest => (by cases hbest),
              fun hbest => (by cases hbest), hpos, ?_⟩
            exact hbest ▸ h.best
      · rw [if_neg hzero, debugAssert_ok pr htail, ok_bind]
        cases opt with
        | false =>
          refine ⟨_, rfl, rfl, i, h.firstPair rfl hpair, ?_⟩
          have hctz : (0 : BitmapWord).ctz.toNat = 64 := Lanes.ctz_zero
          rw [firstFitBegin, if_neg hzero, htail, hctz, Nat.succ_mul]
        | true =>
          have hle := le_clz hn hn' hzero htail
          have hclz : (freeWordAt b i).clz.toNat < 2 ^ 32 := by
            have hle' := clz_le (x := freeWordAt b i)
            exact lt_of_le_of_lt hle' (by decide)
          rw [if_neg (by decide), CacheRows.subU32_ok pr hle hclz, ok_bind]
          refine ⟨_, rfl, ?_⟩
          rw [← hprev]
          exact updateBest_ok h rfl hpair rfl hpos hprevious

theorem examineFreeHead_ok
    (hw : freeWordAt b m ≠ 0) (hhead : freeWordAt b m &&& (SubwordRem.new n).freeHeadWordMask = 0)
    {distance : Nat} (hdistance : distance + 1 = s.remainingDistance) (hpos : 0 < distance)
    (hprevious : previous = previousWordAt b (SubwordRem.new n) (m + 1)) :
    ∃ outcome, examineFreeHead pr (SubwordRem.new n) opt m (freeWordAt b m)
        ⟨s.previousBitmapWord, s.best, distance⟩ = .ok outcome ∧
      OutcomeOk b (SubwordRem.new n) opt (m + 1) (withPrevious previous outcome) := by
  rw [examineFreeHead]
  by_cases hprev : s.previousBitmapWord = some 0
  · rw [if_pos hprev]
    have heq := h.previous_eq.symm.trans hprev
    cases m with
    | zero => cases heq
    | succ i =>
      have hzero : freeWordAt b i = 0 := by
        rw [previousWordAt] at heq
        split at heq
        · exact Option.some.inj heq
        · cases heq
      have hpair : Pair b (SubwordRem.new n) i := (pair_iff hm).mpr (.inl ⟨hzero, hhead⟩)
      rw [subU64_ok pr (Nat.le_add_left 1 i), ok_bind, Nat.add_sub_cancel]
      cases opt with
      | false =>
        refine ⟨_, rfl, rfl, i, h.firstPair rfl hpair, ?_⟩
        rw [firstFitBegin, if_pos hzero]
      | true =>
        have hle := le_ctz hn hn' hw hhead
        have hlt := Lanes.ctz_lt hw
        rw [if_neg (by decide), CacheRows.subU32_ok pr hle (by omega), ok_bind]
        exact ⟨_, rfl, updateBest_ok h rfl hpair hzero.symm hpos hprevious⟩
  · rw [if_neg hprev]
    refine ⟨_, rfl, next_ok h ?_ hdistance hpos hprevious⟩
    rintro i rfl hpair
    rcases (pair_iff hm).mp hpair with ⟨hzero, -⟩ | ⟨hzero, -⟩
    · apply hprev
      rw [h.previous_eq, previousWordAt, hzero, zero_and_word, if_pos rfl]
    · exact hw hzero

theorem doublewordSearchStep_ok :
    ∃ outcome, doublewordSearchStep pr b (SubwordRem.new n) opt m (b.word m) s = .ok outcome ∧
      OutcomeOk b (SubwordRem.new n) opt (m + 1) outcome := by
  have hpos := h.distance_pos
  rw [doublewordSearchStep, subU64_ok pr hpos, ok_bind]
  by_cases hlast : s.remainingDistance - 1 = 0
  · rw [if_pos hlast]
    cases hbest : s.best with
    | none =>
      have := h.distance_eq hbest
      omega
    | some c =>
      have hc := h.best c hbest
      rw [debugAssert_ok pr ⟨hc.1, rfl⟩, ok_bind]
      exact ⟨_, rfl, c, rfl, hc⟩
  · rw [if_neg hlast]
    have hdistance : s.remainingDistance - 1 + 1 = s.remainingDistance := Nat.sub_add_cancel hpos
    have hpos' := pos_of_ne_zero hlast
    rw [← freeWordAt]
    by_cases hfull : freeWordAt b m = ~~~0
    · rw [if_pos hfull]
      refine ⟨_, rfl, next_ok h ?_ hdistance hpos' ?_⟩
      · rintro i rfl hpair
        rcases (pair_iff hm).mp hpair with ⟨-, hhead⟩ | ⟨hzero, -⟩
        · have hbit := (and_head_iff hn hn' _).mp hhead 0 (by omega)
          rw [hfull] at hbit
          exact absurd hbit (by decide)
        · rw [hfull] at hzero
          exact absurd hzero (by decide)
      · rw [previousWordAt, if_neg]
        intro htail
        have hbit := (and_tail_iff hn hn' _).mp htail 63 (by decide) (by omega)
        rw [hfull] at hbit
        exact absurd hbit (by decide)
    · rw [if_neg hfull]
      by_cases hzero : freeWordAt b m = 0
      · rw [if_pos hzero]
        obtain ⟨outcome, hexamine, hok⟩ := examineFreeWord_ok pr hn hn' h hm hzero hdistance hpos'
        rw [hexamine, ok_bind]
        exact ⟨_, rfl, hok⟩
      · rw [if_neg hzero]
        have hprevious : (if freeWordAt b m &&& (SubwordRem.new n).freeTailWordMask = 0 then
            some (freeWordAt b m) else none) = previousWordAt b (SubwordRem.new n) (m + 1) := rfl
        by_cases hhead : freeWordAt b m &&& (SubwordRem.new n).freeHeadWordMask = 0
        · obtain ⟨outcome, hexamine, hok⟩ := examineFreeHead_ok pr hn hn' h hm hzero hhead
            hdistance hpos' hprevious
          rw [if_pos hhead, hexamine, ok_bind]
          exact ⟨_, rfl, hok⟩
        · rw [if_neg hhead]
          refine ⟨_, rfl, next_ok h ?_ hdistance hpos' hprevious⟩
          rintro i rfl hpair
          rcases (pair_iff hm).mp hpair with ⟨-, hhead'⟩ | ⟨hzero', -⟩
          · exact hhead hhead'
          · exact hzero hzero'

end

theorem doublewordSearchLoop_ok (count : Nat) (h : s.Ok b (SubwordRem.new n) opt m)
    (hm : m + count = b.imageBitmapWords) :
    ∃ outcome, doublewordSearchLoop pr b (SubwordRem.new n) opt
        ((List.range' m count).map (fun i => (i, b.word i))) s = .ok outcome ∧
      OutcomeOk b (SubwordRem.new n) opt b.imageBitmapWords outcome := by
  induction count generalizing m s with
  | zero =>
    refine ⟨.next s, rfl, ?_⟩
    rw [← hm]
    exact h
  | succ count ih =>
    obtain ⟨outcome, hstep, hok⟩ := doublewordSearchStep_ok pr hn hn' h (by omega)
    rw [List.range'_succ, List.map_cons, doublewordSearchLoop, hstep, ok_bind]
    cases outcome with
    | found chunk => exact ⟨_, rfl, hok⟩
    | stop s' => exact ⟨_, rfl, hok⟩
    | next s' => exact ih hok (by omega)

end Words

inductive Found (b : SearchedBitmap) (n : Nat) : Bool → Option Nat → Prop
  | none (opt : Bool) (h : ∀ i, ¬Pair b (SubwordRem.new n) i) : Found b n opt none
  | firstFit {i : Nat} (h : FirstPair b (SubwordRem.new n) i) :
      Found b n false (some (firstFitBegin b i))
  | best {i : Nat} (h : Pair b (SubwordRem.new n) i) :
      Found b n true (some (i * 64 + if freeWordAt b i = 0 then 0 else 128 - n))

theorem findFreeSubDoublewordChunk_ok (hvalid : b.Valid) (hn : 64 < n)
    (hn' : n < 128) (opt : Bool) :
    ∃ r, findFreeSubDoublewordChunk pr b n opt = .ok r ∧ Found b n opt r := by
  have hcovered := hvalid.covered
  have hwords : WordIter.take b.imageBitmapWords (b.wordIterAt 0) =
      (List.range' 0 b.imageBitmapWords).map (fun i => (i, b.word i)) := by
    have hat := newAtBitmapWordIndex_at b.bitmap hvalid.allocs_sorted hvalid.frees_sorted 0
    rw [SearchedBitmap.wordIterAt, hat.take hvalid.allocs_sorted hvalid.frees_sorted,
      min_eq_left (by rw [SearchedBitmap.imageBitmapWords]; omega)]
    rfl
  have hstart : DoublewordSearch.Ok b (SubwordRem.new n) opt 0 ⟨none, none, b.imageBitmapWords + 1⟩ :=
    ⟨rfl, fun _ i hi => absurd hi (Nat.not_lt_zero _), fun _ => rfl, Nat.succ_pos _,
      fun c hc => by cases hc⟩
  have hselect (c : FoundCandidate) (hopt : opt = true)
      (hpair : Pair b (SubwordRem.new n) c.bitmapWordIndex)
      (hfirst : c.firstBitmapWord = freeWordAt b c.bitmapWordIndex) :
      Found b n opt (some (c.bitmapWordIndex * 64 + if c.firstBitmapWord = 0 then 0 else
        64 - (SubwordRem.new n).allocationBlocks)) := by
    have hbegin : 64 - (SubwordRem.new n).allocationBlocks = 128 - n := by
      have hrem : (SubwordRem.new n).allocationBlocks = n - 64 := rfl
      omega
    rw [hopt, hfirst, hbegin]
    exact .best hpair
  obtain ⟨outcome, hloop, hok⟩ := doublewordSearchLoop_ok pr hn hn' b.imageBitmapWords hstart
    (zero_add _)
  rw [findFreeSubDoublewordChunk, debugAssert_ok pr hn, ok_bind, debugAssert_ok pr hn', ok_bind]
  dsimp only
  rw [hwords, hloop, ok_bind]
  cases outcome with
  | found chunk =>
    obtain ⟨rfl, i, hfirst, rfl⟩ := hok
    exact ⟨_, rfl, .firstFit hfirst⟩
  | stop s =>
    obtain ⟨c, hc, hopt, hpair, hfirst⟩ := hok
    refine ⟨_, rfl, ?_⟩
    rw [DoublewordSearch.select, Option.mem_def.mp hc]
    exact hselect c hopt hpair hfirst
  | next s =>
    refine ⟨_, rfl, ?_⟩
    rw [DoublewordSearch.select]
    cases hbest : s.best with
    | none => exact .none opt (fun i hpair => hok.none_before hbest i hpair.1 hpair)
    | some c =>
      obtain ⟨hopt, hpair, hfirst⟩ := hok.best c hbest
      exact hselect c hopt hpair hfirst

end Search

section Correctness

variable {b : SearchedBitmap} {n : Nat}

structure FreeDoublewordChunk (b : SearchedBitmap) (n s : Nat) : Prop where
  aligned : ∀ a, 2 ^ a ∣ n → 2 ^ a ∣ s
  in_image : s + n ≤ b.imageSize
  free : ∀ j < n, b.IsFree (s + j)

def FoundAlike (pr : Profile) (b : SearchedBitmap) (n : Nat) : Prop :=
  ∃ r r', findFreeSubDoublewordChunk pr b n true = .ok r ∧
    findFreeSubDoublewordChunk pr b n false = .ok r' ∧ r.isSome = r'.isSome

/-- The first pair isn't one with a chunk that begins in the middle of a word, or else
there happen to be enough free blocks after the pair. -/
def FirstFitOk (b : SearchedBitmap) (n : Nat) : Prop :=
  ∀ i, FirstPair b (SubwordRem.new n) i → freeWordAt b i = 0 ∨
    i + 2 < b.imageBitmapWords ∧ freeWordAt b (i + 2) &&& (SubwordRem.new n).freeHeadWordMask = 0

theorem freeWordAt_clear_iff (hvalid : b.Valid) {i p : Nat} (hi : i < b.imageBitmapWords)
    (hp : p < 64) : (freeWordAt b i).getLsbD p = false ↔ b.IsFree (i * 64 + p) := by
  have hblock : 64 * i + p = i * 64 + p := by omega
  constructor
  · intro hclear
    have hfree := (hvalid.freeWord hi).free p hp hclear
    rwa [hblock] at hfree
  · rintro ⟨hlt, hclear⟩
    have hlen := b.bitmap.length_le
    have hcovered := hvalid.covered
    have hdiv : (i * 64 + p) / 64 = i := by omega
    have hmod : (i * 64 + p) % 64 = p := by omega
    rw [hdiv, hmod] at hclear
    rw [freeWordAt, SearchedBitmap.imageWord]
    split
    next hlast =>
      rw [getLsbD_or, hclear, Bool.false_or, getLsbD_excessBitsMask (by omega) (by omega) hp,
        ← hlast, decide_eq_false_iff_not]
      omega
    · exact hclear

theorem freeDoublewordChunk_of_free (hn : 64 < n) {s : Nat} (haligned : ∀ a, 2 ^ a ∣ n → 2 ^ a ∣ s)
    (hfree : ∀ j < n, b.IsFree (s + j)) : FreeDoublewordChunk b n s := by
  refine ⟨haligned, ?_, hfree⟩
  have hlast := (hfree (n - 1) (by omega)).1
  omega

section Pairs

variable (hvalid : b.Valid) (hn : 64 < n) (hn' : n < 128)
include hvalid hn hn'

omit hvalid in
theorem pow_dvd_word {a : Nat} (ha : 2 ^ a ∣ n) : 2 ^ a ∣ 64 := by
  have hle : a ≤ 6 := by
    by_contra hlt
    have hdvd : 2 ^ 7 ∣ n := (pow_dvd_pow 2 (by omega)).trans ha
    omega
  exact pow_dvd_pow 2 hle

variable {i : Nat}

theorem headChunk_iff (hi : i < b.imageBitmapWords) (hzero : freeWordAt b i = 0) :
    FreeDoublewordChunk b n (i * 64) ↔ i + 1 < b.imageBitmapWords ∧
      freeWordAt b (i + 1) &&& (SubwordRem.new n).freeHeadWordMask = 0 := by
  rw [and_head_iff hn hn']
  constructor
  · intro h
    have hlast := (h.free (n - 1) (by omega)).1
    have hi' : i + 1 < b.imageBitmapWords := by
      rw [SearchedBitmap.imageBitmapWords]
      omega
    refine ⟨hi', fun p hp => (freeWordAt_clear_iff hvalid hi' (by omega)).mpr ?_⟩
    have hfree := h.free (64 + p) (by omega)
    have hblock : i * 64 + (64 + p) = (i + 1) * 64 + p := by omega
    rwa [hblock] at hfree
  · rintro ⟨hi', hhead⟩
    apply freeDoublewordChunk_of_free hn
    · intro a ha
      exact Dvd.dvd.mul_left (pow_dvd_word hn hn' ha) i
    · intro j hj
      rcases lt_or_ge j 64 with hlt | hge
      · refine (freeWordAt_clear_iff hvalid hi hlt).mp ?_
        rw [hzero]
        exact getLsbD_zero
      · have hfree := (freeWordAt_clear_iff hvalid hi' (by omega)).mp (hhead (j - 64) (by omega))
        have hblock : (i + 1) * 64 + (j - 64) = i * 64 + j := by omega
        rwa [hblock] at hfree

/-- The chunk begins in the middle of a word and ends with one free as a whole. -/
theorem tailChunk (hi : i + 1 < b.imageBitmapWords)
    (htail : freeWordAt b i &&& (SubwordRem.new n).freeTailWordMask = 0)
    (hzero : freeWordAt b (i + 1) = 0) : FreeDoublewordChunk b n (i * 64 + (128 - n)) := by
  rw [and_tail_iff hn hn'] at htail
  apply freeDoublewordChunk_of_free hn
  · intro a ha
    have hdvd := pow_dvd_word hn hn' ha
    exact Nat.dvd_add (Dvd.dvd.mul_left hdvd i) (Nat.dvd_sub (Dvd.dvd.mul_left hdvd 2) ha)
  · intro j hj
    rcases lt_or_ge j (n - 64) with hlt | hge
    · have hfree := (freeWordAt_clear_iff hvalid (by omega) (by omega)).mp
        (htail (128 - n + j) (by omega) (by omega))
      rwa [← add_assoc] at hfree
    · have hclear : (freeWordAt b (i + 1)).getLsbD (j - (n - 64)) = false := by
        rw [hzero]
        exact getLsbD_zero
      have hfree := (freeWordAt_clear_iff hvalid hi (by omega)).mp hclear
      have hblock : (i + 1) * 64 + (j - (n - 64)) = i * 64 + (128 - n) + j := by omega
      rwa [hblock] at hfree

theorem bestChunk (hpair : Pair b (SubwordRem.new n) i) :
    FreeDoublewordChunk b n (i * 64 + if freeWordAt b i = 0 then 0 else 128 - n) := by
  obtain ⟨hi, hwords⟩ := hpair
  split
  next hzero =>
    refine (headChunk_iff hvalid hn hn' (by omega) hzero).mpr ⟨hi, ?_⟩
    rcases hwords with ⟨-, hhead⟩ | ⟨-, hnext⟩
    · exact hhead
    · rw [hnext, zero_and_word]
  next hne =>
    rcases hwords with ⟨hzero, -⟩ | ⟨htail, hnext⟩
    · exact absurd hzero hne
    · exact tailChunk hvalid hn hn' hi htail hnext

/-- A chunk that begins in the middle of a word is taken for one that begins with the
next word. -/
theorem firstFitChunk_iff (hpair : Pair b (SubwordRem.new n) i) :
    FreeDoublewordChunk b n (firstFitBegin b i) ↔ freeWordAt b i = 0 ∨
      i + 2 < b.imageBitmapWords ∧
        freeWordAt b (i + 2) &&& (SubwordRem.new n).freeHeadWordMask = 0 := by
  rw [firstFitBegin]
  by_cases hzero : freeWordAt b i = 0
  · have hchunk := bestChunk hvalid hn hn' hpair
    rw [if_pos hzero, add_zero] at hchunk
    rw [if_pos hzero]
    exact iff_of_true hchunk (.inl hzero)
  · obtain ⟨hi, hwords⟩ := hpair
    have hnext : freeWordAt b (i + 1) = 0 := by
      rcases hwords with ⟨hzero', -⟩ | ⟨-, hnext⟩
      · exact absurd hzero' hzero
      · exact hnext
    rw [if_neg hzero, headChunk_iff hvalid hn hn' hi hnext, or_iff_right hzero]

theorem foundAlike (pr : Profile) : FoundAlike pr b n := by
  obtain ⟨r, hr, hfound⟩ := findFreeSubDoublewordChunk_ok pr hvalid hn hn' true
  obtain ⟨r', hr', hfound'⟩ := findFreeSubDoublewordChunk_ok pr hvalid hn hn' false
  refine ⟨r, r', hr, hr', ?_⟩
  cases hfound with
  | none _ h =>
    cases hfound' with
    | none _ h' => rfl
    | firstFit h' => exact absurd h'.1 (h _)
  | best h =>
    cases hfound' with
    | none _ h' => exact absurd h (h' _)
    | firstFit h' => rfl

end Pairs

/-- The chunks found are free ones if and only if none is taken for one that begins a
word later, which doesn't happen if the placement is to be optimized. -/
theorem findFreeSubDoublewordChunk_correct_iff (pr : Profile) (hvalid : b.Valid) (hn : 64 < n)
    (hn' : n < 128) (opt : Bool) :
    ((∀ s, findFreeSubDoublewordChunk pr b n opt = .ok (some s) → FreeDoublewordChunk b n s) ∧
      FoundAlike pr b n) ↔ opt = true ∨ FirstFitOk b n := by
  obtain ⟨r, hr, hfound⟩ := findFreeSubDoublewordChunk_ok pr hvalid hn hn' opt
  rw [and_iff_left (foundAlike hvalid hn hn' pr), hr]
  cases hfound with
  | none _ h =>
    refine iff_of_true (fun s hs => by cases hs) (.inr (fun i hfirst => absurd hfirst.1 (h i)))
  | best h =>
    refine iff_of_true (fun s hs => ?_) (.inl rfl)
    cases hs
    exact bestChunk hvalid hn hn' h
  | @firstFit i h =>
    have hchunk := firstFitChunk_iff hvalid hn hn' h.1
    have honly : ∀ j, FirstPair b (SubwordRem.new n) j → j = i := by
      intro j hj
      rcases Nat.lt_trichotomy j i with hlt | heq | hgt
      · exact absurd hj.1 (h.2 j hlt)
      · exact heq
      · exact absurd h.1 (hj.2 i hgt)
    rw [or_iff_right Bool.false_ne_true]
    constructor
    · intro hfree j hj
      obtain rfl := honly j hj
      exact hchunk.mp (hfree _ rfl)
    · intro hok s hs
      cases hs
      exact hchunk.mpr (hok i h)

/-- The last block of the first word and all of the second one are free, but no others. -/
def tailBitmap : SearchedBitmap :=
  ⟨⟨[BitVec.allOnes 64 >>> 1, 0, BitVec.allOnes 64], by decide⟩, [], [], 192⟩

theorem tailBitmap_valid : tailBitmap.Valid :=
  ⟨fun es hes => (by cases hes), fun es hes => (by cases hes), by decide⟩

theorem findFreeSubDoublewordChunk_correct_iff_tail :
    ((∀ s, findFreeSubDoublewordChunk .debug tailBitmap 65 true = .ok (some s) →
      FreeDoublewordChunk tailBitmap 65 s) ∧ FoundAlike .debug tailBitmap 65) ↔
        true = true ∨ FirstFitOk tailBitmap 65 :=
  findFreeSubDoublewordChunk_correct_iff .debug tailBitmap_valid (by decide) (by decide) true

/-- The chunk that begins at block 63 is taken for one at block 64, which extends into
the third word. -/
theorem subDoublewordChunk_not_free :
    findFreeSubDoublewordChunk .debug tailBitmap 65 false = .ok (some 64) ∧
      findFreeSubDoublewordChunk .release tailBitmap 65 false = .ok (some 64) ∧
      ¬FreeDoublewordChunk tailBitmap 65 64 := by
  refine ⟨by decide +kernel, by decide +kernel, fun h => ?_⟩
  exact absurd (h.free 64 (by decide)) (by decide)

end Correctness

end CocoonFs.FindFreeSubDoublewordChunk
