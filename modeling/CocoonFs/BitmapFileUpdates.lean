import CocoonFs.BitmapFile
import CocoonFs.BitmapFileExtents
import CocoonFs.NodeLocation
import CocoonFs.SparseEntries

namespace CocoonFs.BitmapFileUpdates

open Checked Bitmap BitmapFile Extents ExtentsLookup Layout NodeLocation SparseEntries List Nat

def updateWords (pr : Profile) (a : AllocBitmap) (fileBlockBitmapWordsIndexOffset : Nat) :
    Nat → Nat → List Entry → List Entry → Comp (List BitmapWord × List Entry × List Entry)
  | 0, _, allocs, frees => .ok ([], allocs, frees)
  | k + 1, fileBlockBitmapWordIndex, allocs, frees => do
    let cur ← addU64 pr fileBlockBitmapWordsIndexOffset fileBlockBitmapWordIndex
    let (newAllocs, allocs) := takeWord cur allocs
    let (newFrees, frees) := takeWord cur frees
    -- Some block is getting both allocated and freed.
    if newFrees &&& newAllocs ≠ 0 then err .internal
    else do
      let updated := (a.word cur ||| newAllocs) &&& ~~~newFrees
      let (words, allocs, frees) ← updateWords pr a fileBlockBitmapWordsIndexOffset k
        (fileBlockBitmapWordIndex + 1) allocs frees
      pure (updated :: words, allocs, frees)

def nextModifiedWord : List Entry → List Entry → Option Nat
  | [], [] => none
  | e :: _, [] | [], e :: _ => some e.bitmapWordIndex
  | e :: _, f :: _ => some (min e.bitmapWordIndex f.bitmapWordIndex)

/-- A file block's location and its contents, before the encryption. -/
structure StagedBlock where
  range : BlockRange
  words : List BitmapWord
  deriving DecidableEq, Repr

def fileBlockRange (pr : Profile) (l : ImageLayout) (x : LogicalExtents) (fileBlockIndex : Nat) :
    Comp BlockRange := do
  let logicalBegin ← shlU64 pr fileBlockIndex l.allocationBitmapFileBlockAllocationBlocksLog2.toNat
  let count ← shlU64 pr 1 l.allocationBitmapFileBlockAllocationBlocksLog2.toNat
  let logicalEnd ← checkedAdd logicalBegin count
  let logicalRange ← BlockRange.new pr logicalBegin logicalEnd
  contiguousRange pr x logicalRange

/-- The loop over the file blocks with modified words. -/
def updateBlocks (pr : Profile) (l : ImageLayout) (f : AllocBitmapFile) (x : LogicalExtents)
    (a : AllocBitmap) :
    Nat → List Entry → List Entry → List StagedBlock → Comp (List StagedBlock)
  | fuel, allocs, frees, staged =>
    match nextModifiedWord allocs frees with
    | none => .ok staged
    | some bitmapWordIndex =>
      match fuel with
      | 0 => panic .outOfFuel
      | fuel + 1 => do
        let fileBlockIndex ← f.bitmapWordIndexToFileBlockIndex bitmapWordIndex
        if f.totalFileBlocks ≤ fileBlockIndex then err .internal
        else do
          let offset ← mulU64 pr fileBlockIndex f.bitmapWordsPerFileBlock
          let (words, allocs, frees) ← updateWords pr a offset f.bitmapWordsPerFileBlock 0
            allocs frees
          let range ← fileBlockRange pr l x fileBlockIndex
          updateBlocks pr l f x a fuel allocs frees (staged ++ [⟨range, words⟩])

/-- What gets staged at the transaction. The failures to allocate memory and to
encrypt are left out. -/
def AllocBitmapFile.writeUpdates (pr : Profile) (l : ImageLayout) (f : AllocBitmapFile)
    (x : LogicalExtents) (pendingAllocs pendingFrees : List Entry) (a : AllocBitmap) :
    Comp (List StagedBlock) :=
  if pendingAllocs = [] ∧ pendingFrees = [] then .ok []
  else updateBlocks pr l f x a (pendingAllocs.length + pendingFrees.length) pendingAllocs
    pendingFrees []

def updatedWord (a : AllocBitmap) (allocs frees : List Entry) (bitmapWordIndex : Nat) : BitmapWord :=
  (a.word bitmapWordIndex ||| wordAt allocs bitmapWordIndex) &&& ~~~wordAt frees bitmapWordIndex

def ConflictAt (allocs frees : List Entry) (n : Nat) : Prop :=
  wordAt frees n &&& wordAt allocs n ≠ 0

section

variable {allocs frees : List Entry}

section

variable (pr : Profile) (a : AllocBitmap) (ha : Sorted allocs) (hf : Sorted frees)
include pr a ha hf

theorem updateWords_step (offset k j : Nat) (hlt : offset + j < 2 ^ 64) :
    updateWords pr a offset (k + 1) j (entriesFrom (offset + j) allocs)
        (entriesFrom (offset + j) frees) =
      if wordAt frees (offset + j) &&& wordAt allocs (offset + j) ≠ 0 then err .internal
      else (do
        let (words, allocs', frees') ← updateWords pr a offset k (j + 1)
          (entriesFrom (offset + (j + 1)) allocs) (entriesFrom (offset + (j + 1)) frees)
        pure (updatedWord a allocs frees (offset + j) :: words, allocs', frees')) := by
  rw [updateWords, addU64_ok pr hlt, ok_bind, takeWord_entriesFrom ha, takeWord_entriesFrom hf]
  rfl

theorem updateWords_ok (offset k j : Nat) (hlt : offset + j + k ≤ 2 ^ 64)
    (hno : ∀ n, offset + j ≤ n → n < offset + j + k → ¬ ConflictAt allocs frees n) :
    updateWords pr a offset k j (entriesFrom (offset + j) allocs) (entriesFrom (offset + j) frees) =
      .ok ((List.range' (offset + j) k).map (updatedWord a allocs frees),
        entriesFrom (offset + j + k) allocs, entriesFrom (offset + j + k) frees) := by
  induction k generalizing j with
  | zero => rfl
  | succ k ih =>
    have hrest := ih (j + 1) (by omega) (fun n hn hn' => hno n (by omega) (by omega))
    have hhere : ¬ (wordAt frees (offset + j) &&& wordAt allocs (offset + j) ≠ 0) :=
      hno (offset + j) (le_refl _) (by omega)
    rw [updateWords_step pr a ha hf offset k j (by omega), if_neg hhere, hrest, ok_bind,
      range'_succ,
      map_cons, show offset + (j + 1) + k = offset + j + (k + 1) by omega]
    rfl

theorem updateWords_conflict
    (offset k j n : Nat) (hlt : offset + j + k ≤ 2 ^ 64) (hn : offset + j ≤ n)
    (hn' : n < offset + j + k) (hconflict : ConflictAt allocs frees n) :
    updateWords pr a offset k j (entriesFrom (offset + j) allocs) (entriesFrom (offset + j) frees) =
      err .internal := by
  induction k generalizing j with
  | zero => omega
  | succ k ih =>
    rw [updateWords_step pr a ha hf offset k j (by omega)]
    by_cases hhere : wordAt frees (offset + j) &&& wordAt allocs (offset + j) ≠ 0
    · rw [if_pos hhere]
    · have hne : n ≠ offset + j := by
        rintro rfl
        exact hhere hconflict
      rw [if_neg hhere, ih (j + 1) (by omega) (by omega) (by omega)]
      rfl

end

theorem nextModifiedWord_spec (ha : Sorted allocs) (hf : Sorted frees) :
    match nextModifiedWord allocs frees with
    | none => allocs = [] ∧ frees = []
    | some n => (∃ e ∈ allocs ++ frees, e.bitmapWordIndex = n) ∧
        ∀ e ∈ allocs ++ frees, n ≤ e.bitmapWordIndex := by
  have hleast {e : Entry} {es : List Entry} (h : Sorted (e :: es)) (f : Entry) (hf : f ∈ e :: es) :
      e.bitmapWordIndex ≤ f.bitmapWordIndex := by
    rcases mem_cons.mp hf with rfl | hf
    · exact le_refl _
    · exact ((pairwise_cons.mp h).1 f hf).le
  match allocs, frees with
  | [], [] => exact ⟨rfl, rfl⟩
  | e :: es, [] =>
    rw [nextModifiedWord]
    rw [List.append_nil]
    exact ⟨⟨e, mem_cons_self .., rfl⟩, hleast ha⟩
  | [], f :: fs => exact ⟨⟨f, mem_cons_self .., rfl⟩, hleast hf⟩
  | e :: es, f :: fs =>
    rw [nextModifiedWord]
    refine ⟨?_, fun g hg => ?_⟩
    · rcases le_total e.bitmapWordIndex f.bitmapWordIndex with hle | hle
      · exact ⟨e, by simp, by rw [min_eq_left hle]⟩
      · exact ⟨f, by simp, by rw [min_eq_right hle]⟩
    · rcases mem_append.mp hg with hg | hg
      · exact le_trans (min_le_left _ _) (hleast ha g hg)
      · exact le_trans (min_le_right _ _) (hleast hf g hg)

end

structure FileLocated (l : ImageLayout) (f : AllocBitmapFile) (x : LogicalExtents) : Prop where
  log2_lt : l.allocationBitmapFileBlockAllocationBlocksLog2.toNat < 64
  file : BitmapFileExtents.FileOk x (2 ^ l.allocationBitmapFileBlockAllocationBlocksLog2.toNat)
  words_pos : 0 < f.bitmapWordsPerFileBlock
  division : ∀ n < 2 ^ maxBitmapWordsIndexLog2,
    f.bitmapWordIndexToFileBlockIndex n = .ok (n / f.bitmapWordsPerFileBlock)
  total : f.totalFileBlocks * 2 ^ l.allocationBitmapFileBlockAllocationBlocksLog2.toNat =
    x.allocationBlockCount
  words_lt : f.totalFileBlocks * f.bitmapWordsPerFileBlock < 2 ^ 64

variable {l : ImageLayout}

theorem countFileBlocks_ok {rs : List BlockRange} {t n : Nat} (h : countFileBlocks l t rs = .ok n) :
    (∀ r ∈ rs, 2 ^ l.allocationBitmapFileBlockAllocationBlocksLog2.toNat ∣ r.e - r.b) ∧
      n * 2 ^ l.allocationBitmapFileBlockAllocationBlocksLog2.toNat =
        t * 2 ^ l.allocationBitmapFileBlockAllocationBlocksLog2.toNat +
          DataBlocksMap.treeBlocks rs := by
  induction rs generalizing t with
  | nil =>
    cases h
    exact ⟨by simp, rfl⟩
  | cons r rs ih =>
    obtain ⟨count, hcount, h⟩ := bind_eq_ok h
    obtain ⟨haligned, h⟩ := of_ite_err h
    obtain ⟨-, h⟩ := of_ite_err h
    rw [not_or, not_not] at haligned
    have hcount : count = r.e - r.b := by
      rw [BlockRange.blockCount, checkedSub] at hcount
      split at hcount
      · exact (Except.ok.inj hcount).symm
      · cases hcount
    obtain ⟨hdvd, hsum⟩ := ih h
    have hblocks := Nat.div_mul_cancel (dvd_of_mod_eq_zero haligned.1)
    refine ⟨forall_mem_cons.mpr ⟨hcount ▸ dvd_of_mod_eq_zero haligned.1, hdvd⟩, ?_⟩
    rw [hsum, add_mul, hblocks, hcount, DataBlocksMap.treeBlocks, DataBlocksMap.treeBlocks,
      map_cons, sum_cons, add_assoc]

theorem fileLocated_of_new {pr : Profile} {px : PhysicalExtents}
    {f : AllocBitmapFile} {x : LogicalExtents} (h : AllocBitmapFile.new pr l px = .ok f)
    (hx : x.ranges = px.ranges) : FileLocated l f x := by
  have hinv := (AllocBitmapFile.fileOk_of_new h).inv
  obtain ⟨hwords, -⟩ := computeBitmapWordsPerFileBlockInv_ok hinv
  obtain ⟨hsize, h⟩ := of_ite_err h
  obtain ⟨payload, -, h⟩ := bind_eq_ok h
  obtain ⟨inv, -, h⟩ := bind_eq_ok h
  obtain ⟨ranges, hranges, h⟩ := bind_eq_ok h
  obtain ⟨total, htotal, h⟩ := bind_eq_ok h
  obtain ⟨last, -, h⟩ := bind_eq_ok h
  obtain ⟨maxTotal, -, h⟩ := bind_eq_ok h
  obtain ⟨-, -, h⟩ := bind_eq_ok h
  obtain ⟨-, h⟩ := of_ite_err h
  obtain ⟨-, -, h⟩ := bind_eq_ok h
  obtain ⟨hlt, h⟩ := of_ite_err h
  cases h
  have hword : ∀ r ∈ x.ranges, r.e < 2 ^ 64 := hx ▸ px.lt_of_iter hranges
  rw [px.iter_ok (hx ▸ hword)] at hranges
  cases hranges
  rw [← hx] at htotal
  obtain ⟨haligned, hsum⟩ := countFileBlocks_ok htotal
  rw [zero_mul, zero_add, DataBlocksMap.treeBlocks_eq] at hsum
  rw [fileBlockSizeLog2] at hsize
  refine ⟨by omega, BitmapFileExtents.fileOk_of_ranges x (Nat.two_pow_pos _) haligned hword,
    by omega, fun n hn => ?_, hsum, Nat.lt_of_not_le hlt⟩
  obtain ⟨i, hi, -, -, hexact⟩ := bitmapWordIndexToFileBlockIndexBy_ok hinv (lt_trans hn (by decide))
  rw [AllocBitmapFile.bitmapWordIndexToFileBlockIndex, hi, hexact hn]

section

variable {l : ImageLayout} {f : AllocBitmapFile} {x : LogicalExtents} {i : Nat}

theorem fileBlockRange_eq (pr : Profile) (hfile : FileLocated l f x) (hi : i < f.totalFileBlocks) :
    fileBlockRange pr l x i = contiguousRange pr x
      ⟨i * 2 ^ l.allocationBitmapFileBlockAllocationBlocksLog2.toNat,
        (i + 1) * 2 ^ l.allocationBitmapFileBlockAllocationBlocksLog2.toNat⟩ := by
  have hend := Nat.mul_le_mul_right
    (2 ^ l.allocationBitmapFileBlockAllocationBlocksLog2.toNat) (succ_le_of_lt hi)
  rw [hfile.total] at hend
  have hrange : nodeLogicalRange pr _ i = _ := nodeLogicalRange_ok _ i hfile.log2_lt
    (lt_of_le_of_lt hend (allocationBlockCount_lt x))
  have hsame : fileBlockRange pr l x i =
      nodeLogicalRange pr l.allocationBitmapFileBlockAllocationBlocksLog2.toNat i >>=
        contiguousRange pr x := by
    simp only [fileBlockRange, nodeLogicalRange, bind_assoc]
  rw [hsame, hrange, ok_bind]

def fileBlockAllocationBlocks (l : ImageLayout) : Nat :=
  2 ^ l.allocationBitmapFileBlockAllocationBlocksLog2.toNat

def InFirst (l : ImageLayout) (x : LogicalExtents) (i : Nat) : Prop :=
  (i + 1) * fileBlockAllocationBlocks l ≤ firstExtentBlockCount x

def fileBlockPhysicalRange (l : ImageLayout) (x : LogicalExtents) (i : Nat) : BlockRange :=
  ⟨physicalBegin x (i * fileBlockAllocationBlocks l),
    physicalBegin x (i * fileBlockAllocationBlocks l) + fileBlockAllocationBlocks l⟩

theorem fileBlockRange_first (pr : Profile) (hfile : FileLocated l f x)
    (hi : i < f.totalFileBlocks) (hfirst : InFirst l x i) :
    fileBlockRange pr l x i = .ok (fileBlockPhysicalRange l x i) := by
  have hpos := hfile.file.pos
  rw [fileBlockRange_eq pr hfile hi, fileBlockPhysicalRange]
  rw [InFirst, firstExtentBlockCount] at hfirst
  rw [fileBlockAllocationBlocks] at hfirst ⊢
  generalize 2 ^ l.allocationBitmapFileBlockAllocationBlocksLog2.toNat = blocks at *
  cases hx : x.extents with
  | nil =>
    rw [hx] at hfirst
    rw [succ_mul] at hfirst
    dsimp only at hfirst
    omega
  | cons entry rest =>
    obtain ⟨p, e⟩ := entry
    rw [hx] at hfirst
    dsimp only at hfirst
    rw [succ_mul] at hfirst ⊢
    have hget : x.extents[0]? = some (p, e) := by rw [hx, getElem?_cons_zero]
    have hin : InExtent x (i * blocks) 0 (p, e) := ⟨hget, zero_le _, by dsimp only; omega⟩
    have hphys : physicalBegin x (i * blocks) = p + i * blocks := by
      rw [hin.physicalBegin_eq]
      rfl
    have hword : p + e < 2 ^ 64 := hfile.file.word 0 (p, e) hget
    rw [contiguousRange_first hx (by dsimp only; omega) hfirst hword, hphys, add_assoc]

theorem fileBlockRange_not_first (pr : Profile) (hfile : FileLocated l f x)
    (hi : i < f.totalFileBlocks) (hfirst : ¬ InFirst l x i) :
    fileBlockRange pr l x i = err .internal := by
  have hpos := hfile.file.pos
  have hcount : i * 2 ^ l.allocationBitmapFileBlockAllocationBlocksLog2.toNat <
      x.allocationBlockCount := by
    rw [← hfile.total]
    exact Nat.mul_lt_mul_of_pos_right hi hpos
  obtain ⟨k, entry, hin⟩ := exists_inExtent x hcount
  have hend := hfile.file.le_end hin
  rw [fileBlockRange_eq pr hfile hi]
  cases k with
  | zero =>
    refine absurd ?_ hfirst
    have hentry := hin.entry_eq
    rw [InFirst, firstExtentBlockCount, fileBlockAllocationBlocks]
    cases hx : x.extents with
    | nil =>
      rw [hx] at hentry
      cases hentry
    | cons first rest =>
      rw [hx] at hentry
      cases hentry
      exact hend
  | succ k =>
    exact contiguousRange_of_in pr hin (by rw [succ_mul]; dsimp only; omega) hend
      hfile.file.word

def Changed (f : AllocBitmapFile) (allocs frees : List Entry) (i : Nat) : Prop :=
  ∃ e ∈ allocs ++ frees, e.bitmapWordIndex / f.bitmapWordsPerFileBlock = i

instance (f : AllocBitmapFile) (allocs frees : List Entry) :
    DecidablePred (Changed f allocs frees) :=
  fun i => inferInstanceAs (Decidable (∃ e ∈ allocs ++ frees, _ = i))

def changedBlocks (f : AllocBitmapFile) (allocs frees : List Entry) : List Nat :=
  (List.range f.totalFileBlocks).filter (Changed f allocs frees)

def updatedBlock (l : ImageLayout) (f : AllocBitmapFile) (x : LogicalExtents) (a : AllocBitmap)
    (allocs frees : List Entry) (i : Nat) : StagedBlock :=
  ⟨fileBlockPhysicalRange l x i,
    (List.range' (i * f.bitmapWordsPerFileBlock) f.bitmapWordsPerFileBlock).map
      (updatedWord a allocs frees)⟩

def Within (f : AllocBitmapFile) (entries : List Entry) : Prop :=
  ∀ e ∈ entries, e.bitmapWordIndex < 2 ^ maxBitmapWordsIndexLog2 ∧
    e.bitmapWordIndex < f.totalFileBlocks * f.bitmapWordsPerFileBlock

instance (f : AllocBitmapFile) (entries : List Entry) : Decidable (Within f entries) :=
  inferInstanceAs (Decidable (∀ e ∈ entries, _))

variable {allocs frees : List Entry}

theorem nextModifiedWord_entriesFrom (ha : Sorted allocs) (hf : Sorted frees) (n : Nat) :
    match nextModifiedWord (entriesFrom n allocs) (entriesFrom n frees) with
    | none => ∀ e ∈ allocs ++ frees, e.bitmapWordIndex < n
    | some w => (∃ e ∈ allocs ++ frees, e.bitmapWordIndex = w) ∧ n ≤ w ∧
        ∀ e ∈ allocs ++ frees, n ≤ e.bitmapWordIndex → w ≤ e.bitmapWordIndex := by
  have hmem (e : Entry) : e ∈ entriesFrom n allocs ++ entriesFrom n frees ↔
      e ∈ allocs ++ frees ∧ n ≤ e.bitmapWordIndex := by
    simp only [mem_append, mem_entriesFrom]
    tauto
  have hspec := nextModifiedWord_spec (sorted_entriesFrom ha n) (sorted_entriesFrom hf n)
  cases hnext : nextModifiedWord (entriesFrom n allocs) (entriesFrom n frees) with
  | none =>
    rw [hnext] at hspec
    intro e he
    by_contra hle
    have hin := (hmem e).mpr ⟨he, Nat.le_of_not_lt hle⟩
    rw [hspec.1, hspec.2] at hin
    cases hin
  | some w =>
    rw [hnext] at hspec
    obtain ⟨⟨e, he, rfl⟩, hleast⟩ := hspec
    obtain ⟨hin, hle⟩ := (hmem e).mp he
    exact ⟨⟨e, hin, rfl⟩, hle, fun g hg hge => hleast g ((hmem g).mpr ⟨hg, hge⟩)⟩

/-- The next round of the loop, if there is one: all before it is unchanged. -/
structure NextBlock (f : AllocBitmapFile) (allocs frees : List Entry) (m i : Nat) : Prop where
  le : m ≤ i
  lt : i < f.totalFileBlocks
  changed : Changed f allocs frees i
  unchanged : ∀ j, m ≤ j → j < i → ¬ Changed f allocs frees j
  length_lt : (entriesFrom ((i + 1) * f.bitmapWordsPerFileBlock) allocs).length +
      (entriesFrom ((i + 1) * f.bitmapWordsPerFileBlock) frees).length <
    (entriesFrom (m * f.bitmapWordsPerFileBlock) allocs).length +
      (entriesFrom (m * f.bitmapWordsPerFileBlock) frees).length

theorem updateBlocks_step (pr : Profile) (a : AllocBitmap) (hfile : FileLocated l f x)
    (ha : Sorted allocs) (hf : Sorted frees) (hwithin : Within f (allocs ++ frees)) (m : Nat) :
    ((∀ i, m ≤ i → ¬ Changed f allocs frees i) ∧ ∀ fuel staged,
      updateBlocks pr l f x a fuel (entriesFrom (m * f.bitmapWordsPerFileBlock) allocs)
        (entriesFrom (m * f.bitmapWordsPerFileBlock) frees) staged = .ok staged) ∨
    ∃ i, NextBlock f allocs frees m i ∧ ∀ fuel staged,
      updateBlocks pr l f x a (fuel + 1) (entriesFrom (m * f.bitmapWordsPerFileBlock) allocs)
        (entriesFrom (m * f.bitmapWordsPerFileBlock) frees) staged = (do
          let (words, allocs, frees) ← updateWords pr a (i * f.bitmapWordsPerFileBlock)
            f.bitmapWordsPerFileBlock 0 (entriesFrom (i * f.bitmapWordsPerFileBlock) allocs)
            (entriesFrom (i * f.bitmapWordsPerFileBlock) frees)
          let range ← fileBlockRange pr l x i
          updateBlocks pr l f x a fuel allocs frees (staged ++ [⟨range, words⟩])) := by
  have hpos := hfile.words_pos
  have hspec := nextModifiedWord_entriesFrom ha hf (m * f.bitmapWordsPerFileBlock)
  cases hnext : nextModifiedWord (entriesFrom (m * f.bitmapWordsPerFileBlock) allocs)
      (entriesFrom (m * f.bitmapWordsPerFileBlock) frees) with
  | none =>
    left
    rw [hnext] at hspec
    refine ⟨fun i hi => ?_, fun fuel staged => ?_⟩
    · rintro ⟨e, he, rfl⟩
      have := hspec e he
      rw [← Nat.div_lt_iff_lt_mul hpos] at this
      omega
    · rw [updateBlocks.eq_def]
      dsimp only
      rw [hnext]
  | some w =>
    right
    rw [hnext] at hspec
    obtain ⟨⟨e, he, rfl⟩, hle, hleast⟩ := hspec
    obtain ⟨hindex, htotal⟩ := hwithin e he
    have hmi : m ≤ e.bitmapWordIndex / f.bitmapWordsPerFileBlock := (Nat.le_div_iff_mul_le hpos).mpr hle
    have hlt : e.bitmapWordIndex / f.bitmapWordsPerFileBlock < f.totalFileBlocks :=
      (Nat.div_lt_iff_lt_mul hpos).mpr htotal
    have hdiv := div_mul_le_self e.bitmapWordIndex f.bitmapWordsPerFileBlock
    have hnextBlock : e.bitmapWordIndex < (e.bitmapWordIndex / f.bitmapWordsPerFileBlock + 1) *
        f.bitmapWordsPerFileBlock := (Nat.div_lt_iff_lt_mul hpos).mp (lt_succ_self _)
    have hmul := Nat.mul_le_mul_right f.bitmapWordsPerFileBlock hmi
    have hskip (entries : List Entry) (hsub : ∀ g ∈ entries, g ∈ allocs ++ frees) :
        entriesFrom (m * f.bitmapWordsPerFileBlock) entries = entriesFrom
          (e.bitmapWordIndex / f.bitmapWordsPerFileBlock * f.bitmapWordsPerFileBlock) entries :=
      entriesFrom_eq hmul (fun g hg hge => le_trans hdiv (hleast g (hsub g hg) hge))
    refine ⟨e.bitmapWordIndex / f.bitmapWordsPerFileBlock, ⟨hmi, hlt, ⟨e, he, rfl⟩, ?_, ?_⟩, ?_⟩
    · rintro j hmj hji ⟨g, hg, rfl⟩
      have hge := hleast g hg ((Nat.le_div_iff_mul_le hpos).mp hmj)
      have := Nat.div_le_div_right (c := f.bitmapWordsPerFileBlock) hge
      omega
    · have hle' := le_trans hle hnextBlock.le
      rcases mem_append.mp he with hmem | hmem
      · have := length_entriesFrom_lt hle' hmem hle hnextBlock
        have := length_entriesFrom_le frees hle'
        omega
      · have := length_entriesFrom_lt hle' hmem hle hnextBlock
        have := length_entriesFrom_le allocs hle'
        omega
    · intro fuel staged
      have hwords := hfile.words_lt
      have hoffset : mulU64 pr (e.bitmapWordIndex / f.bitmapWordsPerFileBlock)
          f.bitmapWordsPerFileBlock =
            .ok (e.bitmapWordIndex / f.bitmapWordsPerFileBlock * f.bitmapWordsPerFileBlock) :=
        mulU64_ok pr (by omega)
      rw [updateBlocks.eq_def]
      dsimp only
      rw [hnext]
      dsimp only
      rw [hfile.division _ hindex, ok_bind, if_neg (Nat.not_le_of_lt hlt), hoffset, ok_bind,
        hskip allocs (fun g hg => mem_append_left _ hg),
        hskip frees (fun g hg => mem_append_right _ hg)]

def changedFrom (f : AllocBitmapFile) (allocs frees : List Entry) (m : Nat) : List Nat :=
  (List.range' m (f.totalFileBlocks - m)).filter (Changed f allocs frees)

theorem changedFrom_eq_nil {m : Nat} (h : ∀ i, m ≤ i → ¬ Changed f allocs frees i) :
    changedFrom f allocs frees m = [] := by
  rw [changedFrom, filter_eq_nil_iff]
  intro i hi
  simpa using h i (mem_range'_1.mp hi).1

theorem NextBlock.changedFrom_eq {m i : Nat} (h : NextBlock f allocs frees m i) :
    changedFrom f allocs frees m = i :: changedFrom f allocs frees (i + 1) := by
  have hle := h.le
  have hlt := h.lt
  have hsplit : List.range' m (f.totalFileBlocks - m) =
      List.range' m (i - m) ++ i :: List.range' (i + 1) (f.totalFileBlocks - (i + 1)) := by
    rw [← range'_succ, show f.totalFileBlocks - (i + 1) + 1 = f.totalFileBlocks - i by omega,
      show f.totalFileBlocks - m = (i - m) + (f.totalFileBlocks - i) by omega, ← range'_append_1,
      Nat.add_sub_cancel' hle]
  have hskipped : (List.range' m (i - m)).filter (Changed f allocs frees) = [] := by
    rw [filter_eq_nil_iff]
    intro j hj
    rw [mem_range'_1] at hj
    simpa using h.unchanged j hj.1 (by omega)
  rw [changedFrom, hsplit, filter_append, hskipped, List.nil_append,
    filter_cons_of_pos (by simpa using h.changed), changedFrom]

theorem ConflictAt.changed {n : Nat} (h : ConflictAt allocs frees n) :
    Changed f allocs frees (n / f.bitmapWordsPerFileBlock) := by
  by_contra hnot
  have hzero : wordAt frees n = 0#64 := wordAt_eq_zero (by
    rintro e he rfl
    exact hnot ⟨e, mem_append_right _ he, rfl⟩)
  exact h (by rw [hzero, BitVec.zero_and]; rfl)

/-- The loop writes all the changed blocks if none of them is beyond the first
extent. -/
theorem updateBlocks_ok (pr : Profile) (a : AllocBitmap) (hfile : FileLocated l f x)
    (ha : Sorted allocs) (hf : Sorted frees) (hwithin : Within f (allocs ++ frees))
    (hno : ∀ n, ¬ ConflictAt allocs frees n) (hfirst : ∀ i, Changed f allocs frees i → InFirst l x i)
    (fuel m : Nat) (hfuel : (entriesFrom (m * f.bitmapWordsPerFileBlock) allocs).length +
      (entriesFrom (m * f.bitmapWordsPerFileBlock) frees).length ≤ fuel) (staged : List StagedBlock) :
    updateBlocks pr l f x a fuel (entriesFrom (m * f.bitmapWordsPerFileBlock) allocs)
        (entriesFrom (m * f.bitmapWordsPerFileBlock) frees) staged =
      .ok (staged ++ (changedFrom f allocs frees m).map (updatedBlock l f x a allocs frees)) := by
  induction fuel generalizing m staged with
  | zero =>
    rcases updateBlocks_step pr a hfile ha hf hwithin m with ⟨hnone, hdone⟩ | ⟨i, hnext, -⟩
    · rw [hdone, changedFrom_eq_nil hnone, map_nil, List.append_nil]
    · have := hnext.length_lt
      omega
  | succ fuel ih =>
    rcases updateBlocks_step pr a hfile ha hf hwithin m with ⟨hnone, hdone⟩ | ⟨i, hnext, hstep⟩
    · rw [hdone, changedFrom_eq_nil hnone, map_nil, List.append_nil]
    · have hlength := hnext.length_lt
      have hend := Nat.mul_le_mul_right f.bitmapWordsPerFileBlock (succ_le_of_lt hnext.lt)
      have hlt := hfile.words_lt
      rw [succ_mul] at hend
      have hwords := updateWords_ok pr a ha hf (i * f.bitmapWordsPerFileBlock)
        f.bitmapWordsPerFileBlock 0 (by omega) (fun n _ _ => hno n)
      rw [add_zero, ← succ_mul] at hwords
      have hrest := ih (i + 1) (by omega) (staged ++ [updatedBlock l f x a allocs frees i])
      rw [hstep, hwords, ok_bind]
      dsimp only
      rw [fileBlockRange_first pr hfile hnext.lt (hfirst i hnext.changed), ok_bind,
        hnext.changedFrom_eq, map_cons]
      rw [append_assoc] at hrest
      exact hrest

/-- The loop fails at a conflict, and also at a block beyond the first extent. -/
theorem updateBlocks_err (pr : Profile) (a : AllocBitmap) (hfile : FileLocated l f x)
    (ha : Sorted allocs) (hf : Sorted frees) (hwithin : Within f (allocs ++ frees)) (fuel m : Nat)
    (hbad : (∃ n, m * f.bitmapWordsPerFileBlock ≤ n ∧ ConflictAt allocs frees n) ∨
      ∃ i, m ≤ i ∧ Changed f allocs frees i ∧ ¬ InFirst l x i)
    (hfuel : (entriesFrom (m * f.bitmapWordsPerFileBlock) allocs).length +
      (entriesFrom (m * f.bitmapWordsPerFileBlock) frees).length ≤ fuel) (staged : List StagedBlock) :
    updateBlocks pr l f x a fuel (entriesFrom (m * f.bitmapWordsPerFileBlock) allocs)
        (entriesFrom (m * f.bitmapWordsPerFileBlock) frees) staged = err .internal := by
  have hpos := hfile.words_pos
  induction fuel generalizing m staged with
  | zero =>
    rcases updateBlocks_step pr a hfile ha hf hwithin m with ⟨hnone, -⟩ | ⟨i, hnext, -⟩
    · rcases hbad with ⟨n, hn, hconflict⟩ | ⟨i, hi, hchanged, -⟩
      · exact absurd hconflict.changed (hnone _ ((Nat.le_div_iff_mul_le hpos).mpr hn))
      · exact absurd hchanged (hnone i hi)
    · have := hnext.length_lt
      omega
  | succ fuel ih =>
    rcases updateBlocks_step pr a hfile ha hf hwithin m with ⟨hnone, -⟩ | ⟨i, hnext, hstep⟩
    · rcases hbad with ⟨n, hn, hconflict⟩ | ⟨i, hi, hchanged, -⟩
      · exact absurd hconflict.changed (hnone _ ((Nat.le_div_iff_mul_le hpos).mpr hn))
      · exact absurd hchanged (hnone i hi)
    · have hlength := hnext.length_lt
      have hend := Nat.mul_le_mul_right f.bitmapWordsPerFileBlock (succ_le_of_lt hnext.lt)
      have hlt := hfile.words_lt
      rw [succ_mul] at hend
      rw [hstep]
      by_cases hconflict : ∃ n, i * f.bitmapWordsPerFileBlock ≤ n ∧
          n < (i + 1) * f.bitmapWordsPerFileBlock ∧ ConflictAt allocs frees n
      · obtain ⟨n, hn, hn', hconflict⟩ := hconflict
        rw [succ_mul] at hn'
        have hwords := updateWords_conflict pr a ha hf (i * f.bitmapWordsPerFileBlock)
          f.bitmapWordsPerFileBlock 0 n (by omega) (by omega) (by omega) hconflict
        rw [add_zero] at hwords
        rw [hwords]
        rfl
      · have hwords := updateWords_ok pr a ha hf (i * f.bitmapWordsPerFileBlock)
          f.bitmapWordsPerFileBlock 0 (by omega) (fun n hn hn' hat =>
            hconflict ⟨n, by omega, by rw [succ_mul]; omega, hat⟩)
        rw [add_zero, ← succ_mul] at hwords
        rw [hwords, ok_bind]
        dsimp only
        by_cases hfirst : InFirst l x i
        · rw [fileBlockRange_first pr hfile hnext.lt hfirst, ok_bind]
          -- What is wrong is still to come.
          refine ih (i + 1) ?_ (by omega) _
          rcases hbad with ⟨n, hn, hat⟩ | ⟨j, hj, hchanged, hnot⟩
          · left
            refine ⟨n, ?_, hat⟩
            have hge : m ≤ n / f.bitmapWordsPerFileBlock := (Nat.le_div_iff_mul_le hpos).mpr hn
            have hin : i ≤ n / f.bitmapWordsPerFileBlock :=
              Nat.le_of_not_lt (fun hlt => hnext.unchanged _ hge hlt hat.changed)
            rw [Nat.le_div_iff_mul_le hpos] at hin
            exact Nat.le_of_not_lt (fun hlt => hconflict ⟨n, hin, hlt, hat⟩)
          · right
            have hge : i ≤ j := Nat.le_of_not_lt (fun hlt => hnext.unchanged j hj hlt hchanged)
            have hne : j ≠ i := by
              rintro rfl
              exact hnot hfirst
            exact ⟨j, by omega, hchanged, hnot⟩
        · rw [fileBlockRange_not_first pr hfile hnext.lt hfirst]
          rfl

end

def Conflicting (allocs frees : List Entry) : Prop :=
  ∃ b, tracked allocs b = true ∧ tracked frees b = true

theorem conflicting_iff {allocs frees : List Entry} (ha : Sorted allocs) (hf : Sorted frees) :
    Conflicting allocs frees ↔ ∃ n, ConflictAt allocs frees n := by
  constructor
  · rintro ⟨b, halloc, hfree⟩
    rw [tracked_eq ha] at halloc
    rw [tracked_eq hf] at hfree
    refine ⟨b / 64, fun hzero => ?_⟩
    have hbit := congrArg (fun w : BitmapWord => w.getLsbD (b % 64)) hzero
    simp [halloc, hfree] at hbit
  · rintro ⟨n, hconflict⟩
    obtain ⟨j, hj, hbit⟩ : ∃ j, j < 64 ∧ (wordAt frees n &&& wordAt allocs n).getLsbD j = true := by
      by_contra hall
      apply hconflict
      apply BitVec.eq_of_getLsbD_eq
      intro j hj
      rw [show (0 : BitmapWord).getLsbD j = false from BitVec.getLsbD_zero]
      exact Bool.eq_false_iff.mpr (fun hbit => hall ⟨j, hj, hbit⟩)
    rw [BitVec.getLsbD_and, Bool.and_eq_true] at hbit
    have hdiv : (n * 64 + j) / 64 = n := by omega
    have hmod : (n * 64 + j) % 64 = j := by omega
    refine ⟨n * 64 + j, ?_, ?_⟩
    · rw [tracked_eq ha, hdiv, hmod, hbit.2]
    · rw [tracked_eq hf, hdiv, hmod, hbit.1]

def wordAfter (l : ImageLayout) (f : AllocBitmapFile) (x : LogicalExtents) (a : AllocBitmap)
    (allocs frees : List Entry) (n : Nat) : Option BitmapWord :=
  if n / f.bitmapWordsPerFileBlock ∈ changedBlocks f allocs frees then
    (updatedBlock l f x a allocs frees (n / f.bitmapWordsPerFileBlock)).words[
      n % f.bitmapWordsPerFileBlock]?
  else some (a.word n)

structure UpdatesCorrect (pr : Profile) (l : ImageLayout) (f : AllocBitmapFile) (x : LogicalExtents)
    (allocs frees : List Entry) (a : AllocBitmap) : Prop where
  conflicting : Conflicting allocs frees → AllocBitmapFile.writeUpdates pr l f x allocs frees a = err .internal
  written : ¬ Conflicting allocs frees → AllocBitmapFile.writeUpdates pr l f x allocs frees a =
    .ok ((changedBlocks f allocs frees).map (updatedBlock l f x a allocs frees))
  readBack : ∀ n < f.totalFileBlocks * f.bitmapWordsPerFileBlock,
    wordAfter l f x a allocs frees n = some (updatedWord a allocs frees n)

theorem wordAfter_eq {f : AllocBitmapFile} {x : LogicalExtents}
    (hfile : FileLocated l f x) (a : AllocBitmap) (allocs frees : List Entry) {n : Nat}
    (hn : n < f.totalFileBlocks * f.bitmapWordsPerFileBlock) :
    wordAfter l f x a allocs frees n = some (updatedWord a allocs frees n) := by
  have hpos := hfile.words_pos
  have hmod := mod_lt n hpos
  have hdiv := div_add_mod n f.bitmapWordsPerFileBlock
  rw [mul_comm] at hdiv
  rw [wordAfter]
  split
  · rw [updatedBlock]
    rw [getElem?_map, getElem?_range' hmod, Option.map_some, one_mul, hdiv]
  · rename_i hnot
    have hunchanged : ¬ Changed f allocs frees (n / f.bitmapWordsPerFileBlock) := by
      intro hchanged
      apply hnot
      rw [changedBlocks, mem_filter, mem_range, Nat.div_lt_iff_lt_mul hpos]
      exact ⟨hn, by simpa using hchanged⟩
    have hzero (entries : List Entry) (hsub : ∀ e ∈ entries, e ∈ allocs ++ frees) :
        wordAt entries n = 0#64 := by
      apply wordAt_eq_zero
      rintro e he rfl
      exact hunchanged ⟨e, hsub e he, rfl⟩
    rw [updatedWord, hzero allocs (fun e he => mem_append_left _ he),
      hzero frees (fun e he => mem_append_right _ he), BitVec.or_zero, BitVec.not_zero,
      BitVec.and_allOnes]

theorem writeUpdates_eq (pr : Profile) (l : ImageLayout) (f : AllocBitmapFile) (x : LogicalExtents)
    (allocs frees : List Entry) (a : AllocBitmap) :
    AllocBitmapFile.writeUpdates pr l f x allocs frees a =
      updateBlocks pr l f x a (allocs.length + frees.length) allocs frees [] := by
  rw [AllocBitmapFile.writeUpdates]
  split
  · rename_i hempty
    rw [hempty.1, hempty.2]
    rfl
  · rfl

/-- The file is updated as it should be unless a block of it that needs to be
written is beyond the first extent. -/
theorem updatesCorrect_iff (l : ImageLayout) (px : PhysicalExtents) (f : AllocBitmapFile)
    (x : LogicalExtents) (a : AllocBitmap) (allocs frees : List Entry)
    (hnew : ∃ pr, AllocBitmapFile.new pr l px = .ok f) (hx : x.ranges = px.ranges)
    (ha : Sorted allocs) (hf : Sorted frees) (hwithin : Within f (allocs ++ frees)) :
    (∀ pr, UpdatesCorrect pr l f x allocs frees a) ↔
      Conflicting allocs frees ∨ ∀ e ∈ allocs ++ frees,
        (e.bitmapWordIndex / f.bitmapWordsPerFileBlock + 1) *
          2 ^ l.allocationBitmapFileBlockAllocationBlocksLog2.toNat ≤ firstExtentBlockCount x := by
  obtain ⟨pr₀, hnew⟩ := hnew
  have hfile := fileLocated_of_new hnew hx
  have hinFirst : (∀ e ∈ allocs ++ frees, (e.bitmapWordIndex / f.bitmapWordsPerFileBlock + 1) *
      2 ^ l.allocationBitmapFileBlockAllocationBlocksLog2.toNat ≤ firstExtentBlockCount x) ↔
        ∀ i, Changed f allocs frees i → InFirst l x i := by
    constructor
    · rintro hall i ⟨e, he, rfl⟩
      exact hall e he
    · intro hall e he
      exact hall _ ⟨e, he, rfl⟩
  have hzero : 0 * f.bitmapWordsPerFileBlock = 0 := zero_mul _
  have herr (pr : Profile) (hbad : (∃ n, ConflictAt allocs frees n) ∨
      ∃ i, Changed f allocs frees i ∧ ¬ InFirst l x i) :
      AllocBitmapFile.writeUpdates pr l f x allocs frees a = err .internal := by
    have h := updateBlocks_err pr a hfile ha hf hwithin (allocs.length + frees.length) 0
      (by simpa using hbad) (by rw [hzero, entriesFrom_zero, entriesFrom_zero]) []
    rw [hzero, entriesFrom_zero, entriesFrom_zero] at h
    rw [writeUpdates_eq, h]
  rw [hinFirst]
  constructor
  · intro hcorrect
    by_contra hnot
    rw [not_or, not_forall] at hnot
    obtain ⟨hno, i, hi⟩ := hnot
    have hwritten := (hcorrect .release).written hno
    rw [herr .release (.inr ⟨i, Classical.not_imp.mp hi⟩)] at hwritten
    cases hwritten
  · intro hcase pr
    refine ⟨fun hconflict => herr pr (.inl ((conflicting_iff ha hf).mp hconflict)), fun hno => ?_,
      fun n hn => wordAfter_eq hfile a allocs frees hn⟩
    have hfirst := hcase.resolve_left hno
    rw [conflicting_iff ha hf, not_exists] at hno
    have h := updateBlocks_ok pr a hfile ha hf hwithin hno hfirst (allocs.length + frees.length) 0
      (by rw [hzero, entriesFrom_zero, entriesFrom_zero]) []
    rw [hzero, entriesFrom_zero, entriesFrom_zero, List.nil_append] at h
    rw [writeUpdates_eq, h, changedFrom, changedBlocks, range_eq_range', Nat.sub_zero]

def splitFileExtents : PhysicalExtents := ⟨[(0, 1), (4, 1)], by decide⟩

def splitFileLocation : LogicalExtents := ⟨[(0, 1), (4, 2)], by decide, by decide⟩

def splitFile : AllocBitmapFile := ⟨14, 1317624576693539402, 64, 2⟩

def emptyBitmap : AllocBitmap := ⟨[], by decide⟩

theorem updatesCorrect_iff_split :
    (∀ pr, UpdatesCorrect pr BitmapFileExtents.smallLayout splitFile splitFileLocation [⟨3, 1⟩]
      [⟨3, 2⟩, ⟨5, 4⟩] emptyBitmap) ↔
      Conflicting [⟨3, 1⟩] [⟨3, 2⟩, ⟨5, 4⟩] ∨ ∀ e ∈ ([⟨3, 1⟩] : List Entry) ++ [⟨3, 2⟩, ⟨5, 4⟩],
        (e.bitmapWordIndex / splitFile.bitmapWordsPerFileBlock + 1) *
          2 ^ BitmapFileExtents.smallLayout.allocationBitmapFileBlockAllocationBlocksLog2.toNat ≤
            firstExtentBlockCount splitFileLocation :=
  updatesCorrect_iff BitmapFileExtents.smallLayout splitFileExtents splitFile splitFileLocation
    emptyBitmap [⟨3, 1⟩] [⟨3, 2⟩, ⟨5, 4⟩] ⟨.release, by decide +kernel⟩ (by decide) (by decide) (by decide)
    (by decide)

/-- A word of the second file block is not written. -/
theorem second_extent_not_written : ¬ ∀ (l : ImageLayout) (px : PhysicalExtents)
    (f : AllocBitmapFile) (x : LogicalExtents) (a : AllocBitmap) (allocs frees : List Entry),
    (∃ pr, AllocBitmapFile.new pr l px = .ok f) → x.ranges = px.ranges → Sorted allocs →
    Sorted frees → Within f (allocs ++ frees) → ∀ pr, UpdatesCorrect pr l f x allocs frees a := by
  intro hall
  have hcorrect := hall BitmapFileExtents.smallLayout splitFileExtents splitFile splitFileLocation
    emptyBitmap [⟨14, 1⟩] [] ⟨.release, by decide +kernel⟩ (by decide) (by decide) (by decide)
    (by decide) .release
  have hno : ¬ Conflicting [⟨14, 1⟩] [] := by
    rintro ⟨b, -, hfree⟩
    cases hfree
  have hwritten := hcorrect.written hno
  revert hwritten
  decide

end CocoonFs.BitmapFileUpdates
