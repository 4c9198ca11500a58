import CocoonFs.Extents
import Mathlib.Data.List.Perm.Subperm

namespace CocoonFs.ExtentsSort

open Checked Extents List
open BlockRange (e entry)
open PhysicalExtents (unpackEntry unpackEntry_entry)

/-- Insertion into sorted entries, after the ones that compare as less. -/
def insertBy (compare : BlockRange → BlockRange → Comp Ordering) (entry : Nat × Nat) :
    List (Nat × Nat) → Comp (List (Nat × Nat))
  | [] => .ok [entry]
  | other :: entries => do
    let r₀ ← unpackEntry entry
    let r₁ ← unpackEntry other
    match ← compare r₀ r₁ with
    | .gt => do
      let rest ← insertBy compare entry entries
      pure (other :: rest)
    | _ => pure (entry :: other :: entries)

def sortBy (compare : BlockRange → BlockRange → Comp Ordering) :
    List (Nat × Nat) → Comp (List (Nat × Nat))
  | [] => .ok []
  | entry :: entries => do
    let entries ← sortBy compare entries
    insertBy compare entry entries

/-- The loop over the positions, from the back, of entries to be merged with
their predecessors if adjacent. -/
def mergeAdjacent (pr : Profile) : Nat → List (Nat × Nat) → Comp (List (Nat × Nat))
  | 0, extents => .ok extents
  | pos + 1, extents => do
    let prev ← index extents pos
    let prevRange ← unpackEntry prev
    let entry ← index extents (pos + 1)
    let range ← unpackEntry entry
    if prevRange.e = range.b then do
      let count ← addU64 pr prev.2 entry.2
      mergeAdjacent pr pos ((extents.set pos (prev.1, count)).eraseIdx (pos + 1))
    else mergeAdjacent pr pos extents

/-- PhysicalExtents::sort_extents_by, for the whole of the extents -/
def sortExtentsBy (pr : Profile) (compare : BlockRange → BlockRange → Comp Ordering)
    (extents : List (Nat × Nat)) (noMerge : Bool) : Comp (List (Nat × Nat)) := do
  let sorted ← sortBy compare extents
  if noMerge then pure sorted else mergeAdjacent pr (sorted.length - 1) sorted

def blocksIn (rs : List BlockRange) : List Nat :=
  rs.flatMap (fun r => List.range' r.b (r.e - r.b))

def pushMerged (rs : List BlockRange) (range : BlockRange) : List BlockRange :=
  match rs.getLast? with
  | none => [range]
  | some last => if last.e = range.b then rs.dropLast ++ [⟨last.b, range.e⟩] else rs ++ [range]

def Proper (r : BlockRange) : Prop := r.b < r.e ∧ r.e < 2 ^ 64

theorem blocksIn_append (rs rs' : List BlockRange) :
    blocksIn (rs ++ rs') = blocksIn rs ++ blocksIn rs' := by
  simp [blocksIn]

theorem blocksIn_singleton (r : BlockRange) : blocksIn [r] = List.range' r.b (r.e - r.b) := by
  simp [blocksIn]

section

variable (rs : List BlockRange) (range : BlockRange) (hrs : ∀ r ∈ rs, Proper r)
  (hrange : Proper range)
include rs range hrs hrange

theorem blocksIn_pushMerged :
    blocksIn (pushMerged rs range) = blocksIn rs ++ List.range' range.b (range.e - range.b) := by
  rcases eq_nil_or_concat rs with rfl | ⟨init, last, rfl⟩
  · exact blocksIn_singleton range
  · have hlast := hrs last (by simp)
    rw [concat_eq_append, pushMerged, getLast?_concat]
    dsimp only
    split
    · rename_i hadj
      have hlen : range.e - last.b = (last.e - last.b) + (range.e - range.b) := by
        have := hlast.1
        have := hrange.1
        omega
      have hstart : last.b + (last.e - last.b) = range.b := by
        have := hlast.1
        omega
      rw [dropLast_concat, blocksIn_append, blocksIn_append, blocksIn_singleton,
        blocksIn_singleton, append_assoc]
      rw [hlen, ← range'_append_1, hstart]
    · rw [blocksIn_append, blocksIn_singleton]

theorem proper_pushMerged : ∀ r ∈ pushMerged rs range, Proper r := by
  rcases eq_nil_or_concat rs with rfl | ⟨init, last, rfl⟩
  · intro r hr
    obtain rfl := mem_singleton.mp hr
    exact hrange
  · have hlast := hrs last (by simp)
    rw [concat_eq_append] at hrs ⊢
    rw [pushMerged, getLast?_concat]
    dsimp only
    split
    · rename_i hadj
      rw [dropLast_concat]
      intro r hr
      rcases mem_append.mp hr with hr | hr
      · exact hrs r (mem_append_left _ hr)
      · obtain rfl := mem_singleton.mp hr
        have := hlast.1
        have := hrange.1
        exact ⟨by dsimp only; omega, hrange.2⟩
    · intro r hr
      rcases mem_append.mp hr with hr | hr
      · exact hrs r hr
      · obtain rfl := mem_singleton.mp hr
        exact hrange

end

section

variable (pr : Profile) (rs : List BlockRange) (range : BlockRange) (hrs : ∀ r ∈ rs, Proper r)
  (hrange : Proper range)
include pr rs range hrs hrange

theorem mergeExtent_back :
    mergeExtent pr (rs.map entry) (rs.map entry).length range
        (range.e - range.b) =
      .ok (if rs.getLast?.map e = some range.b then
        some ((pushMerged rs range).map entry) else none) := by
  rcases eq_nil_or_concat rs with rfl | ⟨init, last, rfl⟩
  · rfl
  · obtain ⟨hlast, hlast64⟩ := hrs last (by simp)
    obtain ⟨hr, hr64⟩ := hrange
    rw [concat_eq_append]
    have hlen : ((init ++ [last]).map entry).length = init.length + 1 := by simp
    have hget : ((init ++ [last]).map entry)[init.length]? = some last.entry := by simp
    have hnone : ((init ++ [last]).map entry)[init.length + 1]? = none := by simp
    have hunpack := unpackEntry_entry last hlast.le hlast64
    rw [mergeExtent.eq_def, hlen]
    dsimp only
    rw [index_ok hget, ok_bind, hunpack, ok_bind, hnone, getLast?_concat, Option.map_some]
    by_cases hadj : last.e = range.b
    · have hsum : last.e - last.b + (range.e - last.e) = range.e - last.b := by omega
      have hmerged : entry ⟨last.b, range.e⟩ = (last.b, range.e - last.b) := rfl
      have hunpack' := unpackEntry_entry ⟨last.b, range.e⟩ (by dsimp only; omega) hr64
      rw [hmerged] at hunpack'
      simp only [hadj, if_true, pure_eq_ok, ok_bind, entry, Nat.add_sub_cancel]
      rw [← hadj, addU64_ok pr (by omega), ok_bind, hsum, hunpack', ok_bind, pushMerged,
        getLast?_concat]
      dsimp only
      rw [if_pos hadj, dropLast_concat]
      simp [entry]
    · simp [hadj]

theorem mergeExtent_or_insertIdx :
    (do
      let merged ← mergeExtent pr (rs.map entry) (rs.map entry).length range
        (range.e - range.b)
      match merged with
      | some extents => .ok extents
      | none => .ok ((rs.map entry).insertIdx (rs.map entry).length
          (range.b, range.e - range.b))) =
      (.ok ((pushMerged rs range).map entry) : Comp (List (Nat × Nat))) := by
  rw [mergeExtent_back pr rs range hrs hrange, ok_bind]
  by_cases hadj : rs.getLast?.map e = some range.b
  · rw [if_pos hadj]
  · rw [if_neg hadj]
    rw [insertIdx_length_self, pushMerged]
    cases hlast : rs.getLast? with
    | none =>
      rw [getLast?_eq_none_iff] at hlast
      subst hlast
      rfl
    | some last =>
      rw [hlast, Option.map_some, Option.some.injEq] at hadj
      dsimp only
      rw [if_neg hadj, map_append]
      rfl

theorem pushExtent_merge :
    pushExtent pr (rs.map entry) range false =
      if pr = .debug ∧ ¬∀ r ∈ rs, r.Disjoint range then panic .debugAssert
      else .ok ((pushMerged rs range).map entry) := by
  have hcount : range.blockCount = .ok (range.e - range.b) := checkedSub_ok hrange.1.le
  have hpos : range.e - range.b ≠ 0 := Nat.sub_ne_zero_of_lt hrange.1
  have hend := mergeExtent_or_insertIdx pr rs range hrs hrange
  rw [pushExtent, insertExtent, debugAssert_ok pr (le_refl _), ok_bind, hcount, ok_bind,
    if_neg hpos]
  simp only [Bool.false_eq_true, if_false, le_refl, if_true, pure_eq_ok]
  cases pr with
  | release =>
    rw [if_neg (fun h => Profile.noConfusion h.1)]
    exact hend
  | debug =>
    rw [anyOverlaps_entries range rs (fun r hr => ⟨(hrs r hr).1.le, (hrs r hr).2⟩), ok_bind]
    by_cases hd : ∀ r ∈ rs, r.Disjoint range
    · rw [debugAssert_ok _ (by simpa using hd), ok_bind, if_neg (fun h => h.2 hd)]
      exact hend
    · rw [debugAssert, if_neg (by simpa using hd), if_pos ⟨rfl, hd⟩]
      rfl

end

variable {range p r : BlockRange} {rs : List BlockRange}
    {compare : BlockRange → BlockRange → Comp Ordering}

theorem nodup_blocksIn_push (hrs : (blocksIn rs).Nodup) (hd : ∀ r ∈ rs, r.Disjoint range) :
    (blocksIn rs ++ List.range' range.b (range.e - range.b)).Nodup := by
  refine nodup_append.mpr ⟨hrs, nodup_range', ?_⟩
  rintro b hb _ hb' rfl
  obtain ⟨r, hr, hbr⟩ := mem_flatMap.mp hb
  rw [mem_range'_1] at hbr hb'
  have hdisj := hd r hr
  rw [BlockRange.Disjoint] at hdisj
  omega

theorem pushExtent_eq_ok {pr : Profile}
    {extents extents' : List (Nat × Nat)} (hextents : extents = rs.map entry)
    (hrs : ∀ r ∈ rs, Proper r) (hrange : Proper range)
    (h : pushExtent pr extents range false = .ok extents') :
    extents' = (pushMerged rs range).map entry ∧
      (pr = .debug → ∀ r ∈ rs, r.Disjoint range) := by
  rw [hextents, pushExtent_merge pr rs range hrs hrange] at h
  split at h
  · cases h
  · rename_i hnot
    refine ⟨(Except.ok.inj h).symm, fun hpr => ?_⟩
    by_contra hd
    exact hnot ⟨hpr, hd⟩

theorem disjoint_of_nodup (hrs : ∀ r ∈ rs, Proper r) (hrange : Proper range)
    (h : (blocksIn rs ++ List.range' range.b (range.e - range.b)).Nodup) :
    ∀ r ∈ rs, r.Disjoint range := by
  intro r hr
  by_contra hd
  rw [BlockRange.Disjoint, not_or, not_le, not_le] at hd
  have hproper := (hrs r hr).1
  have hproper' := hrange.1
  have hcommon := (nodup_append.mp h).2.2 (max r.b range.b)
    (mem_flatMap.mpr ⟨r, hr, by rw [mem_range'_1]; omega⟩) (max r.b range.b)
    (by rw [mem_range'_1]; omega)
  exact hcommon rfl

theorem pairwise_disjoint_of_nodup (hrs : ∀ r ∈ rs, Proper r)
    (h : (blocksIn rs).Nodup) : rs.Pairwise BlockRange.Disjoint := by
  induction rs with
  | nil => exact List.Pairwise.nil
  | cons r rs ih =>
    have hswap : (blocksIn rs ++ List.range' r.b (r.e - r.b)).Nodup :=
      perm_append_comm.nodup_iff.mp h
    have hd := disjoint_of_nodup (fun s hs => hrs s (mem_cons_of_mem _ hs))
      (hrs r (mem_cons_self ..)) hswap
    refine pairwise_cons.mpr ⟨fun s hs => (hd s hs).symm, ?_⟩
    exact ih (fun s hs => hrs s (mem_cons_of_mem _ hs)) (nodup_append.mp h).2.1

theorem mem_blocksIn {b : Nat} (hrs : ∀ r ∈ rs, Proper r) :
    b ∈ blocksIn rs ↔ ∃ r ∈ rs, r.b ≤ b ∧ b < r.e := by
  rw [blocksIn, mem_flatMap]
  refine exists_congr fun r => and_congr_right fun hr => ?_
  have := (hrs r hr).1
  rw [mem_range'_1]
  omega

/-- The comparison tells which one of two disjoint extents comes first. -/
def Compares (compare : BlockRange → BlockRange → Comp Ordering) : Prop :=
  ∀ r s, Proper r → Proper s → r.Disjoint s →
    compare r s = .ok (if r.e ≤ s.b then .lt else .gt)

def Before (r s : BlockRange) : Prop := r.e ≤ s.b

theorem insertBy_ok (hcompare : Compares compare)
    (r : BlockRange) (rs : List BlockRange) (hr : Proper r) (hrs : ∀ s ∈ rs, Proper s)
    (hd : ∀ s ∈ rs, r.Disjoint s) (hsorted : rs.Pairwise Before) :
    ∃ rs' : List BlockRange, insertBy compare r.entry (rs.map entry) = .ok (rs'.map entry) ∧
      rs'.Perm (r :: rs) ∧ rs'.Pairwise Before := by
  induction rs with
  | nil => exact ⟨[r], rfl, List.Perm.refl _, pairwise_singleton _ _⟩
  | cons s rs ih =>
    have hs := hrs s (mem_cons_self ..)
    have hds := hd s (mem_cons_self ..)
    obtain ⟨hhead, htail⟩ := pairwise_cons.mp hsorted
    rw [map_cons, insertBy, unpackEntry_entry r hr.1.le hr.2, ok_bind,
      unpackEntry_entry s hs.1.le hs.2, ok_bind, hcompare r s hr hs hds]
    by_cases hle : r.e ≤ s.b
    · rw [if_pos hle]
      refine ⟨r :: s :: rs, rfl, List.Perm.refl _, pairwise_cons.mpr ⟨?_, hsorted⟩⟩
      intro t ht
      rcases mem_cons.mp ht with rfl | ht
      · exact hle
      · exact le_trans (le_trans hle hs.1.le) (hhead t ht)
    · obtain ⟨rs', hrest, hperm, hsorted'⟩ := ih (fun t ht => hrs t (mem_cons_of_mem _ ht))
        (fun t ht => hd t (mem_cons_of_mem _ ht)) htail
      rw [if_neg hle, ok_bind]
      rw [hrest]
      refine ⟨s :: rs', rfl, (hperm.cons s).trans (List.Perm.swap r s rs),
        pairwise_cons.mpr ⟨?_, hsorted'⟩⟩
      intro t ht
      rcases mem_cons.mp (hperm.subset ht) with rfl | ht
      · exact hds.resolve_left hle
      · exact hhead t ht

theorem sortBy_ok (hcompare : Compares compare)
    (rs : List BlockRange) (hrs : ∀ r ∈ rs, Proper r) (hd : rs.Pairwise BlockRange.Disjoint) :
    ∃ rs' : List BlockRange, sortBy compare (rs.map entry) = .ok (rs'.map entry) ∧
      rs'.Perm rs ∧ rs'.Pairwise Before := by
  induction rs with
  | nil => exact ⟨[], rfl, List.Perm.refl _, List.Pairwise.nil⟩
  | cons r rs ih =>
    obtain ⟨hhead, htail⟩ := pairwise_cons.mp hd
    obtain ⟨rs', hsort, hperm, hsorted⟩ :=
      ih (fun s hs => hrs s (mem_cons_of_mem _ hs)) htail
    obtain ⟨rs'', hinsert, hperm', hsorted'⟩ := insertBy_ok hcompare r rs'
      (hrs r (mem_cons_self ..))
      (fun s hs => hrs s (mem_cons_of_mem _ (hperm.subset hs)))
      (fun s hs => hhead s (hperm.subset hs)) hsorted
    refine ⟨rs'', ?_, hperm'.trans (hperm.cons r), hsorted'⟩
    rw [map_cons, sortBy, hsort, ok_bind, hinsert]

theorem mergeNeighbours (init tail : List BlockRange) (hadj : p.e = r.b)
    (hp : Proper p) (hr : Proper r) :
    blocksIn (init ++ ⟨p.b, r.e⟩ :: tail) = blocksIn (init ++ p :: r :: tail) := by
  have hpb := hp.1
  have hrb := hr.1
  have hlen : r.e - p.b = (p.e - p.b) + (r.e - r.b) := by omega
  have hstart : p.b + (p.e - p.b) = r.b := by omega
  simp only [blocksIn, flatMap_append, flatMap_cons]
  rw [hlen, ← range'_append_1, hstart, append_assoc]

variable {init tail : List BlockRange}

theorem proper_merged {m : BlockRange}
    (hrs : ∀ s ∈ init ++ p :: r :: tail, Proper s) (hm : Proper m) :
    ∀ s ∈ init ++ m :: tail, Proper s := by
  intro s hs
  rcases mem_append.mp hs with hs | hs
  · exact hrs s (by simp [hs])
  · rcases mem_cons.mp hs with rfl | hs
    · exact hm
    · exact hrs s (by simp [hs])

theorem pairwise_merged (hsorted : (init ++ p :: r :: tail).Pairwise Before) :
    (init ++ ⟨p.b, r.e⟩ :: tail).Pairwise Before := by
  simp only [pairwise_append, pairwise_cons, mem_cons, forall_eq_or_imp] at hsorted ⊢
  obtain ⟨hinit, ⟨-, hrtail, htail⟩, hacross⟩ := hsorted
  exact ⟨hinit, ⟨hrtail, htail⟩, fun s hs => ⟨(hacross s hs).1, (hacross s hs).2.2⟩⟩

theorem mergeAdjacent_ok (pr : Profile) (pos : Nat) (rs : List BlockRange)
    (hpos : pos = 0 ∨ pos < rs.length) (hrs : ∀ r ∈ rs, Proper r) (hsorted : rs.Pairwise Before) :
    ∃ rs' : List BlockRange, mergeAdjacent pr pos (rs.map entry) = .ok (rs'.map entry) ∧
      (∀ r ∈ rs', Proper r) ∧ rs'.Pairwise Before ∧ blocksIn rs' = blocksIn rs := by
  induction pos generalizing rs with
  | zero => exact ⟨rs, rfl, hrs, hsorted, rfl⟩
  | succ pos ih =>
    obtain ⟨init, p, r, tail, rfl, rfl⟩ : ∃ init p r tail, rs = init ++ p :: r :: tail ∧
        init.length = pos := by
      refine ⟨rs.take pos, rs[pos], rs[pos + 1], rs.drop (pos + 2), ?_, ?_⟩
      · rw [getElem_cons_drop, getElem_cons_drop,
          take_append_drop]
      · rw [length_take, min_eq_left (by omega)]
    have hp := hrs p (by simp)
    have hr := hrs r (by simp)
    have hget : ((init ++ p :: r :: tail).map entry)[init.length]? = some p.entry := by
      simp
    have hget' : ((init ++ p :: r :: tail).map entry)[init.length + 1]? =
        some r.entry := by
      simp
    rw [mergeAdjacent, index_ok hget, ok_bind, unpackEntry_entry p hp.1.le hp.2,
      ok_bind, index_ok hget', ok_bind, unpackEntry_entry r hr.1.le hr.2, ok_bind]
    by_cases hadj : p.e = r.b
    · have hpb := hp.1
      have hrb := hr.1
      have hr64 := hr.2
      have hmerged : Proper ⟨p.b, r.e⟩ := ⟨by dsimp only; omega, hr64⟩
      have hcount : p.e - p.b + (r.e - r.b) = r.e - p.b := by omega
      have hset : (((init ++ p :: r :: tail).map entry).set init.length
          (p.b, r.e - p.b)).eraseIdx (init.length + 1) =
            (init ++ ⟨p.b, r.e⟩ :: tail).map entry := by
        simp [eraseIdx_append, entry]
      obtain ⟨rs', hrest, hproper, hsorted', hblocks⟩ := ih (init ++ ⟨p.b, r.e⟩ :: tail)
        (Or.inr (by simp)) (proper_merged hrs hmerged) (pairwise_merged hsorted)
      refine ⟨rs', ?_, hproper, hsorted', hblocks.trans (mergeNeighbours init tail hadj hp hr)⟩
      rw [if_pos hadj, entry, entry]
      rw [addU64_ok pr (by omega), ok_bind, hcount]
      exact (congrArg _ hset).trans hrest
    · rw [if_neg hadj]
      exact ih _ (by simp) hrs hsorted

theorem sortExtentsBy_ok (pr : Profile)
    (hcompare : Compares compare) (rs : List BlockRange) (hrs : ∀ r ∈ rs, Proper r)
    (hnodup : (blocksIn rs).Nodup) :
    ∃ rs' : List BlockRange, sortExtentsBy pr compare (rs.map entry) false =
        .ok (rs'.map entry) ∧ (∀ r ∈ rs', Proper r) ∧ rs'.Pairwise Before ∧
      (blocksIn rs').Perm (blocksIn rs) := by
  obtain ⟨sorted, hsort, hperm, hsorted⟩ :=
    sortBy_ok hcompare rs hrs (pairwise_disjoint_of_nodup hrs hnodup)
  have hproper : ∀ r ∈ sorted, Proper r := fun r hr => hrs r (hperm.subset hr)
  obtain ⟨rs', hmerge, hproper', hsorted', hblocks⟩ :=
    mergeAdjacent_ok pr (sorted.length - 1) sorted (by omega) hproper hsorted
  refine ⟨rs', ?_, hproper', hsorted', ?_⟩
  · rw [sortExtentsBy, hsort, ok_bind, if_neg (by decide), length_map, hmerge]
  · rw [hblocks]
    exact hperm.flatMap_right _

end CocoonFs.ExtentsSort
