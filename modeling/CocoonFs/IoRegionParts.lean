import CocoonFs.IoRegion

namespace CocoonFs.IoRegionParts

open Checked IoSteps IoRegion List Nat

def splitAt (region : ChunkedIoRegion) (splitPosChunkOffset : Nat) :
    Except Panic (Except ChunkedIoRegionError (ChunkedIoRegion × ChunkedIoRegion)) :=
  if splitPosChunkOffset < region.chunkIndexOffset ∨
      splitPosChunkOffset - region.chunkIndexOffset > chunksCount region then
    .ok (.error .invalidBounds)
  else do
    let physicalSplitPos128b ← addChecked region.physicalBegin128b
      ((splitPosChunkOffset - region.chunkIndexOffset) * 2 ^ region.chunkSize128bLog2 % 2 ^ 64)
    let head : ChunkedIoRegion := { region with physicalEnd128b := physicalSplitPos128b }
    check .debugAssert (chunksCount head = splitPosChunkOffset - region.chunkIndexOffset)
    let tail : ChunkedIoRegion :=
      { region with
        physicalBegin128b := physicalSplitPos128b
        chunkIndexOffset := splitPosChunkOffset }
    .ok (.ok (head, tail))

inductive Op where
  | alignTo (alignment128bLog2 : Nat)
  | splitAt (splitPosChunkOffset : Nat)
  deriving DecidableEq, Repr

/-- What an operation makes of a region. -/
def parts (region : ChunkedIoRegion) : Op → Except Panic (List ChunkedIoRegion)
  | .alignTo alignment128bLog2 =>
    match alignTo region alignment128bLog2 with
    | (head, none) => .ok [head]
    | (head, some (aligned, tail)) => .ok [head, aligned, tail]
  | .splitAt splitPosChunkOffset => do
    match ← splitAt region splitPosChunkOffset with
    | .ok (head, tail) => .ok [head, tail]
    | .error _ => .ok [region]

/-- The chunk a unit of storage is mapped to, and the offset in there. -/
def chunkOf (region : ChunkedIoRegion) (pos : Nat) : Nat × Nat :=
  ((pos - region.physicalBegin128b) / 2 ^ region.chunkSize128bLog2 + region.chunkIndexOffset,
    (pos - region.physicalBegin128b) % 2 ^ region.chunkSize128bLog2)

def SameChunks (region part : ChunkedIoRegion) : Prop :=
  ∀ pos, part.physicalBegin128b ≤ pos → pos < part.physicalEnd128b → chunkOf part pos = chunkOf region pos

/-- The aligned body's bounds are at chunk boundaries. -/
def Keeps (region : ChunkedIoRegion) : Op → Prop
  | .alignTo alignment128bLog2 => ∀ b e, alignedBody region alignment128bLog2 = some (b, e) →
    2 ^ region.chunkSize128bLog2 ∣ b - region.physicalBegin128b ∧
      (e = region.physicalEnd128b ∨ 2 ^ region.chunkSize128bLog2 ∣ e - b)
  | .splitAt _ => True

/-- Any part obtained from a region by operations of some kind. -/
inductive Derived (ok : ChunkedIoRegion → Op → Prop) (root : ChunkedIoRegion) : ChunkedIoRegion → Prop
  | root : Derived ok root root
  | part {region part : ChunkedIoRegion} {op : Op} {ps : List ChunkedIoRegion} (h : Derived ok root region)
      (hok : ok region op) (hparts : parts region op = .ok ps) (hpart : part ∈ ps) : Derived ok root part

section Ranges

variable (region : ChunkedIoRegion) (blockLog2 : Nat)

/-- The loop's body for gathering everything the iterators yield. -/
def collect {E : Type} (physicalBlockIndex offsetInBlock128b : Nat) (range : ChunkRange) :
    IoM Panic E (List (Nat × Nat × ChunkRange)) Unit := fun ranges =>
  .ok (.ok (), ranges ++ [(physicalBlockIndex, offsetInBlock128b, range)])

/-- What's yielded for a position on storage. -/
def rangeAt (pos : Nat) : Nat × Nat × ChunkRange :=
  (pos / 2 ^ blockLog2, pos % 2 ^ blockLog2,
    chunkRangeAt region (2 ^ min blockLog2 region.chunkSize128bLog2) pos)

def rangesBelow (pos : Nat) : List (Nat × Nat × ChunkRange) :=
  (List.range ((pos - region.physicalBegin128b) / 2 ^ min blockLog2 region.chunkSize128bLog2)).map
    (fun i => rangeAt region blockLog2
      (region.physicalBegin128b + i * 2 ^ min blockLog2 region.chunkSize128bLog2))

/-- The ranges yielded are successive ones within their chunks, from the region's begin up to its
end, of a size dividing the one of the blocks. -/
structure Tiles : Prop where
  iter : alignedBlocksIter region blockLog2 = .ok ⟨region, blockLog2, region.physicalBegin128b⟩
  yields : ∀ E : Type, Yields (forBlocks (E := E) collect
    (region.physicalEnd128b - region.physicalBegin128b + 1) ⟨region, blockLog2, region.physicalBegin128b⟩)
    [] () (rangesBelow region blockLog2 region.physicalEnd128b)
  divides : 2 ^ min blockLog2 region.chunkSize128bLog2 ∣ 2 ^ blockLog2
  blocks : 2 ^ blockLog2 ∣ region.physicalBegin128b ∧ 2 ^ blockLog2 ∣ region.physicalEnd128b
  within : ∀ r ∈ rangesBelow region blockLog2 region.physicalEnd128b,
    r.2.2.rangeEnd = r.2.2.rangeBegin + 2 ^ min blockLog2 region.chunkSize128bLog2 * 2 ^ 7 ∧
      r.2.2.rangeEnd ≤ 2 ^ region.chunkSize128bLog2 * 2 ^ 7

variable {region blockLog2}

theorem tiles_of_walkable (h : Walkable region blockLog2) : Tiles region blockLog2 := by
  let m := min blockLog2 region.chunkSize128bLog2
  have hmB : 2 ^ m ∣ 2 ^ blockLog2 := pow_dvd_pow 2 (min_le_left _ _)
  have hmc : 2 ^ m ∣ 2 ^ region.chunkSize128bLog2 := pow_dvd_pow 2 (min_le_right _ _)
  have hpos : 0 < 2 ^ m := Nat.two_pow_pos m
  refine ⟨alignedBlocksIter_eq h, fun E => ?_, hmB, ⟨h.begin_dvd, h.end_dvd⟩, fun r hr => ?_⟩
  · obtain ⟨ranges, hrun, hranges⟩ := forBlocks_yields (E := E)
      (I := fun pos ranges => ranges = rangesBelow region blockLog2 pos) h rfl collect
      (fun pos ranges hge _ hdvd hranges => ⟨_, rfl, by
        have hstep : (pos + 2 ^ m - region.physicalBegin128b) / 2 ^ m =
            (pos - region.physicalBegin128b) / 2 ^ m + 1 := by
          rw [Nat.sub_add_comm hge, add_div_right _ hpos]
        have hat : region.physicalBegin128b + (pos - region.physicalBegin128b) / 2 ^ m * 2 ^ m = pos := by
          rw [Nat.div_mul_cancel (Nat.dvd_sub hdvd (hmB.trans h.begin_dvd)), Nat.add_sub_cancel' hge]
        rw [hranges, rangesBelow, rangesBelow, hstep, range_succ, map_append, map_singleton, hat]
        rfl⟩) [] (by rw [rangesBelow, Nat.sub_self, Nat.zero_div]; rfl)
    exact hranges ▸ hrun
  · obtain ⟨i, -, rfl⟩ := mem_map.mp hr
    have hle := mod_add_le_of_dvd hmc (dvd_mul_left (2 ^ m) i)
      (Nat.two_pow_pos region.chunkSize128bLog2)
    simp only [rangeAt, chunkRangeAt, Nat.add_sub_cancel_left]
    exact ⟨add_mul _ _ _, Nat.mul_le_mul_right _ hle⟩

end Ranges

section Parts

variable {root region part : ChunkedIoRegion} {op : Op} {ps : List ChunkedIoRegion} {a b e : Nat}

theorem alignedBody_bounds (h : alignedBody region a = some (b, e)) :
    region.physicalBegin128b ≤ b ∧ b < e ∧ e ≤ region.physicalEnd128b := by
  rw [alignedBody] at h
  split at h
  · cases h
  · dsimp only at h
    split at h
    · cases h
    next hlt =>
      cases Option.some.inj h
      refine ⟨?_, Nat.lt_of_not_le hlt, div_mul_le_self _ _⟩
      cases hup : roundUpPow2 region.physicalBegin128b a with
      | none => exact absurd (by rw [hup]; exact le_refl _) hlt
      | some p =>
        rw [roundUpPow2] at hup
        split at hup
        · cases hup
          rw [Option.getD_some]
          have hmod := div_add_mod' (region.physicalBegin128b + (2 ^ a - 1)) (2 ^ a)
          omega
        · cases hup

/-- What holds of any part of a region. -/
structure Within (root part : ChunkedIoRegion) : Prop where
  begin_le : root.physicalBegin128b ≤ part.physicalBegin128b
  ordered : part.physicalBegin128b ≤ part.physicalEnd128b
  end_le : part.physicalEnd128b ≤ root.physicalEnd128b
  chunkSize_eq : part.chunkSize128bLog2 = root.chunkSize128bLog2
  chunks_le : part.chunkIndexOffset + chunksCount part ≤ root.chunkIndexOffset + chunksCount root

theorem Within.trans (h : Within root region) (h' : Within region part) : Within root part where
  begin_le := h.begin_le.trans h'.begin_le
  ordered := h'.ordered
  end_le := h'.end_le.trans h.end_le
  chunkSize_eq := h'.chunkSize_eq.trans h.chunkSize_eq
  chunks_le := h'.chunks_le.trans h.chunks_le

theorem within_self (h : region.physicalBegin128b ≤ region.physicalEnd128b) : Within region region :=
  ⟨le_refl _, h, le_refl _, rfl, le_refl _⟩

/-- Parts of a chunk don't count. -/
theorem div_add_div_le (x y c : Nat) : x / c + y / c ≤ (x + y) / c := by
  rcases Nat.eq_zero_or_pos c with rfl | hc
  · simp
  · rw [Nat.le_div_iff_mul_le hc, add_mul]
    exact Nat.add_le_add (div_mul_le_self x c) (div_mul_le_self y c)

variable {rb re c offset : Nat}

theorem sameChunks_iff {offset' : Nat} (hb : rb ≤ b) (hbe : b < e) :
    SameChunks ⟨rb, re, c, offset⟩ ⟨b, e, c, offset'⟩ ↔
      2 ^ c ∣ b - rb ∧ offset' = offset + (b - rb) / 2 ^ c := by
  constructor
  · intro h
    obtain ⟨hchunk, hoffset⟩ := Prod.mk.inj (h b (le_refl _) hbe)
    rw [Nat.sub_self, Nat.zero_div, zero_add] at hchunk
    rw [Nat.sub_self, zero_mod] at hoffset
    exact ⟨dvd_of_mod_eq_zero hoffset.symm, hchunk.trans (add_comm _ _)⟩
  · rintro ⟨⟨q, hq⟩, rfl⟩ pos hpos _
    dsimp only at hpos
    have hsub : pos - rb = pos - b + 2 ^ c * q := by
      omega
    rw [chunkOf, chunkOf, hsub, hq, add_mul_mod_self_left, add_mul_div_left _ _ (Nat.two_pow_pos _),
      Nat.mul_div_cancel_left q (Nat.two_pow_pos _), add_assoc, add_comm q]

/-- The region's first part is mapped as before in any case. -/
theorem sameChunks_head : SameChunks ⟨rb, re, c, offset⟩ ⟨rb, e, c, offset⟩ :=
  fun _ _ _ => rfl

theorem alignTo_parts (hord : region.physicalBegin128b ≤ region.physicalEnd128b) (a : Nat) :
    ∃ ps, parts region (.alignTo a) = .ok ps ∧ (∀ part ∈ ps, Within region part) ∧
      ((∀ part ∈ ps, SameChunks region part) ↔ Keeps region (.alignTo a)) := by
  rw [parts, alignTo]
  cases hbody : alignedBody region a with
  | none =>
    refine ⟨[region], rfl, by simpa using within_self hord, iff_of_true ?_ ?_⟩
    · simpa using sameChunks_head
    · rintro b e hsome
      cases hbody.symm.trans hsome
  | some bounds =>
    obtain ⟨b, e⟩ := bounds
    obtain ⟨hb, hbe, he⟩ := alignedBody_bounds hbody
    obtain ⟨rb, re, c, offset⟩ := region
    dsimp only at hord hb he
    have hbody_sum : b - rb + (e - b) = e - rb := by omega
    have htail_sum : e - rb + (re - e) = re - rb := by omega
    have hsum1 := hbody_sum ▸ div_add_div_le (b - rb) (e - b) (2 ^ c)
    have hsum2 := htail_sum ▸ div_add_div_le (e - rb) (re - e) (2 ^ c)
    have hle1 : (b - rb) / 2 ^ c ≤ (e - rb) / 2 ^ c := Nat.div_le_div_right (by omega)
    have hle2 : (e - rb) / 2 ^ c ≤ (re - rb) / 2 ^ c := Nat.div_le_div_right (by omega)
    refine ⟨_, rfl, ?_, ?_⟩
    · simp only [mem_cons, not_mem_nil, or_false, forall_eq_or_imp, forall_eq]
      refine ⟨⟨le_refl _, hb, by dsimp only; omega, rfl, ?_⟩, ⟨hb, hbe.le, he, rfl, ?_⟩,
        ⟨by dsimp only; omega, he, le_refl _, rfl, ?_⟩⟩
      · simp only [chunksCount]
        omega
      · simp only [chunksCount]
        omega
      · simp only [chunksCount]
        omega
    · simp only [mem_cons, not_mem_nil, or_false, forall_eq_or_imp, forall_eq]
      rw [sameChunks_iff hb hbe]
      constructor
      · rintro ⟨-, ⟨hbody', -⟩, htail⟩ b' e' hsome
        cases Option.some.inj (hbody.symm.trans hsome)
        refine ⟨hbody', or_iff_not_imp_left.mpr (fun hne => ?_)⟩
        have htail := (sameChunks_iff (by omega) (Nat.lt_of_le_of_ne he hne)).mp htail
        exact (Nat.dvd_add_right hbody').mp (hbody_sum ▸ htail.1)
      · intro hkeeps
        obtain ⟨hbody', htail⟩ := hkeeps b e hbody
        refine ⟨sameChunks_head, ⟨hbody', by simp only [chunksCount]⟩, ?_⟩
        rcases eq_or_lt_of_le he with rfl | hlt
        · exact fun pos hpos hlt => absurd hpos (not_le.mpr hlt)
        · have hsum := Nat.dvd_add hbody' (htail.resolve_left hlt.ne)
          refine (sameChunks_iff (by omega) hlt).mpr ⟨hbody_sum ▸ hsum, ?_⟩
          obtain ⟨q, hq⟩ := hbody'
          simp only [chunksCount]
          rw [← hbody_sum, hq, mul_add_div (Nat.two_pow_pos _),
            Nat.mul_div_cancel_left q (Nat.two_pow_pos _), add_assoc]

theorem splitAt_parts (hord : region.physicalBegin128b ≤ region.physicalEnd128b)
    (hend : region.physicalEnd128b < 2 ^ 64) (k : Nat) :
    ∃ ps, parts region (.splitAt k) = .ok ps ∧ (∀ part ∈ ps, Within region part) ∧
      ∀ part ∈ ps, SameChunks region part := by
  by_cases hk : k < region.chunkIndexOffset ∨ k - region.chunkIndexOffset > chunksCount region
  · refine ⟨[region], by rw [parts, splitAt, if_pos hk]; rfl, by simpa using within_self hord, ?_⟩
    simpa using sameChunks_head
  · obtain ⟨rb, re, c, offset⟩ := region
    have hpos := Nat.two_pow_pos c
    obtain ⟨hge, hle⟩ := not_or.mp hk
    dsimp only at hord hend hge hle
    obtain ⟨q, rfl⟩ := Nat.exists_eq_add_of_le (not_lt.mp hge)
    rw [Nat.add_sub_cancel_left, not_lt] at hle
    have hmul := (Nat.le_div_iff_mul_le hpos).mp hle
    have hsub : rb + q * 2 ^ c - rb = q * 2 ^ c := Nat.add_sub_cancel_left ..
    refine ⟨[⟨rb, rb + q * 2 ^ c, c, offset⟩, ⟨rb + q * 2 ^ c, re, c, offset + q⟩], ?_, ?_, ?_⟩
    · rw [parts, splitAt, if_neg hk]
      simp only [Nat.add_sub_cancel_left, addChecked, check, chunksCount]
      dsimp only at hmul
      rw [mod_eq_of_lt (show q * 2 ^ c < 2 ^ 64 by omega), if_pos (show rb + q * 2 ^ c < 2 ^ 64 by omega)]
      change ((if _ then _ else _) >>= _) >>= _ = _
      simp only [hsub, Nat.mul_div_cancel q hpos]
      rfl
    · simp only [mem_cons, not_mem_nil, or_false, forall_eq_or_imp, forall_eq]
      dsimp only at hmul
      refine ⟨⟨le_refl _, Nat.le_add_right .., by dsimp only; omega, rfl, ?_⟩,
        ⟨Nat.le_add_right .., by dsimp only; omega, le_refl _, rfl, ?_⟩⟩
      · simp only [chunksCount, hsub, Nat.mul_div_cancel q hpos]
        exact Nat.add_le_add_left hle _
      · simp only [chunksCount] at hle ⊢
        rw [sub_add_eq, mul_comm q, sub_mul_div]
        omega
    · simp only [mem_cons, not_mem_nil, or_false, forall_eq_or_imp, forall_eq]
      refine ⟨sameChunks_head, fun p hp hlt => ?_⟩
      refine (sameChunks_iff (Nat.le_add_right ..) (lt_of_le_of_lt hp hlt)).mpr ⟨?_, ?_⟩ p hp hlt
      · rw [hsub]
        exact dvd_mul_left _ q
      · rw [hsub, Nat.mul_div_cancel q hpos]

end Parts

section Runs

variable {root region : ChunkedIoRegion} {ok : ChunkedIoRegion → Op → Prop} {begin128b end128b log2 : Nat}

theorem root_of_new (h : new begin128b end128b log2 = .ok root) :
    root = ⟨begin128b, end128b, log2, 0⟩ ∧ begin128b ≤ end128b := by
  rw [new] at h
  split at h
  · cases h
  · split at h
    · cases h
    next hle =>
      split at h
      · cases h
      · split at h
        · cases h
        · exact ⟨(Except.ok.inj h).symm, not_lt.mp hle⟩

theorem parts_ok (hord : region.physicalBegin128b ≤ region.physicalEnd128b)
    (hend : region.physicalEnd128b < 2 ^ 64) (op : Op) :
    ∃ ps, parts region op = .ok ps ∧ (∀ part ∈ ps, Within region part) ∧
      ((∀ part ∈ ps, SameChunks region part) ↔ Keeps region op) := by
  cases op with
  | alignTo a => exact alignTo_parts hord a
  | splitAt k =>
    obtain ⟨ps, hok, hwithin, hsame⟩ := splitAt_parts hord hend k
    exact ⟨ps, hok, hwithin, iff_of_true hsame trivial⟩

section

variable (hord : root.physicalBegin128b ≤ root.physicalEnd128b)
  (hend : root.physicalEnd128b < 2 ^ 64)
include hord hend

theorem Derived.within (h : Derived ok root region) : Within root region := by
  induction h with
  | root => exact within_self hord
  | part _ _ hparts hpart ih =>
    obtain ⟨ps, hok, hwithin, -⟩ := parts_ok ih.ordered (lt_of_le_of_lt ih.end_le hend) _
    cases hok.symm.trans hparts
    exact ih.trans (hwithin _ hpart)

theorem Derived.sameChunks (h : Derived Keeps root region) : SameChunks root region := by
  induction h with
  | root => exact fun _ _ _ => rfl
  | part hregion hkeeps hparts hpart ih =>
    have hwithin := hregion.within hord hend
    obtain ⟨ps, hok, hinside, hsame⟩ := parts_ok hwithin.ordered (lt_of_le_of_lt hwithin.end_le hend) _
    cases hok.symm.trans hparts
    have hin := hinside _ hpart
    intro pos hpos hlt
    rw [hsame.mpr hkeeps _ hpart pos hpos hlt]
    exact ih pos (hin.begin_le.trans hpos) (lt_of_lt_of_le hlt hin.end_le)

end

theorem Within.walkable (h : Within root region) (hoffset : root.chunkIndexOffset = 0)
    (hend : root.physicalEnd128b < 2 ^ 64) {blockLog2 : Nat} (haligned : isAligned region blockLog2 = true) :
    Walkable region blockLog2 := by
  rw [isAligned] at haligned
  split at haligned
  · cases haligned
  next hlt =>
    obtain ⟨hb, he⟩ := Bool.and_eq_true_iff.mp haligned
    have hcount := Nat.div_le_self (root.physicalEnd128b - root.physicalBegin128b) (2 ^ root.chunkSize128bLog2)
    have hchunks := h.chunks_le
    rw [hoffset, chunksCount.eq_1 root] at hchunks
    exact ⟨not_le.mp hlt, h.ordered, dvd_of_mod_eq_zero (beq_iff_eq.mp hb),
      dvd_of_mod_eq_zero (beq_iff_eq.mp he), lt_of_le_of_lt h.end_le hend, by omega⟩

end Runs

/-- Any part is iterated over exactly, and is mapped to the chunks as the original region is if no
body has been aligned to something within a chunk. Just these operations keep the mapping. -/
theorem derived_keeps_chunks (begin128b end128b log2 : Nat) (root : ChunkedIoRegion)
    (hnew : new begin128b end128b log2 = .ok root) (hend : end128b < 2 ^ 64) :
    (∀ region, Derived Keeps root region → SameChunks root region) ∧
    ∀ region, Derived (fun _ _ => True) root region →
      (∀ op, ∃ ps, parts region op = .ok ps ∧
        ((∀ part ∈ ps, SameChunks region part) ↔ Keeps region op)) ∧
      ∀ blockLog2, isAligned region blockLog2 = true → Tiles region blockLog2 := by
  obtain ⟨rfl, hord⟩ := root_of_new hnew
  refine ⟨fun region h => h.sameChunks hord hend, fun region h => ?_⟩
  have hwithin := h.within hord hend
  refine ⟨fun op => ?_, fun blockLog2 haligned => tiles_of_walkable (hwithin.walkable rfl hend haligned)⟩
  obtain ⟨ps, hok, -, hsame⟩ := parts_ok hwithin.ordered (lt_of_le_of_lt hwithin.end_le hend) op
  exact ⟨ps, hok, hsame⟩

theorem derived_keeps_chunks_one :
    (∀ region, Derived Keeps ⟨1, 9, 3, 0⟩ region → SameChunks ⟨1, 9, 3, 0⟩ region) ∧
    ∀ region, Derived (fun _ _ => True) ⟨1, 9, 3, 0⟩ region →
      (∀ op, ∃ ps, parts region op = .ok ps ∧
        ((∀ part ∈ ps, SameChunks region part) ↔ Keeps region op)) ∧
      ∀ blockLog2, isAligned region blockLog2 = true → Tiles region blockLog2 :=
  derived_keeps_chunks 1 9 3 ⟨1, 9, 3, 0⟩ (by decide) (by decide)

/-- The second unit of the only chunk is mapped to the chunk's begin in the body. -/
theorem aligned_body_remapped :
    ¬∀ region, Derived (fun _ _ => True) ⟨1, 9, 3, 0⟩ region → SameChunks ⟨1, 9, 3, 0⟩ region := by
  intro hall
  have hbody : Derived (fun _ _ => True) ⟨1, 9, 3, 0⟩ ⟨2, 8, 3, 0⟩ :=
    @Derived.part _ _ _ _ (.alignTo 1) [⟨1, 2, 3, 0⟩, ⟨2, 8, 3, 0⟩, ⟨8, 9, 3, 0⟩] .root trivial (by decide)
      (by decide)
  exact absurd (hall _ hbody 2 (by decide) (by decide)) (by decide)

end CocoonFs.IoRegionParts
