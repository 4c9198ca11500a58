import CocoonFs.ScriptLoops

namespace CocoonFs.ScriptCodec

open Checked Codes Extents Leb128 Leb128Decode ApplyWritesScript ScriptFormat List
open BitVec (ofNat)

def maxAllocationBlocks (allocationBlockSize128bLog2 : Nat) : Nat :=
  (2 ^ 64 - 1) / 2 ^ (allocationBlockSize128bLog2 + 7)

section Fields

variable (pr : Profile) {e : FormatError} {log2 allocationBlockSize128bLog2 : Nat}

theorem decodeU64_encode (v : BitVec 64) (tail : List Byte) :
    decodeU64 e (leb128uU64Encode v ++ tail) = .ok (v.toNat, tail) := by
  rw [decodeU64, leb128uU64Decode_encode]

theorem decodeI64_encode (v : BitVec 64) (tail : List Byte) :
    decodeI64 e (leb128sI64Encode v ++ tail) = .ok (v, tail) := by
  rw [decodeI64, leb128sI64Decode_encode]

theorem toAllocationBlocks_ok (hlog2 : log2 < 64) {blocks : Nat} (h : blocks * 2 ^ log2 < 2 ^ 64) :
    toAllocationBlocks pr e blocks log2 = .ok (blocks * 2 ^ log2) := by
  rw [toAllocationBlocks, shlU64_ok pr hlog2 h, ok_bind, shrU64_ok pr hlog2, ok_bind,
    Nat.mul_div_cancel _ (Nat.two_pow_pos _), if_neg (not_not_intro rfl)]
  rfl

theorem checkLimit_ok (hlog2 : allocationBlockSize128bLog2 + 7 < 64) {n : Nat}
    (h : n ≤ maxAllocationBlocks allocationBlockSize128bLog2) :
    checkLimit pr e allocationBlockSize128bLog2 n = .ok () := by
  rw [maxAllocationBlocks] at h
  rw [checkLimit, shrU64_ok pr hlog2, ok_bind, if_neg (not_lt.mpr h)]
  rfl

theorem checkedAddOr_ok {a b : Nat} (h : a + b < 2 ^ 64) : checkedAddOr e a b = .ok (a + b) :=
  if_pos h

theorem new_ok {b e : Nat} (h : b < e) : BlockRange.new pr b e = .ok ⟨b, e⟩ := by
  rw [BlockRange.new, debugAssert_ok pr h]
  rfl

theorem returns_bind {α β : Type} {P : α → Prop} {Q : β → Prop} {x : Comp α} {f : α → Comp β}
    (h : Returns P x) (hf : ∀ a, P a → Returns Q (f a)) : Returns Q (x >>= f) := by
  rcases h with ⟨a, rfl, ha⟩ | ⟨e, rfl⟩
  · exact hf a ha
  · exact Or.inr ⟨e, rfl⟩

theorem returns_mono {α : Type} {P Q : α → Prop} {x : Comp α} (h : Returns P x) (himp : ∀ a, P a → Q a) :
    Returns Q x := by
  rcases h with ⟨a, ha, hp⟩ | he
  · exact Or.inl ⟨a, ha, himp a hp⟩
  · exact Or.inr he

theorem returns_formatErr {α : Type} {P : α → Prop} (e : FormatError) : Returns P (formatErr e) :=
  Or.inr ⟨e, rfl⟩

theorem returns_ok {α : Type} {P : α → Prop} {a : α} (h : P a) : Returns P (.ok a) := Or.inl ⟨a, rfl, h⟩

theorem decodeU64_returns (src : List Byte) :
    Returns (fun (_, remaining) => ∃ record, record ++ remaining = src ∧ record ≠ []) (decodeU64 e src) := by
  rw [decodeU64]
  cases h : leb128uU64Decode src with
  | ok r => exact returns_ok (suffix_decodeFrom h)
  | error _ => exact returns_formatErr e

theorem decodeI64_returns (src : List Byte) :
    Returns (fun (_, remaining) => ∃ record, record ++ remaining = src ∧ record ≠ []) (decodeI64 e src) := by
  rw [decodeI64]
  cases h : leb128sI64Decode src with
  | ok r => exact returns_ok (suffix_decodeFrom h)
  | error _ => exact returns_formatErr e

theorem toAllocationBlocks_returns (hlog2 : log2 < 64) (blocks : Nat) :
    Returns (fun n => n = blocks * 2 ^ log2) (toAllocationBlocks pr e blocks log2) := by
  rw [toAllocationBlocks, shlU64, if_pos hlog2, ok_bind, shrU64_ok pr hlog2, ok_bind]
  by_cases hback : blocks * 2 ^ log2 % 2 ^ 64 / 2 ^ log2 = blocks
  · rw [if_neg (not_not_intro hback)]
    apply returns_ok
    have hle := Nat.div_mul_le_self (blocks * 2 ^ log2 % 2 ^ 64) (2 ^ log2)
    rw [hback] at hle
    exact le_antisymm (Nat.mod_le _ _) hle
  · rw [if_pos hback]
    exact returns_formatErr e

theorem checkedAddOr_returns (a b : Nat) :
    Returns (fun n => n = a + b) (checkedAddOr e a b) := by
  rw [checkedAddOr]
  split
  · exact returns_ok rfl
  · exact returns_formatErr e

theorem checkLimit_returns (hlog2 : allocationBlockSize128bLog2 + 7 < 64) (n : Nat) :
    Returns (fun _ => n ≤ maxAllocationBlocks allocationBlockSize128bLog2)
      (checkLimit pr e allocationBlockSize128bLog2 n) := by
  rw [checkLimit, shrU64_ok pr hlog2, ok_bind]
  by_cases hlt : (2 ^ 64 - 1) / 2 ^ (allocationBlockSize128bLog2 + 7) < n
  · rw [if_pos hlt]
    exact returns_formatErr e
  · rw [if_neg hlt]
    exact returns_ok (not_lt.mp hlt)

end Fields

/-- The target ranges of a script: aligned to the size of a block, ascending and within
the image's maximum size. -/
structure RangesOk (log2 allocationBlockSize128bLog2 : Nat) (ranges : List BlockRange) : Prop where
  nonempty : ∀ r ∈ ranges, r.b < r.e
  ascending : ranges.Pairwise (fun r s => r.e ≤ s.b)
  aligned : ∀ r ∈ ranges, 2 ^ log2 ∣ r.b ∧ 2 ^ log2 ∣ r.e
  bounded : ∀ r ∈ ranges, r.e ≤ maxAllocationBlocks allocationBlockSize128bLog2

variable {log2 allocationBlockSize128bLog2 : Nat} {ranges : List BlockRange} {r : BlockRange}

theorem rangesOk_nil : RangesOk log2 allocationBlockSize128bLog2 [] :=
  ⟨by simp, List.Pairwise.nil, by simp, by simp⟩

theorem RangesOk.tail (h : RangesOk log2 allocationBlockSize128bLog2 (r :: ranges)) :
    RangesOk log2 allocationBlockSize128bLog2 ranges where
  nonempty s hs := h.nonempty s (mem_cons_of_mem r hs)
  ascending := (pairwise_cons.mp h.ascending).2
  aligned s hs := h.aligned s (mem_cons_of_mem r hs)
  bounded s hs := h.bounded s (mem_cons_of_mem r hs)

theorem RangesOk.concat (h : RangesOk log2 allocationBlockSize128bLog2 ranges)
    (hlt : r.b < r.e) (hlast : ∀ s ∈ ranges, s.e ≤ r.b) (haligned : 2 ^ log2 ∣ r.b ∧ 2 ^ log2 ∣ r.e)
    (hbound : r.e ≤ maxAllocationBlocks allocationBlockSize128bLog2) :
    RangesOk log2 allocationBlockSize128bLog2 (ranges ++ [r]) where
  nonempty s hs := by
    rcases mem_append.mp hs with hs | hs
    · exact h.nonempty s hs
    · rwa [mem_singleton.mp hs]
  ascending := by
    rw [pairwise_append]
    refine ⟨h.ascending, pairwise_singleton _ _, ?_⟩
    intro s hs t ht
    rw [mem_singleton.mp ht]
    exact hlast s hs
  aligned s hs := by
    rcases mem_append.mp hs with hs | hs
    · exact h.aligned s hs
    · rwa [mem_singleton.mp hs]
  bounded s hs := by
    rcases mem_append.mp hs with hs | hs
    · exact h.bounded s hs
    · rwa [mem_singleton.mp hs]

theorem RangesOk.length_le {last : Nat} (h : RangesOk log2 allocationBlockSize128bLog2 ranges)
    (hlast : ∀ r ∈ ranges, last ≤ r.b) :
    ranges.length ≤ maxAllocationBlocks allocationBlockSize128bLog2 - last := by
  induction ranges generalizing last with
  | nil => exact Nat.zero_le _
  | cons r ranges ih =>
    have htail := ih h.tail (pairwise_cons.mp h.ascending).1
    have hlt := h.nonempty r mem_cons_self
    have hbound := h.bounded r mem_cons_self
    have hle := hlast r mem_cons_self
    rw [length_cons]
    omega

section RangeScripts

variable (pr : Profile) (format entry : FormatError) {lastEnd : Nat}

theorem maxAllocationBlocks_lt (allocationBlockSize128bLog2 : Nat) :
    maxAllocationBlocks allocationBlockSize128bLog2 < 2 ^ 57 := by
  have hle : 2 ^ 7 ≤ 2 ^ (allocationBlockSize128bLog2 + 7) := Nat.pow_le_pow_right (by decide) (by omega)
  exact (Nat.div_le_div_left hle (by decide)).trans_lt (by decide)

theorem div_mul_of_aligned {a b : Nat} (ha : 2 ^ log2 ∣ a) (hb : 2 ^ log2 ∣ b) :
    (b - a) / 2 ^ log2 * 2 ^ log2 = b - a :=
  Nat.div_mul_cancel (Nat.dvd_sub hb ha)

theorem toNat_blocks {n : Nat} (h : n < 2 ^ 64) : (ofNat 64 (n / 2 ^ log2)).toNat = n / 2 ^ log2 := by
  rw [BitVec.toNat_ofNat]
  exact Nat.mod_eq_of_lt ((Nat.div_le_self _ _).trans_lt h)

theorem rangeFields_ok (hlog2 : log2 < 64) (hlast : lastEnd ≤ r.b) (hlt : r.b < r.e) :
    rangeFields pr log2 lastEnd r = .ok (ofNat 64 ((r.b - lastEnd) / 2 ^ log2),
      ofNat 64 ((r.e - r.b) / 2 ^ log2)) := by
  rw [rangeFields, checkedSub_ok hlast, ok_bind, shrU64_ok pr hlog2, ok_bind, BlockRange.blockCount,
    checkedSub_ok (le_of_lt hlt), ok_bind, shrU64_ok pr hlog2, ok_bind]
  rfl

structure Following (log2 allocationBlockSize128bLog2 lastEnd : Nat) (r : BlockRange) : Prop where
  last : lastEnd ≤ r.b
  nonempty : r.b < r.e
  alignedLast : 2 ^ log2 ∣ lastEnd
  aligned : 2 ^ log2 ∣ r.b ∧ 2 ^ log2 ∣ r.e
  bounded : r.e ≤ maxAllocationBlocks allocationBlockSize128bLog2

theorem RangesOk.following (h : RangesOk log2 allocationBlockSize128bLog2 (r :: ranges))
    (halign : 2 ^ log2 ∣ lastEnd) (hlast : ∀ s ∈ r :: ranges, lastEnd ≤ s.b) :
    Following log2 allocationBlockSize128bLog2 lastEnd r where
  last := hlast r mem_cons_self
  nonempty := h.nonempty r mem_cons_self
  alignedLast := halign
  aligned := h.aligned r mem_cons_self
  bounded := h.bounded r mem_cons_self

namespace Following

variable (h : Following log2 allocationBlockSize128bLog2 lastEnd r)
include h

theorem lt : r.e < 2 ^ 57 := h.bounded.trans_lt (maxAllocationBlocks_lt _)

theorem count_pos : 0 < (r.e - r.b) / 2 ^ log2 :=
  Nat.div_pos (Nat.le_of_dvd (Nat.sub_pos_of_lt h.nonempty) (Nat.dvd_sub h.aligned.2 h.aligned.1))
    (Nat.two_pow_pos _)

theorem toNat_delta : (ofNat 64 ((r.b - lastEnd) / 2 ^ log2)).toNat = (r.b - lastEnd) / 2 ^ log2 :=
  toNat_blocks (by have := h.lt; have := h.nonempty; omega)

theorem toNat_count : (ofNat 64 ((r.e - r.b) / 2 ^ log2)).toNat = (r.e - r.b) / 2 ^ log2 :=
  toNat_blocks (by have := h.lt; omega)

theorem delta_ok (hlog2 : log2 < 64) (e : FormatError) :
    toAllocationBlocks pr e ((r.b - lastEnd) / 2 ^ log2) log2 = .ok (r.b - lastEnd) := by
  have hmul := div_mul_of_aligned h.alignedLast h.aligned.1
  rw [toAllocationBlocks_ok pr hlog2 (by have := h.lt; have := h.nonempty; omega), hmul]

theorem count_ok (hlog2 : log2 < 64) (e : FormatError) :
    toAllocationBlocks pr e ((r.e - r.b) / 2 ^ log2) log2 = .ok (r.e - r.b) := by
  have hmul := div_mul_of_aligned h.aligned.1 h.aligned.2
  rw [toAllocationBlocks_ok pr hlog2 (by have := h.lt; omega), hmul]

theorem begin_ok (e : FormatError) : checkedAddOr e lastEnd (r.b - lastEnd) = .ok r.b := by
  have hadd := Nat.add_sub_cancel' h.last
  rw [checkedAddOr_ok (by have := h.lt; have := h.nonempty; omega), hadd]

theorem end_ok (e : FormatError) : checkedAddOr e r.b (r.e - r.b) = .ok r.e := by
  have hadd := Nat.add_sub_cancel' (le_of_lt h.nonempty)
  rw [checkedAddOr_ok (by have := h.lt; omega), hadd]

theorem decodeRange_ok (hlog2 : log2 < 64) (hsize : allocationBlockSize128bLog2 + 7 < 64)
    (tail : List Byte) :
    decodeRange pr log2 allocationBlockSize128bLog2 format entry lastEnd
      (leb128uU64Encode (ofNat 64 ((r.b - lastEnd) / 2 ^ log2)) ++
        leb128uU64Encode (ofNat 64 ((r.e - r.b) / 2 ^ log2)) ++ tail) =
      .ok (some (r, r.e), tail) := by
  have hpos := ne_of_gt h.count_pos
  rw [decodeRange, append_assoc, decodeU64_encode, ok_bind]
  dsimp only
  rw [decodeU64_encode, ok_bind]
  rw [h.toNat_delta, h.toNat_count, if_neg (fun hzero => hpos hzero.2), if_neg hpos, h.delta_ok pr hlog2,
    ok_bind, h.begin_ok, ok_bind, h.count_ok pr hlog2, ok_bind, h.end_ok, ok_bind,
    checkLimit_ok pr hsize h.bounded, ok_bind, new_ok pr h.nonempty]
  rfl

end Following

theorem rangeScript_terminated :
    (rangeScript pr log2 allocationBlockSize128bLog2 format entry).Terminated := by
  intro st tail
  rfl

section

variable (hlog2 : log2 < 64) (hsize : allocationBlockSize128bLog2 + 7 < 64)
include hlog2 hsize

theorem rangeScript_encodes (h : Following log2 allocationBlockSize128bLog2 lastEnd r) :
    ∃ bytes, (rangeScript pr log2 allocationBlockSize128bLog2 format entry).Encodes lastEnd r bytes r.e := by
  have hfields := rangeFields_ok pr hlog2 h.last h.nonempty
  have hdelta := leb128uU64EncodedLen_spec (ofNat 64 ((r.b - lastEnd) / 2 ^ log2))
  have hcount := leb128uU64EncodedLen_spec (ofNat 64 ((r.e - r.b) / 2 ^ log2))
  have hdelta' := significantBitsU64_le (ofNat 64 ((r.b - lastEnd) / 2 ^ log2))
  have hcount' := significantBitsU64_le (ofNat 64 ((r.e - r.b) / 2 ^ log2))
  refine ⟨leb128uU64Encode (ofNat 64 ((r.b - lastEnd) / 2 ^ log2)) ++
    leb128uU64Encode (ofNat 64 ((r.e - r.b) / 2 ^ log2)), ?_, ?_, ?_, ?_, ?_⟩
  · rw [length_append, length_leb128uU64Encode, length_leb128uU64Encode]
    dsimp only [rangeScript]
    rw [hfields]
    rfl
  · dsimp only [rangeScript]
    rw [hfields]
    rfl
  · exact h.decodeRange_ok pr format entry hlog2 hsize
  · rw [length_append, length_leb128uU64Encode, length_leb128uU64Encode]
    dsimp only [rangeScript]
    omega
  · rw [length_append, length_leb128uU64Encode, length_leb128uU64Encode]
    dsimp only [rangeScript, decodeBufLen]
    omega

theorem rangeScript_encodesAll
    (h : RangesOk log2 allocationBlockSize128bLog2 ranges) (halign : 2 ^ log2 ∣ lastEnd)
    (hlast : ∀ r ∈ ranges, lastEnd ≤ r.b) :
    ∃ bytes, (rangeScript pr log2 allocationBlockSize128bLog2 format entry).EncodesAll lastEnd ranges bytes := by
  induction ranges generalizing lastEnd with
  | nil => exact ⟨[], EncodesAll.nil lastEnd⟩
  | cons r ranges ih =>
    obtain ⟨bytes, hhead⟩ := rangeScript_encodes pr format entry hlog2 hsize (h.following halign hlast)
    obtain ⟨rest, htail⟩ := ih h.tail (h.aligned r mem_cons_self).2
      (pairwise_cons.mp h.ascending).1
    exact ⟨bytes ++ rest, EncodesAll.cons hhead htail⟩

theorem rangeScript_roundTrips (h : RangesOk log2 allocationBlockSize128bLog2 ranges) :
    (rangeScript pr log2 allocationBlockSize128bLog2 format entry).RoundTrips pr ranges := by
  obtain ⟨bytes, hencodes⟩ := rangeScript_encodesAll pr format entry hlog2 hsize h
    (Nat.dvd_zero _) (fun r _ => Nat.zero_le r.b)
  have hlen := length_of_encodesAll hencodes
  have hcount := h.length_le (fun r _ => Nat.zero_le r.b)
  have hmax := maxAllocationBlocks_lt allocationBlockSize128bLog2
  apply roundTrips pr (rangeScript_terminated pr format entry) (Nat.succ_pos _) hencodes
  dsimp only [rangeScript, decodeBufLen] at hlen ⊢
  omega

end

structure RangesUpto (log2 allocationBlockSize128bLog2 lastEnd : Nat) (ranges : List BlockRange) : Prop where
  ok : RangesOk log2 allocationBlockSize128bLog2 ranges
  last : ∀ r ∈ ranges, r.e ≤ lastEnd
  alignedLast : 2 ^ log2 ∣ lastEnd

section

variable (h : RangesUpto log2 allocationBlockSize128bLog2 lastEnd ranges)
include h

theorem RangesUpto.following {delta count : Nat} (hcount : count ≠ 0)
    (hbound : lastEnd + delta * 2 ^ log2 + count * 2 ^ log2 ≤ maxAllocationBlocks allocationBlockSize128bLog2) :
    Following log2 allocationBlockSize128bLog2 lastEnd
      ⟨lastEnd + delta * 2 ^ log2, lastEnd + delta * 2 ^ log2 + count * 2 ^ log2⟩ := by
  have hb : 2 ^ log2 ∣ lastEnd + delta * 2 ^ log2 := Nat.dvd_add h.alignedLast (dvd_mul_left _ _)
  exact ⟨Nat.le_add_right _ _,
    Nat.lt_add_of_pos_right (mul_pos (pos_of_ne_zero hcount) (Nat.two_pow_pos _)),
    h.alignedLast, ⟨hb, Nat.dvd_add hb (Nat.dvd_mul_left _ _)⟩, hbound⟩

theorem RangesUpto.concat (hr : Following log2 allocationBlockSize128bLog2 lastEnd r) :
    RangesUpto log2 allocationBlockSize128bLog2 r.e (ranges ++ [r]) where
  ok := h.ok.concat hr.nonempty (fun s hs => (h.last s hs).trans hr.last) hr.aligned hr.bounded
  last s hs := by
    rcases mem_append.mp hs with hs | hs
    · exact ((h.last s hs).trans hr.last).trans (le_of_lt hr.nonempty)
    · rw [mem_singleton.mp hs]
  alignedLast := hr.aligned.2

end

theorem append_append {record record' buf remaining remaining' : List Byte}
    (h : record ++ remaining = buf ∧ record ≠ []) (h' : record' ++ remaining' = remaining ∧ record' ≠ []) :
    ∃ record, record ++ remaining' = buf ∧ record ≠ [] := by
  refine ⟨record ++ record', ?_, append_ne_nil_of_left_ne_nil h.2 _⟩
  rw [append_assoc, h'.1, h.1]

theorem rangeScript_preserves (hlog2 : log2 < 64) (hsize : allocationBlockSize128bLog2 + 7 < 64) :
    (rangeScript pr log2 allocationBlockSize128bLog2 format entry).Preserves
      (RangesUpto log2 allocationBlockSize128bLog2) := by
  intro lastEnd ranges buf hupto
  dsimp only [rangeScript, decodeRange]
  apply returns_bind (decodeU64_returns buf)
  rintro ⟨delta, remaining⟩ ⟨record, hrecord⟩
  apply returns_bind (decodeU64_returns remaining)
  rintro ⟨count, remaining'⟩ ⟨record', hrecord'⟩
  have hbuf := append_append hrecord hrecord'
  by_cases hend : delta = 0 ∧ count = 0
  · rw [if_pos hend]
    exact returns_ok ⟨hbuf, fun _ _ hsome => by cases hsome⟩
  · rw [if_neg hend]
    by_cases hcount : count = 0
    · rw [if_pos hcount]
      exact returns_formatErr entry
    · rw [if_neg hcount]
      apply returns_bind (toAllocationBlocks_returns pr hlog2 delta)
      rintro _ rfl
      apply returns_bind (checkedAddOr_returns lastEnd _)
      rintro _ rfl
      apply returns_bind (toAllocationBlocks_returns pr hlog2 count)
      rintro _ rfl
      apply returns_bind (checkedAddOr_returns _ _)
      rintro _ rfl
      apply returns_bind (checkLimit_returns pr hsize _)
      rintro ⟨⟩ hbound
      have hfollowing := hupto.following hcount hbound
      rw [new_ok pr hfollowing.nonempty, ok_bind]
      apply returns_ok
      refine ⟨hbuf, ?_⟩
      rintro _ _ ⟨⟩
      exact hupto.concat hfollowing

theorem rangesUpto_nil : RangesUpto log2 allocationBlockSize128bLog2 0 [] :=
  ⟨rangesOk_nil, by simp, dvd_zero _⟩

theorem rangeScript_decode (hlog2 : log2 < 64) (hsize : allocationBlockSize128bLog2 + 7 < 64)
    (src : List (List Byte)) :
    Returns (fun (ranges, _) => RangesOk log2 allocationBlockSize128bLog2 ranges)
      ((rangeScript pr log2 allocationBlockSize128bLog2 format entry).decode pr src) := by
  apply returns_mono (decode_returns pr (rangeScript_preserves pr format entry hlog2 hsize) rangesUpto_nil src)
  rintro ⟨ranges, src'⟩ ⟨lastEnd, hupto⟩
  exact hupto.ok

end RangeScripts

end CocoonFs.ScriptCodec
