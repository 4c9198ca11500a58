import CocoonFs.Leb128Decode
import CocoonFs.ImageContext

namespace CocoonFs.ExtentsList

open Checked Codes Extents Leb128 Leb128Decode ImageContext List
open Nat (div_eq_zero_iff_lt lt_succ_self mod_eq_of_lt or_eq_zero_iff shiftRight_eq_div_pow
  shiftRight_or_distrib)
open BlockRange (entry new)
open BitVec (ofNat toNat_ofNat)

/-- The next slice from the front, of at most the given length. Empty buffers
are skipped over. -/
def nextSlice (maxLen : Nat) : List (List Byte) → Option (List Byte × List (List Byte))
  | [] => none
  | [] :: src => nextSlice maxLen src
  | (b :: bs) :: src => some ((b :: bs).take maxLen, (b :: bs).drop maxLen :: src)

/-- The occupied part of the decoding buffer along with the source it's refilled from. -/
structure DecodeBuf where
  buf : List Byte
  src : List (List Byte)
  srcExhausted : Bool

namespace DecodeBuf

/-- Every round but the last one adds a byte, so there are at most as many as
there is room in the buffer, and another one. -/
def refill : Nat → DecodeBuf → DecodeBuf
  | 0, d => d
  | fuel + 1, d =>
    if d.srcExhausted = false ∧ d.buf.length < 20 then
      match nextSlice (20 - d.buf.length) d.src with
      | some (slice, src) => refill fuel { d with buf := d.buf ++ slice, src := src }
      | none => { d with src := [], srcExhausted := true }
    else
      d

def pending (d : DecodeBuf) : List Byte := d.buf ++ d.src.flatten

structure Ok (d : DecodeBuf) : Prop where
  length_le : d.buf.length ≤ 20
  exhausted : d.srcExhausted = true → d.src.flatten = []

end DecodeBuf

def maxImageAllocationBlocksLog2 : Nat := 57

def orInvalid {α ε : Type} : Except ε α → Comp α
  | .ok a => .ok a
  | .error _ => formatErr .invalidExtents

/-- One pair of a delta and a length from the buffer's front, with what remains. -/
def decodeExtent (pr : Profile) (lastExtentEnd : BitVec 64) (total : Nat) (buf : List Byte) :
    Comp (BlockRange × Nat × List Byte) := do
  let (delta, buf) ← orInvalid (leb128sI64Decode buf)
  let (count, buf) ← orInvalid (leb128uU64Decode buf)
  let count := count.toNat
  if count = 0 then
    formatErr .invalidExtents
  else
    let extentBegin := (lastExtentEnd + delta).toNat
    if (extentBegin ||| count) >>> maxImageAllocationBlocksLog2 ≠ 0 then
      formatErr .invalidExtents
    else
      let extentEnd ← addU64 pr extentBegin count
      let total ← addU64 pr total count
      if (extentEnd ||| total) >>> maxImageAllocationBlocksLog2 ≠ 0 then
        formatErr .invalidExtents
      else
        let range ← new pr extentBegin extentEnd
        .ok (range, total, buf)

/-- The decoder's loop, as long as there is fuel. -/
def decodeLoop (pr : Profile) :
    Nat → DecodeBuf → BitVec 64 → Nat → List (Nat × Nat) → Option (Comp (List (Nat × Nat)))
  | 0, _, _, _, _ => none
  | fuel + 1, d, lastExtentEnd, total, extents =>
    let d := d.refill 21
    if d.buf.length < 2 then
      some (formatErr .invalidExtents)
    else if d.buf.length = 2 then
      if d.buf ≠ [0, 0] then some (formatErr .invalidExtents) else some (.ok extents)
    else
      match decodeExtent pr lastExtentEnd total d.buf with
      | .error e => some (.error e)
      | .ok (range, total, buf) =>
        match pushExtent pr extents range true with
        | .error e => some (.error e)
        | .ok extents =>
          decodeLoop pr fuel { d with buf := buf } (ofNat 64 range.e) total extents

def indirectExtentsListDecode (pr : Profile) (src : List (List Byte)) :
    Option (Comp (List (Nat × Nat))) :=
  decodeLoop pr (src.flatten.length + 1) { buf := [], src := src, srcExhausted := false } 0 0 []

/-- The extent that the bytes start with, provided it's one within bounds. -/
def readExtent (lastExtentEnd : BitVec 64) (total : Nat) (bytes : List Byte) :
    Option (BlockRange × Nat × List Byte) :=
  match leb128sI64Decode bytes with
  | .error _ => none
  | .ok (delta, bytes) =>
    match leb128uU64Decode bytes with
    | .error _ => none
    | .ok (count, bytes) =>
      let extentBegin := (lastExtentEnd + delta).toNat
      if 0 < count.toNat ∧ extentBegin + count.toNat < 2 ^ 57 ∧ total + count.toNat < 2 ^ 57 then
        some (⟨extentBegin, extentBegin + count.toNat⟩, total + count.toNat, bytes)
      else
        none

/-- The extents listed by a byte string up to where it becomes invalid, and
whether it had been terminated properly instead. A pair of numbers has to fit
into twenty bytes. -/
def listedExtents : Nat → BitVec 64 → Nat → List Byte → List BlockRange × Bool
  | 0, _, _, _ => ([], false)
  | fuel + 1, lastExtentEnd, total, bytes =>
    if bytes.length ≤ 2 then
      ([], bytes = [0, 0])
    else
      match readExtent lastExtentEnd total (bytes.take 20) with
      | none => ([], false)
      | some (range, total, rest) =>
        let (ranges, terminated) :=
          listedExtents fuel (ofNat 64 range.e) total (rest ++ bytes.drop 20)
        (range :: ranges, terminated)

def listed (bytes : List Byte) : List BlockRange × Bool :=
  listedExtents (bytes.length + 1) 0 0 bytes

theorem nextSlice_none {maxLen : Nat} {src : List (List Byte)} (h : nextSlice maxLen src = none) :
    src.flatten = [] := by
  induction src with
  | nil => rfl
  | cons bs src ih =>
    cases bs with
    | nil => exact ih h
    | cons b bs => cases h

theorem nextSlice_some {maxLen : Nat} {src src' : List (List Byte)} {slice : List Byte}
    (h : nextSlice maxLen src = some (slice, src')) (hpos : 0 < maxLen) :
    src.flatten = slice ++ src'.flatten ∧ 0 < slice.length ∧ slice.length ≤ maxLen := by
  induction src with
  | nil => cases h
  | cons bs src ih =>
    cases bs with
    | nil => exact ih h
    | cons b bs =>
      cases h
      refine ⟨?_, ?_, ?_⟩
      · rw [flatten_cons, flatten_cons, ← append_assoc, take_append_drop]
      · rw [length_take, length_cons]
        omega
      · rw [length_take]
        omega

namespace DecodeBuf

/-- After a refill, the buffer holds the next twenty bytes, or all that are left. -/
theorem refill_spec (fuel : Nat) (d : DecodeBuf) (hd : d.Ok) (hfuel : 20 < fuel + d.buf.length) :
    (d.refill fuel).Ok ∧ (d.refill fuel).pending = d.pending ∧
      (d.refill fuel).buf = d.pending.take 20 := by
  induction fuel generalizing d with
  | zero =>
    have := hd.length_le
    omega
  | succ fuel ih =>
    rw [refill]
    split
    · rename_i hmore
      split
      · rename_i slice src hnext
        obtain ⟨hflat, hpos, hle⟩ := nextSlice_some hnext (by omega)
        have hpending : pending { d with buf := d.buf ++ slice, src := src } = d.pending := by
          rw [pending, pending, hflat, append_assoc]
        rw [← hpending]
        apply ih
        · exact ⟨by rw [length_append]; omega, fun h => absurd h (by simp [hmore.1])⟩
        · rw [length_append]
          omega
      · rename_i hnext
        have hflat := nextSlice_none hnext
        refine ⟨⟨hd.length_le, fun _ => rfl⟩, ?_, ?_⟩
        · rw [pending, pending, hflat]
          rfl
        · rw [pending, hflat, List.append_nil, take_of_length_le hd.length_le]
    · rename_i hfull
      refine ⟨hd, rfl, ?_⟩
      rw [pending]
      by_cases hlen : d.buf.length < 20
      · have hex : d.srcExhausted = true := by
          cases h : d.srcExhausted with
          | true => rfl
          | false => exact absurd ⟨h, hlen⟩ hfull
        rw [hd.exhausted hex, List.append_nil, take_of_length_le hd.length_le]
      · have hle := hd.length_le
        rw [take_append_of_le_length (by omega), take_of_length_le hle]

end DecodeBuf

theorem or_shiftRight_ne_zero_iff (a b n : Nat) :
    (a ||| b) >>> n ≠ 0 ↔ ¬(a < 2 ^ n ∧ b < 2 ^ n) := by
  have hpos := Nat.two_pow_pos n
  rw [shiftRight_or_distrib, ne_eq, or_eq_zero_iff, shiftRight_eq_div_pow,
    shiftRight_eq_div_pow, div_eq_zero_iff_lt hpos, div_eq_zero_iff_lt hpos]

theorem decodeExtent_eq (pr : Profile) (lastExtentEnd : BitVec 64) {total : Nat}
    (htotal : total < 2 ^ 57) (buf : List Byte) :
    decodeExtent pr lastExtentEnd total buf =
      match readExtent lastExtentEnd total buf with
      | none => formatErr .invalidExtents
      | some extent => .ok extent := by
  rw [decodeExtent, readExtent]
  cases hdelta : leb128sI64Decode buf with
  | error e => rfl
  | ok delta =>
    simp only [orInvalid, ok_bind]
    cases hcount : leb128uU64Decode delta.2 with
    | error e => rfl
    | ok count =>
      simp only [ok_bind, or_shiftRight_ne_zero_iff, maxImageAllocationBlocksLog2]
      generalize (lastExtentEnd + delta.1).toNat = extentBegin
      generalize count.1.toNat = n
      by_cases hzero : n = 0
      · rw [if_pos hzero, if_neg (by omega)]
      · rw [if_neg hzero]
        by_cases hsmall : extentBegin < 2 ^ 57 ∧ n < 2 ^ 57
        · rw [if_neg (not_not.mpr hsmall), addU64_ok pr (by omega), ok_bind,
            addU64_ok pr (by omega), ok_bind]
          by_cases hbound : extentBegin + n < 2 ^ 57 ∧ total + n < 2 ^ 57
          · rw [if_neg (not_not.mpr hbound), if_pos ⟨by omega, hbound⟩, new,
              debugAssert_ok pr (by omega)]
            rfl
          · rw [if_pos hbound, if_neg (fun h => hbound h.2)]
        · rw [if_pos hsmall, if_neg (by omega)]

/-- What is read is an extent within bounds, and some bytes have been consumed. -/
theorem readExtent_some {lastExtentEnd : BitVec 64} {total total' : Nat} {bytes rest : List Byte}
    {range : BlockRange} (h : readExtent lastExtentEnd total bytes = some (range, total', rest)) :
    range.b < range.e ∧ range.e < 2 ^ 57 ∧ total' < 2 ^ 57 ∧ rest.length < bytes.length := by
  rw [readExtent] at h
  split at h
  · cases h
  · rename_i delta bytes' hdelta
    split at h
    · cases h
    · rename_i count bytes'' hcount
      have hlen := length_leb128sI64Decode hdelta
      have hlen' := length_leb128uU64Decode hcount
      dsimp only at h
      split at h
      · rename_i hbound
        cases h
        dsimp only
        omega
      · cases h

def outcome (pr : Profile) (ranges : List BlockRange) (terminated : Bool) :
    Comp (List (Nat × Nat)) :=
  if pr = .debug ∧ ¬ranges.Pairwise BlockRange.Disjoint then panic .debugAssert
  else if terminated then .ok (ranges.map entry)
  else formatErr .invalidExtents

theorem decodeLoop_eq (pr : Profile) (fuel : Nat) (d : DecodeBuf) (lastExtentEnd : BitVec 64)
    (total : Nat) (ranges : List BlockRange) (hd : d.Ok) (hfuel : d.pending.length < fuel)
    (htotal : total < 2 ^ 57) (hranges : ∀ r ∈ ranges, r.b ≤ r.e ∧ r.e < 2 ^ 64)
    (hdisjoint : pr = .debug → ranges.Pairwise BlockRange.Disjoint) :
    decodeLoop pr fuel d lastExtentEnd total (ranges.map entry) =
      some (outcome pr (ranges ++ (listedExtents fuel lastExtentEnd total d.pending).1)
        (listedExtents fuel lastExtentEnd total d.pending).2) := by
  induction fuel generalizing d lastExtentEnd total ranges with
  | zero => omega
  | succ fuel ih =>
    obtain ⟨hok, hpending, hbuf⟩ := d.refill_spec 21 hd (by omega)
    have hkeep : ¬(pr = .debug ∧ ¬ranges.Pairwise BlockRange.Disjoint) :=
      fun h => h.2 (hdisjoint h.1)
    have hsrc : (d.refill 21).src.flatten = d.pending.drop 20 := by
      have happ : d.pending.take 20 ++ (d.refill 21).src.flatten =
          d.pending.take 20 ++ d.pending.drop 20 := by
        rw [take_append_drop, ← hbuf]
        exact hpending
      exact append_cancel_left happ
    rw [decodeLoop, listedExtents]
    simp only [hbuf, length_take]
    by_cases hshort : d.pending.length ≤ 2
    · rw [if_pos hshort, List.append_nil, outcome, if_neg hkeep]
      by_cases hlt : min 20 d.pending.length < 2
      · have hne : d.pending ≠ [0, 0] := by
          intro h
          rw [h] at hlt
          exact absurd hlt (by decide)
        rw [if_pos hlt, if_neg (by simpa using hne)]
      · rw [if_neg hlt, if_pos (by omega), take_of_length_le (by omega)]
        by_cases hend : d.pending = [0, 0]
        · rw [if_neg (not_not.mpr hend), if_pos (by simpa using hend)]
        · rw [if_pos hend, if_neg (by simpa using hend)]
    · rw [if_neg (by omega), if_neg (by omega), if_neg hshort,
        decodeExtent_eq pr lastExtentEnd htotal]
      cases hread : readExtent lastExtentEnd total (d.pending.take 20) with
      | none =>
        rw [List.append_nil, outcome, if_neg hkeep]
        rfl
      | some extent =>
        obtain ⟨range, total', rest⟩ := extent
        obtain ⟨hlt, hend, htotal', hlen⟩ := readExtent_some hread
        rw [length_take] at hlen
        dsimp only
        rw [pushExtent_entries pr ranges range hranges hlt]
        by_cases hover : pr = .debug ∧ ¬∀ r ∈ ranges, r.Disjoint range
        · rw [if_pos hover, outcome, if_pos]
          · rfl
          · refine ⟨hover.1, fun hpw => hover.2 ?_⟩
            intro r hr
            exact (pairwise_append.mp hpw).2.2 r hr range (by simp)
        · rw [if_neg hover]
          dsimp only
          have hpend : DecodeBuf.pending { d.refill 21 with buf := rest } =
              rest ++ d.pending.drop 20 := by
            rw [DecodeBuf.pending, hsrc]
          rw [ih, hpend, append_assoc, singleton_append]
          · exact ⟨by dsimp only; omega, hok.exhausted⟩
          · rw [hpend, length_append, length_drop]
            omega
          · exact htotal'
          · intro r hr
            rcases mem_append.mp hr with hr | hr
            · exact hranges r hr
            · rw [mem_singleton.mp hr]
              omega
          · intro hpr
            rw [pairwise_append]
            refine ⟨hdisjoint hpr, pairwise_singleton _ _, ?_⟩
            intro r hr s hs
            rw [mem_singleton.mp hs]
            by_contra hr'
            exact hover ⟨hpr, fun hall => hr' (hall r hr)⟩

theorem indirectExtentsListDecode_eq (pr : Profile) (src : List (List Byte)) :
    indirectExtentsListDecode pr src =
      some (outcome pr (listed src.flatten).1 (listed src.flatten).2) := by
  have h := decodeLoop_eq pr (src.flatten.length + 1)
    { buf := [], src := src, srcExhausted := false } 0 0 [] ⟨Nat.zero_le _, fun h => nomatch h⟩
    (lt_succ_self _) (by decide) (by simp) (fun _ => List.Pairwise.nil)
  exact h

theorem listedExtents_bounds (fuel : Nat) (lastExtentEnd : BitVec 64) (total : Nat)
    (bytes : List Byte) :
    ∀ r ∈ (listedExtents fuel lastExtentEnd total bytes).1, r.b < r.e ∧ r.e < 2 ^ 57 := by
  induction fuel generalizing lastExtentEnd total bytes with
  | zero => simp [listedExtents]
  | succ fuel ih =>
    rw [listedExtents]
    split
    · simp
    · split
      · simp
      · rename_i range total' rest hread
        obtain ⟨hlt, hend, -, -⟩ := readExtent_some hread
        intro r hr
        rcases mem_cons.mp hr with rfl | hr
        · exact ⟨hlt, hend⟩
        · exact ih _ _ _ r hr

def WellFormed (r : Comp (List (Nat × Nat))) : Prop :=
  (∃ e, r = .error (.err e)) ∨
    ∃ extents, r = .ok extents ∧ ∀ x ∈ extents, 0 < x.2 ∧ x.1 + x.2 < 2 ^ 57

def Acceptable (r : Comp (List (Nat × Nat))) : Prop :=
  (∃ e, r = .error (.err e)) ∨
    ∃ extents, r = .ok extents ∧ (∀ x ∈ extents, 0 < x.2 ∧ x.1 + x.2 < 2 ^ 57) ∧
      extents.Pairwise (fun x y => x.1 + x.2 ≤ y.1 ∨ y.1 + y.2 ≤ x.1)

theorem entries_bounds {ranges : List BlockRange}
    (hranges : ∀ r ∈ ranges, r.b < r.e ∧ r.e < 2 ^ 57) :
    ∀ x ∈ ranges.map entry, 0 < x.2 ∧ x.1 + x.2 < 2 ^ 57 := by
  intro x hx
  obtain ⟨r, hr, rfl⟩ := mem_map.mp hx
  have := hranges r hr
  simp only [entry]
  omega

theorem wellFormed_outcome (ranges : List BlockRange) (terminated : Bool)
    (hranges : ∀ r ∈ ranges, r.b < r.e ∧ r.e < 2 ^ 57) :
    WellFormed (outcome .release ranges terminated) := by
  rw [outcome, if_neg (fun h => nomatch h.1)]
  cases terminated with
  | false => exact Or.inl ⟨_, rfl⟩
  | true => exact Or.inr ⟨_, rfl, entries_bounds hranges⟩

theorem pairwise_entries_iff (ranges : List BlockRange) (hranges : ∀ r ∈ ranges, r.b < r.e) :
    (ranges.map entry).Pairwise (fun x y => x.1 + x.2 ≤ y.1 ∨ y.1 + y.2 ≤ x.1) ↔
      ranges.Pairwise BlockRange.Disjoint := by
  rw [pairwise_map]
  apply List.Pairwise.iff_of_mem
  intro r s hr hs
  have hr := hranges r hr
  have hs := hranges s hs
  simp only [entry, BlockRange.Disjoint]
  omega

theorem acceptable_outcome (pr : Profile) (ranges : List BlockRange) (terminated : Bool)
    (hranges : ∀ r ∈ ranges, r.b < r.e ∧ r.e < 2 ^ 57)
    (hdisjoint : ranges.Pairwise BlockRange.Disjoint) : Acceptable (outcome pr ranges terminated) := by
  rw [outcome, if_neg (fun h => h.2 hdisjoint)]
  cases terminated with
  | false => exact Or.inl ⟨_, rfl⟩
  | true =>
    refine Or.inr ⟨_, rfl, entries_bounds hranges, ?_⟩
    exact (pairwise_entries_iff ranges (fun r hr => (hranges r hr).1)).mpr hdisjoint

/-- Extents going backwards may revisit blocks listed before. It's left to the
callers to check for that, in contrast to a debug assertion in the container. -/
theorem decode_wellFormed (src : List (List Byte)) :
    (∃ r, indirectExtentsListDecode .release src = some r ∧ WellFormed r) ∧
      ((listed src.flatten).1.Pairwise BlockRange.Disjoint →
        ∀ pr, ∃ r, indirectExtentsListDecode pr src = some r ∧ Acceptable r) := by
  have hbounds := listedExtents_bounds (src.flatten.length + 1) 0 0 src.flatten
  simp only [indirectExtentsListDecode_eq, Option.some.injEq, exists_eq_left']
  exact ⟨wellFormed_outcome _ _ hbounds, fun h pr => acceptable_outcome pr _ _ hbounds h⟩

theorem decode_wellFormed_two :
    ∃ r, indirectExtentsListDecode .debug [[0x05, 0x02], [0x7c, 0x02, 0x00], [0x00]] = some r ∧
      Acceptable r :=
  (decode_wellFormed [[0x05, 0x02], [0x7c, 0x02, 0x00], [0x00]]).2 (by decide) .debug

theorem decode_overlapping :
    ¬∃ r, indirectExtentsListDecode .release [[0x00, 0x02, 0x7f, 0x02, 0x00, 0x00]] = some r ∧
      Acceptable r := by
  rintro ⟨r, hr, hacc⟩
  have hrun : indirectExtentsListDecode .release [[0x00, 0x02, 0x7f, 0x02, 0x00, 0x00]] =
      some (.ok [(0, 2), (1, 2)]) := by decide
  rw [hrun, Option.some.injEq] at hr
  subst hr
  rcases hacc with ⟨e, he⟩ | ⟨extents, he, -, hdisjoint⟩
  · cases he
  · cases he
    exact absurd hdisjoint (by decide)

/-- Reading back an extent that has been encoded relative to the previous one. -/
theorem readExtent_encodeExtent (lastExtentEnd : BitVec 64) (total : Nat) (range : BlockRange)
    (rest : List Byte) (hlt : range.b < range.e) (hend : range.e < 2 ^ 57)
    (htotal : total + (range.e - range.b) < 2 ^ 57) :
    readExtent lastExtentEnd total (encodeExtent lastExtentEnd range ++ rest) =
      some (range, total + (range.e - range.b), rest) := by
  have hbegin : (lastExtentEnd + (ofNat 64 range.b - lastExtentEnd)).toNat = range.b := by
    rw [BitVec.add_comm, BitVec.sub_add_cancel, toNat_ofNat]
    exact mod_eq_of_lt (by omega)
  have hcount : (ofNat 64 (range.e - range.b)).toNat = range.e - range.b := by
    rw [toNat_ofNat]
    exact mod_eq_of_lt (by omega)
  rw [readExtent, encodeExtent, append_assoc, leb128sI64Decode_encode]
  dsimp only
  rw [leb128uU64Decode_encode]
  dsimp only
  rw [hbegin, hcount, if_pos ⟨by omega, by omega, by omega⟩,
    show range.b + (range.e - range.b) = range.e by omega]

theorem length_encodeExtent (lastExtentEnd : BitVec 64) (range : BlockRange) :
    2 ≤ (encodeExtent lastExtentEnd range).length ∧
      (encodeExtent lastExtentEnd range).length ≤ 20 := by
  have hs := leb128sI64EncodedLen_spec (ofNat 64 range.b - lastExtentEnd)
  have hu := leb128uU64EncodedLen_spec (ofNat 64 (range.e - range.b))
  have hs' := significantBitsI64_le (ofNat 64 range.b - lastExtentEnd)
  have hu' := significantBitsU64_le (ofNat 64 (range.e - range.b))
  rw [encodeExtent, length_append, length_leb128sI64Encode, length_leb128uU64Encode]
  omega

def totalLength (ranges : List BlockRange) : Nat := (ranges.map (fun r => r.e - r.b)).sum

section

variable (ranges : List BlockRange)
include ranges

theorem length_encodeSeq (lastExtentEnd : BitVec 64) :
    2 + 2 * ranges.length ≤ (encodeSeq encodeExtent extentEnd [0, 0] lastExtentEnd ranges).length ∧
      (encodeSeq encodeExtent extentEnd [0, 0] lastExtentEnd ranges).length ≤
        2 + 20 * ranges.length := by
  induction ranges generalizing lastExtentEnd with
  | nil => simp [encodeSeq]
  | cons range ranges ih =>
    have hitem := length_encodeExtent lastExtentEnd range
    have hrest := ih (extentEnd lastExtentEnd range)
    rw [encodeSeq, length_append, length_cons]
    omega

theorem listedExtents_encodeSeq (fuel : Nat) (lastExtentEnd : BitVec 64)
    (total : Nat) (hranges : ∀ r ∈ ranges, r.b < r.e ∧ r.e < 2 ^ 57)
    (htotal : total + totalLength ranges < 2 ^ 57) (hfuel : ranges.length < fuel) :
    listedExtents fuel lastExtentEnd total
      (encodeSeq encodeExtent extentEnd [0, 0] lastExtentEnd ranges) = (ranges, true) := by
  induction ranges generalizing fuel lastExtentEnd total with
  | nil =>
    cases fuel with
    | zero => cases hfuel
    | succ fuel => rfl
  | cons range ranges ih =>
    cases fuel with
    | zero => cases hfuel
    | succ fuel =>
      obtain ⟨hlt, hend⟩ := hranges range (by simp)
      have hitem := length_encodeExtent lastExtentEnd range
      have htail := length_encodeSeq ranges (extentEnd lastExtentEnd range)
      rw [totalLength, map_cons, sum_cons] at htotal
      rw [encodeSeq, listedExtents, if_neg (by rw [length_append]; omega),
        List.take_append, take_of_length_le hitem.2,
        readExtent_encodeExtent _ _ _ _ hlt hend (by omega)]
      dsimp only
      rw [drop_append, drop_eq_nil_of_le hitem.2, List.nil_append, take_append_drop]
      have hrest := ih fuel (extentEnd lastExtentEnd range) (total + (range.e - range.b))
        (fun r hr => hranges r (by simp [hr])) (by rw [totalLength]; omega)
        (by simpa using hfuel)
      rw [extentEnd] at hrest ⊢
      rw [hrest]

theorem length_le_totalLength (hranges : ∀ r ∈ ranges, r.b < r.e) :
    ranges.length ≤ totalLength ranges := by
  induction ranges with
  | nil => exact le_refl _
  | cons range ranges ih =>
    have hrange := hranges range (by simp)
    have hrest := ih (fun r hr => hranges r (by simp [hr]))
    rw [totalLength] at hrest ⊢
    rw [length_cons, map_cons, sum_cons]
    omega

/-- The length of an encoding can't overflow if there are less than 2^57 blocks. -/
theorem encodedLenFrom_ok (lastExtentEnd : BitVec 64) (base : Nat)
    (hbase : base + 2 + 20 * ranges.length < 2 ^ 64) :
    encodedLenFrom lastExtentEnd (base + 2) ranges =
      .ok (base + (encodeSeq encodeExtent extentEnd [0, 0] lastExtentEnd ranges).length) := by
  induction ranges generalizing lastExtentEnd base with
  | nil => rfl
  | cons range ranges ih =>
    have hitem := length_encodeExtent lastExtentEnd range
    have hlen : leb128sI64EncodedLen (ofNat 64 range.b - lastExtentEnd) +
        leb128uU64EncodedLen (ofNat 64 (range.e - range.b)) =
        (encodeExtent lastExtentEnd range).length := by
      rw [encodeExtent, length_append, length_leb128sI64Encode, length_leb128uU64Encode]
    rw [length_cons] at hbase
    simp only [encodedLenFrom, hlen]
    rw [if_pos (by omega), add_right_comm, ih _ _ (by omega), encodeSeq, length_append,
      add_assoc]

end

theorem outcome_eq_ok_iff (pr : Profile) (ranges : List BlockRange) :
    outcome pr ranges true = .ok (ranges.map entry) ↔
      (pr = .debug → ranges.Pairwise BlockRange.Disjoint) := by
  rw [outcome]
  by_cases h : pr = .debug ∧ ¬ranges.Pairwise BlockRange.Disjoint
  · rw [if_pos h]
    exact iff_of_false (fun hp => nomatch hp) (fun hd => h.2 (hd h.1))
  · rw [if_neg h]
    exact iff_of_true rfl (fun hpr => by_contra (fun hd => h ⟨hpr, hd⟩))

/-- The encoding is as long as announced and any slicing of it is decoded to the
very same extents, short of a debug assertion for overlapping ones. -/
theorem decode_encode_iff (pr : Profile) (ranges : List BlockRange)
    (hranges : ∀ r ∈ ranges, r.b < r.e ∧ r.e < 2 ^ 57) (htotal : totalLength ranges < 2 ^ 57) :
    ∃ bytes, indirectExtentsListEncode ranges = .ok bytes ∧
      indirectExtentsListEncodedLen ranges = .ok bytes.length ∧
      (∀ dst : List Byte, bytes.length ≤ dst.length →
        indirectExtentsListEncodeInto dst ranges = .ok (bytes ++ dst.drop bytes.length)) ∧
      ∀ src : List (List Byte), src.flatten = bytes →
        (indirectExtentsListDecode pr src = some (.ok (ranges.map entry)) ↔
          (pr = .debug → ranges.Pairwise BlockRange.Disjoint)) := by
  have hcount := length_le_totalLength ranges (fun r hr => (hranges r hr).1)
  have hlen : indirectExtentsListEncodedLen ranges = .ok (encodeExtents ranges).length := by
    simpa [encodeExtents, indirectExtentsListEncodedLen] using
      encodedLenFrom_ok ranges 0 0 (by omega)
  refine ⟨encodeExtents ranges, ?_, hlen, ?_, ?_⟩
  · rw [indirectExtentsListEncode, hlen, ok_bind, indirectExtentsListEncodeInto,
      length_replicate, if_pos (le_refl _), drop_replicate, Nat.sub_self]
    simp
  · intro dst hdst
    rw [indirectExtentsListEncodeInto, if_pos hdst]
  · intro src hsrc
    have hlong := (length_encodeSeq ranges 0).1
    have hlisted : listed src.flatten = (ranges, true) := by
      rw [listed, hsrc]
      exact listedExtents_encodeSeq ranges _ 0 0 hranges (by omega) (by
        rw [encodeExtents]
        omega)
    rw [indirectExtentsListDecode_eq, hlisted, Option.some.injEq]
    exact outcome_eq_ok_iff pr ranges

theorem decode_encode_backwards :
    indirectExtentsListDecode .debug [[0x05, 0x02], [0x7c, 0x02, 0x00], [0x00]] =
      some (.ok [(5, 2), (3, 2)]) := by
  obtain ⟨bytes, henc, -, -, hdec⟩ :=
    decode_encode_iff .debug [⟨5, 7⟩, ⟨3, 5⟩] (by decide) (by decide)
  refine (hdec _ ?_).mpr (by decide)
  rw [show indirectExtentsListEncode [⟨5, 7⟩, ⟨3, 5⟩] =
    .ok [0x05, 0x02, 0x7c, 0x02, 0x00, 0x00] by decide, Except.ok.injEq] at henc
  rw [← henc]
  rfl

theorem decode_encode_overlapping :
    indirectExtentsListEncode [⟨0, 2⟩, ⟨1, 3⟩] = .ok [0x00, 0x02, 0x7f, 0x02, 0x00, 0x00] ∧
      indirectExtentsListDecode .debug [[0x00, 0x02, 0x7f, 0x02, 0x00, 0x00]] =
        some (panic .debugAssert) := by
  decide

end CocoonFs.ExtentsList
