import CocoonFs.ScriptCodec

namespace CocoonFs.ScriptCodec

open Checked Codes IoSlices List Nat
open List (replicate take_append)

variable {d : Source} {pending : List Byte}

namespace ScriptFormat

variable {σ ε : Type} {f : ScriptFormat σ ε} (pr : Profile)

/-- What is still to be decoded, from the buffer and the source behind it. -/
structure Source.Holds (f : ScriptFormat σ ε) (d : Source) (pending : List Byte) : Prop where
  pending : d.decodeBuf ++ d.peekingSrc.flatten = pending
  fits : d.decodeBuf.length ≤ f.decodeBufLen
  remaining : totalLen d.peekingSrc = d.remainingSrcLen

theorem refill_ok (h : d.Holds f pending) :
    ∃ d', f.refill pr d = .ok d' ∧ d'.Holds f pending ∧ d'.decodeBuf = pending.take f.decodeBufLen ∧
      d'.totalConsumedSrcLen = d.totalConsumedSrcLen := by
  have hlen : d.remainingSrcLen = d.peekingSrc.flatten.length := by
    rw [← h.remaining, totalLen_eq]
  have hbuf : d.decodeBuf ++ (copyFromIter (min (f.decodeBufLen - d.decodeBuf.length) d.remainingSrcLen)
      d.peekingSrc).1 = pending.take f.decodeBufLen := by
    rw [copyFromIter_fst, ← h.pending, take_append, take_of_length_le h.fits, hlen,
      ← take_take, take_length]
  rw [refill, debugAssert_ok pr h.remaining, ok_bind]
  refine ⟨_, rfl, ⟨?_, ?_, ?_⟩, hbuf, rfl⟩
  · rw [copyFromIter_fst, copyFromIter_snd, append_assoc, take_append_drop, h.pending]
  · rw [hbuf]
    exact length_take_le _ _
  · rw [totalLen_eq, copyFromIter_snd, length_drop, hlen]

theorem Source.Holds.advance {pending record remaining : List Byte} (h : d.Holds f pending)
    (hbuf : record ++ remaining = d.decodeBuf) :
    (d.advance remaining).Holds f (pending.drop record.length) ∧
      (d.advance remaining).totalConsumedSrcLen = d.totalConsumedSrcLen + record.length := by
  have hfits := h.fits
  rw [← hbuf, length_append] at hfits
  refine ⟨⟨?_, ?_, h.remaining⟩, ?_⟩
  · rw [← h.pending, ← hbuf, append_assoc, drop_left]
    rfl
  · exact le_trans (Nat.le_add_left _ _) hfits
  · rw [Source.advance, ← hbuf, length_append, Nat.add_sub_cancel]

section Step

variable {d : Source} {pending : List Byte} {st : σ} {record remaining : List Byte}

theorem decodeRecords_none (h : d.Holds f pending) (fuel : Nat) (script : List ε)
    (hbuf : record ++ remaining = pending.take f.decodeBufLen)
    (hlen : f.fields ≤ (pending.take f.decodeBufLen).length)
    (hrecord : f.decodeRecord st (pending.take f.decodeBufLen) = .ok (none, remaining)) :
    f.decodeRecords pr (fuel + 1) d st script = .ok (script, d.totalConsumedSrcLen + record.length) := by
  obtain ⟨d', hrefill, hholds, hbuf', htotal⟩ := refill_ok pr h
  rw [decodeRecords, hrefill, ok_bind, hbuf', if_neg (not_lt.mpr hlen), hrecord, ok_bind]
  dsimp only
  rw [(hholds.advance (hbuf.trans hbuf'.symm)).2, htotal]
  rfl

theorem decodeRecords_some (h : d.Holds f pending) (fuel : Nat) (script : List ε)
    {entry : ε} {st' : σ} (hbuf : record ++ remaining = pending.take f.decodeBufLen)
    (hlen : f.fields ≤ (pending.take f.decodeBufLen).length)
    (hrecord : f.decodeRecord st (pending.take f.decodeBufLen) = .ok (some (entry, st'), remaining)) :
    ∃ d' : Source, d'.Holds f (pending.drop record.length) ∧
      d'.totalConsumedSrcLen = d.totalConsumedSrcLen + record.length ∧
      f.decodeRecords pr (fuel + 1) d st script = f.decodeRecords pr fuel d' st' (script ++ [entry]) := by
  obtain ⟨d', hrefill, hholds, hbuf', htotal⟩ := refill_ok pr h
  have hadvance := hholds.advance (hbuf.trans hbuf'.symm)
  refine ⟨d'.advance remaining, hadvance.1, hadvance.2.trans (by rw [htotal]), ?_⟩
  rw [decodeRecords, hrefill, ok_bind, hbuf', if_neg (not_lt.mpr hlen), hrecord, ok_bind]

end Step

section RoundTrip

/-- A record's encoding, that decodes to the entry again whatever follows it. -/
structure Encodes (f : ScriptFormat σ ε) (st : σ) (entry : ε) (bytes : List Byte) (st' : σ) : Prop where
  recordLen : f.recordLen st entry = .ok (bytes.length, st')
  encodeRecord : f.encodeRecord st entry = .ok (bytes, st')
  decodeRecord : ∀ tail, f.decodeRecord st (bytes ++ tail) = .ok (some (entry, st'), tail)
  fields_le : f.fields ≤ bytes.length
  le_decodeBufLen : bytes.length ≤ f.decodeBufLen

inductive EncodesAll (f : ScriptFormat σ ε) : σ → List ε → List Byte → Prop
  | nil (st : σ) : EncodesAll f st [] []
  | cons {st st' : σ} {entry : ε} {entries : List ε} {bytes rest : List Byte}
      (head : f.Encodes st entry bytes st') (tail : EncodesAll f st' entries rest) :
      EncodesAll f st (entry :: entries) (bytes ++ rest)

def Terminated (f : ScriptFormat σ ε) : Prop :=
  ∀ st tail, f.decodeRecord st (replicate f.fields 0 ++ tail) = .ok (none, tail)

variable {st : σ} {entries : List ε} {bytes : List Byte}

theorem length_of_encodesAll (h : f.EncodesAll st entries bytes) :
    bytes.length ≤ f.decodeBufLen * entries.length := by
  induction h with
  | nil => exact zero_le _
  | cons head _ ih =>
    rw [length_append, length_cons, mul_succ, add_comm]
    exact Nat.add_le_add ih head.le_decodeBufLen

theorem recordsLen_ok (h : f.EncodesAll st entries bytes) {n : Nat} (hn : n + bytes.length < 2 ^ 64) :
    f.recordsLen n st entries = .ok (n + bytes.length) := by
  induction h generalizing n with
  | nil => rfl
  | cons head _ ih =>
    rw [length_append, ← add_assoc] at hn
    rw [recordsLen, head.recordLen, ok_bind]
    dsimp only
    rw [if_pos (by omega), ih hn, length_append, add_assoc]

theorem write_ok {room : Nat} (h : bytes.length ≤ room) : write room bytes = .ok (room - bytes.length) :=
  if_pos h

theorem encodeRecords_ok (h : f.EncodesAll st entries bytes) {room : Nat} (hroom : bytes.length ≤ room) :
    f.encodeRecords room st entries = .ok (bytes, room - bytes.length) := by
  induction h generalizing room with
  | nil => rfl
  | cons head _ ih =>
    rw [length_append] at hroom
    rw [encodeRecords, head.encodeRecord, ok_bind]
    dsimp only
    rw [write_ok (by omega), ok_bind, ih (by omega), ok_bind, length_append, sub_add_eq]
    rfl

theorem decodeRecords_ok (h : f.EncodesAll st entries bytes) (hend : f.Terminated) {tail : List Byte}
    (hd : d.Holds f (bytes ++ (replicate f.fields 0 ++ tail))) {fuel : Nat}
    (hfuel : entries.length < fuel) (script : List ε) :
    f.decodeRecords pr fuel d st script =
      .ok (script ++ entries, d.totalConsumedSrcLen + (bytes.length + f.fields)) := by
  induction h generalizing d fuel script with
  | nil st =>
    obtain ⟨fuel, rfl⟩ := exists_eq_succ_of_ne_zero (ne_of_gt hfuel)
    have hbuf : (replicate f.fields (0 : Byte) ++ tail).take f.decodeBufLen =
        replicate f.fields 0 ++ tail.take (f.decodeBufLen - f.fields) := by
      rw [take_append, length_replicate, take_of_length_le]
      rw [length_replicate, decodeBufLen]
      omega
    rw [List.nil_append] at hd
    rw [decodeRecords_none pr hd fuel script hbuf.symm (by rw [hbuf, length_append]; simp)
      (by rw [hbuf, hend]), List.append_nil, length_replicate, length_nil, zero_add]
  | @cons st st' entry entries bytes rest head _ ih =>
    obtain ⟨fuel, rfl⟩ := exists_eq_succ_of_ne_zero (ne_of_gt (zero_lt_of_lt hfuel))
    rw [append_assoc] at hd
    have hbuf : (bytes ++ (rest ++ (replicate f.fields 0 ++ tail))).take f.decodeBufLen =
        bytes ++ (rest ++ (replicate f.fields 0 ++ tail)).take (f.decodeBufLen - bytes.length) := by
      rw [take_append, take_of_length_le head.le_decodeBufLen]
    have hlen : f.fields ≤ ((bytes ++ (rest ++ (replicate f.fields 0 ++ tail))).take
        f.decodeBufLen).length := by
      rw [hbuf, length_append]
      exact le_add_right_of_le head.fields_le
    obtain ⟨d', hholds, htotal, hstep⟩ := decodeRecords_some pr hd fuel script hbuf.symm hlen
      (by rw [hbuf]; exact head.decodeRecord _)
    rw [drop_left] at hholds
    rw [hstep, ih hholds (lt_of_succ_lt_succ hfuel), htotal, append_assoc,
      singleton_append, length_append, add_assoc, add_assoc]

/-- Decoding gets back what has been encoded, and the source positioned right behind it.
Exactly as much is written as has been announced. -/
def RoundTrips (f : ScriptFormat σ ε) (pr : Profile) (entries : List ε) : Prop :=
  ∃ bytes, f.encodedLen entries = .ok bytes.length ∧
    (∀ bufLen, bytes.length ≤ bufLen → f.encode pr bufLen entries = .ok (bytes, bufLen - bytes.length)) ∧
    ∀ tail src, src.flatten = bytes ++ tail →
      ∃ src', f.decode pr src = .ok (entries, src') ∧ src'.flatten = tail

section

variable (h : f.EncodesAll f.start entries bytes) (hlen : bytes.length + f.fields < 2 ^ 64)
include h hlen

theorem encodedLen_ok : f.encodedLen entries = .ok (bytes.length + f.fields) := by
  rw [encodedLen, recordsLen_ok h (by omega), ok_bind, zero_add, if_pos hlen]
  rfl

theorem encode_ok {bufLen : Nat} (hbuf : bytes.length + f.fields ≤ bufLen) :
    f.encode pr bufLen entries =
      .ok (bytes ++ replicate f.fields 0, bufLen - (bytes.length + f.fields)) := by
  have hwrite : write (bufLen - bytes.length) (replicate f.fields (0 : Byte)) =
      .ok (bufLen - (bytes.length + f.fields)) := by
    rw [write_ok (by rw [length_replicate]; omega), length_replicate, sub_add_eq]
  have hrecords := encodeRecords_ok h (le_of_add_right_le hbuf)
  cases pr with
  | debug =>
    rw [encode]
    dsimp only
    rw [encodedLen_ok h hlen, ok_bind, debugAssert_ok _ hbuf, ok_bind, hrecords, ok_bind]
    rw [hwrite]
    rfl
  | release =>
    rw [encode]
    dsimp only
    rw [hrecords, ok_bind]
    rw [hwrite]
    rfl

end

theorem holds_start (f : ScriptFormat σ ε) (src : List (List Byte)) :
    Source.Holds f ⟨[], src, totalLen src, 0⟩ src.flatten :=
  ⟨rfl, zero_le _, rfl⟩

theorem length_le_of_encodesAll (hfields : 0 < f.fields) (h : f.EncodesAll st entries bytes) :
    entries.length ≤ bytes.length := by
  induction h with
  | nil => exact le_refl _
  | cons head _ ih =>
    have hle := head.fields_le
    rw [length_cons, length_append]
    omega

theorem roundTrips (hend : f.Terminated) (hfields : 0 < f.fields)
    (h : f.EncodesAll f.start entries bytes) (hlen : bytes.length + f.fields < 2 ^ 64) :
    f.RoundTrips pr entries := by
  have hlength : (bytes ++ replicate f.fields (0 : Byte)).length = bytes.length + f.fields := by
    rw [length_append, length_replicate]
  refine ⟨bytes ++ replicate f.fields 0, ?_, ?_, ?_⟩
  · rw [hlength]
    exact encodedLen_ok h hlen
  · intro bufLen hbuf
    rw [hlength] at hbuf ⊢
    exact encode_ok pr h hlen hbuf
  · intro tail src hsrc
    have hsource := holds_start f src
    have hfuel : entries.length < totalLen src + 1 := by
      have hle := length_le_of_encodesAll hfields h
      rw [totalLen_eq, hsrc, length_append, hlength]
      omega
    obtain ⟨src', hskip, hflat⟩ := skip_eq (bytes.length + f.fields) src (by
      rw [hsrc, length_append, hlength]
      exact Nat.le_add_right _ _)
    rw [hsrc, append_assoc] at hsource
    refine ⟨src', ?_, ?_⟩
    · rw [decode, decodeRecords_ok pr h hend hsource hfuel, ok_bind, zero_add]
      dsimp only
      rw [hskip]
      rfl
    · rw [hflat, hsrc, ← hlength, drop_left]

end RoundTrip

section Safety

/-- Either a result with a property or an error on the format, but no panic. -/
def Returns {α : Type} (P : α → Prop) (x : Comp α) : Prop :=
  (∃ a, x = .ok a ∧ P a) ∨ ∃ e, x = formatErr e

/-- A record is decoded without a panic and preserves what holds of the entries so far. -/
def Preserves (f : ScriptFormat σ ε) (Inv : σ → List ε → Prop) : Prop :=
  ∀ st script buf, Inv st script → Returns
    (fun (r, remaining) => (∃ record, record ++ remaining = buf ∧ record ≠ []) ∧
      ∀ entry st', r = some (entry, st') → Inv st' (script ++ [entry]))
    (f.decodeRecord st buf)

variable {Inv : σ → List ε → Prop}

theorem decodeRecords_returns (h : f.Preserves Inv)
    (hd : d.Holds f pending) {fuel : Nat} (hfuel : pending.length < fuel) {st : σ} {script : List ε}
    (hinv : Inv st script) :
    Returns (fun (script, consumed) => (∃ st, Inv st script) ∧
      consumed ≤ d.totalConsumedSrcLen + pending.length) (f.decodeRecords pr fuel d st script) := by
  induction fuel generalizing d pending st script with
  | zero => exact absurd hfuel (Nat.not_lt_zero _)
  | succ fuel ih =>
    by_cases hshort : (pending.take f.decodeBufLen).length < f.fields
    · obtain ⟨d', hrefill, _, hbuf, _⟩ := refill_ok pr hd
      right
      exact ⟨f.formatError, by rw [decodeRecords, hrefill, ok_bind, hbuf, if_pos hshort]⟩
    · have hlen := not_lt.mp hshort
      rcases h st script (pending.take f.decodeBufLen) hinv with
        ⟨⟨r, remaining⟩, hrecord, ⟨record, hbuf, hne⟩, hnext⟩ | ⟨e, herr⟩
      · have hprefix : record.length ≤ pending.length := by
          have hle := length_take_le' f.decodeBufLen pending
          rw [← hbuf, length_append] at hle
          omega
        cases r with
        | none =>
          left
          exact ⟨_, decodeRecords_none pr hd fuel script hbuf hlen hrecord, ⟨st, hinv⟩,
            Nat.add_le_add_left hprefix _⟩
        | some r =>
          obtain ⟨entry, st'⟩ := r
          have hpos := length_pos_iff.mpr hne
          obtain ⟨d', hholds, htotal, heq⟩ := decodeRecords_some pr hd fuel script hbuf hlen hrecord
          have hrest := ih hholds (by rw [length_drop]; omega) (hnext entry st' rfl)
          rw [htotal, length_drop, add_assoc, Nat.add_sub_cancel' hprefix] at hrest
          rwa [heq]
      · obtain ⟨d', hrefill, _, hbuf, _⟩ := refill_ok pr hd
        right
        refine ⟨e, ?_⟩
        rw [decodeRecords, hrefill, ok_bind, hbuf, if_neg hshort, herr]
        rfl

/-- On any input a script is decoded without a panic, and what holds of all the
scripts decoded step by step holds of the result. -/
theorem decode_returns (h : f.Preserves Inv) (hstart : Inv f.start []) (src : List (List Byte)) :
    Returns (fun (script, _) => ∃ st, Inv st script) (f.decode pr src) := by
  have hrecords := decodeRecords_returns pr h (holds_start f src)
    (lt_succ_of_le (le_of_eq (totalLen_eq src).symm)) hstart
  rw [decode]
  rcases hrecords with ⟨⟨script, consumed⟩, hok, hinv, hle⟩ | ⟨e, herr⟩
  · obtain ⟨src', hskip, _⟩ := skip_eq consumed src (by simpa using hle)
    rw [hok, ok_bind]
    dsimp only
    rw [hskip]
    exact Or.inl ⟨(script, src'), rfl, hinv⟩
  · rw [herr]
    exact Or.inr ⟨e, rfl⟩

end Safety

end ScriptFormat

end CocoonFs.ScriptCodec
