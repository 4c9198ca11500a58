import CocoonFs.Leb128

namespace CocoonFs.Leb128Decode

open Codes Leb128 List

inductive Leb128EncodingError where
  | truncatedEncoding
  | decodeOverflow
  deriving DecidableEq, Repr

def signExtendU64 (value : BitVec 64) (signBitPos : Nat) : BitVec 64 :=
  (value <<< (64 - signBitPos - 1)).sshiftRight (64 - signBitPos - 1)

/-- Overlong encodings are accepted: all the bytes from the tenth one on have to
repeat the sign. -/
def skipOverlong (signMask : Byte) (value : BitVec 64) :
    Byte → List Byte → Except Leb128EncodingError (BitVec 64 × List Byte)
  | b, src =>
    if b &&& 0x80 = 0 then .ok (value, src)
    else
      match src with
      | [] => .error .truncatedEncoding
      | b :: src =>
        if (b ^^^ signMask) &&& 0x7f ≠ 0 then .error .decodeOverflow
        else skipOverlong signMask value b src

/-- The common loop of the two decoders. They differ in what the tenth byte may
be, in the mask for the ones after it and in the completion of a value that ended
before. -/
def decodeFrom (tenthOk : Byte → Bool) (signMask : Byte → Byte) (complete : BitVec 64 → Nat → BitVec 64) :
    Nat → BitVec 64 → List Byte → Except Leb128EncodingError (BitVec 64 × List Byte)
  | _, _, [] => .error .truncatedEncoding
  | encodedLen, value, b :: src =>
    let value := value ||| (b &&& 0x7f).setWidth 64 <<< (7 * encodedLen)
    if encodedLen + 1 = 10 then
      if tenthOk b then skipOverlong (signMask b) value b src
      else .error .decodeOverflow
    else if b &&& 0x80 = 0 then .ok (complete value (encodedLen + 1), src)
    else decodeFrom tenthOk signMask complete (encodedLen + 1) value src

def leb128sI64Decode (src : List Byte) : Except Leb128EncodingError (BitVec 64 × List Byte) :=
  decodeFrom (fun b => (b ^^^ signExtendU8 b (63 % 7)) &&& 0x7f == 0)
    (fun b => 0#8 - (b >>> 6 &&& 1))
    (fun value encodedLen => signExtendU64 value (7 * encodedLen - 1)) 0 0 src

def leb128uU64Decode (src : List Byte) : Except Leb128EncodingError (BitVec 64 × List Byte) :=
  decodeFrom (fun b => (b &&& 0x7f) >>> (63 % 7 + 1) == 0) (fun _ => 0) (fun value _ => value) 0 0 src

theorem and_0x80_eq_zero_iff : ∀ b : Byte, b &&& 0x80 = 0 ↔ b.getLsbD 7 = false := by decide

variable {value v : BitVec 64} {src rest : List Byte} {n : Nat}

theorem skipOverlong_end {signMask b : Byte}
    (hb : b &&& 0x80 = 0) : skipOverlong signMask value b src = .ok (value, src) := by
  cases src <;> rw [skipOverlong, if_pos hb]

theorem suffix_skipOverlong {signMask : Byte} {b : Byte}
    (h : skipOverlong signMask value b src = .ok (v, rest)) : rest <:+ src := by
  induction src generalizing b with
  | nil =>
    rw [skipOverlong] at h
    split at h
    · cases h
      exact suffix_refl _
    · cases h
  | cons c src ih =>
    rw [skipOverlong] at h
    split at h
    · cases h
      exact suffix_refl _
    · split at h
      · cases h
      · exact (ih h).trans (suffix_cons c src)

variable {complete : BitVec 64 → Nat → BitVec 64} {signMask : Byte → Byte} {tenthOk : Byte → Bool}

theorem suffix_decodeFrom (h : decodeFrom tenthOk signMask complete n value src = .ok (v, rest)) :
    ∃ record, record ++ rest = src ∧ record ≠ [] := by
  induction src generalizing n value with
  | nil => cases h
  | cons b src ih =>
    have hcons (hrest : rest <:+ src) : ∃ record, record ++ rest = b :: src ∧ record ≠ [] := by
      obtain ⟨record, rfl⟩ := hrest
      exact ⟨b :: record, rfl, cons_ne_nil _ _⟩
    simp only [decodeFrom] at h
    split at h
    · split at h
      · exact hcons (suffix_skipOverlong h)
      · cases h
    · split at h
      · cases h
        exact hcons (suffix_refl _)
      · obtain ⟨record, hrecord, _⟩ := ih h
        exact hcons ⟨record, hrecord⟩

theorem length_decodeFrom (h : decodeFrom tenthOk signMask complete n value src = .ok (v, rest)) :
    rest.length < src.length := by
  obtain ⟨record, rfl, hne⟩ := suffix_decodeFrom h
  rw [length_append]
  exact Nat.lt_add_of_pos_left (length_pos_iff.mpr hne)

theorem length_leb128sI64Decode
    (h : leb128sI64Decode src = .ok (v, rest)) : rest.length < src.length :=
  length_decodeFrom h

theorem length_leb128uU64Decode
    (h : leb128uU64Decode src = .ok (v, rest)) : rest.length < src.length :=
  length_decodeFrom h

def lowBits (v : BitVec 64) (n : Nat) : BitVec 64 := (v.setWidth n).setWidth 64

theorem getLsbD_lowBits (v : BitVec 64) (n k : Nat) :
    (lowBits v n).getLsbD k = (decide (k < 64) && decide (k < n) && v.getLsbD k) := by
  rw [lowBits, BitVec.getLsbD_setWidth, BitVec.getLsbD_setWidth, Bool.and_assoc]

theorem lowBits_zero (v : BitVec 64) : lowBits v 0 = 0 := by
  apply BitVec.eq_of_getLsbD_eq
  intro k _
  simp [getLsbD_lowBits]

theorem lowBits_all (v : BitVec 64) (hn : 64 ≤ n) : lowBits v n = v := by
  apply BitVec.eq_of_getLsbD_eq
  intro k hk
  rw [getLsbD_lowBits]
  simp [hk, show k < n by omega]

theorem lowBits_succ (v : BitVec 64) (i : Nat) (b : Byte)
    (hb : ∀ j, j < 7 → 7 * i + j < 64 → b.getLsbD j = v.getLsbD (7 * i + j)) :
    lowBits v (7 * i) ||| (b &&& 0x7f).setWidth 64 <<< (7 * i) = lowBits v (7 * (i + 1)) := by
  apply BitVec.eq_of_getLsbD_eq
  intro k hk
  rw [BitVec.getLsbD_or, BitVec.getLsbD_shiftLeft, getLsbD_lowBits, getLsbD_lowBits,
    BitVec.getLsbD_setWidth, BitVec.getLsbD_and]
  by_cases hlow : k < 7 * i
  · simp [hk, hlow, show k < 7 * (i + 1) by omega]
  · have h7f : (0x7f : Byte).getLsbD (k - 7 * i) = decide (k - 7 * i < 7) := by
      by_cases hj : k - 7 * i < 8
      · interval_cases k - 7 * i <;> rfl
      · rw [BitVec.getLsbD_of_ge _ _ (by omega)]
        simp only [show ¬k - 7 * i < 7 by omega, decide_false]
    rw [h7f]
    by_cases hj : k - 7 * i < 7
    · have hbit := hb (k - 7 * i) hj (by omega)
      rw [show 7 * i + (k - 7 * i) = k by omega] at hbit
      simp [hk, hlow, hj, hbit, show k < 7 * (i + 1) by omega, show k - 7 * i < 64 by omega]
    · simp [hk, hlow, hj, show ¬k < 7 * (i + 1) by omega]

/-- Through all the bytes but the last one, the decoders only accumulate bits. -/
theorem decodeFrom_continued (tenthOk : Byte → Bool) (signMask : Byte → Byte)
    (complete : BitVec 64 → Nat → BitVec 64) (v : BitVec 64) (bs rest : List Byte) (i : Nat)
    (hlen : i + bs.length < 10) (hcont : ∀ b ∈ bs, b.getLsbD 7 = true)
    (hbits : ∀ n b, bs[n]? = some b → ∀ j, j < 7 → 7 * (i + n) + j < 64 →
      b.getLsbD j = v.getLsbD (7 * (i + n) + j)) :
    decodeFrom tenthOk signMask complete i (lowBits v (7 * i)) (bs ++ rest) =
      decodeFrom tenthOk signMask complete (i + bs.length) (lowBits v (7 * (i + bs.length))) rest := by
  induction bs generalizing i with
  | nil => rfl
  | cons b bs ih =>
    have hb : ¬b &&& 0x80 = 0 := by
      rw [and_0x80_eq_zero_iff, hcont b (by simp)]
      decide
    have hstep := lowBits_succ v i b (fun j => by simpa using hbits 0 b rfl j)
    rw [length_cons] at hlen
    rw [List.cons_append, decodeFrom]
    simp only [hstep, show ¬i + 1 = 10 by omega, hb, if_false]
    rw [ih (i + 1) (by omega) (fun c hc => hcont c (by simp [hc])), length_cons,
      show i + 1 + bs.length = i + (bs.length + 1) by omega]
    intro n c hc j hj hlt
    have hget := hbits (n + 1) c (by simpa using hc) j hj (by omega)
    rwa [show i + 1 + n = i + (n + 1) by omega]

theorem decodeFrom_marked (tenthOk : Byte → Bool) (signMask : Byte → Byte)
    (complete : BitVec 64 → Nat → BitVec 64) (v : BitVec 64) (bs rest : List Byte)
    (hmark : Marked (fun b : Byte => b.getLsbD 7) bs) (hlen : bs.length ≤ 10)
    (hbits : ∀ n b, bs[n]? = some b → ∀ j, j < 7 → 7 * n + j < 64 →
      b.getLsbD j = v.getLsbD (7 * n + j))
    (htenth : ∀ b, bs.length = 10 → bs[9]? = some b → tenthOk b = true)
    (hcomplete : bs.length < 10 → complete (lowBits v (7 * bs.length)) bs.length = v) :
    decodeFrom tenthOk signMask complete 0 0 (bs ++ rest) = .ok (v, rest) := by
  obtain ⟨bs, last, rfl⟩ : ∃ bs' last, bs = bs' ++ [last] :=
    ⟨bs.dropLast, bs.getLast hmark.ne_nil, (dropLast_append_getLast hmark.ne_nil).symm⟩
  rw [length_append, length_singleton] at hlen htenth hcomplete
  have hend : last &&& 0x80 = 0 := by
    rw [and_0x80_eq_zero_iff]
    exact hmark.last last (by simp)
  have hfront := decodeFrom_continued tenthOk signMask complete v bs (last :: rest) 0 (by omega)
    (fun b hb => by
      obtain ⟨n, hn, hget⟩ := getElem_of_mem hb
      apply hmark.continued n b
      · rw [length_append, length_singleton]
        omega
      · rw [getElem?_append_left hn, getElem?_eq_getElem hn, hget])
    (fun n b hget j hj hlt => by
      rw [zero_add] at hlt ⊢
      exact hbits n b ((getElem?_append_left
        (List.getElem?_eq_some_iff.mp hget).1).trans hget) j hj hlt)
  have hstep := lowBits_succ v bs.length last (fun j => hbits bs.length last (by simp) j)
  rw [append_assoc, singleton_append, ← lowBits_zero v]
  rw [mul_zero, zero_add] at hfront
  rw [hfront, decodeFrom]
  simp only [hstep]
  by_cases hten : bs.length + 1 = 10
  · have hok := htenth last hten (by simp [show bs.length = 9 by omega])
    rw [if_pos hten, if_pos hok, skipOverlong_end hend, lowBits_all v (by omega)]
  · rw [if_neg hten, if_pos hend, hcomplete (by omega)]

theorem significantBitsU64_le (value : BitVec 64) : significantBitsU64 value ≤ 64 :=
  Nat.sub_le _ _

theorem significantBitsI64_le (value : BitVec 64) : significantBitsI64 value ≤ 64 :=
  Nat.sub_le _ _

theorem unsigned_tenth : ∀ b : Byte, b.getLsbD 1 = false → b.getLsbD 2 = false →
    b.getLsbD 3 = false → b.getLsbD 4 = false → b.getLsbD 5 = false → b.getLsbD 6 = false →
    ((b &&& 0x7f) >>> (63 % 7 + 1) == 0) = true := by
  decide

theorem signed_tenth : ∀ b : Byte, b.getLsbD 1 = b.getLsbD 0 → b.getLsbD 2 = b.getLsbD 0 →
    b.getLsbD 3 = b.getLsbD 0 → b.getLsbD 4 = b.getLsbD 0 → b.getLsbD 5 = b.getLsbD 0 →
    b.getLsbD 6 = b.getLsbD 0 → ((b ^^^ signExtendU8 b (63 % 7)) &&& 0x7f == 0) = true := by
  decide

theorem marked_leb128uU64Encode (v : BitVec 64) :
    Marked (fun b : Byte => b.getLsbD 7) (leb128uU64Encode v) := by
  apply marked_finish _ (leb128uU64EncodedLen_spec v).2.2
  intro b hb
  rw [BitVec.getLsbD_xor, hb]
  simp

theorem marked_leb128sI64Encode (v : BitVec 64) :
    Marked (fun b : Byte => b.getLsbD 7) (leb128sI64Encode v) := by
  rw [leb128sI64Encode_eq]
  apply marked_finish _ (leb128sI64EncodedLen_spec v).2.2
  intro b _
  rw [BitVec.getLsbD_and]
  simp

theorem leb128uU64Decode_encode (v : BitVec 64) (rest : List Byte) :
    leb128uU64Decode (leb128uU64Encode v ++ rest) = .ok (v, rest) := by
  have hspec := leb128uU64EncodedLen_spec v
  have hlen := length_leb128uU64Encode v
  have hsig := significantBitsU64_le v
  have hbit (n : Nat) (b : Byte) (hget : (leb128uU64Encode v)[n]? = some b) (j : Nat) (hj : j < 7) :
      b.getLsbD j = v.getLsbD (7 * n + j) := by
    have hn : n < leb128uU64EncodedLen v := hlen ▸ (List.getElem?_eq_some_iff.mp hget).1
    obtain ⟨c, hc, hbits⟩ := getLsbD_leb128uU64Encode v n j hn hj
    rwa [Option.some.inj (hget.symm.trans hc)]
  apply decodeFrom_marked _ _ _ v _ _ (marked_leb128uU64Encode v) (by omega)
  · exact fun n b hget j hj _ => hbit n b hget j hj
  · intro b _ hget
    have hzero (j : Nat) (hj : j < 7) (hpos : 0 < j) : b.getLsbD j = false := by
      rw [hbit 9 b hget j hj]
      exact BitVec.getLsbD_of_ge _ _ (by omega)
    exact unsigned_tenth b (hzero 1 (by decide) (by decide)) (hzero 2 (by decide) (by decide))
      (hzero 3 (by decide) (by decide)) (hzero 4 (by decide) (by decide))
      (hzero 5 (by decide) (by decide)) (hzero 6 (by decide) (by decide))
  · intro _
    apply BitVec.eq_of_getLsbD_eq
    intro k hk
    rw [getLsbD_lowBits]
    by_cases hlow : k < 7 * (leb128uU64Encode v).length
    · simp [hk, hlow]
    · rw [getLsbD_of_significantBitsU64_le v k (by omega)]
      simp

theorem getLsbD_signExtendU64 (value : BitVec 64) (p k : Nat) (hp : p < 64) (hk : k < 64) :
    (signExtendU64 value p).getLsbD k = value.getLsbD (min k p) := by
  rw [signExtendU64, BitVec.getLsbD_sshiftRight]
  by_cases hkp : k ≤ p
  · simp only [show ¬64 ≤ k by omega, decide_false, Bool.not_false, show 64 - p - 1 + k < 64 by omega,
      if_true, Bool.true_and, BitVec.getLsbD_shiftLeft, decide_true,
      show ¬64 - p - 1 + k < 64 - p - 1 by omega, Nat.add_sub_cancel_left, min_eq_left hkp]
  · simp only [show ¬64 ≤ k by omega, decide_false, Bool.not_false,
      show ¬64 - p - 1 + k < 64 by omega, if_false, Bool.true_and, BitVec.msb_eq_getLsbD_last,
      BitVec.getLsbD_shiftLeft, show 64 - 1 < 64 by omega, decide_true,
      show ¬64 - 1 < 64 - p - 1 by omega, show 64 - 1 - (64 - p - 1) = p by omega,
      min_eq_right (by omega : p ≤ k)]

theorem getLsbD_leb128sI64Encode_tenth (v : BitVec 64) (hlen : leb128sI64EncodedLen v = 10)
    (b : Byte) (hget : (leb128sI64Encode v)[9]? = some b) (j : Nat) (hj : j < 7) :
    b.getLsbD j = v.getLsbD 63 := by
  have hsig := significantBitsI64_le v
  rw [leb128sI64Encode_eq, finish_getElem? _ 9 (by omega), if_pos (by omega)] at hget
  rw [← Option.some.inj hget, getLsbD_signExtendU8 _ _ _ (by omega) hj,
    show significantBitsI64 v - 7 * (leb128sI64EncodedLen v - 1) - 1 = 0 by omega, Nat.min_zero]
  exact getLsbD_group v 9 0 (by decide)

theorem leb128sI64Decode_encode (v : BitVec 64) (rest : List Byte) :
    leb128sI64Decode (leb128sI64Encode v ++ rest) = .ok (v, rest) := by
  have hspec := leb128sI64EncodedLen_spec v
  have hlen := length_leb128sI64Encode v
  have hsig := significantBitsI64_le v
  apply decodeFrom_marked _ _ _ v _ _ (marked_leb128sI64Encode v) (by omega)
  · intro n b hget j hj hlt
    have hn : n < leb128sI64EncodedLen v := hlen ▸ (List.getElem?_eq_some_iff.mp hget).1
    obtain ⟨c, hc, hbits⟩ := getLsbD_leb128sI64Encode v n j hn hj hlt
    rwa [Option.some.inj (hget.symm.trans hc)]
  · intro b hten hget
    have hsign (j : Nat) (hj : j < 7) : b.getLsbD j = b.getLsbD 0 := by
      rw [getLsbD_leb128sI64Encode_tenth v (hlen ▸ hten) b hget j hj,
        getLsbD_leb128sI64Encode_tenth v (hlen ▸ hten) b hget 0 (by decide)]
    exact signed_tenth b (hsign 1 (by decide)) (hsign 2 (by decide)) (hsign 3 (by decide))
      (hsign 4 (by decide)) (hsign 5 (by decide)) (hsign 6 (by decide))
  · intro hshort
    apply BitVec.eq_of_getLsbD_eq
    intro k hk
    rw [getLsbD_signExtendU64 _ _ _ (by omega) hk, getLsbD_lowBits]
    by_cases hlow : k < 7 * (leb128sI64Encode v).length
    · rw [min_eq_left (by omega)]
      simp [hk, hlow]
    · rw [min_eq_right (by omega), getLsbD_of_significantBitsI64_le v k hk (by omega),
        getLsbD_of_significantBitsI64_le v _ (by omega) (by omega)]
      simp only [Bool.and_eq_right_iff_imp, Bool.and_eq_true, decide_eq_true_eq]
      omega

end CocoonFs.Leb128Decode
