import CocoonFs.Extents
import CocoonFs.Layout
import CocoonFs.Leb128

namespace CocoonFs.ImageContext

open Checked Codes Extents Layout Leb128
open List (append_assoc append_cancel_left append_inj length_append length_replicate)
open BitVec (ofNat toNat)

/-- An extent is coded relative to the previous one's end. The cast of the
wrapped difference to a signed number is the identity on bits. -/
def encodeExtent (lastExtentEnd : BitVec 64) (extent : BlockRange) : List Byte :=
  leb128sI64Encode (ofNat 64 extent.b - lastExtentEnd) ++
    leb128uU64Encode (ofNat 64 (extent.e - extent.b))

def extentEnd (_ : BitVec 64) (extent : BlockRange) : BitVec 64 := ofNat 64 extent.e

/-- The bytes the encoder writes to the front of its destination. -/
def encodeExtents (extents : List BlockRange) : List Byte :=
  encodeSeq encodeExtent extentEnd [0, 0] 0 extents

def encodedLenFrom : BitVec 64 → Nat → List BlockRange → Comp Nat
  | _, encodedLen, [] => .ok encodedLen
  | lastExtentEnd, encodedLen, extent :: extents =>
    let len := leb128sI64EncodedLen (ofNat 64 extent.b - lastExtentEnd) +
      leb128uU64EncodedLen (ofNat 64 (extent.e - extent.b))
    if encodedLen + len < 2 ^ 64 then
      encodedLenFrom (extentEnd lastExtentEnd extent) (encodedLen + len) extents
    else err .dimensionsNotSupported

def indirectExtentsListEncodedLen (extents : List BlockRange) : Comp Nat :=
  encodedLenFrom 0 2 extents

def indirectExtentsListEncodeInto (dst : List Byte) (extents : List BlockRange) :
    Comp (List Byte) :=
  let encoded := encodeExtents extents
  if encoded.length ≤ dst.length then .ok (encoded ++ dst.drop encoded.length)
  else panic .indexOutOfBounds

def indirectExtentsListEncode (extents : List BlockRange) : Comp (List Byte) := do
  let encodedLen ← indirectExtentsListEncodedLen extents
  indirectExtentsListEncodeInto (List.replicate encodedLen 0) extents

def toLeBytes (v : BitVec 64) : List Byte :=
  (List.range 8).map (fun i => (v >>> (8 * i)).setWidth 8)

structure Context where
  imageLayout : ImageLayout
  inodeIndexEntryLeafNodeBlockPtr : Vector Byte 8
  imageSize : BitVec 64
  authTreeExtents : LogicalExtents
  allocationBitmapExtents : PhysicalExtents

def magic : List Byte := [0x43, 0x4f, 0x43, 0x4f, 0x4f, 0x4e, 0x46, 0x53]

def authContextSubjectIdSuffix : List Byte := [0, 1]

def digestedImageContext (pr : Profile) (c : Context) : Comp (List Byte) := do
  let authTreeRanges ← c.authTreeExtents.physicalRanges pr
  let authTreeExtents ← indirectExtentsListEncode authTreeRanges
  let allocationBitmapRanges ← c.allocationBitmapExtents.iter
  let allocationBitmapExtents ← indirectExtentsListEncode allocationBitmapRanges
  pure (magic ++ [1] ++ c.imageLayout.encode ++ c.inodeIndexEntryLeafNodeBlockPtr.toList ++
    toLeBytes c.imageSize ++ authTreeExtents ++ allocationBitmapExtents ++
    authContextSubjectIdSuffix)

def ExtentOk (extent : BlockRange) : Prop := extent.b < extent.e ∧ extent.e ≤ 2 ^ 57

instance (extent : BlockRange) : Decidable (ExtentOk extent) :=
  inferInstanceAs (Decidable (extent.b < extent.e ∧ extent.e ≤ 2 ^ 57))

theorem encodedLenFrom_eq (extents : List BlockRange) (lastExtentEnd : BitVec 64) (base n : Nat)
    (h : encodedLenFrom lastExtentEnd (base + 2) extents = .ok n) :
    n = base + (encodeSeq encodeExtent extentEnd [0, 0] lastExtentEnd extents).length := by
  induction extents generalizing lastExtentEnd base with
  | nil =>
    simp only [encodedLenFrom, Except.ok.injEq] at h
    simp [encodeSeq, ← h]
  | cons extent extents ih =>
    simp only [encodedLenFrom] at h
    split at h
    · rw [show base + 2 + (leb128sI64EncodedLen (ofNat 64 extent.b - lastExtentEnd) +
        leb128uU64EncodedLen (ofNat 64 (extent.e - extent.b))) =
        base + (encodeExtent lastExtentEnd extent).length + 2 by
          rw [encodeExtent, length_append, length_leb128sI64Encode, length_leb128uU64Encode]
          omega] at h
      rw [ih _ _ h, encodeSeq, length_append]
      omega
    · cases h

theorem indirectExtentsListEncode_eq {extents : List BlockRange} {bytes : List Byte}
    (h : indirectExtentsListEncode extents = .ok bytes) : bytes = encodeExtents extents := by
  obtain ⟨n, hn, hinto⟩ := bind_eq_ok h
  have hlen : n = (encodeExtents extents).length := by
    simpa [encodeExtents] using encodedLenFrom_eq extents 0 0 n hn
  simp only [indirectExtentsListEncodeInto, length_replicate, hlen, le_refl, if_true] at hinto
  simpa using (Except.ok.inj hinto).symm

theorem ofNat_inj_of_le {a b : Nat} (ha : a ≤ 2 ^ 57) (hb : b ≤ 2 ^ 57)
    (h : ofNat 64 a = ofNat 64 b) : a = b := by
  have hn := congrArg toNat h
  simp only [BitVec.toNat_ofNat] at hn
  omega

theorem delimited_encodeExtent (lastExtentEnd : BitVec 64) :
    Delimited ExtentOk (encodeExtent lastExtentEnd) := by
  rintro ⟨b, e⟩ ⟨b', e'⟩ ⟨hbe, he⟩ ⟨hbe', he'⟩ r s h
  dsimp only at hbe he hbe' he'
  simp only [encodeExtent, append_assoc] at h
  obtain ⟨hdelta, htail⟩ := delimited_leb128sI64Encode _ _ trivial trivial _ _ h
  obtain ⟨hcount, hrs⟩ := delimited_leb128uU64Encode _ _ trivial trivial _ _ htail
  have hb : ofNat 64 b = ofNat 64 b' := by
    simpa using congrArg (· + lastExtentEnd) hdelta
  obtain rfl := ofNat_inj_of_le (by omega) (by omega) hb
  have hcount' := ofNat_inj_of_le (by omega) (by omega) hcount
  obtain rfl : e = e' := by omega
  exact ⟨rfl, hrs⟩

theorem encodeExtent_append_ne_stop (lastExtentEnd : BitVec 64) (extent : BlockRange)
    (hok : ExtentOk extent) (r s : List Byte) :
    encodeExtent lastExtentEnd extent ++ r ≠ [0, 0] ++ s := by
  intro h
  obtain ⟨hbe, he⟩ := hok
  have hs : leb128sI64Encode 0 = [0] := by decide
  have hu : leb128uU64Encode 0 = [0] := by decide
  rw [encodeExtent, append_assoc, show [0, 0] ++ s = leb128sI64Encode 0 ++ ([0] ++ s) by
    rw [hs]; rfl] at h
  have htail := (delimited_leb128sI64Encode _ _ trivial trivial _ _ h).2
  rw [← hu] at htail
  have hcount := (delimited_leb128uU64Encode _ _ trivial trivial _ _ htail).1
  have hzero := ofNat_inj_of_le (b := 0) (by omega) (by omega) hcount
  omega

theorem delimited_encodeExtents :
    Delimited (fun extents => ∀ extent ∈ extents, ExtentOk extent) encodeExtents :=
  delimited_encodeSeq (fun _ => True) (fun st _ => delimited_encodeExtent st)
    (fun _ _ _ _ => trivial) (fun st x _ => encodeExtent_append_ne_stop st x) 0 trivial

theorem toLeBytes_injective : Function.Injective toLeBytes := by
  intro v w h
  apply BitVec.eq_of_getLsbD_eq
  intro k hk
  have hbyte : (v >>> (8 * (k / 8))).setWidth 8 = ((w >>> (8 * (k / 8))).setWidth 8 : Byte) := by
    have hget := congrArg (fun bytes => bytes[k / 8]?) h
    simpa [toLeBytes, show k / 8 < 8 by omega] using hget
  have hbit := congrArg (fun b : Byte => b.getLsbD (k % 8)) hbyte
  simp only [BitVec.getLsbD_setWidth, BitVec.getLsbD_ushiftRight, show k % 8 < 8 by omega,
    decide_true, Bool.true_and, show 8 * (k / 8) + k % 8 = k by omega] at hbit
  exact hbit

structure Context.ExtentsOk (c : Context) : Prop where
  authTree : ∀ r ∈ c.authTreeExtents.ranges, ExtentOk r
  allocationBitmap : ∀ r ∈ c.allocationBitmapExtents.ranges, ExtentOk r

theorem digestedImageContext_eq (pr : Profile) (c : Context) (hok : c.ExtentsOk)
    {bytes : List Byte} (h : digestedImageContext pr c = .ok bytes) :
    bytes = magic ++ [1] ++ c.imageLayout.encode ++ c.inodeIndexEntryLeafNodeBlockPtr.toList ++
      toLeBytes c.imageSize ++ encodeExtents c.authTreeExtents.ranges ++
      encodeExtents c.allocationBitmapExtents.ranges ++ authContextSubjectIdSuffix := by
  have hlt (r : BlockRange) (hr : ExtentOk r) : r.e < 2 ^ 64 :=
    lt_of_le_of_lt hr.2 (by decide)
  obtain ⟨authTreeRanges, hat, h₁⟩ := bind_eq_ok h
  obtain ⟨authTree, hate, h₂⟩ := bind_eq_ok h₁
  obtain ⟨bitmapRanges, hab, h₃⟩ := bind_eq_ok h₂
  obtain ⟨bitmap, habe, h₄⟩ := bind_eq_ok h₃
  rw [c.authTreeExtents.physicalRanges_ok pr (fun r hr => hlt r (hok.authTree r hr))] at hat
  rw [c.allocationBitmapExtents.iter_ok (fun r hr => hlt r (hok.allocationBitmap r hr))] at hab
  cases hat
  cases hab
  rw [← indirectExtentsListEncode_eq hate, ← indirectExtentsListEncode_eq habe]
  exact (Except.ok.inj h₄).symm

/-- Nothing in the digested bytes separates the two extents lists, their
encodings delimit themselves. -/
theorem digestedImageContext_injective (pr : Profile) (c d : Context) (hc : c.ExtentsOk)
    (hd : d.ExtentsOk) (bytes : List Byte) (hcb : digestedImageContext pr c = .ok bytes)
    (hdb : digestedImageContext pr d = .ok bytes) : c = d := by
  have h := (digestedImageContext_eq pr c hc hcb).symm.trans (digestedImageContext_eq pr d hd hdb)
  simp only [append_assoc] at h
  have h := append_cancel_left (append_cancel_left h)
  obtain ⟨hlayout, h⟩ := append_inj h (by rw [ImageLayout.length_encode, ImageLayout.length_encode])
  obtain ⟨hptr, h⟩ := append_inj h (by simp)
  obtain ⟨hsize, h⟩ := append_inj h (by simp [toLeBytes])
  obtain ⟨hauth, h⟩ := delimited_encodeExtents _ _ hc.authTree hd.authTree _ _ h
  obtain ⟨hbitmap, -⟩ :=
    delimited_encodeExtents _ _ hc.allocationBitmap hd.allocationBitmap _ _ h
  cases c
  cases d
  obtain rfl := ImageLayout.encode_injective hlayout
  obtain rfl := Vector.toList_inj.mp hptr
  obtain rfl := toLeBytes_injective hsize
  obtain rfl := LogicalExtents.ranges_injective hauth
  obtain rfl := PhysicalExtents.ranges_injective hbitmap
  rfl

def sampleContext : Context where
  imageLayout := ⟨0, 0, 0, 0, 0, 2, 2, .sha256, .sha256, .sha256, .sha256, .sha256, .aes128⟩
  inodeIndexEntryLeafNodeBlockPtr := Vector.replicate 8 1
  imageSize := 1000
  authTreeExtents := ⟨[(10, 4), (20, 9)], by decide, by decide⟩
  allocationBitmapExtents := ⟨[(5, 3)], by decide⟩

theorem sampleContext_extentsOk : sampleContext.ExtentsOk where
  authTree := by decide
  allocationBitmap := by decide

theorem digestedImageContext_injective_sample : sampleContext.ExtentsOk ∧ ∃ bytes,
    digestedImageContext .debug sampleContext = .ok bytes ∧ sampleContext = sampleContext :=
  ⟨sampleContext_extentsOk, _, rfl, digestedImageContext_injective .debug sampleContext sampleContext
    sampleContext_extentsOk sampleContext_extentsOk _ rfl rfl⟩

end CocoonFs.ImageContext
