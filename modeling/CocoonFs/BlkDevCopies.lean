import CocoonFs.BlkDev

namespace CocoonFs.BlkDev

open Checked Codes IoRegion IoSteps Patches List Nat
open Yields (orErr pure require)

def byteAt (ioBlockSize : Nat) (ioBlocks : IoBlocks) (p : Nat) : Option Byte :=
  ioBlocks[p / ioBlockSize]?.join.bind (fun ioBlock => ioBlock[p % ioBlockSize]?)

def Sized (ioBlockSize : Nat) (ioBlocks : IoBlocks) : Prop :=
  ∀ (j : Nat) (ioBlock : List Byte), ioBlocks[j]? = some (some ioBlock) → ioBlock.length = ioBlockSize

/-- The device after the bytes between two positions have been written. -/
structure Wrote (ioBlockSize : Nat) (content : Nat → Byte) (ioBlocks ioBlocks' : IoBlocks)
    (lo hi : Nat) : Prop where
  length : ioBlocks'.length = ioBlocks.length
  sized : Sized ioBlockSize ioBlocks'
  written : ∀ p, lo ≤ p → p < hi → byteAt ioBlockSize ioBlocks' p = some (content p)
  kept : ∀ p b, p < lo ∨ hi ≤ p → byteAt ioBlockSize ioBlocks p = some b →
    byteAt ioBlockSize ioBlocks' p = some b
  others : ∀ j, (j + 1) * ioBlockSize ≤ lo ∨ hi ≤ j * ioBlockSize → ioBlocks'[j]? = ioBlocks[j]?

variable {ioBlockSize : Nat} {content : Nat → Byte} {ioBlocks ioBlocks' ioBlocks'' : IoBlocks}
  {lo mid hi : Nat}

theorem Wrote.refl (h : Sized ioBlockSize ioBlocks) (lo : Nat) :
    Wrote ioBlockSize content ioBlocks ioBlocks lo lo where
  length := rfl
  sized := h
  written := fun _ hlo hhi => absurd hhi (not_lt.mpr hlo)
  kept := fun _ _ _ hb => hb
  others := fun _ _ => rfl

theorem Wrote.trans (mid : Nat) (h : Wrote ioBlockSize content ioBlocks ioBlocks' lo mid)
    (h' : Wrote ioBlockSize content ioBlocks' ioBlocks'' mid hi) (hlo : lo ≤ mid) (hhi : mid ≤ hi) :
    Wrote ioBlockSize content ioBlocks ioBlocks'' lo hi where
  length := h'.length.trans h.length
  sized := h'.sized
  written := by
    intro p hp hp'
    by_cases hmid : p < mid
    · exact h'.kept p _ (.inl hmid) (h.written p hp hmid)
    · exact h'.written p (Nat.le_of_not_lt hmid) hp'
  kept := by
    intro p b hp hb
    exact h'.kept p b (by omega) (h.kept p b (by omega) hb)
  others := by
    intro j hj
    rw [h'.others j (by omega), h.others j (by omega)]

variable {content' : Nat → Byte}

theorem Wrote.congr (h : Wrote ioBlockSize content ioBlocks ioBlocks' lo hi)
    (heq : ∀ p, lo ≤ p → p < hi → content p = content' p) :
    Wrote ioBlockSize content' ioBlocks ioBlocks' lo hi :=
  { h with written := fun p hlo hhi => heq p hlo hhi ▸ h.written p hlo hhi }

theorem Wrote.byteAt_outside (h : Wrote ioBlockSize content ioBlocks ioBlocks' lo hi)
    (hS : 0 < ioBlockSize) (hlo : ioBlockSize ∣ lo) (hhi : ioBlockSize ∣ hi) {p : Nat}
    (hp : p < lo ∨ hi ≤ p) : byteAt ioBlockSize ioBlocks' p = byteAt ioBlockSize ioBlocks p := by
  obtain ⟨a, rfl⟩ := hlo
  obtain ⟨b, rfl⟩ := hhi
  have hj : (p / ioBlockSize + 1) * ioBlockSize ≤ ioBlockSize * a ∨
      ioBlockSize * b ≤ p / ioBlockSize * ioBlockSize := by
    rcases hp with hp | hp
    · have := (Nat.div_lt_iff_lt_mul hS).mpr (mul_comm ioBlockSize a ▸ hp)
      exact .inl (mul_comm ioBlockSize a ▸ Nat.mul_le_mul_right _ this)
    · have := (Nat.le_div_iff_mul_le hS).mpr (mul_comm ioBlockSize b ▸ hp)
      exact .inr (mul_comm ioBlockSize b ▸ Nat.mul_le_mul_right _ this)
  rw [byteAt, byteAt, h.others _ hj]

theorem div_eq_of_offset {S : Nat} (idx off k : Nat) (h : off + k < S) :
    (idx * S + off + k) / S = idx ∧ (idx * S + off + k) % S = off + k := by
  rw [add_assoc, mul_comm, mul_add_div (by omega), mul_add_mod,
    div_eq_of_lt h, mod_eq_of_lt h]
  exact ⟨rfl, rfl⟩

theorem length_old (hsized : Sized ioBlockSize ioBlocks) {idx : Nat}
    (hidx : idx < ioBlocks.length) :
    (ioBlocks[idx]?.join.getD (List.replicate ioBlockSize 0)).length = ioBlockSize := by
  cases hold : ioBlocks[idx]?.join with
  | none => exact length_replicate
  | some ioBlock =>
    refine hsized idx ioBlock ?_
    rw [getElem?_eq_getElem hidx] at hold ⊢
    exact congrArg some hold

/-- Writing within a single block, which gets created on the first write to it. -/
theorem Wrote.patch (hsized : Sized ioBlockSize ioBlocks) {idx : Nat} (off : Nat)
    (src : List Byte) (hidx : idx < ioBlocks.length) (hroom : off + src.length ≤ ioBlockSize)
    (hpos : 0 < src.length)
    (hsrc : ∀ k, k < src.length → src[k]? = some (content (idx * ioBlockSize + off + k))) :
    Wrote ioBlockSize content ioBlocks
      (ioBlocks.set idx (some (Patches.patch
        (ioBlocks[idx]?.join.getD (List.replicate ioBlockSize 0)) off src)))
      (idx * ioBlockSize + off) (idx * ioBlockSize + off + src.length) := by
  have hlen := length_old hsized hidx
  set old := ioBlocks[idx]?.join.getD (List.replicate ioBlockSize 0) with hold
  have hpatch : off + src.length ≤ old.length := hlen ▸ hroom
  have hget : ∀ j, (ioBlocks.set idx (some (Patches.patch old off src)))[j]? =
      if idx = j then some (some (Patches.patch old off src)) else ioBlocks[j]? := by
    intro j
    rw [getElem?_set]
    split
    · rfl
    · rfl
  have hbyte : ∀ p, p / ioBlockSize = idx →
      byteAt ioBlockSize (ioBlocks.set idx (some (Patches.patch old off src))) p =
        if off ≤ p % ioBlockSize ∧ p % ioBlockSize < off + src.length then
          src[p % ioBlockSize - off]? else old[p % ioBlockSize]? := by
    intro p hp
    rw [byteAt, hget, if_pos hp.symm]
    exact getElem?_patch hpatch _
  refine ⟨length_set, ?_, ?_, ?_, ?_⟩
  · intro j ioBlock hj
    rw [hget] at hj
    split at hj
    · cases hj
      rw [length_patch hpatch, hlen]
    · exact hsized j ioBlock hj
  · intro p hlo hhi
    obtain ⟨k, rfl⟩ := Nat.exists_eq_add_of_le hlo
    obtain ⟨hdiv, hmod⟩ := div_eq_of_offset (S := ioBlockSize) idx off k
      (by omega)
    rw [hbyte _ hdiv, hmod, if_pos (by omega), Nat.add_sub_cancel_left]
    exact hsrc k (by omega)
  · intro p b hp hb
    by_cases hidxp : p / ioBlockSize = idx
    · have hdm := div_add_mod p ioBlockSize
      rw [hidxp, mul_comm] at hdm
      rw [hbyte p hidxp, if_neg (by omega), hold]
      rw [byteAt, hidxp] at hb
      obtain ⟨ioBlock, hio, hbyte'⟩ := Option.bind_eq_some_iff.mp hb
      rw [hio]
      exact hbyte'
    · rw [byteAt, hget, if_neg (Ne.symm hidxp)]
      exact hb
  · intro j hj
    rw [hget, if_neg]
    rintro rfl
    rw [succ_mul] at hj
    omega

theorem writeSlice_yields (content : Nat → Byte) (hS : 0 < ioBlockSize) (n : Nat) :
    ∀ (src : List Byte) (idx off : Nat) (ioBlocks : IoBlocks), src.length ≤ n →
      off < ioBlockSize → Sized ioBlockSize ioBlocks →
      idx * ioBlockSize + off + src.length ≤ ioBlocks.length * ioBlockSize →
      (∀ k, k < src.length → src[k]? = some (content (idx * ioBlockSize + off + k))) →
      ∃ ioBlocks', Yields (writeSlice ioBlockSize n idx off src) ioBlocks () ioBlocks' ∧
        Wrote ioBlockSize content ioBlocks ioBlocks' (idx * ioBlockSize + off)
          (idx * ioBlockSize + off + src.length) := by
  induction n with
  | zero =>
    intro src idx off ioBlocks hn _ hsized _ _
    obtain rfl : src = [] := length_eq_zero_iff.mp (le_zero.mp hn)
    exact ⟨ioBlocks, pure () ioBlocks, Wrote.refl hsized _⟩
  | succ n ih =>
    intro src idx off ioBlocks hn hoff hsized hroom hsrc
    cases src with
    | nil => exact ⟨ioBlocks, pure () ioBlocks, Wrote.refl hsized _⟩
    | cons byte bytes =>
      set src := byte :: bytes with hcons
      have hpos : 0 < src.length := succ_pos _
      set count := min src.length (ioBlockSize - off) with hcount
      have hidx : idx < ioBlocks.length := by
        refine Nat.lt_of_mul_lt_mul_right (a := ioBlockSize) ?_
        omega
      have htake : (src.take count).length = count := by
        rw [length_take]
        omega
      have hfirst := Wrote.patch hsized off (src.take count) hidx (by omega)
        (by omega) (fun k hk => by
          rw [getElem?_take, if_pos (by omega)]
          exact hsrc k (by omega))
      rw [htake] at hfirst
      have hblock : off + count ≤
          (ioBlocks[idx]?.join.getD (List.replicate ioBlockSize 0)).length := by
        rw [length_old hsized hidx]
        omega
      -- Either the source is used up or the block is, with the next one to start from.
      have hrest : ∃ ioBlocks', Yields (writeSlice ioBlockSize n (idx + 1) 0 (src.drop count))
          (ioBlocks.set idx (some (Patches.patch
            (ioBlocks[idx]?.join.getD (List.replicate ioBlockSize 0)) off (src.take count))))
          () ioBlocks' ∧
          Wrote ioBlockSize content ioBlocks ioBlocks' (idx * ioBlockSize + off)
            (idx * ioBlockSize + off + src.length) := by
        by_cases hfits : src.length ≤ ioBlockSize - off
        · have hall : count = src.length := min_eq_left hfits
          rw [hall, drop_length]
          rw [hall] at hfirst
          refine ⟨_, ?_, hfirst⟩
          rw [writeSlice]
          exact pure () _
        · have hnext : (idx + 1) * ioBlockSize + 0 = idx * ioBlockSize + off + count := by
            rw [succ_mul]
            omega
          obtain ⟨ioBlocks', hyields, hwrote⟩ := ih (src.drop count) (idx + 1) 0 _
            (by rw [length_drop]; omega) hS hfirst.sized
            (by rw [hnext, hfirst.length, length_drop]; omega)
            (fun k hk => by
              rw [length_drop] at hk
              rw [getElem?_drop, hnext, hsrc (count + k) (by omega)]
              congr 2
              omega)
          rw [hnext, length_drop] at hwrote
          have hend : idx * ioBlockSize + off + count + (src.length - count) =
              idx * ioBlockSize + off + src.length := by omega
          rw [hend] at hwrote
          exact ⟨ioBlocks', hyields, hfirst.trans _ hwrote (by omega) (by omega)⟩
      obtain ⟨ioBlocks', hyields, hwrote⟩ := hrest
      refine ⟨ioBlocks', ?_, hwrote⟩
      rw [hcons, writeSlice, ← hcons]
      refine (Yields.get ioBlocks).bind ?_
      refine (orErr hidx ioBlocks).bind ?_
      refine (require (le_of_lt hoff) ioBlocks).bind ?_
      refine (require hblock ioBlocks).bind ?_
      exact (Yields.set ioBlocks _).bind hyields

/-- The byte at a position within the buffers from some index on, all of one size
unless they are empty. -/
def dstAt (blockSize offset : Nat) (dstBlocks : List (List Byte)) (p : Nat) : Option Byte :=
  dstBlocks[offset + p / blockSize]?.bind (fun dstBlock => dstBlock[p % blockSize]?)

/-- The buffers after the bytes at some positions have been read into them. -/
structure Filled (blockSize offset : Nat) (content : Nat → Byte) (read : Nat → Prop)
    (dstBlocks dstBlocks' : List (List Byte)) : Prop where
  shape : dstBlocks'.map List.length = dstBlocks.map List.length
  before : ∀ j, j < offset → dstBlocks'[j]? = dstBlocks[j]?
  filled : ∀ p, read p → dstAt blockSize offset dstBlocks' p =
    (dstAt blockSize offset dstBlocks p).map (fun _ => content p)
  kept : ∀ p, ¬read p → dstAt blockSize offset dstBlocks' p = dstAt blockSize offset dstBlocks p

variable {blockSize offset : Nat} {read read' : Nat → Prop}
  {dstBlocks dstBlocks' dstBlocks'' : List (List Byte)}

theorem Filled.refl (h : ∀ p, ¬read p) : Filled blockSize offset content read dstBlocks dstBlocks :=
  ⟨rfl, fun _ _ => rfl, fun p hp => absurd hp (h p), fun _ _ => rfl⟩

section

variable (h : Filled blockSize offset content read dstBlocks dstBlocks')
include h

theorem Filled.trans (h' : Filled blockSize offset content read' dstBlocks' dstBlocks'') :
    Filled blockSize offset content (fun p => read p ∨ read' p) dstBlocks dstBlocks'' where
  shape := h'.shape.trans h.shape
  before := fun j hj => (h'.before j hj).trans (h.before j hj)
  filled := by
    intro p hp
    by_cases hlast : read' p
    · rw [h'.filled p hlast]
      by_cases hfirst : read p
      · rw [h.filled p hfirst, Option.map_map]
        rfl
      · rw [h.kept p hfirst]
    · rw [h'.kept p hlast, h.filled p (hp.resolve_right hlast)]
  kept := by
    intro p hp
    rw [h'.kept p (fun hlast => hp (.inr hlast)), h.kept p (fun hfirst => hp (.inl hfirst))]

theorem Filled.congr (hread : ∀ p, read p ↔ read' p) (heq : ∀ p, read p → content p = content' p) :
    Filled blockSize offset content' read' dstBlocks dstBlocks' where
  shape := h.shape
  before := h.before
  filled := fun p hp => by
    rw [h.filled p ((hread p).mpr hp), heq p ((hread p).mpr hp)]
  kept := fun p hp => h.kept p (fun hr => hp ((hread p).mp hr))

end

theorem Filled.patch {block : Nat} (lo : Nat) (src : List Byte) {dstBlock : List Byte}
    (hget : dstBlocks[offset + block]? = some dstBlock) (hlen : dstBlock.length = blockSize)
    (hroom : lo + src.length ≤ blockSize)
    (hsrc : ∀ k, k < src.length → src[k]? = some (content (block * blockSize + lo + k))) :
    Filled blockSize offset content
      (fun p => block * blockSize + lo ≤ p ∧ p < block * blockSize + lo + src.length) dstBlocks
      (dstBlocks.modify (offset + block) (fun dstBlock => Patches.patch dstBlock lo src)) := by
  have hpatch : lo + src.length ≤ dstBlock.length := hlen ▸ hroom
  have hnew := getElem?_modify_eq hget (fun dstBlock => Patches.patch dstBlock lo src)
  have hbyte : ∀ p, p / blockSize = block → dstAt blockSize offset (dstBlocks.modify (offset + block)
      (fun dstBlock => Patches.patch dstBlock lo src)) p =
        if lo ≤ p % blockSize ∧ p % blockSize < lo + src.length then
          src[p % blockSize - lo]? else dstBlock[p % blockSize]? := by
    intro p hp
    rw [dstAt, hnew, if_pos (by rw [hp])]
    exact getElem?_patch hpatch _
  refine ⟨?_, ?_, ?_, ?_⟩
  · apply ext_getElem?
    intro j
    rw [getElem?_map, getElem?_map, hnew]
    split
    next heq =>
      subst heq
      rw [hget]
      exact congrArg some (length_patch hpatch)
    next => rfl
  · intro j hj
    rw [hnew, if_neg (by omega)]
  · rintro p ⟨hlo, hhi⟩
    obtain ⟨k, rfl⟩ := Nat.exists_eq_add_of_le hlo
    obtain ⟨hdiv, hmod⟩ := div_eq_of_offset (S := blockSize) block lo k
      (by omega)
    have hold : dstAt blockSize offset dstBlocks (block * blockSize + lo + k) ≠ none := by
      rw [dstAt, hdiv, hmod, hget]
      simp only [Option.bind_some, ne_eq, List.getElem?_eq_none_iff]
      omega
    obtain ⟨b, hb⟩ := Option.ne_none_iff_exists'.mp hold
    rw [hbyte _ hdiv, hmod, if_pos (by omega), Nat.add_sub_cancel_left, hsrc k (by omega), hb]
    rfl
  · intro p hp
    by_cases hidx : p / blockSize = block
    · have hdm := div_add_mod p blockSize
      rw [hidx, mul_comm] at hdm
      rw [hbyte p hidx, if_neg (by omega), dstAt, hidx, hget]
      rfl
    · rw [dstAt, hnew, if_neg (by omega)]
      rfl

theorem readSlice_yields (offset : Nat) (content : Nat → Byte) (block : Nat)
    (hsized : Sized ioBlockSize ioBlocks) (hS : 0 < ioBlockSize) (n : Nat) :
    ∀ (remaining idx off lo : Nat) (dstBlocks : List (List Byte)) (dstBlock : List Byte),
      remaining ≤ n → off < ioBlockSize →
      dstBlocks[offset + block]? = some dstBlock → dstBlock.length = blockSize →
      lo + remaining ≤ blockSize →
      (∀ k, k < remaining → byteAt ioBlockSize ioBlocks (idx * ioBlockSize + off + k) =
        some (content (block * blockSize + lo + k))) →
      ∃ dstBlocks', Yields (readSlice ioBlocks ioBlockSize (offset + block) n idx off lo remaining)
          dstBlocks () dstBlocks' ∧
        Filled blockSize offset content
          (fun p => block * blockSize + lo ≤ p ∧ p < block * blockSize + lo + remaining)
          dstBlocks dstBlocks' := by
  induction n with
  | zero =>
    intro remaining idx off lo dstBlocks _ hn _ _ _ _ _
    obtain rfl : remaining = 0 := le_zero.mp hn
    exact ⟨dstBlocks, pure () dstBlocks, Filled.refl (fun p hp => by omega)⟩
  | succ n ih =>
    intro remaining idx off lo dstBlocks dstBlock hn hoff hget hlen hroom hsrc
    cases remaining with
    | zero => exact ⟨dstBlocks, pure () dstBlocks, Filled.refl (fun p hp => by omega)⟩
    | succ remaining =>
      set count := min (remaining + 1) (ioBlockSize - off) with hcount
      obtain ⟨hdiv, hmod⟩ := div_eq_of_offset (S := ioBlockSize) idx off 0
        (by omega)
      have hfirstByte := hsrc 0 (succ_pos _)
      rw [byteAt, hdiv] at hfirstByte
      obtain ⟨ioBlock, hio, -⟩ := Option.bind_eq_some_iff.mp hfirstByte
      have hidx : idx < ioBlocks.length := by
        by_contra hge
        rw [getElem?_eq_none (Nat.le_of_not_lt hge)] at hio
        cases hio
      have hioLen : ioBlock.length = ioBlockSize := by
        refine hsized idx ioBlock ?_
        rw [getElem?_eq_getElem hidx] at hio ⊢
        exact congrArg some hio
      have hslice : (slice ioBlock off (off + count)).length = count := by
        rw [length_slice (by omega)]
        omega
      have hfirst := Filled.patch lo (slice ioBlock off (off + count)) hget hlen (by omega)
        (fun k hk => show _ = some (content _) by
          obtain ⟨hdivk, hmodk⟩ := div_eq_of_offset (S := ioBlockSize) idx off k
            (by omega)
          have hk' := hsrc k (by omega)
          rw [byteAt, hdivk, hmodk, hio] at hk'
          rw [getElem?_slice (by omega)]
          exact hk')
      set dstBlocks₁ := dstBlocks.modify (offset + block)
        (fun dstBlock => Patches.patch dstBlock lo (slice ioBlock off (off + count))) with hdst₁
      have hget₁ : dstBlocks₁[offset + block]? =
          some (Patches.patch dstBlock lo (slice ioBlock off (off + count))) := by
        rw [hdst₁, getElem?_modify_eq hget, if_pos rfl]
      have hrest : ∃ dstBlocks', Yields (readSlice ioBlocks ioBlockSize (offset + block) n (idx + 1) 0
            (lo + count) (remaining + 1 - count)) dstBlocks₁ () dstBlocks' ∧
          Filled blockSize offset content
            (fun p => block * blockSize + (lo + count) ≤ p ∧
              p < block * blockSize + (lo + count) + (remaining + 1 - count))
            dstBlocks₁ dstBlocks' := by
        by_cases hfits : remaining + 1 ≤ ioBlockSize - off
        · have hall : remaining + 1 - count = 0 := by omega
          rw [hall]
          refine ⟨dstBlocks₁, ?_, Filled.refl (fun p hp => by omega)⟩
          rw [readSlice]
          exact pure () _
        · have hnext : (idx + 1) * ioBlockSize + 0 = idx * ioBlockSize + off + count := by
            rw [succ_mul]
            omega
          refine ih (remaining + 1 - count) (idx + 1) 0 (lo + count) dstBlocks₁ _ (by omega) hS hget₁
            ?_ (by omega) ?_
          · rw [length_patch (by omega), hlen]
          · intro k hk
            have hk' := hsrc (count + k) (by omega)
            rw [hnext, add_assoc, hk']
            congr 2
            omega
      obtain ⟨dstBlocks', hyields, hfilled⟩ := hrest
      refine ⟨dstBlocks', ?_, (hfirst.trans hfilled).congr (fun p => by omega) (fun _ _ => rfl)⟩
      rw [readSlice]
      refine (orErr hidx dstBlocks).bind ?_
      rw [hio]
      refine (require (le_of_lt hoff) dstBlocks).bind ?_
      refine (require (show off + count ≤ ioBlock.length by omega) dstBlocks).bind ?_
      refine (Yields.get dstBlocks).bind ?_
      exact (Yields.set dstBlocks _).bind hyields

end CocoonFs.BlkDev
