import CocoonFs.FixedBlockKdf

namespace CocoonFs.FixedBlockKdfRuns

open Codes Multiprecision Patches SliceCursors FixedBlockKdf
open List (append_assoc append_nil drop_of_length_le flatten_singleton length length_append
  length_drop length_nil length_replicate length_take nil_append replicate take_of_length_le
  zipWith)

variable {κ : Type}

def TailWhole : Nat → List (List Byte) → Prop
  | _, [] => True
  | pos, slice :: slices =>
    if slice.length ≤ pos then TailWhole (pos - slice.length) slices else slices.flatten = []

variable {slices rest : List (List Byte)} {pos rem' d : Nat} {maxLen : Option Nat}
    {buf' key : List Byte}

theorem TailWhole.length_flatten (h : TailWhole 0 slices) :
    slices.flatten.length = nextSliceLen slices := by
  induction slices with
  | nil => rfl
  | cons slice slices ih =>
    cases slice with
    | nil =>
      rw [List.flatten_cons, nil_append, nextSliceLen]
      exact ih h
    | cons x xs =>
      rw [List.flatten_cons, h, append_nil, nextSliceLen, List.length_cons]

theorem TailWhole.nextSlice {slice : List Byte} (h : TailWhole pos slices)
    (hnext : SliceCursors.nextSlice maxLen slices = some (slice, rest))
    (hle : slice.length ≤ pos) : TailWhole (pos - slice.length) rest := by
  induction slices generalizing pos with
  | nil => cases hnext
  | cons front slices ih =>
    cases front with
    | nil => exact ih h hnext hle
    | cons x xs =>
      cases maxLen with
      | none =>
        cases hnext
        rwa [TailWhole, if_pos hle] at h
      | some n =>
        cases hnext
        rw [length_take] at hle ⊢
        rw [TailWhole] at h ⊢
        rw [length_drop]
        by_cases hwhole : (x :: xs).length ≤ pos
        · rw [if_pos hwhole] at h
          rw [if_pos (by omega)]
          have hpos : pos - min n (x :: xs).length - ((x :: xs).length - n) =
              pos - (x :: xs).length := by omega
          rwa [hpos]
        · rw [if_neg hwhole] at h
          rwa [if_neg (by omega)]

theorem TailWhole.copyFromIter {β γ : Type} (combine : Byte → β → γ) {dst : List (List Byte)}
    (src : List (List β)) (h : TailWhole pos dst) (hle : src.flatten.length ≤ pos) :
    TailWhole (pos - src.flatten.length) (SliceCursors.copyFromIter combine dst src).2.1 := by
  fun_induction SliceCursors.copyFromIter combine dst src generalizing pos with
  | case1 dst src n => trivial
  | case2 dst src n dstSlice dst' hd =>
    rename_i hs
    have hnil := (nextSlice_none _ _).mp hs
    have hlen : dstSlice.length = 0 := by
      have hn := le_trans (length_nextSlice_le hd) (min_le_right _ _)
      rw [(nextSliceLen_eq_zero src).mpr hnil] at hn
      exact Nat.le_zero.mp hn
    have := h.nextSlice hd (by omega)
    rw [hlen, Nat.sub_zero] at this
    rwa [hnil, length_nil, Nat.sub_zero]
  | case3 dst src n dstSlice dst' hd srcSlice src' hs =>
    rename_i copied ih
    have hsrc := congrArg length (flatten_nextSlice hs)
    have hlen : dstSlice.length = srcSlice.length := by
      rw [length_nextSlice hd, length_nextSlice hs]
      omega
    rw [length_append] at hsrc
    have := ih (h.nextSlice hd (by omega)) (by omega)
    rwa [Nat.sub_sub, hlen, ← hsrc] at this

variable {bk : FixedBlockOutputKdf κ}

variable (bk) in
/-- What so many successive calls to `generate_block()` give, each block cut to its length, and
the state after them. -/
def blocks : Nat → κ → Option (List Byte × κ)
  | 0, kdf => some ([], kdf)
  | n + 1, kdf =>
    match bk.generateBlock kdf (replicate (bk.blockLen kdf) 0) with
    | .error _ => none
    | .ok (block, curBlockLen, kdf') =>
      (blocks n kdf').map fun rest => (block.take curBlockLen ++ rest.1, rest.2)

variable (bk) in
def Delivers (kdf : κ) (bs : List Byte) (kdf' : κ) : Prop := ∃ n, blocks bk n kdf = some (bs, kdf')

theorem Delivers.refl (kdf : κ) : Delivers bk kdf [] kdf := ⟨0, rfl⟩

variable {kdf kdf' kdf'' : κ}

theorem Delivers.block {block bs : List Byte} {curBlockLen : Nat}
    (hblock : bk.generateBlock kdf (replicate (bk.blockLen kdf) 0) =
      .ok (block, curBlockLen, kdf')) (h : Delivers bk kdf' bs kdf'') :
    Delivers bk kdf (block.take curBlockLen ++ bs) kdf'' := by
  obtain ⟨n, hn⟩ := h
  refine ⟨n + 1, ?_⟩
  rw [blocks, hblock]
  dsimp only
  rw [hn]
  rfl

theorem Delivers.trans {bs bs' : List Byte} (h : Delivers bk kdf bs kdf')
    (h' : Delivers bk kdf' bs' kdf'') : Delivers bk kdf (bs ++ bs') kdf'' := by
  obtain ⟨n, hn⟩ := h
  induction n generalizing kdf bs with
  | zero =>
    cases hn
    exact h'
  | succ n ih =>
    rw [blocks] at hn
    split at hn
    · cases hn
    · rename_i block curBlockLen kdf₁ hblock
      obtain ⟨rest, hrest, heq⟩ := Option.map_eq_some_iff.mp hn
      cases heq
      rw [append_assoc]
      exact (ih hrest).block hblock

/-- The next block, whatever buffer it is generated into, its length, and the state after it. -/
structure Next (bk : FixedBlockOutputKdf κ) (Inv : κ → Prop) (remaining safe : κ → Nat) (kdf : κ)
    (block : List Byte) (n : Nat) (kdf' : κ) : Prop where
  eq : ∀ buf, buf.length = bk.blockLen kdf → bk.generateBlock kdf buf = .ok (block, n, kdf')
  len_eq : n = min (bk.blockLen kdf) (remaining kdf)
  le_safe : n ≤ safe kdf
  inv : Inv kdf'
  blockLen : bk.blockLen kdf' = bk.blockLen kdf
  remaining_eq : remaining kdf' = remaining kdf - n
  safe_eq : safe kdf' = safe kdf - n

/-- What a key derivation function keeps: blocks come in full as long as there is that much left,
and the last one in part. How many bytes there are is what it says, up to a point at which it may
lose track. -/
structure Lawful (bk : FixedBlockOutputKdf κ) where
  Inv : κ → Prop
  remaining : κ → Nat
  safe : κ → Nat
  safe_le : ∀ kdf, safe kdf ≤ remaining kdf
  maxRemainingLen_eq : ∀ kdf, Inv kdf → bk.maxRemainingLen kdf = some (remaining kdf)
  exists_next : ∀ kdf, Inv kdf → 0 < safe kdf → ∃ block n kdf',
    Next bk Inv remaining safe kdf block n kdf'

variable (law : Lawful bk)

/-- From one state of the buffer to another, with the bytes of the key stream that are delivered
in between. What has been left over comes first, and what is left over then has been generated
already. -/
structure Served (kdf : κ) (buf : List Byte) (rem : Nat) (key : List Byte) (kdf' : κ)
    (buf' : List Byte) (rem' : Nat) : Prop where
  inv : law.Inv kdf'
  blockLen : bk.blockLen kdf' = bk.blockLen kdf
  remaining : law.remaining kdf' + rem' + key.length = law.remaining kdf + rem
  safe : law.safe kdf' + rem' + key.length = law.safe kdf + rem
  buf_length : buf'.length = buf.length
  rem_le : rem' ≤ buf'.length
  delivers : ∃ bs, Delivers bk kdf bs kdf' ∧ bufTail buf rem ++ bs = key ++ bufTail buf' rem'

variable {law}

theorem Served.refl {kdf : κ} {buf : List Byte} {rem : Nat} (hinv : law.Inv kdf)
    (hrem : rem ≤ buf.length) : Served law kdf buf rem [] kdf buf rem where
  inv := hinv
  blockLen := rfl
  remaining := rfl
  safe := rfl
  buf_length := rfl
  rem_le := hrem
  delivers := ⟨[], .refl kdf, append_nil _⟩

theorem Served.trans {buf buf'' key' : List Byte}
    {rem rem'' : Nat} (h : Served law kdf buf rem key kdf' buf' rem')
    (h' : Served law kdf' buf' rem' key' kdf'' buf'' rem'') :
    Served law kdf buf rem (key ++ key') kdf'' buf'' rem'' where
  inv := h'.inv
  blockLen := h'.blockLen.trans h.blockLen
  remaining := by
    have h₁ := h.remaining
    have h₂ := h'.remaining
    rw [length_append]
    omega
  safe := by
    have h₁ := h.safe
    have h₂ := h'.safe
    rw [length_append]
    omega
  buf_length := h'.buf_length.trans h.buf_length
  rem_le := h'.rem_le
  delivers := by
    obtain ⟨bs, hbs, heq⟩ := h.delivers
    obtain ⟨bs', hbs', heq'⟩ := h'.delivers
    refine ⟨bs ++ bs', hbs.trans hbs', ?_⟩
    rw [← append_assoc, heq, append_assoc, heq', append_assoc]

theorem Served.drain {kdf : κ} {buf : List Byte} {rem n : Nat} (hinv : law.Inv kdf)
    (hrem : rem ≤ buf.length) (hn : n ≤ rem) :
    Served law kdf buf rem ((bufTail buf rem).take n) kdf buf (rem - n) := by
  have hlen : ((bufTail buf rem).take n).length = n := by
    rw [length_take, length_bufTail]
    omega
  have htail : bufTail buf (rem - n) = (bufTail buf rem).drop n := by
    rw [bufTail, bufTail, List.drop_drop]
    congr 1
    omega
  refine ⟨hinv, rfl, by omega, by omega, rfl, by omega, [], .refl kdf, ?_⟩
  rw [append_nil, htail, List.take_append_drop]

/-- The tail of the buffer, and behind it what is served once it has been used up. -/
theorem Served.drained {kdf : κ} {buf : List Byte} {rem len : Nat} (hinv : law.Inv kdf)
    (hrem : rem ≤ buf.length) (hkey : key.length = len - rem)
    (h : Served law kdf buf (rem - min rem len) key kdf' buf' rem') :
    ((bufTail buf rem).take (min rem len) ++ key).length = len ∧
      Served law kdf buf rem ((bufTail buf rem).take (min rem len) ++ key) kdf' buf' rem' := by
  refine ⟨?_, (Served.drain hinv hrem (min_le_left rem len)).trans h⟩
  rw [length_append, length_take, length_bufTail, hkey]
  omega

/-- Either the tail of the buffer is used up, or there's nothing left to be filled. -/
theorem leftover {rem : Nat} {bs rest : List Byte} (h : rest = bs.drop rem) :
    rest.length = bs.length - rem ∧ (rem - min rem bs.length = 0 ∨ rest = []) := by
  subst h
  refine ⟨length_drop, ?_⟩
  rcases le_total rem bs.length with h | h
  · exact .inl (by omega)
  · exact .inr (drop_of_length_le h)

theorem copyFromTail_eq (combine : Byte → Byte → Byte) (output : List (List Byte))
    {buf : List Byte} {rem : Nat} (hrem : rem ≤ buf.length) :
    let copied := copyFromIter combine output [bufTail buf rem]
    copied.1 = zipWith combine output.flatten (bufTail buf rem) ∧
      copied.2.1.flatten = output.flatten.drop rem ∧
      copied.1.length = min rem output.flatten.length := by
  have htail : (bufTail buf rem).length = rem := by
    rw [length_bufTail, min_eq_left hrem]
  obtain ⟨hwritten, hrest, -⟩ := copyFromIter_spec combine output [bufTail buf rem]
  rw [flatten_singleton] at hwritten hrest
  rw [htail] at hrest
  refine ⟨hwritten, hrest, ?_⟩
  rw [hwritten, List.length_zipWith, htail, Nat.min_comm]

theorem bufTail_moveToTail {block : List Byte} {n blockLen : Nat} (hblock : block.length = blockLen)
    (hn : n ≤ blockLen) : bufTail (moveToTail block n blockLen) n = block.take n := by
  rw [bufTail, length_moveToTail _ hblock, moveToTail]
  split
  · have htake : (block.take n).length = n := by
      rw [length_take]
      omega
    rw [copyWithin, patch, append_assoc, List.drop_left' (by rw [length_take]; omega),
      htake, drop_of_length_le (by omega), append_nil]
  · rename_i heq
    rw [not_not.mp heq, Nat.sub_self, List.drop_zero, take_of_length_le hblock.le]

section Next

variable {kdf kdf' : κ} {block buf : List Byte} {n : Nat}
  (h : Next bk law.Inv law.remaining law.safe kdf block n kdf')

include h

theorem Next.zeros : bk.generateBlock kdf (replicate (bk.blockLen kdf) 0) =
    .ok (block, n, kdf') := h.eq _ length_replicate

theorem Next.length : block.length = bk.blockLen kdf :=
  (bk.length_generateBlock _ _ _ _ _ h.zeros).trans length_replicate

theorem Next.le_blockLen : n ≤ bk.blockLen kdf := by
  rw [h.len_eq]
  exact min_le_left _ _

theorem Served.generateBlock (hbuf : buf.length = bk.blockLen kdf) :
    Served law kdf buf 0 [] kdf' (moveToTail block n (bk.blockLen kdf)) n := by
  have hmoved := length_moveToTail n h.length
  have hremaining := h.remaining_eq
  have hsafe := h.safe_eq
  have hle := h.le_safe
  have hle' := h.le_blockLen
  have := law.safe_le kdf
  refine ⟨h.inv, h.blockLen, ?_, ?_, hmoved.trans hbuf.symm, by omega, _,
    (Delivers.refl _).block h.zeros, ?_⟩
  · rw [length_nil]
    omega
  · rw [length_nil]
    omega
  · rw [bufTail_moveToTail h.length h.le_blockLen, bufTail, Nat.sub_zero,
      drop_of_length_le (le_refl _), append_nil, nil_append]

theorem Served.direct (hfull : n = bk.blockLen kdf) : Served law kdf buf 0 block kdf' buf 0 := by
  have hlen := h.length
  have hremaining := h.remaining_eq
  have hsafe := h.safe_eq
  have hle := h.le_safe
  have := law.safe_le kdf
  have hdelivers := (Delivers.refl kdf').block h.zeros
  rw [take_of_length_le (by omega)] at hdelivers
  refine ⟨h.inv, h.blockLen, by omega, by omega, rfl, Nat.zero_le _, _, hdelivers, ?_⟩
  rw [bufTail, Nat.sub_zero, drop_of_length_le (le_refl _), append_nil, nil_append]

end Next

variable {n : Nat} {curOutputSlice : List Byte}

/-- The current slice and the ones that follow get what there is at the tail of the buffer. -/
theorem drainTail_eq (blockBuf : List Byte)
    (output : List (List Byte)) (hn : n ≤ blockBuf.length) (hle : curOutputSlice.length ≤ n) :
    (drainTail blockBuf n curOutputSlice output).1 =
        (bufTail blockBuf n).take (curOutputSlice ++ output.flatten).length ∧
      (drainTail blockBuf n curOutputSlice output).2.1.flatten =
        (curOutputSlice ++ output.flatten).drop n ∧
      (drainTail blockBuf n curOutputSlice output).2.2 =
        min n (curOutputSlice ++ output.flatten).length := by
  have htail : (bufTail blockBuf n).length = n := by
    rw [length_bufTail]
    omega
  have hcopy : copy = fun _ b => b := rfl
  obtain ⟨hfirst, -, hsrc⟩ := copyFromIter_spec copy [curOutputSlice] [bufTail blockBuf n]
  obtain ⟨hothers, hrest, -⟩ := copyFromIter_spec copy output
    (copyFromIter copy [curOutputSlice] [bufTail blockBuf n]).2.2
  rw [flatten_singleton, flatten_singleton] at hfirst hsrc
  rw [hsrc] at hothers hrest
  rw [hcopy, zipWith_snd] at hfirst hothers
  have hlen : ((bufTail blockBuf n).take curOutputSlice.length).length = curOutputSlice.length := by
    rw [length_take]
    omega
  rw [drainTail]
  dsimp only
  refine ⟨?_, ?_, ?_⟩
  · rw [← hcopy] at hfirst hothers
    rw [hfirst, hothers, hlen, drop_of_length_le (le_refl _), append_nil,
      length_append, ← List.take_add]
  · rw [hrest, length_drop, htail, List.drop_append, drop_of_length_le hle,
      nil_append]
  · rw [← hcopy] at hfirst hothers
    rw [hfirst, hothers, hlen, length_take, length_drop, htail, length_append]
    omega

/-- Slices whose lengths are multiples of a number keep that when a multiple is taken. -/
theorem dvd_length_nextSlice {slice : List Byte} (h : ∀ s ∈ slices, d ∣ s.length)
    (hnext : nextSlice maxLen slices = some (slice, rest)) (hslice : d ∣ slice.length) :
    ∀ s ∈ rest, d ∣ s.length := by
  induction slices with
  | nil => cases hnext
  | cons front slices ih =>
    have hslices : ∀ s ∈ slices, d ∣ s.length := fun s hs => h s (List.mem_cons_of_mem _ hs)
    cases front with
    | nil => exact ih hslices hnext
    | cons x xs =>
      cases maxLen with
      | none =>
        cases hnext
        exact hslices
      | some n =>
        cases hnext
        intro s hs
        rcases List.mem_cons.mp hs with rfl | hs
        · have hfront := h _ (List.mem_cons_self ..)
          rw [← List.take_append_drop n (x :: xs), length_append] at hfront
          exact (Nat.dvd_add_right hslice).mp hfront
        · exact hslices s hs

theorem dvd_nextSliceLen (h : ∀ s ∈ slices, d ∣ s.length) :
    d ∣ nextSliceLen slices := by
  induction slices with
  | nil => exact dvd_zero d
  | cons front slices ih =>
    cases front with
    | nil => exact ih fun s hs => h s (List.mem_cons_of_mem _ hs)
    | cons x xs => exact h _ (List.mem_cons_self ..)

/-- Where the short block at the end begins, counted from the next block on. -/
def shortBlockPos (bk : FixedBlockOutputKdf κ) (remaining : Nat) (kdf : κ) : Nat :=
  remaining / bk.blockLen kdf * bk.blockLen kdf

/-- The part of the output that a short block at the end is for lies within one slice. -/
def ShortBlockFits (bk : FixedBlockOutputKdf κ) (remaining : Nat) (kdf : κ) (pos : Nat)
    (output : List (List Byte)) : Prop :=
  remaining % bk.blockLen kdf = 0 ∨ TailWhole (pos + shortBlockPos bk remaining kdf) output

variable {kdf kdf' : κ}

theorem ShortBlockFits.next {block : List Byte}
    {output : List (List Byte)} (h : ShortBlockFits bk (law.remaining kdf) kdf 0 output)
    (hnext : Next bk law.Inv law.remaining law.safe kdf block n kdf')
    (hrest : n = bk.blockLen kdf → ∀ pos, TailWhole (n + pos) output → TailWhole pos rest) :
    ShortBlockFits bk (law.remaining kdf') kdf' 0 rest := by
  have hpos := bk.blockLen_pos kdf
  have hn := hnext.len_eq
  rw [ShortBlockFits, shortBlockPos, hnext.blockLen, hnext.remaining_eq]
  rcases lt_or_ge (law.remaining kdf) (bk.blockLen kdf) with hshort | hlong
  · rw [hn, min_eq_right hshort.le, Nat.sub_self]
    exact .inl (Nat.zero_mod _)
  · rw [min_eq_left hlong] at hn
    rw [hn]
    refine h.imp (fun hmod => ?_) (fun hwhole => ?_)
    · rwa [← Nat.mod_eq_sub_mod hlong]
    · rw [zero_add] at hwhole ⊢
      refine hrest hn _ ?_
      rw [shortBlockPos, Nat.div_eq_sub_div hpos hlong, Nat.succ_mul, add_comm] at hwhole
      rwa [hn]

theorem TailWhole.drainTail (blockBuf : List Byte)
    {output : List (List Byte)} (h : TailWhole (n + pos) slices)
    (hnext : SliceCursors.nextSlice maxLen slices = some (curOutputSlice, output))
    (hn : n ≤ blockBuf.length) (hle : curOutputSlice.length ≤ n) :
    TailWhole pos (FixedBlockKdf.drainTail blockBuf n curOutputSlice output).2.1 := by
  have hsrc := (copyFromIter_spec copy [curOutputSlice] [bufTail blockBuf n]).2.2
  rw [flatten_singleton, flatten_singleton] at hsrc
  have hlen := congrArg length hsrc
  rw [length_drop, length_bufTail, min_eq_left hn] at hlen
  have := (h.nextSlice hnext (by omega)).copyFromIter copy
    (SliceCursors.copyFromIter copy [curOutputSlice] [bufTail blockBuf n]).2.2 (by omega)
  rwa [hlen, show n + pos - curOutputSlice.length - (n - curOutputSlice.length) = pos by omega]
    at this

variable {blockLen : { n : Nat // 0 < n }}

theorem chunkLoop_served {kdf : κ} {buf : List Byte} {rem : Nat}
    {output : List (List Byte)} (hinv : law.Inv kdf) (hblockLen : bk.blockLen kdf = blockLen.1)
    (hbuf : buf.length = blockLen.1 ∨ ∀ s ∈ output, blockLen.1 ∣ s.length)
    (hrem : rem ≤ buf.length) (hleft : rem = 0 ∨ output.flatten = [])
    (hsafe : output.flatten.length ≤ law.safe kdf)
    (hfits : ShortBlockFits bk (law.remaining kdf) kdf 0 output) :
    ∃ key kdf' buf' rem', chunkLoop bk kdf blockLen buf rem output = .ok (key, kdf', buf', rem') ∧
      key.length = output.flatten.length ∧ Served law kdf buf rem key kdf' buf' rem' := by
  induction hlen : output.flatten.length using Nat.strong_induction_on
    generalizing kdf buf rem output with
  | h len ih =>
    subst hlen
    rw [chunkLoop]
    split
    · rename_i hnone
      rw [(nextSlice_none _ _).mp hnone]
      exact ⟨[], kdf, buf, rem, rfl, rfl, .refl hinv hrem⟩
    · rename_i curOutputSlice output' hnext
      have htotal := congrArg length (flatten_nextSlice hnext)
      rw [length_append] at htotal
      have hpos := nextSlice_pos blockLen.2 hnext
      obtain rfl := hleft.resolve_right (by
        intro hnil
        rw [hnil, length_nil] at htotal
        omega)
      obtain ⟨block, n, kdf₁, hgen⟩ := law.exists_next kdf hinv (by omega)
      have hn := hgen.len_eq
      have hsafeLe := law.safe_le kdf
      have hblockLen₁ := hgen.blockLen.trans hblockLen
      have hsafe₁ := hgen.safe_eq
      by_cases hfull : curOutputSlice.length = blockLen.1
      · -- The slice at hand holds the block.
        have hfullLen : n = blockLen.1 := by omega
        have hdvd (h : ∀ s ∈ output, blockLen.1 ∣ s.length) :=
          dvd_length_nextSlice h hnext (dvd_of_eq hfull.symm)
        have hfits₁ : ShortBlockFits bk (law.remaining kdf₁) kdf₁ 0 output' :=
          hfits.next hgen (fun _ pos h => by
            have := h.nextSlice hnext (by omega)
            rwa [hfull, hfullLen, Nat.add_sub_cancel_left] at this)
        obtain ⟨key, kdf', buf', rem', hloop, hkey, hserved⟩ := ih output'.flatten.length (by omega)
          hgen.inv hblockLen₁ (hbuf.imp_right hdvd) hrem (.inl rfl) (by omega) hfits₁ rfl
        refine ⟨block ++ key, kdf', buf', rem', ?_, ?_, ?_⟩
        · rw [if_pos hfull, bind_ok (hgen.eq _ (hfull.trans hblockLen.symm))]
          dsimp only
          rw [bind_ok (debugAssert_pos hfullLen), bind_ok hloop]
        · rw [length_append, hgen.length, hkey, hblockLen, htotal, hfull]
        · exact (Served.direct hgen (hfullLen.trans hblockLen.symm)).trans hserved
      · -- The block is distributed over the slices by way of the buffer.
        have hcurLen := length_nextSlice hnext
        have hbufLen : buf.length = blockLen.1 := by
          refine hbuf.resolve_right (fun h => hfull ?_)
          rw [hcurLen, min_eq_left (Nat.le_of_dvd (by omega) (dvd_nextSliceLen h))]
        have hwhole : n < blockLen.1 → output'.flatten = [] := by
          intro hshort
          have hlt : law.remaining kdf < blockLen.1 := by omega
          have hwhole := hfits.resolve_left (by
            rw [hblockLen, Nat.mod_eq_of_lt hlt]
            omega)
          rw [shortBlockPos, hblockLen, Nat.div_eq_of_lt hlt, zero_mul] at hwhole
          have := hwhole.length_flatten
          exact List.length_eq_zero_iff.mp (by omega)
        have hcurLe : curOutputSlice.length ≤ n := by omega
        obtain ⟨moved, hmoved⟩ : ∃ moved, moved = moveToTail block n blockLen.1 := ⟨_, rfl⟩
        have hmovedLen : moved.length = blockLen.1 := by
          rw [hmoved, length_moveToTail _ (hgen.length.trans hblockLen)]
        obtain ⟨hwritten, hrest, hcount⟩ := drainTail_eq moved output' (by omega) hcurLe
        rw [← flatten_nextSlice hnext] at hwritten hrest hcount
        obtain ⟨hrestLen, hleft₁⟩ := leftover hrest
        have hfits₁ : ShortBlockFits bk (law.remaining kdf₁) kdf₁ 0
            (drainTail moved n curOutputSlice output').2.1 :=
          hfits.next hgen (fun _ pos h => h.drainTail moved hnext (by omega) hcurLe)
        rw [← hcount] at hleft₁
        obtain ⟨key, kdf', buf', rem', hloop, hkey, hserved⟩ :=
          ih (drainTail moved n curOutputSlice output').2.1.flatten.length (by omega)
            hgen.inv hblockLen₁ (.inl hmovedLen) (by omega) hleft₁ (by omega) hfits₁ rfl
        rw [hcount] at hserved
        obtain ⟨hkey, hdrained⟩ := hserved.drained hgen.inv (by omega) (hkey.trans hrestLen)
        have hassert : n = blockLen.1 ∨ curOutputSlice.length ≤ n ∧ isEmpty output' = true := by
          rcases lt_or_ge n blockLen.1 with h | h
          · exact .inr ⟨hcurLe, (SliceCursors.isEmpty_iff _).mpr (hwhole h)⟩
          · exact .inl (by omega)
        refine ⟨_, kdf', buf', rem', ?_, hkey, ?_⟩
        · have htail : (bufTail moved n).length = n := by
            rw [length_bufTail]
            omega
          rw [List.take_eq_take_min, htail, Nat.min_comm] at hwritten
          rw [← hwritten, if_neg hfull, bind_ok (debugAssert_pos hbufLen),
            bind_ok (hgen.eq _ (hbufLen.trans hblockLen.symm))]
          dsimp only
          rw [← hmoved, bind_ok (debugAssert_pos hassert), bind_ok hloop]
        · have hgenerated := Served.generateBlock hgen (hbufLen.trans hblockLen.symm)
          rw [hblockLen, ← hmoved] at hgenerated
          exact hgenerated.trans hdrained

/-- The bytes of the one block are combined with the front, and the others with what is behind. -/
theorem zipWith_take_append {xs ys : List Byte} (combine : Byte → Byte → Byte)
    (hys : ys.length = n) (key : List Byte) :
    zipWith combine xs (ys.take (min n xs.length) ++ key) =
      zipWith combine xs ys ++ zipWith combine (xs.drop n) key := by
  subst hys
  have hcut (ys : List Byte) := @List.zipWith_eq_zipWith_take_min _ _ _ combine xs ys
  rcases le_total ys.length xs.length with h | h
  · rw [min_eq_left h, take_of_length_le (le_refl _)]
    have htake : (xs.take ys.length).length = ys.length := by
      rw [length_take, min_eq_left h]
    calc zipWith combine xs (ys ++ key)
      _ = zipWith combine (xs.take ys.length ++ xs.drop ys.length) (ys ++ key) := by
        rw [List.take_append_drop]
      _ = zipWith combine (xs.take ys.length) ys ++
          zipWith combine (xs.drop ys.length) key := List.zipWith_append htake
      _ = zipWith combine xs ys ++ zipWith combine (xs.drop ys.length) key := by
        rw [hcut ys, min_eq_right h, take_of_length_le (le_refl ys.length)]
  · have hkey : (ys.take xs.length ++ key).take xs.length = ys.take xs.length :=
      List.take_left' (by rw [length_take, min_eq_left h])
    rw [min_eq_right h, drop_of_length_le h, List.zipWith_nil_left, append_nil,
      hcut ys, min_eq_left h, hcut, length_append, length_take, min_eq_left h, min_eq_left (by omega), hkey]

theorem xorChunkLoop_served {kdf : κ} {buf : List Byte} {rem : Nat}
    {output : List (List Byte)} (hinv : law.Inv kdf) (hblockLen : bk.blockLen kdf = blockLen.1)
    (hbuf : buf.length = blockLen.1) (hrem : rem ≤ buf.length)
    (hleft : rem = 0 ∨ output.flatten = []) (hsafe : output.flatten.length ≤ law.safe kdf) :
    ∃ key kdf' buf' rem', xorChunkLoop bk kdf blockLen buf rem output =
        .ok (zipWith (· ^^^ ·) output.flatten key, kdf', buf', rem') ∧
      key.length = output.flatten.length ∧ Served law kdf buf rem key kdf' buf' rem' := by
  induction hlen : output.flatten.length using Nat.strong_induction_on
    generalizing kdf buf rem output with
  | h len ih =>
    subst hlen
    rw [xorChunkLoop]
    split
    · rename_i hempty
      rw [(SliceCursors.isEmpty_iff _).mp hempty]
      exact ⟨[], kdf, buf, rem, rfl, rfl, .refl hinv hrem⟩
    · rename_i hne
      have hne : output.flatten ≠ [] := by
        rw [Ne, ← SliceCursors.isEmpty_iff, hne]
        simp
      have hpos := List.length_pos_iff.mpr hne
      obtain rfl := hleft.resolve_right hne
      obtain ⟨block, n, kdf₁, hgen⟩ := law.exists_next kdf hinv (by omega)
      have hn := hgen.len_eq
      have hsafeLe := law.safe_le kdf
      have hblockLen₁ := hgen.blockLen.trans hblockLen
      have hsafe₁ := hgen.safe_eq
      obtain ⟨moved, hmoved⟩ : ∃ moved, moved = moveToTail block n blockLen.1 := ⟨_, rfl⟩
      have hmovedLen : moved.length = blockLen.1 := by
        rw [hmoved, length_moveToTail _ (hgen.length.trans hblockLen)]
      have hassert : n = blockLen.1 ∨ totalLen output ≤ n := by
        rw [totalLen_eq]
        omega
      have hmovedLe : n ≤ moved.length := by omega
      obtain ⟨hwritten, hrest, hcount⟩ := copyFromTail_eq (· ^^^ ·) output hmovedLe
      obtain ⟨hrestLen, hleft₁⟩ := leftover hrest
      rw [← hcount] at hleft₁
      obtain ⟨key, kdf', buf', rem', hloop, hkey, hserved⟩ :=
        ih (copyFromIter (· ^^^ ·) output [bufTail moved n]).2.1.flatten.length (by omega) hgen.inv
          hblockLen₁ hmovedLen (by omega) hleft₁ (by omega) rfl
      rw [hcount] at hserved
      obtain ⟨hkey, hdrained⟩ := hserved.drained hgen.inv hmovedLe (hkey.trans hrestLen)
      refine ⟨_, kdf', buf', rem', ?_, hkey, ?_⟩
      · rw [dif_pos hbuf]
        split
        · rename_i e he
          rw [hgen.eq _ (hbuf.trans hblockLen.symm)] at he
          cases he
        · rename_i block' curBlockLen kdf'' he
          rw [hgen.eq _ (hbuf.trans hblockLen.symm)] at he
          cases he
          rw [dif_pos hassert]
          have hxored : (copyFromIter (· ^^^ ·) output [bufTail moved n]).1 ++
              zipWith (· ^^^ ·)
                (copyFromIter (· ^^^ ·) output [bufTail moved n]).2.1.flatten key =
              zipWith (· ^^^ ·) output.flatten
                ((bufTail moved n).take (min n output.flatten.length) ++ key) := by
            rw [hwritten, hrest]
            exact (zipWith_take_append _ (by rw [length_bufTail, min_eq_left hmovedLe]) key).symm
          rw [← hmoved, bind_ok hloop, ← hxored]
      · have hgenerated := Served.generateBlock hgen (hbuf.trans hblockLen.symm)
        rw [hblockLen, ← hmoved] at hgenerated
        exact hgenerated.trans hdrained

theorem Served.wipeConsumed {buf : List Byte} {rem blockLen : Nat}
    (h : Served law kdf buf rem key kdf' buf' rem') (hbuf : buf'.length = blockLen ∨ buf' = []) :
    Served law kdf buf rem key kdf' (wipeConsumed buf' blockLen rem') rem' := by
  rw [FixedBlockKdf.wipeConsumed]
  split
  · exact h
  · rename_i hne
    have hlen := hbuf.resolve_right hne
    have hle := h.rem_le
    have hwiped : (replicate (blockLen - rem') (0 : Byte) ++
        buf'.drop (blockLen - rem')).length = buf'.length := by
      rw [length_append, length_replicate, length_drop]
      omega
    have htail : bufTail (replicate (blockLen - rem') (0 : Byte) ++
        buf'.drop (blockLen - rem')) rem' = bufTail buf' rem' := by
      rw [bufTail, hwiped, bufTail, hlen, List.drop_left' length_replicate]
    refine ⟨h.inv, h.blockLen, h.remaining, h.safe, hwiped.trans h.buf_length, ?_, ?_⟩
    · rwa [hwiped]
    · rw [htail]
      exact h.delivers

theorem dvd_length_copyFromIter_nil {γ : Type} (combine : Byte → Byte → γ)
    {src : List (List Byte)} (h : ∀ s ∈ slices, d ∣ s.length) (hsrc : src.flatten = []) :
    ∀ s ∈ (copyFromIter combine slices src).2.1, d ∣ s.length := by
  have hzero := (nextSliceLen_eq_zero src).mpr hsrc
  have hnone := fun n => (nextSlice_none n src).mpr hsrc
  rw [copyFromIter]
  split
  · simp
  · rename_i slice rest hd
    split
    · refine dvd_length_nextSlice h hd ?_
      rw [length_nextSlice hd, hzero, Nat.min_zero, Nat.zero_min]
      exact dvd_zero d
    · rename_i hs
      rw [hnone] at hs
      cases hs

theorem tooBig_iff {kdf : κ} {rem : Nat} {output : List (List Byte)} (hinv : law.Inv kdf) :
    tooBig bk kdf rem output = true ↔ law.remaining kdf + rem < output.flatten.length := by
  rw [tooBig, law.maxRemainingLen_eq kdf hinv]
  rw [decide_eq_true_eq, totalLen_eq]

section TooBig

variable {kdf : κ} {rem : Nat} {output : List (List Byte)} (hinv : law.Inv kdf)
  (h : law.remaining kdf + rem < totalLen output) (buf : List Byte)

include hinv h

theorem generateChunkImpl_tooBig : generateChunkImpl bk kdf output buf rem = fail .requestTooBig := by
  rw [totalLen_eq, ← tooBig_iff hinv] at h
  rw [generateChunkImpl, failIf_pos h]
  rfl

theorem generateAndXorChunkImpl_tooBig :
    generateAndXorChunkImpl bk kdf output buf rem = fail .requestTooBig := by
  rw [totalLen_eq, ← tooBig_iff hinv] at h
  rw [generateAndXorChunkImpl, failIf_pos h]
  rfl

end TooBig

theorem generateChunkImpl_served {kdf : κ} {buf : List Byte} {rem : Nat}
    {output : List (List Byte)} (hinv : law.Inv kdf)
    (hbuf : buf.length = bk.blockLen kdf ∨ buf = [] ∧ ∀ s ∈ output, bk.blockLen kdf ∣ s.length)
    (hrem : rem ≤ buf.length) (hsafe : output.flatten.length ≤ law.safe kdf + rem)
    (hfits : ShortBlockFits bk (law.remaining kdf) kdf rem output) :
    ∃ key kdf' buf' rem', generateChunkImpl bk kdf output buf rem = .ok (key, kdf', buf', rem') ∧
      key.length = output.flatten.length ∧ Served law kdf buf rem key kdf' buf' rem' := by
  have htail : (bufTail buf rem).length = rem := by
    rw [length_bufTail, min_eq_left hrem]
  have hsafeLe := law.safe_le kdf
  obtain ⟨hwritten, hrest, hcount⟩ := copyFromTail_eq copy output hrem
  obtain ⟨hrestLen, hleft⟩ := leftover hrest
  rw [← hcount] at hleft
  have hbuf₁ : buf.length = bk.blockLen kdf ∨
      ∀ s ∈ (copyFromIter copy output [bufTail buf rem]).2.1, bk.blockLen kdf ∣ s.length := by
    refine hbuf.imp_right fun ⟨hnil, hdvd⟩ => dvd_length_copyFromIter_nil copy hdvd ?_
    rw [hnil, bufTail, List.drop_nil]
    rfl
  have hfits₁ : ShortBlockFits bk (law.remaining kdf) kdf 0
      (copyFromIter copy output [bufTail buf rem]).2.1 := by
    refine hfits.imp_right fun h => ?_
    have hflat : [bufTail buf rem].flatten.length = rem := by
      rw [flatten_singleton, htail]
    have := h.copyFromIter copy [bufTail buf rem] (by omega)
    rwa [hflat, Nat.add_sub_cancel_left, ← zero_add (shortBlockPos bk _ kdf)] at this
  obtain ⟨key, kdf', buf', rem', hloop, hkey, hserved⟩ :=
    @chunkLoop_served κ bk law ⟨bk.blockLen kdf, bk.blockLen_pos kdf⟩ kdf buf
      (rem - (copyFromIter copy output [bufTail buf rem]).1.length) _ hinv rfl hbuf₁
      (by omega) hleft (by omega) hfits₁
  rw [hcount] at hserved
  obtain ⟨hkey, hdrained⟩ := hserved.drained hinv hrem (hkey.trans hrestLen)
  have hbuf₂ : buf'.length = bk.blockLen kdf ∨ buf' = [] := by
    have := hserved.buf_length
    refine hbuf.imp (fun h => this.trans h) fun h => ?_
    rwa [h.1, length_nil, List.length_eq_zero_iff] at this
  refine ⟨_, kdf', wipeConsumed buf' (bk.blockLen kdf) rem', rem', ?_, hkey,
    hdrained.wipeConsumed hbuf₂⟩
  have hcopy : copy = fun _ b => b := rfl
  rw [hcopy, zipWith_snd, List.take_eq_take_min, htail, Nat.min_comm, ← hcopy] at hwritten
  have hfit : ¬tooBig bk kdf rem output = true := by
    rw [tooBig_iff hinv]
    omega
  rw [generateChunkImpl, failIf_neg hfit, ← hwritten,
    bind_ok (debugAssert_pos (hleft.imp_right (SliceCursors.isEmpty_iff _).mpr)), bind_ok hloop]
  rfl

theorem generateAndXorChunkImpl_served {kdf : κ} {buf : List Byte} {rem : Nat}
    {output : List (List Byte)} (hinv : law.Inv kdf) (hbuf : buf.length = bk.blockLen kdf)
    (hrem : rem ≤ buf.length) (hsafe : output.flatten.length ≤ law.safe kdf + rem) :
    ∃ key kdf' buf' rem', generateAndXorChunkImpl bk kdf output buf rem =
        .ok (zipWith (· ^^^ ·) output.flatten key, kdf', buf', rem') ∧
      key.length = output.flatten.length ∧ Served law kdf buf rem key kdf' buf' rem' := by
  have hsafeLe := law.safe_le kdf
  obtain ⟨hwritten, hrest, hcount⟩ := copyFromTail_eq (· ^^^ ·) output hrem
  obtain ⟨hrestLen, hleft⟩ := leftover hrest
  rw [← hcount] at hleft
  obtain ⟨key, kdf', buf', rem', hloop, hkey, hserved⟩ :=
    @xorChunkLoop_served κ bk law ⟨bk.blockLen kdf, bk.blockLen_pos kdf⟩ kdf buf
      (rem - (copyFromIter (· ^^^ ·) output [bufTail buf rem]).1.length) _ hinv rfl hbuf
      (by omega) hleft (by omega)
  rw [hcount] at hserved
  obtain ⟨hkey, hdrained⟩ := hserved.drained hinv hrem (hkey.trans hrestLen)
  have hbuf' := hserved.buf_length.trans hbuf
  have hne : buf' ≠ [] := by
    have := bk.blockLen_pos kdf
    rw [← List.length_pos_iff]
    omega
  have hwiped := hdrained.wipeConsumed (.inl hbuf')
  rw [wipeConsumed, if_neg hne] at hwiped
  refine ⟨_, _, _, _, ?_, hkey, hwiped⟩
  have hfit : ¬tooBig bk kdf rem output = true := by
    rw [tooBig_iff hinv]
    omega
  rw [generateAndXorChunkImpl, failIf_neg hfit,
    zipWith_take_append _ (by rw [length_bufTail, min_eq_left hrem]) key, ← hwritten, ← hrest,
    bind_ok rfl, bind_ok (debugAssert_pos (hleft.imp_right (SliceCursors.isEmpty_iff _).mpr)),
    bind_ok hloop]

/-- With nothing left over before, what has been delivered is the front of the blocks generated. -/
theorem Served.stream {buf : List Byte} (h : Served law kdf buf 0 key kdf' buf' rem') :
    ∃ n, blocks bk n kdf = some (key ++ bufTail buf' rem', kdf') := by
  obtain ⟨bs, ⟨n, hn⟩, heq⟩ := h.delivers
  rw [bufTail, Nat.sub_zero, drop_of_length_le (le_refl _), nil_append] at heq
  exact ⟨n, heq ▸ hn⟩

end CocoonFs.FixedBlockKdfRuns
