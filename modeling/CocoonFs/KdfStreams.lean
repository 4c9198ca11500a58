import CocoonFs.FixedBlockKdfRuns

namespace CocoonFs.KdfStreams

open Codes Multiprecision SliceCursors FixedBlockKdf FixedBlockKdfRuns
open BufferedFixedBlockOutputKdf (generateAndXorChunk generateChunk maxRemainingLen)
open FixedBlockKdf (run)

variable {κ : Type}

/-- What ends up in the slices of a request if it gets a given part of the key stream. -/
def combined (key : List Byte) : Call → List Byte
  | .chunk _ => key
  | .xorChunk output => List.zipWith (· ^^^ ·) output.flatten key

/-- Requests are served one after the other from one key stream. What remains goes down by what is
delivered, and a request for more than remains is refused. -/
inductive Serves (bk : FixedBlockOutputKdf κ) : BufferedFixedBlockOutputKdf κ →
    List (Call × Option (List Byte) × BufferedFixedBlockOutputKdf κ) → List Byte → Prop
  | done (self) : Serves bk self [] []
  | refused {self : BufferedFixedBlockOutputKdf κ} {call : Call} {trace} {key : List Byte} {n : Nat}
      (hremaining : self.maxRemainingLen bk = some n) (hlt : n < totalLen call.output)
      (hrest : Serves bk self trace key) : Serves bk self ((call, none, self) :: trace) key
  | delivered {self self' : BufferedFixedBlockOutputKdf κ} {call : Call} {trace}
      {key keys : List Byte} {n : Nat}
      (hkey : key.length = totalLen call.output)
      (hremaining : self.maxRemainingLen bk = some (n + key.length))
      (hremaining' : self'.maxRemainingLen bk = some n) (hrest : Serves bk self' trace keys) :
      Serves bk self ((call, some (combined key call), self') :: trace) (key ++ keys)

variable {bk : FixedBlockOutputKdf κ} (law : Lawful bk)

/-- The slices of a request, unless it is refused or the key stream is xored to them, hold the
short block at the end in one piece, and the function doesn't lose track of what remains. -/
def Fits (self : BufferedFixedBlockOutputKdf κ) (call : Call) : Prop :=
  law.remaining self.blockKdf + self.blockBufRemainingLen < totalLen call.output ∨
    totalLen call.output ≤ law.safe self.blockKdf + self.blockBufRemainingLen ∧
      match call with
      | .chunk output => ShortBlockFits bk (law.remaining self.blockKdf) self.blockKdf
          self.blockBufRemainingLen output
      | .xorChunk _ => True

def AllFit (self : BufferedFixedBlockOutputKdf κ) : List Call → Prop
  | [] => True
  | call :: calls => Fits law self call ∧
      ∀ written self', call.exec bk self = .ok (written, self') → AllFit self' calls

structure Inv (buffered : BufferedFixedBlockOutputKdf κ) : Prop where
  kdf : law.Inv buffered.blockKdf
  length : buffered.blockBuf.length = bk.blockLen buffered.blockKdf
  rem_le : buffered.blockBufRemainingLen ≤ buffered.blockBuf.length

variable {law} {kdf : κ}

theorem Inv.new (h : law.Inv kdf) : Inv law (.new bk kdf) where
  kdf := h
  length := List.length_replicate
  rem_le := Nat.zero_le _

abbrev ServedBy (law : Lawful bk) (self : BufferedFixedBlockOutputKdf κ) (key : List Byte)
    (self' : BufferedFixedBlockOutputKdf κ) : Prop :=
  FixedBlockKdfRuns.Served law self.blockKdf self.blockBuf self.blockBufRemainingLen key
    self'.blockKdf self'.blockBuf self'.blockBufRemainingLen

variable {self self' : BufferedFixedBlockOutputKdf κ}

theorem Inv.maxRemainingLen_eq (h : Inv law self) : self.maxRemainingLen bk =
    some (law.remaining self.blockKdf + self.blockBufRemainingLen) := by
  rw [maxRemainingLen, law.maxRemainingLen_eq _ h.kdf]
  rfl

theorem Inv.served (h : Inv law self) {key : List Byte} (hserved : ServedBy law self key self') :
    Inv law self' where
  kdf := hserved.inv
  length := by rw [hserved.buf_length, h.length, hserved.blockLen]
  rem_le := hserved.rem_le

theorem Inv.exec (h : Inv law self) {call : Call} (hfits : Fits law self call) :
    (law.remaining self.blockKdf + self.blockBufRemainingLen < totalLen call.output ∧
        call.exec bk self = .ok (none, self)) ∨
      ∃ key self', call.exec bk self = .ok (some (combined key call), self') ∧
        key.length = totalLen call.output ∧ ServedBy law self key self' := by
  rcases hfits with hlt | ⟨hle, hfits⟩
  · refine .inl ⟨hlt, ?_⟩
    cases call with
    | chunk output =>
      rw [Call.output] at hlt
      rw [Call.exec, generateChunk, generateChunkImpl_tooBig h.kdf hlt]
      rfl
    | xorChunk output =>
      rw [Call.output] at hlt
      rw [Call.exec, generateAndXorChunk,
        generateAndXorChunkImpl_tooBig h.kdf hlt]
      rfl
  · right
    rw [totalLen_eq] at hle
    cases call with
    | chunk output =>
      rw [Call.output] at hle
      obtain ⟨key, kdf', buf', rem', hgen, hkey, hserved⟩ :=
        generateChunkImpl_served h.kdf (.inl h.length) h.rem_le hle hfits
      refine ⟨key, ⟨kdf', buf', rem'⟩, ?_, hkey.trans (totalLen_eq _).symm, hserved⟩
      rw [Call.exec, generateChunk, bind_ok hgen]
      rfl
    | xorChunk output =>
      rw [Call.output] at hle
      obtain ⟨key, kdf', buf', rem', hgen, hkey, hserved⟩ :=
        generateAndXorChunkImpl_served h.kdf h.length h.rem_le hle
      refine ⟨key, ⟨kdf', buf', rem'⟩, ?_, hkey.trans (totalLen_eq _).symm, hserved⟩
      rw [Call.exec, generateAndXorChunk, bind_ok hgen]
      rfl

theorem Inv.run (h : Inv law self) {calls : List Call} (hfit : AllFit law self calls) :
    ∃ trace key self', run bk self calls = .ok trace ∧ Serves bk self trace key ∧
      ServedBy law self key self' := by
  induction calls generalizing self with
  | nil => exact ⟨[], [], self, rfl, .done self, .refl h.kdf h.rem_le⟩
  | cons call calls ih =>
    rcases h.exec hfit.1 with ⟨hlt, hexec⟩ | ⟨key, self₁, hexec, hkey, hserved⟩
    · obtain ⟨trace, keys, self', hrun, hserves, hserved⟩ := ih h (hfit.2 _ _ hexec)
      refine ⟨_, keys, self', ?_, .refused h.maxRemainingLen_eq hlt hserves, hserved⟩
      rw [run, bind_ok hexec]
      dsimp only
      rw [bind_ok hrun]
    · have h₁ := h.served hserved
      obtain ⟨trace, keys, self', hrun, hserves, hserved'⟩ := ih h₁ (hfit.2 _ _ hexec)
      have hremaining : self.maxRemainingLen bk = some (law.remaining self₁.blockKdf +
          self₁.blockBufRemainingLen + key.length) := by
        rw [h.maxRemainingLen_eq, hserved.remaining]
      refine ⟨_, key ++ keys, self', ?_,
        .delivered hkey hremaining h₁.maxRemainingLen_eq hserves, hserved.trans hserved'⟩
      rw [run, bind_ok hexec]
      dsimp only
      rw [bind_ok hrun]

variable (bk) in
def FrontOfBlocks (kdf : κ) (key : List Byte) : Prop :=
  ∃ n stream kdf', blocks bk n kdf = some (stream, kdf') ∧ key <+: stream

theorem FrontOfBlocks.of_served {kdf kdf' : κ} {buf buf' key : List Byte} {rem' : Nat}
    (h : FixedBlockKdfRuns.Served law kdf buf 0 key kdf' buf' rem') : FrontOfBlocks bk kdf key := by
  obtain ⟨n, hn⟩ := h.stream
  exact ⟨n, _, _, hn, List.prefix_append _ _⟩

variable (law) in
/-- All of what an instance is asked for comes from the blocks in order, whatever the requests and
their slices. -/
def ServesBlocks (kdf : κ) : Prop :=
  ∀ calls, AllFit law (.new bk kdf) calls → ∃ trace key,
    run bk (.new bk kdf) calls = .ok trace ∧
    Serves bk (.new bk kdf) trace key ∧ FrontOfBlocks bk kdf key

variable (law) in
/-- The same for the functions that don't keep a buffer between requests. -/
def ServesBlocksOnce (kdf : κ) : Prop :=
  ∀ output,
    (law.remaining kdf < totalLen output →
      generate bk kdf (law.remaining kdf) output = fail .requestTooBig ∧
      generateAndXor bk kdf (law.remaining kdf) output = fail .requestTooBig) ∧
    (totalLen output ≤ law.safe kdf →
      (∃ key, generateAndXor bk kdf (law.remaining kdf) output =
          .ok (List.zipWith (· ^^^ ·) output.flatten key) ∧
        key.length = totalLen output ∧ FrontOfBlocks bk kdf key) ∧
      (ShortBlockFits bk (law.remaining kdf) kdf 0 output →
        ∃ key, generate bk kdf (law.remaining kdf) output = .ok key ∧
          key.length = totalLen output ∧ FrontOfBlocks bk kdf key))

theorem servesBlocks (h : law.Inv kdf) : ServesBlocks law kdf := by
  intro calls hfit
  obtain ⟨trace, key, self', hrun, hserves, hserved⟩ := (Inv.new h).run hfit
  exact ⟨trace, key, hrun, hserves, FrontOfBlocks.of_served hserved⟩

theorem length_dvd {divisor : Nat} {slices : List (List Byte)}
    (h : allLengthsMultipleOf divisor slices = true) : ∀ s ∈ slices, divisor ∣ s.length := by
  rw [allLengthsMultipleOf, Bool.and_eq_true, List.all_eq_true] at h
  intro s hs
  exact Nat.dvd_of_mod_eq_zero (by simpa using h.2 s hs)

variable {output : List (List Byte)}

theorem generate_eq (h : law.Inv kdf) (hle : totalLen output ≤ law.safe kdf)
    (hfits : ShortBlockFits bk (law.remaining kdf) kdf 0 output) :
    ∃ key, generate bk kdf (law.remaining kdf) output = .ok key ∧
      key.length = totalLen output ∧ FrontOfBlocks bk kdf key := by
  obtain ⟨bufLen, hbufLen⟩ : ∃ n, n = if allLengthsMultipleOf (bk.blockLen kdf) output
    then 0 else bk.blockLen kdf := ⟨_, rfl⟩
  have hbuf : (List.replicate bufLen (0 : Byte)).length = bk.blockLen kdf ∨
      List.replicate bufLen (0 : Byte) = [] ∧ ∀ s ∈ output, bk.blockLen kdf ∣ s.length := by
    rw [hbufLen]
    split
    · rename_i hall
      exact .inr ⟨rfl, length_dvd hall⟩
    · exact .inl List.length_replicate
  have hsafe := law.safe_le kdf
  rw [totalLen_eq] at hle ⊢
  obtain ⟨key, kdf', buf', rem', hgen, hkey, hserved⟩ :=
    generateChunkImpl_served h hbuf (Nat.zero_le _) hle hfits
  refine ⟨key, ?_, hkey, FrontOfBlocks.of_served hserved⟩
  rw [generate, failIf_neg (by rw [totalLen_eq]; omega)]
  rw [bind_ok rfl, ← hbufLen, bind_ok hgen]

theorem generateAndXor_eq (h : law.Inv kdf) (hle : totalLen output ≤ law.safe kdf) :
    ∃ key, generateAndXor bk kdf (law.remaining kdf) output =
        .ok (List.zipWith (· ^^^ ·) output.flatten key) ∧
      key.length = totalLen output ∧ FrontOfBlocks bk kdf key := by
  have hsafe := law.safe_le kdf
  rw [totalLen_eq] at hle ⊢
  obtain ⟨key, kdf', buf', rem', hgen, hkey, hserved⟩ :=
    generateAndXorChunkImpl_served h List.length_replicate (Nat.zero_le _) hle
  refine ⟨key, ?_, hkey, FrontOfBlocks.of_served hserved⟩
  rw [generateAndXor, failIf_neg (by rw [totalLen_eq]; omega), bind_ok rfl, bind_ok hgen]

theorem servesBlocksOnce (h : law.Inv kdf) : ServesBlocksOnce law kdf := by
  intro output
  refine ⟨fun hlt => ⟨?_, ?_⟩, fun hle => ⟨generateAndXor_eq h hle, generate_eq h hle⟩⟩
  · rw [generate, failIf_pos hlt]
    rfl
  · rw [generateAndXor, failIf_pos hlt]
    rfl

end CocoonFs.KdfStreams
