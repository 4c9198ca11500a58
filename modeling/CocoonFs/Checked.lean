import Mathlib.Algebra.Group.Nat.Defs
import Mathlib.Data.Nat.Log
import Mathlib.Tactic.Common

namespace CocoonFs.Checked

/-- How the code has been compiled: overflow checks and debug assertions are
both on or both off. -/
inductive Profile where
  | debug
  | release
  deriving DecidableEq, Repr

inductive Panic where
  | overflow
  | divByZero
  | debugAssert
  | indexOutOfBounds
  | unwrapNone
  | nonPositiveLog
  | unreachable
  | allocFailure
  | outOfFuel
  deriving DecidableEq, Repr

inductive FormatError where
  | invalidImageSize
  | invalidAuthTreeConfig
  | unsupportedAuthTreeConfig
  | unalignedAuthTreeExtents
  | invalidAuthTreeDimensions
  | invalidAllocationBitmapFileConfig
  | invalidAllocationBitmapFileSize
  | unalignedAllocationBitmapFileExtents
  | inconsistentAllocBitmapFileExtents
  | blockOutOfRange
  | invalidExtents
  | invalidIndexConfig
  | invalidIndexNode
  | invalidIndexRootExtents
  | specialInodeMissing
  | invalidJournalApplyWritesScriptEntry
  | invalidJournalApplyWritesScriptFormat
  | invalidJournalTrimsScriptEntry
  | invalidJournalTrimsScriptFormat
  | invalidJournalUpdateAuthDigestsScriptEntry
  | invalidJournalUpdateAuthDigestsScriptFormat
  | invalidJournalExtentsCoveringAuthDigestsEntry
  | invalidJournalExtentsCoveringAuthDigestsFormat
  | excessJournalLogFieldLength
  | incompleteJournalLog
  | invalidImageLayoutConfig
  | invalidJournalLogFieldLengthEncoding
  | invalidJournalLogFieldTag
  | invalidJournalLogFieldTagEncoding
  | journalLogFieldLengthOutOfBounds
  | journalLogFieldLengthOverflow
  | unalignedJournalExtents
  | unexpectedJournalLogField
  | unsupportedCryptoAlgorithm
  | invalidImageHeader
  | ioBlockSizeNotSupportedByDevice
  | inconsistentBackupMkFsInfoHeader
  | invalidPadding
  | unsupportedImageLayoutConfig
  deriving DecidableEq, Repr

inductive NvFsError where
  | internal
  | memoryAllocationFailure
  | dimensionsNotSupported
  | noSpace
  | ioErrorRegionOutOfRange
  | authenticationFailure
  | fsFormatError (e : FormatError)
  deriving DecidableEq, Repr

/-- Why a computation did not return: it panicked or it returned an error. -/
inductive Stop where
  | panic (p : Panic)
  | err (e : NvFsError)
  deriving DecidableEq, Repr

abbrev Comp := Except Stop

variable {α β : Type}

def panic (p : Panic) : Comp α := .error (.panic p)

def err (e : NvFsError) : Comp α := .error (.err e)

def formatErr (e : FormatError) : Comp α := err (.fsFormatError e)

/-- An arithmetic result that overflowed panics only with overflow checks. -/
def wrapping (pr : Profile) (wrapped : Nat) : Comp Nat :=
  match pr with
  | .debug => panic .overflow
  | .release => .ok wrapped

def addU64 (pr : Profile) (a b : Nat) : Comp Nat :=
  if a + b < 2 ^ 64 then .ok (a + b) else wrapping pr ((a + b) % 2 ^ 64)

def subU64 (pr : Profile) (a b : Nat) : Comp Nat :=
  if b ≤ a then .ok (a - b) else wrapping pr ((a + 2 ^ 64 - b) % 2 ^ 64)

def mulU64 (pr : Profile) (a b : Nat) : Comp Nat :=
  if a * b < 2 ^ 64 then .ok (a * b) else wrapping pr (a * b % 2 ^ 64)

/-- Bits shifted out are lost without a check, only the amount is checked. -/
def shlU64 (pr : Profile) (a n : Nat) : Comp Nat :=
  if n < 64 then .ok (a * 2 ^ n % 2 ^ 64) else wrapping pr (a * 2 ^ (n % 64) % 2 ^ 64)

def shrU64 (pr : Profile) (a n : Nat) : Comp Nat :=
  if n < 64 then .ok (a / 2 ^ n) else wrapping pr (a / 2 ^ (n % 64))

def divU64 (a b : Nat) : Comp Nat :=
  if b = 0 then panic .divByZero else .ok (a / b)

def remU64 (a b : Nat) : Comp Nat :=
  if b = 0 then panic .divByZero else .ok (a % b)

/-- The block index and count types unwrap checked operations in either profile. -/
def checkedAdd (a b : Nat) : Comp Nat :=
  if a + b < 2 ^ 64 then .ok (a + b) else panic .unwrapNone

def checkedSub (a b : Nat) : Comp Nat :=
  if b ≤ a then .ok (a - b) else panic .unwrapNone

def divCeil (a b : Nat) : Nat := (a + b - 1) / b

def debugAssert (pr : Profile) (p : Prop) [Decidable p] : Comp Unit :=
  match pr with
  | .debug => if p then .ok () else panic .debugAssert
  | .release => .ok ()

def index (xs : List α) (i : Nat) : Comp α :=
  match xs[i]? with
  | some x => .ok x
  | none => panic .indexOutOfBounds

@[simp] theorem ok_bind (a : α) (f : α → Comp β) : (Except.ok a >>= f : Comp β) = f a := rfl

@[simp] theorem pure_eq_ok (a : α) : (pure a : Comp α) = Except.ok a := rfl

variable {x : Comp α}

theorem bind_eq_ok {f : α → Comp β} {b : β} (h : (x >>= f) = .ok b) :
    ∃ a, x = .ok a ∧ f a = .ok b := by
  cases x with
  | error e => cases h
  | ok a => exact ⟨a, rfl, h⟩

variable {p : Prop} {a b n : Nat}

theorem of_ite_err [Decidable p] {e : NvFsError} {a : α}
    (h : (if p then err e else x) = .ok a) : ¬p ∧ x = .ok a := by
  split at h
  · cases h
  next hp => exact ⟨hp, h⟩

theorem exists_ok_of_isOk (h : x.isOk = true) : ∃ a, x = .ok a := by
  cases x with
  | error e => cases h
  | ok a => exact ⟨a, rfl⟩

theorem addU64_ok (pr : Profile) (h : a + b < 2 ^ 64) : addU64 pr a b = .ok (a + b) :=
  if_pos h

theorem subU64_ok (pr : Profile) (h : b ≤ a) : subU64 pr a b = .ok (a - b) :=
  if_pos h

theorem mulU64_ok (pr : Profile) (h : a * b < 2 ^ 64) : mulU64 pr a b = .ok (a * b) :=
  if_pos h

theorem shlU64_ok (pr : Profile) (hn : n < 64) (h : a * 2 ^ n < 2 ^ 64) :
    shlU64 pr a n = .ok (a * 2 ^ n) := by
  rw [shlU64, if_pos hn, Nat.mod_eq_of_lt h]

theorem shrU64_ok (pr : Profile) (hn : n < 64) : shrU64 pr a n = .ok (a / 2 ^ n) :=
  if_pos hn

theorem divU64_ok (h : b ≠ 0) : divU64 a b = .ok (a / b) := if_neg h

theorem remU64_ok (h : b ≠ 0) : remU64 a b = .ok (a % b) := if_neg h

theorem checkedAdd_ok (h : a + b < 2 ^ 64) : checkedAdd a b = .ok (a + b) := if_pos h

theorem checkedSub_ok (h : b ≤ a) : checkedSub a b = .ok (a - b) := if_pos h

theorem debugAssert_ok (pr : Profile) [Decidable p] (h : p) :
    debugAssert pr p = .ok () := by
  cases pr with
  | debug => exact if_pos h
  | release => rfl

theorem of_debugAssert [Decidable p] {u : Unit} (h : debugAssert .debug p = .ok u) : p := by
  by_contra hp
  rw [debugAssert, if_neg hp] at h
  cases h

theorem index_ok {xs : List α} {i : Nat} {x : α} (h : xs[i]? = some x) : index xs i = .ok x := by
  rw [index, h]

theorem divCeil_le_iff (hb : 0 < b) : divCeil a b ≤ n ↔ a ≤ b * n := by
  rw [divCeil, Nat.div_le_iff_le_mul_add_pred hb]
  omega

theorem le_divCeil_mul {x m : Nat} (hm : 0 < m) : x ≤ divCeil x m * m ∧ divCeil x m * m < x + m := by
  have hsplit := Nat.div_add_mod' (x + m - 1) m
  have hmod := Nat.mod_lt (x + m - 1) hm
  rw [divCeil]
  omega

theorem eq_divCeil {v q rest x : Nat} (hrest : rest < v) (h : q * v + rest = x) :
    (if rest ≠ 0 then q + 1 else q) = divCeil x v := by
  rw [divCeil]
  split
  · rw [eq_comm, Nat.div_eq_iff (by omega)]
    constructor
    · rw [Nat.succ_mul]
      omega
    · rw [Nat.succ_mul]
      omega
  · rw [eq_comm, Nat.div_eq_iff (by omega)]
    omega

end CocoonFs.Checked
