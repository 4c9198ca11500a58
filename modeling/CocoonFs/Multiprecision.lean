import CocoonFs.BigEndian

namespace CocoonFs.Multiprecision

open Codes BigEndian Nat

inductive CryptoError where
  | memoryAllocationFailure
  | internal
  | bufferStateIndeterminate
  | rngFailure
  | insufficientSeedLength
  | randomSamplingRetriesExceeded
  | requestTooBig
  | noKey
  | keySize
  | keyBinding
  | signatureVerificationFailure
  | unsupportedSecurityStrength
  | unsupportedParams
  | unspecifiedFailure
  | invalidParams
  | invalidIV
  | invalidMessageLength
  | invalidPadding
  | invalidPoint
  | invalidResult
  deriving DecidableEq, Repr

inductive Fault where
  | panic
  | error (e : CryptoError)
  deriving DecidableEq, Repr

abbrev Crypto (α : Type) := Except Fault α

variable {α β : Type}

def fail (e : CryptoError) : Crypto α := .error (.error e)

def failIf (c : Prop) [Decidable c] (e : CryptoError) : Crypto Unit :=
  if c then fail e else .ok ()

def debugAssert (c : Prop) [Decidable c] : Crypto Unit :=
  if c then .ok () else .error .panic

variable {m : Crypto α}

theorem bind_ok {a : α} (h : m = .ok a) (f : α → Crypto β) : (m >>= f) = f a := by
  rw [h]
  rfl

theorem bind_error {e : Fault} (h : m = .error e) (f : α → Crypto β) :
    (m >>= f) = .error e := by
  rw [h]
  rfl

theorem ok_of_bind {f : α → Crypto β} {b : β} (h : (m >>= f) = .ok b) :
    ∃ a, m = .ok a ∧ f a = .ok b := by
  cases m with
  | error e => cases h
  | ok a => exact ⟨a, rfl, h⟩

variable {c : Prop}

theorem failIf_pos [Decidable c] (h : c) (e : CryptoError) : failIf c e = fail e :=
  if_pos h

theorem failIf_neg [Decidable c] (h : ¬c) (e : CryptoError) : failIf c e = .ok () :=
  if_neg h

variable {e : CryptoError}

theorem not_of_failIf [Decidable c] {u : Unit} (h : failIf c e = .ok u) : ¬c := by
  intro hc
  rw [failIf_pos hc] at h
  cases h

theorem failIf_eq_ok_iff [Decidable c] :
    failIf c e = .ok () ↔ ¬c :=
  ⟨not_of_failIf, fun h => failIf_neg h e⟩

theorem failIf_bind_iff [Decidable c] {f : Unit → Crypto β} {b : β} :
    (failIf c e >>= f) = .ok b ↔ ¬c ∧ f () = .ok b := by
  constructor
  · intro h
    obtain ⟨u, hu, h⟩ := ok_of_bind h
    exact ⟨not_of_failIf hu, h⟩
  · rintro ⟨hc, h⟩
    rw [bind_ok (failIf_neg hc e), h]

theorem debugAssert_pos [Decidable c] (h : c) : debugAssert c = .ok () := if_pos h

theorem of_debugAssert [Decidable c] {u : Unit} (h : debugAssert c = .ok u) : c := by
  by_contra hc
  rw [debugAssert, if_neg hc] at h
  cases h

@[ext] structure Mp where
  len : Nat
  value : Nat
  fits : value < 256 ^ len

namespace Mp

def trunc (len n : Nat) : Mp := ⟨len, n % 256 ^ len, Nat.mod_lt _ (Nat.pow_pos (by decide))⟩

@[simp] theorem len_trunc (len n : Nat) : (trunc len n).len = len := rfl

theorem value_trunc {len n : Nat} (h : n < 256 ^ len) : (trunc len n).value = n :=
  mod_eq_of_lt h

theorem trunc_add_pow (len n : Nat) : trunc len (n + 256 ^ len) = trunc len n := by
  ext
  · rfl
  · exact add_mod_right _ _

theorem trunc_value_add (len m n : Nat) :
    trunc len ((trunc len m).value + n) = trunc len (m + n) := by
  ext
  · rfl
  · exact mod_add_mod _ _ _

variable {m : Mp}

theorem trunc_eq {n : Nat} (h : n = m.value) : trunc m.len n = m := by
  ext
  · rfl
  · rw [h, value_trunc m.fits]

def zero (len : Nat) : Mp := trunc len 0

@[simp] theorem len_zero (len : Nat) : (zero len).len = len := rfl

def ofBytes (bs : List Byte) : Mp := ⟨bs.length, BigEndian.value bs, value_lt bs⟩

@[simp] theorem len_ofBytes (bs : List Byte) : (ofBytes bs).len = bs.length := rfl

@[simp] theorem value_ofBytes (bs : List Byte) : (ofBytes bs).value = BigEndian.value bs := rfl

def toBytes (m : Mp) : List Byte := bytes m.len m.value

/-- `copy_from()`, which overwrites the destination as a whole. -/
def copyFrom (dst src : Mp) : Crypto Mp := do
  debugAssert (src.value < 256 ^ dst.len)
  .ok (trunc dst.len src.value)

theorem copyFrom_eq {dst src : Mp} (h : src.value < 256 ^ dst.len) :
    dst.copyFrom src = .ok (trunc dst.len src.value) := by
  rw [copyFrom, bind_ok (debugAssert_pos h)]

theorem eq_of_copyFrom {dst src : Mp} (h : dst.copyFrom src = .ok m) :
    m.len = dst.len ∧ m.value = src.value := by
  obtain ⟨u, hu, h⟩ := ok_of_bind h
  cases h
  exact ⟨rfl, value_trunc (of_debugAssert hu)⟩

theorem value_mod_trunc (m : Mp) (n : Nat) : (trunc m.len (m.value % n)).value = m.value % n :=
  value_trunc (lt_of_le_of_lt (mod_le _ _) m.fits)

theorem lt_of_le {len : Nat} (h : m.len ≤ len) : m.value < 256 ^ len :=
  lt_of_lt_of_le m.fits (Nat.pow_le_pow_right (by decide) h)

end Mp

inductive CtExpModOddMpMpError where
  | invalidModulus
  | inconsistentOperandLengths
  | insufficientResultSpace
  | insufficientScratchSpace

inductive CtInvModMpMpError where
  | operandsNotCoprime
  | invalidModulus
  | inconsistentOperandLengths
  | insufficientResultSpace
  | insufficientScratchSpace

/-- The operations of the multiprecision library on its integers, with what it documents of
them. All of them work in place, the outcome having the first operand's length. -/
structure Cmpa where
  limbLen : Nat
  limbLen_pos : 0 < limbLen
  ctAddMpMp : Mp → Mp → Mp
  ctAddMpMp_eq : ∀ op0 op1, op1.value < 256 ^ op0.len →
    ctAddMpMp op0 op1 = Mp.trunc op0.len (op0.value + op1.value)
  ctAddMpL : Mp → Nat → Mp
  ctAddMpL_eq : ∀ op0 op1, op1 < 256 ^ limbLen → op1 < 256 ^ op0.len →
    ctAddMpL op0 op1 = Mp.trunc op0.len (op0.value + op1)
  ctIsZeroMp : Mp → Bool
  ctIsZeroMp_eq : ∀ op0, ctIsZeroMp op0 = decide (op0.value = 0)
  /-- The difference wraps around, with the borrow being returned alongside. -/
  ctSubMpMp : Mp → Mp → Mp × Bool
  ctSubMpMp_eq : ∀ op0 op1, op1.value < 256 ^ op0.len → ctSubMpMp op0 op1 =
    (Mp.trunc op0.len (op0.value + (256 ^ op0.len - op1.value)), decide (op0.value < op1.value))
  ctNegateMp : Mp → Mp
  ctNegateMp_eq : ∀ op0, ctNegateMp op0 = Mp.trunc op0.len (256 ^ op0.len - op0.value)
  /-- The first operand is given by its lowest bytes, as many as the second argument says. -/
  ctMulTruncMpMp : Mp → Nat → Mp → Mp
  ctMulTruncMpMp_eq : ∀ op0 op0InLen op1, op0InLen ≤ op0.len → op0.value < 256 ^ op0InLen →
    ctMulTruncMpMp op0 op0InLen op1 = Mp.trunc op0.len (op0.value * op1.value)
  ctModMpMp : Mp → Mp → Mp
  ctModMpMp_eq : ∀ op0 divisor, divisor.value ≠ 0 →
    ctModMpMp op0 divisor = Mp.trunc op0.len (op0.value % divisor.value)
  /-- The remainder together with the quotient, in a buffer of the length given. -/
  ctDivMpMp : Mp → Mp → Nat → Option (Mp × Mp)
  ctDivMpMp_eq : ∀ u v len r q, v.value ≠ 0 → ctDivMpMp u v len = some (r, q) →
    r.value = u.value % v.value ∧ q.value = u.value / v.value ∧ q.len = len
  /-- The inverse of the operand, with scratch buffers of the lengths given. -/
  ctInvModMpMp : Mp → Mp → List Nat → Except CtInvModMpMpError Mp
  ctInvModMpMp_eq : ∀ op0 n scratch r, ctInvModMpMp op0 n scratch = .ok r →
    r.value < n.value ∧ r.value * op0.value ≡ 1 [MOD n.value]
  /-- The same for odd moduli, with the result in a buffer of its own. -/
  ctInvModOddMpMp : Nat → Mp → Mp → List Nat → Except CtInvModMpMpError Mp
  ctInvModOddMpMp_eq : ∀ len op0 n scratch r, ctInvModOddMpMp len op0 n scratch = .ok r →
    r.value < n.value ∧ r.value * op0.value ≡ 1 [MOD n.value]
  /-- The power of the base, in a buffer of the length given. -/
  ctExpModOddMpMp : Nat → Mp → Mp → Mp → Nat → Nat → Except CtExpModOddMpMpError Mp
  ctExpModOddMpMp_eq : ∀ len base n exponent exponentNbits scratch, n.value % 2 = 1 → 1 < n.value →
    base.value < n.value → (base.len + limbLen - 1) / limbLen = (n.len + limbLen - 1) / limbLen →
    n.len ≤ len → n.len ≤ scratch → exponent.value < 2 ^ exponentNbits →
    ctExpModOddMpMp len base n exponent exponentNbits scratch =
      .ok (Mp.trunc len (base.value ^ exponent.value % n.value))

namespace Cmpa

variable (cmpa : Cmpa)

def nlimbsForLen (len : Nat) : Nat := (len + cmpa.limbLen - 1) / cmpa.limbLen

/-- The length of the buffer of limbs for an integer of so many bytes. -/
def limbsLen (len : Nat) : Nat := cmpa.nlimbsForLen len * cmpa.limbLen

theorem le_limbsLen (len : Nat) : len ≤ cmpa.limbsLen len := by
  have hpos := cmpa.limbLen_pos
  have hlt := lt_mul_div_succ (len + cmpa.limbLen - 1) hpos
  rw [limbsLen, nlimbsForLen, mul_comm]
  rw [mul_succ] at hlt
  omega

variable {len : Nat}

theorem limbsLen_mono {len' : Nat} (h : len ≤ len') : cmpa.limbsLen len ≤ cmpa.limbsLen len' := by
  refine Nat.mul_le_mul_right _ (Nat.div_le_div_right ?_)
  exact Nat.sub_le_sub_right (Nat.add_le_add_right h _) 1

theorem nlimbsForLen_limbsLen (len : Nat) :
    cmpa.nlimbsForLen (cmpa.limbsLen len) = cmpa.nlimbsForLen len := by
  have hpos := cmpa.limbLen_pos
  have hsum : cmpa.nlimbsForLen len * cmpa.limbLen + cmpa.limbLen - 1 =
      cmpa.limbLen - 1 + cmpa.nlimbsForLen len * cmpa.limbLen := by omega
  conv_lhs => rw [nlimbsForLen, limbsLen, hsum, add_mul_div_right _ _ hpos,
    div_eq_of_lt (sub_lt hpos one_pos), zero_add]

theorem limbsLen_limbsLen (len : Nat) : cmpa.limbsLen (cmpa.limbsLen len) = cmpa.limbsLen len := by
  rw [limbsLen, nlimbsForLen_limbsLen, limbsLen]

/-- `shrink_to()`, the view of the lowest limbs. -/
def shrinkTo (m : Mp) (len : Nat) : Crypto Mp := do
  debugAssert (cmpa.limbsLen len ≤ m.len)
  .ok (Mp.trunc (cmpa.limbsLen len) m.value)

theorem shrinkTo_eq {m : Mp} (h : cmpa.limbsLen len ≤ m.len) :
    cmpa.shrinkTo m len = .ok (Mp.trunc (cmpa.limbsLen len) m.value) := by
  rw [shrinkTo, bind_ok (debugAssert_pos h)]

/-- The conditional operations take the same time whether they do anything or not. -/
def ctNegateCondMp (op0 : Mp) (cond : Bool) : Mp := if cond then cmpa.ctNegateMp op0 else op0

def ctAddCondMpMp (op0 op1 : Mp) (cond : Bool) : Mp := if cond then cmpa.ctAddMpMp op0 op1 else op0

/-- The extended Euclidean algorithm, keeping track of the one coefficient only. -/
def euclid : Nat → Nat → Nat → Int → Int → Int
  | 0, _, _, s, _ => s
  | fuel + 1, r, r', s, s' =>
    if r' = 0 then s else euclid fuel r' (r % r') s' (s - (r / r' : Nat) * s')

def inverse (a n : Nat) : Except CtInvModMpMpError Nat :=
  let r := (euclid (2 * n.log2 + 4) a n 1 0 % n).toNat
  if r < n ∧ r * a ≡ 1 [MOD n] then .ok r else .error .operandsNotCoprime

theorem of_inverse {a n r : Nat} (h : inverse a n = .ok r) : r < n ∧ r * a ≡ 1 [MOD n] := by
  rw [inverse] at h
  split at h
  · cases h
    assumption
  · cases h

theorem value_of_inverse {a n : Nat} (hn : n ≤ 256 ^ len) {r : Mp}
    (h : (inverse a n).map (Mp.trunc len) = .ok r) : r.value < n ∧ r.value * a ≡ 1 [MOD n] := by
  cases hinv : inverse a n with
  | error e =>
    rw [hinv] at h
    cases h
  | ok r' =>
    rw [hinv] at h
    cases h
    rw [Mp.value_trunc (lt_of_lt_of_le (of_inverse hinv).1 hn)]
    exact of_inverse hinv

def reference : Cmpa where
  limbLen := 8
  limbLen_pos := Nat.succ_pos 7
  ctAddMpMp op0 op1 := Mp.trunc op0.len (op0.value + op1.value)
  ctAddMpMp_eq := fun _ _ _ => rfl
  ctAddMpL op0 op1 := Mp.trunc op0.len (op0.value + op1)
  ctAddMpL_eq := fun _ _ _ _ => rfl
  ctIsZeroMp op0 := decide (op0.value = 0)
  ctIsZeroMp_eq := fun _ => rfl
  ctSubMpMp op0 op1 :=
    (Mp.trunc op0.len (op0.value + (256 ^ op0.len - op1.value)), decide (op0.value < op1.value))
  ctSubMpMp_eq := fun _ _ _ => rfl
  ctNegateMp op0 := Mp.trunc op0.len (256 ^ op0.len - op0.value)
  ctNegateMp_eq := fun _ => rfl
  ctMulTruncMpMp op0 _ op1 := Mp.trunc op0.len (op0.value * op1.value)
  ctMulTruncMpMp_eq := fun _ _ _ _ _ => rfl
  ctModMpMp op0 divisor := Mp.trunc op0.len (op0.value % divisor.value)
  ctModMpMp_eq := fun _ _ _ => rfl
  ctDivMpMp u v len := if u.value / v.value < 256 ^ len then
    some (Mp.trunc u.len (u.value % v.value), Mp.trunc len (u.value / v.value)) else none
  ctDivMpMp_eq := by
    intro u v len r q _ h
    split at h
    · rename_i hq
      cases h
      exact ⟨Mp.value_trunc (Nat.lt_of_le_of_lt (Nat.mod_le _ _) u.fits), Mp.value_trunc hq, rfl⟩
    · cases h
  ctInvModMpMp op0 n _ := (inverse op0.value n.value).map (Mp.trunc n.len)
  ctInvModMpMp_eq := fun _ n _ _ h => value_of_inverse n.fits.le h
  ctInvModOddMpMp _ op0 n _ := (inverse op0.value n.value).map (Mp.trunc n.len)
  ctInvModOddMpMp_eq := fun _ _ n _ _ h => value_of_inverse n.fits.le h
  ctExpModOddMpMp len base n exponent _ _ :=
    .ok (Mp.trunc len (base.value ^ exponent.value % n.value))
  ctExpModOddMpMp_eq := fun _ _ _ _ _ _ _ _ _ _ _ _ _ => rfl

end Cmpa

end CocoonFs.Multiprecision
