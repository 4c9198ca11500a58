import CocoonFs.Layout
import CocoonFs.Multiprecision
import CocoonFs.Patches

namespace CocoonFs.Masks

open Codes Layout Multiprecision

def xorBytes (data mask : List Byte) : List Byte := List.zipWith (· ^^^ ·) data mask

theorem length_xorBytes {data mask : List Byte} (h : mask.length = data.length) :
    (xorBytes data mask).length = data.length := by
  rw [xorBytes, List.length_zipWith, h, Nat.min_self]

theorem xorBytes_xorBytes {data mask : List Byte} (h : mask.length = data.length) :
    xorBytes (xorBytes data mask) mask = data := by
  induction data generalizing mask with
  | nil => rfl
  | cons b bs ih =>
    cases mask with
    | nil => cases h
    | cons c cs =>
      have htail := ih (Nat.succ.inj h)
      simp only [xorBytes, List.zipWith_cons_cons, List.cons.injEq] at htail ⊢
      exact ⟨by rw [BitVec.xor_assoc, BitVec.xor_self, BitVec.xor_zero], htail⟩

/-- The hash functions, about which only the lengths of their digests matter. -/
structure Hashes where
  digest : TpmiAlgHash → List Byte → List Byte
  length_digest : ∀ alg m, (digest alg m).length = hashAlgDigestLen alg

/-- The mask generation functions, from the seed and the length of the mask. -/
structure MaskGens where
  mask : TpmiAlgHash → List Byte → Nat → List Byte
  length_mask : ∀ alg seed len, (mask alg seed len).length = len

structure Rng (σ : Type) where
  generate : σ → Nat → Crypto (List Byte × σ)
  length_generate : ∀ s len bs s', generate s len = .ok (bs, s') → bs.length = len

def Rng.replaying : Rng (List Byte) where
  generate s len := if len ≤ s.length then .ok (s.take len, s.drop len) else fail .rngFailure
  length_generate := by
    intro s len bs s' h
    split at h
    · rename_i hlen
      cases h
      rw [List.length_take, Nat.min_eq_left hlen]
    · cases h

/-- `LimbChoice::select()`: the second value if the choice is set. -/
def select (choice : Bool) (unset set : Nat) : Nat := if choice then set else unset

end CocoonFs.Masks
