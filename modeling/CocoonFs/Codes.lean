import Mathlib.Algebra.Group.Nat.Defs
import Mathlib.Data.List.Basic

namespace CocoonFs.Codes

open List

abbrev Byte := BitVec 8

variable {α β γ σ : Type}

/-- On the values satisfying the predicate, the code word at the front of any
string is determined by the string, and so is what follows it. -/
def Delimited (P : α → Prop) (f : α → List β) : Prop :=
  ∀ a b, P a → P b → ∀ r s, f a ++ r = f b ++ s → a = b ∧ r = s

structure Marked (mark : β → Bool) (w : List β) : Prop where
  ne_nil : w ≠ []
  continued : ∀ i b, i + 1 < w.length → w[i]? = some b → mark b = true
  last : ∀ b, w[w.length - 1]? = some b → mark b = false

theorem Marked.length_le {mark : β → Bool} {v w r s : List β} (hv : Marked mark v)
    (hw : Marked mark w) (h : v ++ r = w ++ s) : v.length ≤ w.length := by
  by_contra hlt
  have hpos : 0 < w.length := length_pos_of_ne_nil hw.ne_nil
  obtain ⟨b, hb⟩ : ∃ b, w[w.length - 1]? = some b :=
    ⟨_, getElem?_eq_getElem (by omega)⟩
  have hvb : v[w.length - 1]? = some b := by
    have hvr : (v ++ r)[w.length - 1]? = v[w.length - 1]? := getElem?_append_left (by omega)
    rw [← hvr, h, getElem?_append_left (by omega), hb]
  have ht := hv.continued _ b (by omega) hvb
  rw [hw.last b hb] at ht
  exact absurd ht (by decide)

theorem Marked.eq_of_append_eq {mark : β → Bool} {v w r s : List β} (hv : Marked mark v)
    (hw : Marked mark w) (h : v ++ r = w ++ s) : v = w ∧ r = s :=
  append_inj h (Nat.le_antisymm (hv.length_le hw h) (hw.length_le hv h.symm))

theorem delimited_of_marked {P : α → Prop} {f : α → List β} (mark : β → Bool)
    (hmark : ∀ a, P a → Marked mark (f a)) (hinj : ∀ a b, P a → P b → f a = f b → a = b) :
    Delimited P f := by
  intro a b ha hb r s h
  obtain ⟨hab, hrs⟩ := (hmark a ha).eq_of_append_eq (hmark b hb) h
  exact ⟨hinj a b ha hb hab, hrs⟩

/-- A sequence coded item by item against a running state, closed by a
terminator. -/
def encodeSeq (item : σ → α → List β) (next : σ → α → σ) (stop : List β) : σ → List α → List β
  | _, [] => stop
  | st, x :: xs => item st x ++ encodeSeq item next stop (next st x) xs

theorem delimited_encodeSeq {P : α → Prop} {item : σ → α → List β} {next : σ → α → σ}
    {stop : List β} (I : σ → Prop) (hitem : ∀ st, I st → Delimited P (item st))
    (hnext : ∀ st x, I st → P x → I (next st x))
    (hstop : ∀ st x, I st → P x → ∀ r s, item st x ++ r ≠ stop ++ s) (st : σ) (hst : I st) :
    Delimited (fun xs => ∀ x ∈ xs, P x) (encodeSeq item next stop st) := by
  intro xs
  induction xs generalizing st with
  | nil =>
    intro ys _ hys r s h
    cases ys with
    | nil => exact ⟨rfl, append_cancel_left h⟩
    | cons y ys =>
      rw [encodeSeq, encodeSeq, append_assoc] at h
      exact absurd h.symm (hstop st y hst (hys y (by simp)) _ _)
  | cons x xs ih =>
    intro ys hxs hys r s h
    have hx := hxs x (by simp)
    cases ys with
    | nil =>
      rw [encodeSeq, encodeSeq, append_assoc] at h
      exact absurd h (hstop st x hst hx _ _)
    | cons y ys =>
      have hy := hys y (by simp)
      simp only [encodeSeq, append_assoc] at h
      obtain ⟨rfl, htail⟩ := hitem st hst x y hx hy _ _ h
      obtain ⟨rfl, hrs⟩ := ih (next st x) (hnext st x hst hx) ys
        (fun z hz => hxs z (by simp [hz])) (fun z hz => hys z (by simp [hz])) r s htail
      exact ⟨rfl, hrs⟩

/-- The number a string of bytes stands for, the least significant one first. -/
def leValue : List Byte → Nat
  | [] => 0
  | b :: bs => b.toNat + 2 ^ 8 * leValue bs

theorem leValue_lt (bs : List Byte) : leValue bs < 2 ^ (8 * bs.length) := by
  induction bs with
  | nil => simp [leValue]
  | cons b bs ih =>
    rw [leValue, length_cons, Nat.mul_succ, Nat.pow_add]
    omega

theorem eq_of_leValue_eq {bs cs : List Byte} (hlen : bs.length = cs.length)
    (h : leValue bs = leValue cs) : bs = cs := by
  induction bs generalizing cs with
  | nil => exact (length_eq_zero_iff.mp hlen.symm).symm
  | cons b bs ih =>
    cases cs with
    | nil => cases hlen
    | cons c cs =>
      rw [leValue, leValue] at h
      have hhead : b = c := BitVec.eq_of_toNat_eq (by omega)
      rw [hhead, ih (by simpa using hlen) (by omega)]

end CocoonFs.Codes
