import CocoonFs.IoSliceIterQueries
import CocoonFs.IoSliceIterWalks

namespace CocoonFs.IoSliceIterRuns

open Codes IoSliceIters IoSliceIterSteps IoSliceIterQueries IoSliceIterWalks Remaining

open Iter (Result)

variable {ε : Type}

/-- The calls that succeed one after the other, with the bytes returned from the front and those
returned from the back. From the back there's taken as long as there isn't an error ahead. -/
inductive Run (iter : Iter ε) : List Byte → Iter ε → List Byte → Prop
  | new : Run iter [] iter []
  | nextSlice {fronts backs : List Byte} {iter' iter'' : Iter ε} {maxLen : Option Nat}
      {slice : Option (List Byte)} (run : Run iter fronts iter' backs)
      (h : iter'.nextSlice maxLen = (.ok slice, iter'')) :
      Run iter (fronts ++ slice.getD []) iter'' backs
  | nextBackSlice {fronts backs : List Byte} {iter' iter'' : Iter ε} {maxLen : Option Nat}
      {slice : Option (List Byte)} (run : Run iter fronts iter' backs) (hback : iter'.DoubleEnded)
      (hnone : (remaining iter').error = none)
      (h : iter'.nextBackSlice maxLen hback = (.ok slice, iter'')) :
      Run iter fronts iter'' (slice.getD [] ++ backs)
  | nextSliceLen {fronts backs : List Byte} {iter' iter'' : Iter ε} {len : Nat}
      (run : Run iter fronts iter' backs) (h : iter'.nextSliceLen = (.ok len, iter'')) :
      Run iter fronts iter'' backs

theorem Run.remaining_eq {iter iter' : Iter ε} {fronts backs : List Byte}
    (run : Run iter fronts iter' backs) :
    remaining iter = cons fronts ((remaining iter').append ⟨backs, none⟩) := by
  induction run with
  | new => rw [cons_nil, ← nil, append_nil]
  | @nextSlice fronts backs iter' iter'' maxLen slice run h ih =>
    have htakes := (nextSlice_spec maxLen iter').1
    rw [h] at htakes
    cases slice with
    | none =>
      rw [ih, htakes.1, htakes.2, Option.getD_none, List.append_nil]
    | some slice =>
      rw [ih, htakes, cons_append, cons_cons]
      rfl
  | @nextBackSlice fronts backs iter' iter'' maxLen slice run hback hnone h ih =>
    have htakes := nextBackSlice_spec maxLen iter' hback hnone
    rw [h] at htakes
    cases slice with
    | none => rw [ih, htakes.1, htakes.2, Option.getD_none, List.nil_append]
    | some slice =>
      rw [ih, append_of_none hnone, append_of_none htakes.2, htakes.1, List.append_assoc]
      rfl
  | @nextSliceLen fronts backs iter' iter'' len run h ih =>
    have hspec := nextSliceLen_spec iter'
    rw [h] at hspec
    rw [ih, hspec.1]

structure Denotes (iter : Iter ε) : Prop where
  nextSlice : ∀ maxLen,
    TakesFront (remaining iter) (iter.nextSlice maxLen).1 (remaining (iter.nextSlice maxLen).2)
  nextBackSlice : ∀ maxLen (hback : iter.DoubleEnded), (remaining iter).error = none →
    TakesBack (remaining iter) (iter.nextBackSlice maxLen hback).1
      (remaining (iter.nextBackSlice maxLen hback).2)
  nextSliceLen : ∀ len iter', iter.nextSliceLen = (.ok len, iter') →
    remaining iter' = remaining iter
  isEmpty : RefsTell iter → Tells (remaining iter) iter.isEmpty.1 (remaining iter.isEmpty.2)
  totalLen : Walkable iter → (remaining iter).bytes.length < 2 ^ usizeBits →
    totalLen iter = lenOf (remaining iter)
  forEach : Walkable iter → ∃ slices, Covers slices (remaining iter).bytes ∧
    ∀ {τ : Type} (cb : τ → List Byte → τ × Bool) (st : τ),
      Walks slices (remaining iter) cb st (forEach iter cb st)
  decoupledBorrow : TailKept iter → remaining iter.decoupledBorrow = remaining iter
  takeExact : ∀ n, (remaining iter).bytes.length < n → (remaining iter).error = none →
    remaining (.takeExact iter n) = ⟨(remaining iter).bytes, some .buffersExhausted⟩

theorem denotes (iter : Iter ε) : Denotes iter where
  nextSlice maxLen := (nextSlice_spec maxLen iter).1
  nextBackSlice maxLen hback hnone := nextBackSlice_spec maxLen iter hback hnone
  nextSliceLen len iter' h := by
    have hspec := nextSliceLen_spec iter
    rw [h] at hspec
    exact hspec.1
  isEmpty h := isEmpty_spec iter h
  totalLen h hlen := totalLen_spec h hlen
  forEach h := forEach_spec h
  decoupledBorrow h := decoupledBorrow_spec h
  takeExact n hn hnone := by
    rw [remaining, Remaining.takeExact, if_neg (Nat.not_le_of_gt hn), hnone]
    rfl

/-- After any such calls, what has been returned and what remains make up what there was, and the
iterator still stands for what remains. -/
theorem run_denotes {iter iter' : Iter ε} {fronts backs : List Byte}
    (run : Run iter fronts iter' backs) :
    remaining iter = cons fronts ((remaining iter').append ⟨backs, none⟩) ∧ Denotes iter' :=
  ⟨run.remaining_eq, denotes iter'⟩

theorem run_denotes_chain :
    remaining (.chain (.buffersSlice (.new [[], [1, 2]])) (.singleton (some [3])) : Iter Unit) =
        cons [1] ((remaining (.chain (.buffersSlice ⟨[], some ⟨[2], by decide⟩, none⟩)
          (.singleton (some [])))).append ⟨[3], none⟩) ∧
      Denotes (.chain (.buffersSlice ⟨[], some ⟨[2], by decide⟩, none⟩)
        (.singleton (some [])) : Iter Unit) :=
  run_denotes (@Run.nextBackSlice Unit _ [1] [] _ _ none (some [3])
    (@Run.nextSlice Unit _ [] [] _ _ (some 1) (some [1]) .new rfl) ⟨trivial, trivial⟩ rfl rfl)

/-- What has been left of an item taken from the back isn't borrowed, too few bytes are not told
by `for_each()`, and by the default implementation a chain is empty as soon as its first iterator
is. -/
theorem tail_lost :
    (∃ iter' : Iter Unit, Run (.generic (.new [.ok [1, 2]] none)) [] iter' [2] ∧
      (remaining iter').bytes = [1] ∧ (remaining iter'.decoupledBorrow).bytes = []) ∧
    forEach (.takeExact (.singleton (some [1])) 3 : Iter Unit) (fun st slice => (st ++ slice, true))
      [] = (.ok (), [1]) ∧
    (Iter.mutRef (.chain (.singleton (some [])) (.singleton (some [1]))) : Iter Unit).isEmpty.1 =
      .ok true :=
  ⟨⟨.generic ⟨[], none, some ⟨[1], by decide⟩, false⟩,
    @Run.nextBackSlice Unit _ [] [] _ _ (some 1) (some [2]) .new trivial rfl rfl, rfl, rfl⟩,
    rfl, rfl⟩

end CocoonFs.IoSliceIterRuns
