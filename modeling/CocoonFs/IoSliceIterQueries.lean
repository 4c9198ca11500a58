import CocoonFs.IoSliceIterSteps

namespace CocoonFs.IoSliceIterQueries

open Codes IoSliceIters IoSliceIterSteps Remaining
open Remaining (append bytes takeExact)

variable {ε : Type}

/-- Where `next_slice_len()` comes to zero. For a chain that is the first iterator's, be it at its
end or not. -/
def LenZero : Iter ε → Prop
  | .mapErr iter _ | .asRef iter | .mutRef iter => LenZero iter
  | .takeExact iter n => n = 0 ∨ LenZero iter
  | .chain .dropped iter1 => LenZero iter1
  | .chain iter0 _ => LenZero iter0
  | .generic iter => remaining (.generic iter) = nil
  | .buffersSlice iter => remaining (.buffersSlice iter : Iter ε) = nil
  | .singleton slice => remaining (.singleton slice : Iter ε) = nil
  | .zeroFilled n => remaining (.zeroFilled n : Iter ε) = nil
  | .empty | .dropped => True

/-- Where `next_slice_len()` runs into an error. -/
def LenFails : Iter ε → Prop
  | .generic iter => (remaining (.generic iter)).bytes = [] ∧
      (remaining (.generic iter)).error ≠ none
  | .mapErr iter _ | .asRef iter | .mutRef iter | .takeExact iter _ => LenFails iter
  | .chain .dropped iter1 => LenFails iter1
  | .chain iter0 _ => LenFails iter0
  | _ => False

section Chain

variable {iter0 : Iter ε} (h : iter0 ≠ .dropped) (iter1 : Iter ε)

include h

theorem nextSliceLen_chain : (Iter.chain iter0 iter1).nextSliceLen =
    (iter0.nextSliceLen.1, .chain iter0.nextSliceLen.2 iter1) := by
  cases iter0 with
  | dropped => exact absurd rfl h
  | _ => rfl

theorem lenZero_chain : LenZero (.chain iter0 iter1) = LenZero iter0 := by
  cases iter0 with
  | dropped => exact absurd rfl h
  | _ => rfl

theorem lenFails_chain : LenFails (.chain iter0 iter1) = LenFails iter0 := by
  cases iter0 with
  | dropped => exact absurd rfl h
  | _ => rfl

end Chain

theorem length_min_le_takeExact (n : Nat) (r : Remaining (IterError ε)) :
    min r.bytes.length n ≤ (r.takeExact n).bytes.length := by
  rw [takeExact]
  split
  · exact Nat.le_of_eq (by rw [List.length_take, Nat.min_comm])
  · exact Nat.min_le_left _ _

theorem nextSliceLen_spec (iter : Iter ε) :
    match iter.nextSliceLen with
    | (.ok len, iter') => remaining iter' = remaining iter ∧ len ≤ (remaining iter).bytes.length ∧
        (len = 0 → LenZero iter)
    | (.error _, _) => LenFails iter := by
  induction iter with
  | generic iter =>
    have hspec := GenericIoSlicesIter.nextSliceLen_spec iter
    rw [Iter.nextSliceLen]
    rcases hlen : iter.nextSliceLen with ⟨_ | len, iter'⟩
    · rw [hlen] at hspec
      rw [LenFails, remaining, hspec]
      exact ⟨rfl, fun hnone => by cases hnone⟩
    · rw [hlen] at hspec
      exact hspec
  | buffersSlice iter =>
    obtain ⟨heq, hle, hzero⟩ := BuffersSliceIoSlicesIter.nextSliceLen_spec iter
    rw [Iter.nextSliceLen]
    refine ⟨?_, ?_, ?_⟩
    · rw [remaining, heq]
      rfl
    · rw [remaining, cons_bytes, nil, List.append_nil]
      exact hle
    · intro hlen
      rw [LenZero, remaining, hzero hlen]
      rfl
  | singleton slice =>
    refine ⟨rfl, ?_, ?_⟩
    · exact Nat.le_of_eq (by rw [remaining, cons_bytes, nil, List.append_nil])
    · intro hlen
      rw [LenZero, remaining, List.eq_nil_of_length_eq_zero hlen]
      rfl
  | zeroFilled n =>
    refine ⟨rfl, ?_, ?_⟩
    · rw [remaining, cons_bytes, nil, List.append_nil, List.length_replicate]
      exact Nat.min_le_left _ _
    · intro hlen
      have hn : n = 0 := by
        rw [Iter.chunkSize] at hlen
        omega
      rw [LenZero, remaining, hn]
      rfl
  | empty => exact ⟨rfl, Nat.zero_le _, fun _ => trivial⟩
  | mapErr iter f ih =>
    rw [Iter.nextSliceLen]
    rcases hlen : iter.nextSliceLen with ⟨_ | len, iter'⟩
    · rw [hlen] at ih
      exact ih
    · rw [hlen] at ih
      exact ⟨congrArg (Remaining.mapError f) ih.1, ih.2⟩
  | asRef iter ih | mutRef iter ih =>
    rw [Iter.nextSliceLen]
    rcases hlen : iter.nextSliceLen with ⟨_ | len, iter'⟩
    · rw [hlen] at ih
      exact ih
    · rw [hlen] at ih
      exact ih
  | takeExact iter n ih =>
    rw [Iter.nextSliceLen]
    rcases hlen : iter.nextSliceLen with ⟨_ | len, iter'⟩
    · rw [hlen] at ih
      exact ih
    · rw [hlen] at ih
      obtain ⟨heq, hle, hzero⟩ := ih
      refine ⟨congrArg (takeExact n) heq, ?_, ?_⟩
      · have hmin : min len n ≤ min (remaining iter).bytes.length n :=
          Nat.le_min.mpr ⟨Nat.le_trans (Nat.min_le_left _ _) hle, Nat.min_le_right _ _⟩
        exact Nat.le_trans hmin (length_min_le_takeExact n _)
      · intro hmin
        rcases Nat.le_total len n with hn | hn
        · exact .inr (hzero ((Nat.min_eq_left hn).symm.trans hmin))
        · exact .inl ((Nat.min_eq_right hn).symm.trans hmin)
  | chain iter0 iter1 ih0 ih1 =>
    by_cases hdropped : iter0 = .dropped
    · rw [hdropped, Iter.nextSliceLen]
      rcases hlen : iter1.nextSliceLen with ⟨_ | len, iter1'⟩
      · rw [hlen] at ih1
        exact ih1
      · rw [hlen] at ih1
        exact ih1
    · rw [nextSliceLen_chain hdropped, lenZero_chain hdropped, lenFails_chain hdropped]
      rcases hlen : iter0.nextSliceLen with ⟨_ | len, iter0'⟩
      · rw [hlen] at ih0
        exact ih0
      · rw [hlen] at ih0
        obtain ⟨heq, hle, hzero⟩ := ih0
        refine ⟨congrArg (append · _) heq, Nat.le_trans hle ?_, hzero⟩
        rw [remaining, append]
        split
        · rw [List.length_append]
          exact Nat.le_add_right _ _
        · exact Nat.le_refl _
  | dropped => exact ⟨rfl, Nat.zero_le _, fun _ => trivial⟩

/-- A `&mut` reference to an iterator is nowhere to tell emptiness where the length of the next
slice doesn't. -/
def RefsTell : Iter ε → Prop
  | .mapErr iter _ | .asRef iter => RefsTell iter
  | .mutRef iter => (LenZero iter → remaining iter = nil) ∧ (LenFails iter → remaining iter ≠ nil)
  | .chain iter0 iter1 => RefsTell iter0 ∧ RefsTell iter1
  | .generic _ | .buffersSlice _ | .singleton _ | .zeroFilled _ | .empty | .takeExact _ _
  | .dropped => True

def Tells (r : Remaining (IterError ε)) :
    Except (IterError ε) Bool → Remaining (IterError ε) → Prop
  | .ok true, r' => r = nil ∧ r' = r
  | .ok false, r' => r ≠ nil ∧ r' = r
  | .error _, _ => r ≠ nil

theorem append_ne_nil {r s : Remaining (IterError ε)} (h : r ≠ nil) : r.append s ≠ nil := by
  rw [append]
  split
  · rename_i herror
    intro hnil
    apply h
    have hbytes := congrArg bytes hnil
    ext1
    · exact (List.append_eq_nil_iff.mp hbytes).1
    · exact herror
  · exact fun hnil => by cases congrArg Remaining.error hnil

theorem mapError_eq_nil (f : IterError ε → IterError ε) (r : Remaining (IterError ε)) :
    r.mapError f = nil ↔ r = nil := by
  constructor
  · intro h
    ext1
    · have hbytes : (r.mapError f).bytes = [] := congrArg bytes h
      exact hbytes
    · exact Option.map_eq_none_iff.mp (congrArg Remaining.error h)
  · rintro rfl
    rfl

theorem tells_of_len {iter : Iter ε} (hzero : LenZero iter → remaining iter = nil)
    (hfails : LenFails iter → remaining iter ≠ nil) :
    Tells (remaining iter) (iter.nextSliceLen.1.map (· == 0)) (remaining iter.nextSliceLen.2) := by
  have hspec := nextSliceLen_spec iter
  match hlen : iter.nextSliceLen with
  | (.ok len, iter') =>
    rw [hlen] at hspec
    obtain ⟨heq, hle, hlenZero⟩ := hspec
    cases len with
    | zero => exact ⟨hzero (hlenZero rfl), heq⟩
    | succ len =>
      refine ⟨fun hnil => ?_, heq⟩
      rw [hnil] at hle
      cases hle
  | (.error e, iter') =>
    rw [hlen] at hspec
    exact hfails hspec

theorem Tells.mapError {r r' : Remaining (IterError ε)} {result : Except (IterError ε) Bool}
    (f : IterError ε → IterError ε) (h : Tells r result r') :
    Tells (r.mapError f) (result.mapError f) (r'.mapError f) := by
  cases result with
  | error e => exact fun hnil => h ((mapError_eq_nil f r).mp hnil)
  | ok empty =>
    cases empty with
    | true => exact ⟨(mapError_eq_nil f r).mpr h.1, congrArg (Remaining.mapError f) h.2⟩
    | false =>
      exact ⟨fun hnil => h.1 ((mapError_eq_nil f r).mp hnil), congrArg (Remaining.mapError f) h.2⟩

theorem takeExact_ne_nil {n : Nat} (hn : n ≠ 0) (r : Remaining (IterError ε)) :
    r.takeExact n ≠ nil := by
  intro hnil
  rw [takeExact] at hnil
  split at hnil
  · rename_i hle
    have hbytes : r.bytes.take n = [] := congrArg bytes hnil
    rw [List.take_eq_nil_iff] at hbytes
    rcases hbytes with hzero | hbytes
    · exact hn hzero
    · rw [hbytes] at hle
      exact hn (Nat.le_zero.mp hle)
  · cases congrArg Remaining.error hnil

theorem isEmpty_spec (iter : Iter ε) (h : RefsTell iter) :
    Tells (remaining iter) iter.isEmpty.1 (remaining iter.isEmpty.2) := by
  induction iter with
  | generic iter =>
    exact @tells_of_len ε (.generic iter) id fun hfails hnil => hfails.2 (congrArg Remaining.error hnil)
  | buffersSlice iter => exact @tells_of_len ε (.buffersSlice iter) id False.elim
  | singleton slice => exact @tells_of_len ε (.singleton slice) id False.elim
  | zeroFilled n =>
    cases n with
    | zero => exact ⟨rfl, rfl⟩
    | succ n =>
      refine ⟨fun hnil => ?_, rfl⟩
      cases congrArg bytes hnil
  | empty => exact ⟨rfl, rfl⟩
  | mapErr iter f ih => exact (ih h).mapError f
  | asRef iter ih => exact ih h
  | mutRef iter ih => exact tells_of_len h.1 h.2
  | takeExact iter n ih =>
    cases n with
    | zero => exact ⟨takeExact_zero _, rfl⟩
    | succ n => exact ⟨takeExact_ne_nil (Nat.succ_ne_zero n) _, rfl⟩
  | chain iter0 iter1 ih0 ih1 =>
    have htells0 := ih0 h.1
    rw [Iter.isEmpty]
    match hempty0 : iter0.isEmpty with
    | (.ok false, iter0') =>
      rw [hempty0] at htells0
      exact ⟨append_ne_nil htells0.1, congrArg (append · _) htells0.2⟩
    | (.error e, iter0') =>
      rw [hempty0] at htells0
      exact append_ne_nil htells0
    | (.ok true, iter0') =>
      rw [hempty0] at htells0
      have hnil : remaining iter0' = nil := htells0.2.trans htells0.1
      rw [remaining, htells0.1, nil_append, remaining, hnil, nil_append]
      exact ih1 h.2
  | dropped => exact ⟨rfl, rfl⟩

end CocoonFs.IoSliceIterQueries
