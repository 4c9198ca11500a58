import CocoonFs.RsaEs

namespace CocoonFs.RsaEs.EsPkcs1

open Codes Multiprecision Masks List

variable {σ : Type}

/-- How many bytes an output leaves unfilled, the ones it is rejected for as a whole included. -/
def unfilled (output : List Byte) : Nat := if 0 ∈ output then output.count 0 else output.length

/-- A non-zero byte follows a zero one somewhere, which is when the retries are counted anew. -/
def Progresses (output : List Byte) : Prop := ∃ b ∈ output.dropWhile (· != 0), b ≠ 0

instance (output : List Byte) : Decidable (Progresses output) :=
  inferInstanceAs (Decidable (∃ b ∈ _, _))

/-- The generator's outputs for what each time remains unfilled, up to where the loop ends. -/
inductive Drawn (rng : Rng σ) : σ → Nat → Nat → List (List Byte) → Prop where
  | stop {s : σ} {n retries : Nat} (h : n = 0 ∨ maxRetries ≤ retries) : Drawn rng s n retries []
  | draw {s s' : σ} {n retries : Nat} {output : List Byte} {outputs : List (List Byte)}
      (h : ¬(n = 0 ∨ maxRetries ≤ retries)) (hgen : rng.generate s n = .ok (output, s'))
      (hrest : Drawn rng s' (unfilled output) (if Progresses output then 0 else retries + 1)
        outputs) :
      Drawn rng s n retries (output :: outputs)

def EndsInZerosOnly (outputs : List (List Byte)) : Prop :=
  maxRetries ≤ outputs.length ∧
    ∀ output ∈ outputs.drop (outputs.length - maxRetries), ∀ b ∈ output, b = 0

structure FillsPadding (rng : Rng σ) (s : σ) (len : Nat) : Prop where
  terminates : (∀ s n, ∃ output s', rng.generate s n = .ok (output, s')) →
    ∃ outputs, Drawn rng s len 0 outputs
  filled : ∀ ps s', fillPaddingWithNonzeroRandomBytes rng s len = .ok (ps, s') →
    ps.length = len ∧ ∀ b ∈ ps, b ≠ 0x00
  exceeded : ∀ outputs, Drawn rng s len 0 outputs →
    fillPaddingWithNonzeroRandomBytes rng s len = fail .randomSamplingRetriesExceeded →
      EndsInZerosOnly outputs

variable {rng : Rng σ} {s : σ} {n retries : Nat} {bs : List Byte} {outputs : List (List Byte)}

theorem drop_zeroIndex {i : Nat} (h : bs.findIdx? (· == 0) = some i) :
    bs.drop i = 0 :: (bs.drop i).tail := by
  obtain ⟨-, hzero, -⟩ := findIdx_zero h
  rw [← head?_drop] at hzero
  exact (cons_head?_tail hzero).symm

theorem dropWhile_zeroIndex {i : Nat} (h : bs.findIdx? (· == 0) = some i) :
    bs.dropWhile (· != 0) = bs.drop i := by
  obtain ⟨-, -, hbefore⟩ := findIdx_zero h
  conv_lhs => rw [← take_append_drop i bs]
  rw [dropWhile_append_of_pos fun b hb => bne_iff_ne.mpr (hbefore b hb), drop_zeroIndex h]
  rfl

theorem count_zeroIndex {i : Nat} (h : bs.findIdx? (· == 0) = some i) :
    0 ∈ bs ∧ unfilled bs = (bs.drop i).count 0 := by
  obtain ⟨-, -, hbefore⟩ := findIdx_zero h
  have hmem : 0 ∈ bs := by
    apply mem_of_mem_drop (i := i)
    rw [drop_zeroIndex h]
    exact mem_cons_self
  refine ⟨hmem, ?_⟩
  rw [unfilled, if_pos hmem]
  conv_lhs => rw [← take_append_drop i bs]
  rw [count_append, count_eq_zero.mpr fun hzero => hbefore 0 hzero rfl, zero_add]

structure Replaces (padding rest : List Byte) (progress : Bool) : Prop where
  length : rest.length = unfilled padding
  progress : progress = true ↔ Progresses padding
  head? : rest.head? = some 0 ↔ 0 ∈ padding

theorem replaceZeros_replaces (padding : List Byte) :
    Replaces padding (replaceZeros padding).2.1 (replaceZeros padding).2.2 := by
  fun_induction replaceZeros padding with
  | case1 padding h =>
    have hne : 0 ∉ padding := fun hzero =>
      absurd (findIdx?_eq_none_iff.mp h 0 hzero) (by decide)
    refine ⟨(if_neg hne).symm, ?_, iff_of_false (fun hhead => hne (mem_of_mem_head? hhead)) hne⟩
    refine iff_of_false Bool.false_ne_true ?_
    rintro ⟨b, hb, -⟩
    have hpos (c : Byte) (hc : c ∈ padding) : (c != 0) = true :=
      bne_iff_ne.mpr (ne_of_mem_of_not_mem hc hne)
    rw [← append_nil padding, dropWhile_append_of_pos hpos] at hb
    cases hb
  | case2 padding zeroIndex h h' =>
    obtain ⟨hmem, hcount⟩ := count_zeroIndex h
    have htail (b : Byte) (hb : b ∈ (padding.drop zeroIndex).tail) : b = 0 :=
      bne_eq_false_iff_eq.mp (findIdx?_eq_none_iff.mp h' b hb)
    have hzeros (b : Byte) (hb : b ∈ padding.drop zeroIndex) : 0 = b := by
      rw [drop_zeroIndex h] at hb
      rcases mem_cons.mp hb with rfl | hb
      · rfl
      · exact (htail b hb).symm
    refine ⟨?_, iff_of_false Bool.false_ne_true ?_, iff_of_true ?_ hmem⟩
    · rw [hcount, count_eq_length.mpr hzeros]
    · rintro ⟨b, hb, hne⟩
      rw [dropWhile_zeroIndex h] at hb
      exact hne (hzeros b hb).symm
    · rw [drop_zeroIndex h]
      rfl
  | case3 padding zeroIndex h i h' rest done rest' progress heq ih =>
    obtain ⟨hmem, hcount⟩ := count_zeroIndex h
    obtain ⟨hi, -, hbefore⟩ := findIdx?_eq_some_iff_getElem.mp h'
    obtain ⟨b, bs, hb, hne⟩ := findIdx_nonZero h'
    have hzeros : (padding.drop zeroIndex).tail.take i = replicate i 0 := by
      refine eq_replicate_iff.mpr ⟨length_take_of_le hi.le, fun c hc => ?_⟩
      obtain ⟨j, hj, rfl⟩ := mem_take_iff_getElem.mp hc
      have hj' := hbefore j (by omega)
      exact not_not.mp fun hc => hj' (bne_iff_ne.mpr hc)
    have hdrop : padding.drop zeroIndex = 0 :: (replicate i 0 ++ b :: bs) := by
      rw [drop_zeroIndex h, ← hzeros, ← hb, take_append_drop]
    have htail : rest.tail = bs ++ replicate (i + 1) 0 := by
      dsimp only [rest]
      rw [← drop_tail, hb]
      rfl
    have hmem' : 0 ∈ rest.tail := by simp [htail]
    rw [heq, htail] at ih
    rw [htail] at hmem'
    refine ⟨?_, iff_of_true rfl ⟨b, ?_, hne⟩, iff_of_true (ih.head?.mpr hmem') hmem⟩
    · rw [ih.length, hcount, unfilled, if_pos hmem', hdrop]
      simp only [count_append, count_replicate_self, count_cons_self, count_cons_of_ne hne]
      omega
    · rw [dropWhile_zeroIndex h, hdrop]
      simp

theorem fillLoop_draw {done padding output : List Byte} {s' : σ}
    (h : ¬(padding = [] ∨ maxRetries ≤ retries))
    (hgen : rng.generate s padding.length = .ok (output, s')) :
    fillLoop rng s done padding retries = fillLoop rng s' (done ++ (replaceZeros output).1)
      (replaceZeros output).2.1 (if Progresses output then 0 else retries + 1) := by
  rw [fillLoop, if_neg h]
  split
  · rename_i heq
    rw [hgen] at heq
    cases heq
  · rename_i heq
    rw [hgen] at heq
    cases heq
    dsimp only
    rw [if_congr (replaceZeros_replaces output).progress rfl rfl]

theorem fillLoop_of_drawn (h : Drawn rng s n retries outputs) (done : List Byte)
    {padding : List Byte} (hlen : padding.length = n) : ∃ done' padding' s',
      fillLoop rng s done padding retries = .ok (done', padding', s') ∧
        (outputs = [] → padding' = padding) ∧
        ∀ output ∈ outputs.getLast?, padding'.head? = some 0 ↔ 0 ∈ output := by
  induction h generalizing done padding with
  | stop h =>
    rw [← hlen, length_eq_zero_iff] at h
    exact ⟨done, padding, _, by rw [fillLoop, if_pos h], fun _ => rfl, by simp⟩
  | @draw s s' n retries output outputs h hgen hrest ih =>
    rw [← hlen] at hgen
    rw [← hlen, length_eq_zero_iff] at h
    have hreplaces := replaceZeros_replaces output
    obtain ⟨done', padding', s'', hloop, hnil, hlast⟩ :=
      ih (done ++ (replaceZeros output).1) hreplaces.length
    refine ⟨done', padding', s'', (fillLoop_draw h hgen).trans hloop, by simp, ?_⟩
    intro last hmem
    cases outputs with
    | nil =>
      cases hmem
      rw [hnil rfl]
      exact hreplaces.head?
    | cons output' outputs => exact hlast last (getLast?_cons_cons ▸ hmem)

theorem exists_drawn (s : σ) (retries : Nat)
    (hgen : ∀ s n, ∃ output s', rng.generate s n = .ok (output, s')) (done padding : List Byte) : ∃ outputs, Drawn rng s padding.length retries outputs := by
  fun_induction fillLoop rng s done padding retries with
  | case1 s done padding retries h => exact ⟨[], .stop (by rwa [length_eq_zero_iff])⟩
  | case2 s done padding retries h e he =>
    obtain ⟨output, s', houtput⟩ := hgen s padding.length
    rw [houtput] at he
    cases he
  | case3 s done padding retries h output s' houtput replaced ih =>
    have hreplaces := replaceZeros_replaces output
    obtain ⟨outputs, hrest⟩ := ih
    rw [hreplaces.length, dite_eq_ite, if_congr hreplaces.progress rfl rfl] at hrest
    exact ⟨output :: outputs, .draw (by rwa [length_eq_zero_iff]) houtput hrest⟩

theorem Drawn.eq_zero (h : Drawn rng s n 0 []) : n = 0 := by
  cases h with
  | stop h => exact h.resolve_right (by decide)

theorem fillPadding_exceeded_iff {len : Nat} (h : Drawn rng s len 0 outputs) :
    fillPaddingWithNonzeroRandomBytes rng s len = fail .randomSamplingRetriesExceeded ↔
      ∃ output ∈ outputs.getLast?, 0 ∈ output := by
  obtain ⟨done, padding, s', hloop, hnil, hlast⟩ := fillLoop_of_drawn h [] length_replicate
  have hhead : padding.head? = some 0 ↔ ∃ output ∈ outputs.getLast?, 0 ∈ output := by
    cases hout : outputs.getLast? with
    | none =>
      have hempty := getLast?_eq_none_iff.mp hout
      rw [hempty] at h
      rw [hnil hempty, h.eq_zero]
      simp
    | some output =>
      rw [hlast output hout]
      simp
  rw [← hhead, fillPaddingWithNonzeroRandomBytes, bind_ok hloop]
  dsimp only
  by_cases hzero : padding.head? = some 0
  · rw [failIf_pos hzero]
    exact iff_of_true rfl hzero
  · rw [bind_ok (failIf_neg hzero _)]
    exact iff_of_false (by simp [fail]) hzero

/-- The retries are exceeded after sixteen outputs in a row that make no progress if there are any
zero bytes in the last one, whatever the others have been. -/
theorem fillsPadding_iff (rng : Rng σ) (s : σ) (len : Nat) : FillsPadding rng s len ↔
    ∀ outputs, Drawn rng s len 0 outputs →
      (∀ output ∈ outputs.getLast?, 0 ∉ output) ∨ EndsInZerosOnly outputs := by
  constructor
  · intro h outputs hdrawn
    by_cases hzero : ∃ output ∈ outputs.getLast?, 0 ∈ output
    · exact .inr (h.exceeded outputs hdrawn ((fillPadding_exceeded_iff hdrawn).mpr hzero))
    · exact .inl fun output hlast hmem => hzero ⟨output, hlast, hmem⟩
  · intro h
    refine ⟨fun hgen => ?_, fun ps s' => fillPadding_spec, fun outputs hdrawn hexceeded => ?_⟩
    · obtain ⟨outputs, hdrawn⟩ := exists_drawn s 0 hgen [] (replicate len 0)
      rw [length_replicate] at hdrawn
      exact ⟨outputs, hdrawn⟩
    · obtain ⟨output, hlast, hzero⟩ := (fillPadding_exceeded_iff hdrawn).mp hexceeded
      exact (h outputs hdrawn).resolve_left fun hne => hne output hlast hzero

theorem drawn_ones (k : Nat) (h : k ≤ 15) : Drawn .replaying (replicate k (1 : Byte) ++ [0]) 1
    (15 - k) (replicate k [1] ++ [[0]]) := by
  induction k with
  | zero => exact .draw (by decide) rfl (.stop (by decide))
  | succ k ih =>
    have hretries : 15 - (k + 1) + 1 = 15 - k := by omega
    refine .draw (by rw [maxRetries]; omega) rfl ?_
    rw [if_neg (by decide), hretries]
    exact ih (by omega)

/-- Fifteen outputs to fill the one byte with, and a zero byte for the last of them to be seen. -/
theorem retries_exceeded_after_ones :
    ¬FillsPadding .replaying (replicate 15 (1 : Byte) ++ [0]) 1 := by
  intro h
  have hdrawn := drawn_ones 15 (Nat.le_refl 15)
  have hexceeded := (fillPadding_exceeded_iff hdrawn).mpr ⟨[0], rfl, mem_cons_self⟩
  have hzeros := (h.exceeded _ hdrawn hexceeded).2 [1] (by decide) 1 mem_cons_self
  exact absurd hzeros (by decide)

end CocoonFs.RsaEs.EsPkcs1
