import CocoonFs.ScriptRecords

namespace CocoonFs.ScriptCodec

open Checked Codes Extents BinarySearch Layout Leb128 Leb128Decode ApplyWritesScript ScriptFormat List Nat
open BitVec (ofNat toNat_ofNat)

section Staging

variable {log2 : Nat}

variable {v : BitVec 64}

/-- Shifted to the right and back, nothing is lost if the low bits are clear. -/
theorem shiftLeft_sshiftRight (h : 2 ^ log2 ∣ v.toNat) : v.sshiftRight log2 <<< log2 = v := by
  apply BitVec.eq_of_getLsbD_eq
  intro k hk
  rw [BitVec.getLsbD_shiftLeft, BitVec.getLsbD_sshiftRight]
  by_cases hlow : k < log2
  · obtain ⟨q, hq⟩ := h
    have hbit : v.getLsbD k = false := by
      rw [BitVec.getLsbD, hq, testBit_two_pow_mul]
      simp only [ge_iff_le, not_le.mpr hlow, decide_false, Bool.false_and]
    simp only [hbit, hlow, decide_true, Bool.not_true, Bool.and_false, Bool.false_and]
  · have hword : ¬64 ≤ k - log2 := by omega
    simp only [hk, hlow, hword, decide_true, decide_false, Bool.not_false, Bool.true_and,
      Nat.add_sub_cancel' (Nat.le_of_not_lt hlow), if_true]

theorem dvd_toNat_sub {a b : Nat} (hlog2 : log2 ≤ 64) (ha : 2 ^ log2 ∣ a) (hb : 2 ^ log2 ∣ b) :
    2 ^ log2 ∣ (ofNat 64 a - ofNat 64 b).toNat := by
  have hword : 2 ^ log2 ∣ 2 ^ 64 := pow_dvd_pow 2 hlog2
  rw [BitVec.toNat_sub, toNat_ofNat, toNat_ofNat, dvd_mod_iff hword]
  exact Nat.dvd_add (Nat.dvd_sub hword ((dvd_mod_iff hword).mpr hb)) ((dvd_mod_iff hword).mpr ha)

theorem dvd_toNat_add_shiftLeft {a : Nat} (hlog2 : log2 ≤ 64) (ha : 2 ^ log2 ∣ a) :
    2 ^ log2 ∣ (ofNat 64 a + v <<< log2).toNat := by
  have hword : 2 ^ log2 ∣ 2 ^ 64 := Nat.pow_dvd_pow 2 hlog2
  rw [BitVec.toNat_add, toNat_ofNat, BitVec.toNat_shiftLeft, shiftLeft_eq, dvd_mod_iff hword]
  exact Nat.dvd_add ((dvd_mod_iff hword).mpr ha)
    ((dvd_mod_iff hword).mpr (Nat.dvd_mul_left _ _))

variable (pr : Profile) {e : FormatError}

theorem shlI64_ok {n : Nat} (hn : n < 64) : shlI64 pr v n = .ok (v <<< n) := if_pos hn

theorem shrI64_ok {n : Nat} (hn : n < 64) : shrI64 pr v n = .ok (v.sshiftRight n) := if_pos hn

theorem toAllocationBlocksI64_ok (hlog2 : log2 < 64) (h : 2 ^ log2 ∣ v.toNat) :
    toAllocationBlocksI64 pr e (v.sshiftRight log2) log2 = .ok v := by
  rw [toAllocationBlocksI64, shlI64_ok pr hlog2, ok_bind, shiftLeft_sshiftRight h,
    shrI64_ok pr hlog2, ok_bind, if_neg (not_not_intro rfl)]
  rfl

theorem toAllocationBlocksI64_returns (hlog2 : log2 < 64) (blocks : BitVec 64) :
    Returns (fun v => v = blocks <<< log2) (toAllocationBlocksI64 pr e blocks log2) := by
  rw [toAllocationBlocksI64, shlI64_ok pr hlog2, ok_bind, shrI64_ok pr hlog2, ok_bind]
  split
  · exact returns_formatErr e
  · exact returns_ok rfl

end Staging

structure StagingOk (log2 allocationBlockSize128bLog2 : Nat) (entry : ApplyWritesScriptEntry) : Prop where
  aligned : 2 ^ log2 ∣ entry.journalStagingCopyAllocationBlocksBegin
  bounded : entry.journalStagingCopyAllocationBlocksBegin + (entry.targetRange.e - entry.targetRange.b) ≤
    maxAllocationBlocks allocationBlockSize128bLog2

structure ApplyWritesOk (log2 allocationBlockSize128bLog2 : Nat) (entries : List ApplyWritesScriptEntry) :
    Prop where
  target : RangesOk log2 allocationBlockSize128bLog2 (entries.map (·.targetRange))
  staging : ∀ entry ∈ entries, StagingOk log2 allocationBlockSize128bLog2 entry

section ApplyWrites

variable (pr : Profile) {log2 allocationBlockSize128bLog2 : Nat} {last : Nat × Nat}
  {entry : ApplyWritesScriptEntry} {entries : List ApplyWritesScriptEntry}

def stagingEnd (entry : ApplyWritesScriptEntry) : Nat :=
  entry.journalStagingCopyAllocationBlocksBegin + (entry.targetRange.e - entry.targetRange.b)

/-- The difference to the end of the last staging copy, with wraparound. -/
def stagingDelta (last : Nat) (entry : ApplyWritesScriptEntry) : BitVec 64 :=
  ofNat 64 entry.journalStagingCopyAllocationBlocksBegin - ofNat 64 last

section

variable (h : StagingOk log2 allocationBlockSize128bLog2 entry)
include h

theorem StagingOk.end_lt : stagingEnd entry < 2 ^ 57 :=
  h.bounded.trans_lt (maxAllocationBlocks_lt _)

theorem StagingOk.begin_lt :
    entry.journalStagingCopyAllocationBlocksBegin < 2 ^ 57 :=
  (Nat.le_add_right _ _).trans_lt h.end_lt

/-- Adding the difference to the last one's end again, the wraparound cancels out. -/
theorem toNat_add_stagingDelta (last : Nat) :
    (ofNat 64 last + stagingDelta last entry).toNat =
      entry.journalStagingCopyAllocationBlocksBegin := by
  have hlt := h.begin_lt
  rw [stagingDelta, BitVec.add_comm, BitVec.sub_add_cancel, toNat_ofNat]
  exact mod_eq_of_lt (by omega)

end

theorem applyWritesFields_ok (hlog2 : log2 < 64)
    (h : Following log2 allocationBlockSize128bLog2 last.1 entry.targetRange)
    (hstaging : StagingOk log2 allocationBlockSize128bLog2 entry) :
    applyWritesFields pr log2 last entry = .ok
      ((ofNat 64 ((entry.targetRange.b - last.1) / 2 ^ log2), (stagingDelta last.2 entry).sshiftRight log2,
        ofNat 64 ((entry.targetRange.e - entry.targetRange.b) / 2 ^ log2)),
        entry.targetRange.e, stagingEnd entry) := by
  have hend := hstaging.end_lt
  rw [stagingEnd] at hend
  rw [applyWritesFields, rangeFields_ok pr hlog2 h.last h.nonempty, ok_bind]
  dsimp only
  rw [shrI64_ok pr hlog2, ok_bind, BlockRange.blockCount, checkedSub_ok (le_of_lt h.nonempty), ok_bind,
    checkedAdd_ok (by omega)]
  rfl

theorem decodeApplyWrites_ok (hlog2 : log2 < 64) (hsize : allocationBlockSize128bLog2 + 7 < 64)
    (h : Following log2 allocationBlockSize128bLog2 last.1 entry.targetRange)
    (hstaging : StagingOk log2 allocationBlockSize128bLog2 entry) (hlast : 2 ^ log2 ∣ last.2)
    (tail : List Byte) :
    decodeApplyWrites pr log2 allocationBlockSize128bLog2 last
      (leb128uU64Encode (ofNat 64 ((entry.targetRange.b - last.1) / 2 ^ log2)) ++
        leb128sI64Encode ((stagingDelta last.2 entry).sshiftRight log2) ++
        leb128uU64Encode (ofNat 64 ((entry.targetRange.e - entry.targetRange.b) / 2 ^ log2)) ++ tail) =
      .ok (some (entry, entry.targetRange.e, stagingEnd entry), tail) := by
  have hpos := ne_of_gt h.count_pos
  have hend := hstaging.end_lt
  have hdelta : 2 ^ log2 ∣ (stagingDelta last.2 entry).toNat :=
    dvd_toNat_sub (le_of_lt hlog2) hstaging.aligned hlast
  rw [stagingEnd] at hend
  rw [decodeApplyWrites, append_assoc, append_assoc, decodeU64_encode, ok_bind]
  dsimp only
  rw [decodeI64_encode, ok_bind]
  rw [decodeU64_encode, ok_bind]
  rw [h.toNat_delta, h.toNat_count, if_neg (fun hzero => hpos hzero.2.2), if_neg hpos, h.delta_ok pr hlog2,
    ok_bind, h.begin_ok, ok_bind, toAllocationBlocksI64_ok pr hlog2 hdelta, ok_bind, h.count_ok pr hlog2,
    ok_bind, h.end_ok, ok_bind, checkLimit_ok pr hsize h.bounded, ok_bind,
    toNat_add_stagingDelta hstaging, checkedAddOr_ok (by omega), ok_bind,
    checkLimit_ok pr hsize hstaging.bounded, ok_bind, new_ok pr h.nonempty]
  rfl

theorem applyWrites_terminated :
    (journalApplyWritesScript pr log2 allocationBlockSize128bLog2).Terminated := by
  intro st tail
  rfl

theorem applyWrites_encodes (hlog2 : log2 < 64) (hsize : allocationBlockSize128bLog2 + 7 < 64)
    (h : Following log2 allocationBlockSize128bLog2 last.1 entry.targetRange)
    (hstaging : StagingOk log2 allocationBlockSize128bLog2 entry) (hlast : 2 ^ log2 ∣ last.2) :
    ∃ bytes, (journalApplyWritesScript pr log2 allocationBlockSize128bLog2).Encodes last entry bytes
      (entry.targetRange.e, stagingEnd entry) := by
  have hfields := applyWritesFields_ok pr hlog2 h hstaging
  generalize hdelta : ofNat 64 ((entry.targetRange.b - last.1) / 2 ^ log2) = delta at hfields
  generalize hs : (stagingDelta last.2 entry).sshiftRight log2 = staging at hfields
  generalize hcount : ofNat 64 ((entry.targetRange.e - entry.targetRange.b) / 2 ^ log2) = count at hfields
  have hlen : (leb128uU64Encode delta ++ leb128sI64Encode staging ++ leb128uU64Encode count).length =
      leb128uU64EncodedLen delta + leb128sI64EncodedLen staging + leb128uU64EncodedLen count := by
    rw [length_append, length_append, length_leb128uU64Encode, length_leb128sI64Encode,
      length_leb128uU64Encode]
  have hspec := leb128uU64EncodedLen_spec delta
  have hspec' := leb128sI64EncodedLen_spec staging
  have hspec'' := leb128uU64EncodedLen_spec count
  have hle := significantBitsU64_le delta
  have hle' := significantBitsI64_le staging
  have hle'' := significantBitsU64_le count
  refine ⟨leb128uU64Encode delta ++ leb128sI64Encode staging ++ leb128uU64Encode count, ?_, ?_, ?_, ?_, ?_⟩
  · rw [hlen]
    dsimp only [journalApplyWritesScript]
    rw [hfields]
    rfl
  · dsimp only [journalApplyWritesScript]
    rw [hfields]
    rfl
  · rw [← hdelta, ← hs, ← hcount]
    exact decodeApplyWrites_ok pr hlog2 hsize h hstaging hlast
  · rw [hlen]
    dsimp only [journalApplyWritesScript]
    omega
  · rw [hlen]
    dsimp only [journalApplyWritesScript, decodeBufLen]
    omega

theorem ApplyWritesOk.tail (h : ApplyWritesOk log2 allocationBlockSize128bLog2 (entry :: entries)) :
    ApplyWritesOk log2 allocationBlockSize128bLog2 entries :=
  ⟨h.target.tail, fun e he => h.staging e (mem_cons_of_mem entry he)⟩

theorem applyWrites_encodesAll (last : Nat × Nat) (hlog2 : log2 < 64) (hsize : allocationBlockSize128bLog2 + 7 < 64)
    (h : ApplyWritesOk log2 allocationBlockSize128bLog2 entries)
    (halign : 2 ^ log2 ∣ last.1 ∧ 2 ^ log2 ∣ last.2)
    (hlast : ∀ r ∈ entries.map (·.targetRange), last.1 ≤ r.b) :
    ∃ bytes, (journalApplyWritesScript pr log2 allocationBlockSize128bLog2).EncodesAll last entries bytes := by
  induction entries generalizing last with
  | nil => exact ⟨[], EncodesAll.nil last⟩
  | cons entry entries ih =>
    have hfollowing := h.target.following halign.1 hlast
    have hstaging := h.staging entry mem_cons_self
    obtain ⟨bytes, hhead⟩ := applyWrites_encodes pr hlog2 hsize hfollowing hstaging halign.2
    have hend : 2 ^ log2 ∣ stagingEnd entry :=
      Nat.dvd_add hstaging.aligned (Nat.dvd_sub hfollowing.aligned.2 hfollowing.aligned.1)
    obtain ⟨rest, htail⟩ := ih (entry.targetRange.e, stagingEnd entry) h.tail
      ⟨hfollowing.aligned.2, hend⟩ (pairwise_cons.mp h.target.ascending).1
    exact ⟨bytes ++ rest, EncodesAll.cons hhead htail⟩

theorem applyWrites_roundTrips (hlog2 : log2 < 64) (hsize : allocationBlockSize128bLog2 + 7 < 64)
    (h : ApplyWritesOk log2 allocationBlockSize128bLog2 entries) :
    (journalApplyWritesScript pr log2 allocationBlockSize128bLog2).RoundTrips pr entries := by
  obtain ⟨bytes, hencodes⟩ := applyWrites_encodesAll pr (0, 0) hlog2 hsize h
    ⟨dvd_zero _, dvd_zero _⟩ (fun r _ => zero_le r.b)
  have hlen := length_of_encodesAll hencodes
  have hcount := h.target.length_le (fun r _ => zero_le r.b)
  have hmax := maxAllocationBlocks_lt allocationBlockSize128bLog2
  rw [length_map] at hcount
  apply roundTrips pr (applyWrites_terminated pr) (succ_pos _) hencodes
  dsimp only [journalApplyWritesScript, decodeBufLen] at hlen ⊢
  omega

structure ApplyWritesUpto (log2 allocationBlockSize128bLog2 : Nat) (last : Nat × Nat)
    (entries : List ApplyWritesScriptEntry) : Prop where
  target : RangesUpto log2 allocationBlockSize128bLog2 last.1 (entries.map (·.targetRange))
  staging : ∀ entry ∈ entries, StagingOk log2 allocationBlockSize128bLog2 entry
  alignedLast : 2 ^ log2 ∣ last.2

theorem ApplyWritesUpto.concat (h : ApplyWritesUpto log2 allocationBlockSize128bLog2 last entries)
    (hstaging : StagingOk log2 allocationBlockSize128bLog2 entry)
    (hr : Following log2 allocationBlockSize128bLog2 last.1 entry.targetRange) :
    ApplyWritesUpto log2 allocationBlockSize128bLog2 (entry.targetRange.e, stagingEnd entry)
      (entries ++ [entry]) where
  target := by
    rw [map_append]
    exact h.target.concat hr
  staging e he := by
    rcases mem_append.mp he with he | he
    · exact h.staging e he
    · rwa [mem_singleton.mp he]
  alignedLast := Nat.dvd_add hstaging.aligned (Nat.dvd_sub hr.aligned.2 hr.aligned.1)

theorem applyWrites_preserves (hlog2 : log2 < 64) (hsize : allocationBlockSize128bLog2 + 7 < 64) :
    (journalApplyWritesScript pr log2 allocationBlockSize128bLog2).Preserves
      (ApplyWritesUpto log2 allocationBlockSize128bLog2) := by
  intro last entries buf hupto
  dsimp only [journalApplyWritesScript, decodeApplyWrites]
  apply returns_bind (decodeU64_returns buf)
  rintro ⟨delta, remaining⟩ ⟨record, hrecord⟩
  apply returns_bind (decodeI64_returns remaining)
  rintro ⟨staging, remaining'⟩ ⟨record', hrecord'⟩
  apply returns_bind (decodeU64_returns remaining')
  rintro ⟨count, remaining''⟩ ⟨record'', hrecord''⟩
  obtain ⟨_, hbuf'⟩ := append_append hrecord hrecord'
  have hbuf := append_append hbuf' hrecord''
  by_cases hend : delta = 0 ∧ staging = 0 ∧ count = 0
  · rw [if_pos hend]
    exact returns_ok ⟨hbuf, fun _ _ hsome => by cases hsome⟩
  · rw [if_neg hend]
    by_cases hcount : count = 0
    · rw [if_pos hcount]
      exact returns_formatErr _
    · rw [if_neg hcount]
      apply returns_bind (toAllocationBlocks_returns pr hlog2 delta)
      rintro _ rfl
      apply returns_bind (checkedAddOr_returns last.1 _)
      rintro _ rfl
      apply returns_bind (toAllocationBlocksI64_returns pr hlog2 staging)
      rintro _ rfl
      apply returns_bind (toAllocationBlocks_returns pr hlog2 count)
      rintro _ rfl
      apply returns_bind (checkedAddOr_returns _ _)
      rintro _ rfl
      apply returns_bind (checkLimit_returns pr hsize _)
      rintro ⟨⟩ hbound
      apply returns_bind (checkedAddOr_returns _ _)
      rintro _ rfl
      apply returns_bind (checkLimit_returns pr hsize _)
      rintro ⟨⟩ hstagingBound
      have hfollowing := hupto.target.following hcount hbound
      rw [new_ok pr hfollowing.nonempty, ok_bind]
      apply returns_ok
      refine ⟨hbuf, ?_⟩
      rintro _ _ ⟨⟩
      -- The staging copy is as long as the target range.
      have hlen (b : Nat) : b + count * 2 ^ log2 - b = count * 2 ^ log2 := Nat.add_sub_cancel_left _ _
      have hstaging : StagingOk log2 allocationBlockSize128bLog2
          ⟨⟨last.1 + delta * 2 ^ log2, last.1 + delta * 2 ^ log2 + count * 2 ^ log2⟩,
            (ofNat 64 last.2 + staging <<< log2).toNat⟩ :=
        ⟨dvd_toNat_add_shiftLeft (le_of_lt hlog2) hupto.alignedLast, by rwa [hlen]⟩
      have hnext := hupto.concat hstaging hfollowing
      rwa [stagingEnd, hlen] at hnext

theorem applyWritesUpto_nil : ApplyWritesUpto log2 allocationBlockSize128bLog2 (0, 0) [] :=
  ⟨rangesUpto_nil, by simp, dvd_zero _⟩

theorem applyWrites_decode (hlog2 : log2 < 64) (hsize : allocationBlockSize128bLog2 + 7 < 64)
    (src : List (List Byte)) :
    Returns (fun (entries, _) => ApplyWritesOk log2 allocationBlockSize128bLog2 entries)
      ((journalApplyWritesScript pr log2 allocationBlockSize128bLog2).decode pr src) := by
  apply returns_mono (decode_returns pr (applyWrites_preserves pr hlog2 hsize) applyWritesUpto_nil src)
  rintro ⟨entries, src'⟩ ⟨last, hupto⟩
  exact ⟨hupto.target.ok, hupto.staging⟩

end ApplyWrites

section Lookup

variable {entries : List ApplyWritesScriptEntry}

def ContainsAt (entries : List ApplyWritesScriptEntry) (k i : Nat) : Prop :=
  ∃ entry, entries[k]? = some entry ∧ entry.targetRange.b ≤ i ∧ i < entry.targetRange.e

structure InsertedAt (entries : List ApplyWritesScriptEntry) (k i : Nat) : Prop where
  le : k ≤ entries.length
  below : ∀ n entry, n < k → entries[n]? = some entry → entry.targetRange.e ≤ i
  above : ∀ n entry, k ≤ n → entries[n]? = some entry → i < entry.targetRange.b

def compare (i : Nat) (entry : ApplyWritesScriptEntry) : Ordering :=
  if entry.targetRange.e ≤ i then .lt else if entry.targetRange.b ≤ i then .eq else .gt

variable {i : Nat} {entry : ApplyWritesScriptEntry}

theorem compare_eq_lt :
    compare i entry = .lt ↔ entry.targetRange.e ≤ i := by
  rw [compare]
  split_ifs <;> simp_all

theorem compare_eq_eq :
    compare i entry = .eq ↔ i < entry.targetRange.e ∧ entry.targetRange.b ≤ i := by
  rw [compare]
  split_ifs <;> simp_all

theorem compare_eq_gt :
    compare i entry = .gt ↔ i < entry.targetRange.e ∧ i < entry.targetRange.b := by
  rw [compare]
  split_ifs <;> simp_all

theorem ordered_of_ascending (i : Nat) (hne : ∀ r ∈ entries.map (·.targetRange), r.b < r.e)
    (h : (entries.map (·.targetRange)).Pairwise (fun r s => r.e ≤ s.b)) :
    entries.Pairwise (Ordered (compare i)) := by
  rw [pairwise_map] at h
  apply h.imp_of_mem
  intro x y hx hy hxy
  have hlt' := hne _ (mem_map_of_mem hy)
  rw [Ordered, compare_eq_lt, compare_eq_lt, compare_eq_gt, compare_eq_gt]
  omega

theorem containsAt_unique {k k' : Nat} (h : (entries.map (·.targetRange)).Pairwise (fun r s => r.e ≤ s.b))
    (hk : ContainsAt entries k i) (hk' : ContainsAt entries k' i) : k = k' := by
  rw [pairwise_map, pairwise_iff_getElem] at h
  obtain ⟨x, hx, hxb, hxe⟩ := hk
  obtain ⟨y, hy, hyb, hye⟩ := hk'
  obtain ⟨hlen, rfl⟩ := List.getElem?_eq_some_iff.mp hx
  obtain ⟨hlen', rfl⟩ := List.getElem?_eq_some_iff.mp hy
  rcases lt_trichotomy k k' with hlt | heq | hgt
  · have := h k k' hlen hlen' hlt
    omega
  · exact heq
  · have := h k' k hlen' hlen hgt
    omega

/-- The lookup finds the entry for a block, or else where it would have to be. -/
structure LookupOk (entries : List ApplyWritesScriptEntry) : Prop where
  found : ∀ i k, lookup entries i = .ok k ↔ ContainsAt entries k i
  insertion : ∀ i k, lookup entries i = .error k → InsertedAt entries k i

theorem InsertedAt.not_containsAt {k : Nat} (h : InsertedAt entries k i) (n : Nat) :
    ¬ContainsAt entries n i := by
  rintro ⟨entry, hget, hb, he⟩
  rcases lt_or_ge n k with hlt | hge
  · exact absurd (h.below n entry hlt hget) (not_le.mpr he)
  · exact absurd (h.above n entry hge hget) (not_lt.mpr hb)

theorem lookupOk (hne : ∀ r ∈ entries.map (·.targetRange), r.b < r.e)
    (h : (entries.map (·.targetRange)).Pairwise (fun r s => r.e ≤ s.b)) : LookupOk entries := by
  have hspec (i : Nat) : Found (compare i) entries (lookup entries i) :=
    binarySearchBy_found (ordered_of_ascending i hne h)
  have hinserted (i k : Nat) (hlookup : lookup entries i = .error k) : InsertedAt entries k i := by
    have hfound := hspec i
    rw [hlookup] at hfound
    exact ⟨hfound.1, fun n entry hn hget => compare_eq_lt.mp (hfound.2.1 n entry hn hget),
      fun n entry hn hget => (compare_eq_gt.mp (hfound.2.2 n entry hn hget)).2⟩
  have hcontains (i k : Nat) (hlookup : lookup entries i = .ok k) : ContainsAt entries k i := by
    have hfound := hspec i
    rw [hlookup] at hfound
    obtain ⟨entry, hget, heq⟩ := hfound
    exact ⟨entry, hget, (compare_eq_eq.mp heq).2, (compare_eq_eq.mp heq).1⟩
  refine ⟨fun i k => ⟨hcontains i k, ?_⟩, hinserted⟩
  intro hk
  cases hlookup : lookup entries i with
  | ok k' => rw [containsAt_unique h hk (hcontains i k' hlookup)]
  | error k' => exact absurd hk ((hinserted i k' hlookup).not_containsAt k)

end Lookup

section Layouts

variable {l : ImageLayout}

theorem log2_lt_of_new (h : l.new = .ok l) : l.ioBlockAllocationBlocksLog2.toNat < 64 ∧
    l.authTreeDataBlockAllocationBlocksLog2.toNat < 64 ∧ l.allocationBlockSize128bLog2.toNat + 7 < 64 := by
  obtain ⟨hsize, h⟩ := of_ite_err h
  obtain ⟨hio, h⟩ := of_ite_err h
  obtain ⟨-, h⟩ := of_ite_err h
  obtain ⟨-, h⟩ := of_ite_err h
  obtain ⟨hdata, -⟩ := of_ite_err h
  omega

def applyWritesScript (pr : Profile) (l : ImageLayout) : ScriptFormat (Nat × Nat) ApplyWritesScriptEntry :=
  journalApplyWritesScript pr l.ioBlockAllocationBlocksLog2.toNat l.allocationBlockSize128bLog2.toNat

def updateAuthDigestsScript (pr : Profile) (l : ImageLayout) : ScriptFormat Nat BlockRange :=
  journalUpdateAuthDigestsScript pr l.authTreeDataBlockAllocationBlocksLog2.toNat
    l.allocationBlockSize128bLog2.toNat

def trimsScript (pr : Profile) (l : ImageLayout) : ScriptFormat Nat BlockRange :=
  journalTrimsScript pr l.ioBlockAllocationBlocksLog2.toNat l.allocationBlockSize128bLog2.toNat

/-- Ranges of IO Blocks and ranges of authentication tree Data Blocks. -/
def IoBlockRanges (l : ImageLayout) : List BlockRange → Prop :=
  RangesOk l.ioBlockAllocationBlocksLog2.toNat l.allocationBlockSize128bLog2.toNat

def DataBlockRanges (l : ImageLayout) : List BlockRange → Prop :=
  RangesOk l.authTreeDataBlockAllocationBlocksLog2.toNat l.allocationBlockSize128bLog2.toNat

def IoBlockCopies (l : ImageLayout) : List ApplyWritesScriptEntry → Prop :=
  ApplyWritesOk l.ioBlockAllocationBlocksLog2.toNat l.allocationBlockSize128bLog2.toNat

/-- All of a journal's scripts decode to what has been encoded, provided that the staging
copies are aligned as well. -/
theorem scripts_roundTrip (pr : Profile) (h : l.new = .ok l) :
    (∀ entries, IoBlockCopies l entries → (applyWritesScript pr l).RoundTrips pr entries) ∧
      (∀ ranges, DataBlockRanges l ranges → (updateAuthDigestsScript pr l).RoundTrips pr ranges) ∧
      ∀ ranges, IoBlockRanges l ranges → (trimsScript pr l).RoundTrips pr ranges := by
  obtain ⟨hio, hdata, hsize⟩ := log2_lt_of_new h
  refine ⟨?_, ?_, ?_⟩
  · intro entries hentries
    exact applyWrites_roundTrips pr hio hsize hentries
  · intro ranges hranges
    exact rangeScript_roundTrips pr _ _ hdata hsize hranges
  · intro ranges hranges
    exact rangeScript_roundTrips pr _ _ hio hsize hranges

def pairLayout : ImageLayout :=
  ⟨2, 1, 0, 2, 0, 0, 0, .sha256, .sha256, .sha256, .sha256, .sha256, .aes128⟩

def alignedEntries : List ApplyWritesScriptEntry := [⟨⟨4, 6⟩, 8⟩, ⟨⟨6, 10⟩, 2⟩]

theorem alignedEntries_ok : IoBlockCopies pairLayout alignedEntries where
  target := ⟨by decide, by decide, by decide, by decide⟩
  staging entry hentry := by
    simp only [alignedEntries, mem_cons, not_mem_nil, or_false] at hentry
    rcases hentry with rfl | rfl
    · exact ⟨by decide, by decide⟩
    · exact ⟨by decide, by decide⟩

theorem alignedEntries_roundTrip : pairLayout.new = .ok pairLayout ∧
    (applyWritesScript .debug pairLayout).RoundTrips .debug alignedEntries :=
  ⟨by decide, (scripts_roundTrip .debug (by decide : pairLayout.new = .ok pairLayout)).1 _ alignedEntries_ok⟩

/-- An odd staging location is rounded down with IO Blocks of two Allocation Blocks. -/
theorem unaligned_staging_not_roundTrip : pairLayout.new = .ok pairLayout ∧
    IoBlockRanges pairLayout ([⟨⟨0, 2⟩, 3⟩].map ApplyWritesScriptEntry.targetRange) ∧
    3 + (2 - 0) ≤ maxAllocationBlocks pairLayout.allocationBlockSize128bLog2.toNat ∧
    ¬(applyWritesScript .debug pairLayout).RoundTrips .debug [⟨⟨0, 2⟩, 3⟩] := by
  refine ⟨by decide, ⟨by decide, by decide, by decide, by decide⟩, by decide, ?_⟩
  rintro ⟨bytes, hlen, hencode, hdecode⟩
  have hlen' : (applyWritesScript .debug pairLayout).encodedLen [⟨⟨0, 2⟩, 3⟩] = .ok 6 := by decide +kernel
  have hencode' : (applyWritesScript .debug pairLayout).encode .debug 6 [⟨⟨0, 2⟩, 3⟩] =
      .ok ([0, 1, 1, 0, 0, 0], 0) := by decide +kernel
  have hsix : bytes.length = 6 := Except.ok.inj (hlen.symm.trans hlen')
  have hbytes : bytes = [0, 1, 1, 0, 0, 0] :=
    congrArg Prod.fst (Except.ok.inj ((hencode 6 hsix.le).symm.trans hencode'))
  obtain ⟨src, hsrc, -⟩ := hdecode [] [bytes] (by simp)
  have hdecoded : (applyWritesScript .debug pairLayout).decode .debug [[0, 1, 1, 0, 0, 0]] =
      .ok ([⟨⟨0, 2⟩, 2⟩], []) := by decide +kernel
  rw [hbytes, hdecoded] at hsrc
  have hentries : [⟨⟨0, 2⟩, 2⟩] = ([⟨⟨0, 2⟩, 3⟩] : List ApplyWritesScriptEntry) :=
    congrArg Prod.fst (Except.ok.inj hsrc)
  exact absurd hentries (by decide)

/-- On any input, malicious or not, decoding neither overflows nor panics otherwise. What
is accepted is a well-formed script, with the lookup by target block working on it. -/
theorem scripts_decode (pr : Profile) (h : l.new = .ok l) (src : List (List Byte)) :
    Returns (fun (entries, _) => IoBlockCopies l entries ∧ LookupOk entries)
        ((applyWritesScript pr l).decode pr src) ∧
      Returns (fun (ranges, _) => DataBlockRanges l ranges) ((updateAuthDigestsScript pr l).decode pr src) ∧
      Returns (fun (ranges, _) => IoBlockRanges l ranges) ((trimsScript pr l).decode pr src) := by
  obtain ⟨hio, hdata, hsize⟩ := log2_lt_of_new h
  refine ⟨?_, ?_, ?_⟩
  · apply returns_mono (applyWrites_decode pr hio hsize src)
    rintro ⟨entries, src'⟩ hentries
    exact ⟨hentries, lookupOk hentries.target.nonempty hentries.target.ascending⟩
  · exact rangeScript_decode pr _ _ hdata hsize src
  · exact rangeScript_decode pr _ _ hio hsize src

theorem scripts_decode_pairLayout : pairLayout.new = .ok pairLayout ∧
    Returns (fun (entries, _) => IoBlockCopies pairLayout entries ∧ LookupOk entries)
      ((applyWritesScript .debug pairLayout).decode .debug [[2, 4], [1, 0], [0x7c, 2, 0, 0, 0, 0x55]]) ∧
    (applyWritesScript .debug pairLayout).decode .debug [[2, 4], [1, 0], [0x7c, 2, 0, 0, 0, 0x55]] =
      .ok (alignedEntries, [[0x55]]) :=
  ⟨by decide, (scripts_decode .debug (by decide : pairLayout.new = .ok pairLayout) _).1, by decide +kernel⟩

end Layouts

end CocoonFs.ScriptCodec
