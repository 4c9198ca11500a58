import CocoonFs.BlockRuns
import CocoonFs.Checked

namespace CocoonFs.UpdateStates

open BlockRuns

/-- AllocationBlockUpdateNvSyncState -/
inductive NvSyncState where
  | allocatedUnmodified
  | allocatedModified
  | unallocated
  deriving DecidableEq, Repr

/-- AllocationBlockUpdateStagedUpdate -/
inductive StagedUpdate where
  | none
  | deallocate
  | update
  | failedUpdate
  deriving DecidableEq, Repr

structure AllocationBlockUpdateState where
  nvSyncState : NvSyncState
  stagedUpdate : StagedUpdate
  deriving DecidableEq, Repr

def AllocationBlockUpdateState.hasModifiedData (s : AllocationBlockUpdateState) : Bool :=
  match s.stagedUpdate, s.nvSyncState with
  | .update, _ => true
  | .failedUpdate, _ => true
  | _, .allocatedModified => true
  | _, _ => false

structure AuthTreeDataBlockUpdateState where
  targetAllocationBlocksBegin : Nat
  journalStagingCopyAllocationBlocksBegin : Option Nat
  allocationBlocksStates : List AllocationBlockUpdateState
  authDigest : Option (List UInt8)
  deriving DecidableEq, Repr

/-- The states are in order of their targets, which are Data Blocks within the
image. -/
structure Ordered (dataLog2 : Nat) (states : List AuthTreeDataBlockUpdateState) : Prop where
  ascending : states.Pairwise (fun s t => s.targetAllocationBlocksBegin < t.targetAllocationBlocksBegin)
  aligned : ∀ s ∈ states, 2 ^ dataLog2 ∣ s.targetAllocationBlocksBegin
  complete : ∀ s ∈ states, s.allocationBlocksStates.length = 2 ^ dataLog2
  in_image : ∀ s ∈ states, s.targetAllocationBlocksBegin + 2 ^ dataLog2 ≤ 2 ^ 57

structure AuthTreeDataBlocksUpdateStates (dataLog2 : Nat) where
  states : List AuthTreeDataBlockUpdateState
  ordered : Ordered dataLog2 states

theorem Ordered.of_suffix {dataLog2 : Nat} {states rest : List AuthTreeDataBlockUpdateState}
    (h : Ordered dataLog2 states) (hsuffix : rest <:+ states) : Ordered dataLog2 rest where
  ascending := h.ascending.sublist hsuffix.sublist
  aligned := fun s hs => h.aligned s (hsuffix.subset hs)
  complete := fun s hs => h.complete s (hsuffix.subset hs)
  in_image := fun s hs => h.in_image s (hsuffix.subset hs)

section Order

variable {dataLog2 : Nat} {states : List AuthTreeDataBlockUpdateState}

variable {s t : AuthTreeDataBlockUpdateState} {j k : Nat}

section

variable (h : Ordered dataLog2 states) (hs : states[j]? = some s) (ht : states[k]? = some t)
include h hs ht

theorem Ordered.lt_of_lt (hjk : j < k) :
    s.targetAllocationBlocksBegin < t.targetAllocationBlocksBegin := by
  obtain ⟨hj, rfl⟩ := List.getElem?_eq_some_iff.mp hs
  obtain ⟨hk, rfl⟩ := List.getElem?_eq_some_iff.mp ht
  exact List.pairwise_iff_getElem.mp h.ascending j k hj hk hjk

theorem Ordered.le_of_le (hjk : j ≤ k) :
    s.targetAllocationBlocksBegin ≤ t.targetAllocationBlocksBegin := by
  rcases Nat.eq_or_lt_of_le hjk with rfl | hlt
  · rw [Option.some.inj (hs.symm.trans ht)]
  · exact (h.lt_of_lt hs ht hlt).le

theorem Ordered.index_le
    (hst : s.targetAllocationBlocksBegin ≤ t.targetAllocationBlocksBegin) : j ≤ k := by
  by_contra hlt
  have hts := h.lt_of_lt ht hs (Nat.lt_of_not_le hlt)
  omega

end

section

variable (h : Ordered dataLog2 states) (hs : s ∈ states) (ht : t ∈ states)
include h hs ht

theorem Ordered.eq_of_target_eq
    (hst : s.targetAllocationBlocksBegin = t.targetAllocationBlocksBegin) : s = t := by
  obtain ⟨j, hj⟩ := List.mem_iff_getElem?.mp hs
  obtain ⟨k, hk⟩ := List.mem_iff_getElem?.mp ht
  obtain rfl := Nat.le_antisymm (h.index_le hj hk hst.le) (h.index_le hk hj hst.ge)
  exact Option.some.inj (hj.symm.trans hk)

theorem Ordered.eq_of_tracks {p : Nat} (hsp : s.targetAllocationBlocksBegin ≤ p)
    (hps : p < s.targetAllocationBlocksBegin + 2 ^ dataLog2) (htp : t.targetAllocationBlocksBegin ≤ p)
    (hpt : p < t.targetAllocationBlocksBegin + 2 ^ dataLog2) : s = t := by
  apply h.eq_of_target_eq hs ht
  rcases Nat.lt_trichotomy s.targetAllocationBlocksBegin t.targetAllocationBlocksBegin with
    hlt | heq | hgt
  · have hle := add_le_of_lt_of_dvd (h.aligned s hs) (h.aligned t ht) hlt
    omega
  · exact heq
  · have hle := add_le_of_lt_of_dvd (h.aligned t ht) (h.aligned s hs) hgt
    omega

end

end Order

end CocoonFs.UpdateStates
