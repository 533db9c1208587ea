import TtBhLinux.Disk.Refinement
import TtBhLinux.Network.Transmit

/-!
# The length in a used entry

`device_loop` stores the sum of all descriptor lengths of a chain, modulo 2^32, whatever the device
has written.
-/

namespace TtBhLinux.Virtio
open Common Disk Network

structure Processed {σ ρ : Type*} (dev : Device σ ρ) (c : Config) (q : Nat) (answer : Answer ρ)
    (v : Locals σ) (s : Shared) (descs : List Desc) (s' : Shared) : Prop where
  available : v.processed q ≠ (s.queues q).avail.idx
  ready : dev.queueHasData q answer.ready = true
  chain : Chain (s.queues q).desc ((s.queues q).avail.ring (slot (v.processed q))) descs
  visited : ∃ v', visit dev c descs.length q answer v s = .ok (v', s')

def usedLength (q : Nat) (s s' : Shared) : Nat :=
  ((s'.queues q).used.ring (slot (s.queues q).used.idx)).len.toNat

theorem Processed.usedLength {σ ρ : Type*} {dev : Device σ ρ} {c : Config} {q : Nat}
    {answer : Answer ρ} {v : Locals σ} {s s' : Shared} {descs : List Desc}
    (processed : Processed dev c q answer v s descs s') :
    usedLength q s s' = chainLength descs % 2 ^ 32 := by
  obtain ⟨available, ready, chain, v', visited⟩ := processed
  rw [visit_of_chain available ready chain le_rfl] at visited
  obtain ⟨⟨total, work⟩, done, eq⟩ := except_map_ok visited
  obtain ⟨-, rfl⟩ := Prod.mk.inj eq
  have count : total = totalLength descs :=
    (walkList_count (except_mapError_ok done)).trans (BitVec.zero_add _)
  simp only [Virtio.usedLength, setInterrupt_queues, publish_queue, UsedRing.publish_entry,
    BitVec.toNat_setWidth, count, totalLength_toNat]
  exact Nat.mod_mod_of_dvd _ (Nat.pow_dvd_pow 2 (by decide))

/-- When each kind of request gets the number of bytes that the device has produced. -/
theorem used_length_iff (startingAddress memory : U64) (interruptNumber : Nat) (fileSize : U64) :
    (∀ answer v s descs s' data nonempty fits,
      Processed (virtioNetDevice 12) (virtioNet startingAddress memory interruptNumber) 0 answer v s
        descs s' → answer.result = .packet data nonempty fits →
      (usedLength 0 s s' = 12 + data.length ↔ chainLength descs % 2 ^ 32 = 12 + data.length)) ∧
    (∀ answer v s descs s',
      Processed (virtioNetDevice 12) (virtioNet startingAddress memory interruptNumber) 1 answer v s
        descs s' →
      (usedLength 1 s s' = 0 ↔ chainLength descs % 2 ^ 32 = 0)) ∧
    (∀ answer v s header data status s',
      Processed (virtioBlkDevice fileSize) (virtioBlk startingAddress memory interruptNumber) 0
        answer v s (header :: (data ++ [status])) s' →
      header.len = 16 →
      reqType s.mem ((virtioBlk startingAddress memory interruptNumber).addr header) = blkIn →
      (usedLength 0 s s' = chainLength data + 1 ↔
        status.len.toNat = 2 ^ 32 - 15 ∧ chainLength data + 1 < 2 ^ 32)) ∧
    ∀ answer v s header data status s',
      Processed (virtioBlkDevice fileSize) (virtioBlk startingAddress memory interruptNumber) 0
        answer v s (header :: (data ++ [status])) s' →
      header.len = 16 →
      reqType s.mem ((virtioBlk startingAddress memory interruptNumber).addr header) = blkOut →
      (usedLength 0 s s' = 1 ↔ (chainLength data + status.len.toNat + 15) % 2 ^ 32 = 0) := by
  refine ⟨fun _ _ _ _ _ _ _ _ processed _ => ?_, fun _ _ _ _ _ processed => ?_,
    fun _ _ _ header data status _ processed length _ => ?_,
    fun _ _ _ header data status _ processed length _ => ?_⟩
  · rw [processed.usedLength]
  · rw [processed.usedLength]
  · have total : chainLength (header :: (data ++ [status])) =
        16 + (chainLength data + status.len.toNat) := by
      rw [← chainLength_append]
      simp [chainLength, length]
    have bound := status.len.isLt
    rw [processed.usedLength, total]
    omega
  · have total : chainLength (header :: (data ++ [status])) =
        16 + (chainLength data + status.len.toNat) := by
      rw [← chainLength_append]
      simp [chainLength, length]
    rw [processed.usedLength, total]
    omega

/-! ## A packet of four bytes, and a frame of four bytes -/

def postedTable : Nat → Desc := fun _ => ⟨0x1000, 16, 2, 0⟩

def fourBytes : Answer Received := ⟨false, true, .packet [1, 2, 3, 4] (by decide) (by decide)⟩

theorem used_length_exact_buffer :
    ∃ s', Processed (virtioNetDevice 12) (virtioNet 0 0 32) 0 fourBytes idleNet
        (transmitShared postedTable) [postedTable 0] s' ∧
      usedLength 0 (transmitShared postedTable) s' = 12 + 4 := by
  have processed : ∃ s', Processed (virtioNetDevice 12) (virtioNet 0 0 32) 0 fourBytes idleNet
      (transmitShared postedTable) [postedTable 0] s' :=
    ⟨_, by decide, rfl, .last (i := 0) (by decide), _, rfl⟩
  obtain ⟨s', processed⟩ := processed
  exact ⟨s', processed, ((used_length_iff 0 0 32 0).1 _ _ _ _ _ _ _ _ processed rfl).mpr (by decide)⟩

theorem used_length_transmit_wrong :
    ¬∀ (answer : Answer Received) (v : Locals VirtioNet) (s : Shared) (descs : List Desc)
      (s' : Shared), Processed (virtioNetDevice 12) (virtioNet 0 0 32) 1 answer v s descs s' →
      usedLength 1 s s' = 0 := by
  intro right
  have processed : ∃ s', Processed (virtioNetDevice 12) (virtioNet 0 0 32) 1 noPacket idleNet
      (transmitShared splitTable) [splitTable 0, splitTable 1] s' :=
    ⟨_, by decide, rfl, .next (i := 0) (by decide) (.last (i := 1) (by decide)), _, rfl⟩
  obtain ⟨s', processed⟩ := processed
  have stored := right _ _ _ _ _ processed
  rw [processed.usedLength] at stored
  exact absurd stored (by decide)

end TtBhLinux.Virtio
