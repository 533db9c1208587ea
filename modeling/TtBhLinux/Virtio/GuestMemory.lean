import TtBhLinux.Disk.Footprint
import TtBhLinux.L2cpu.MemoryPtr
import TtBhLinux.Network.Footprint
import TtBhLinux.Virtio.Reset
import TtBhLinux.Virtio.Translation

/-!
# The memory of the guest

`L2CPU` maps 8 GiB from guest address 0x400000000000 on. The devices never compare an address with
the ends of that region.
-/

namespace TtBhLinux.Virtio
open Common L2cpu

section
variable {σ ρ : Type*} {dev : Device σ ρ}

def AccessesMapped (fp : Footprint dev) (c : Config) (cpu : L2CPU) (result : ρ) (t : Tracked σ) :
    Prop :=
  ∀ range ∈ t.accesses fp c result, range.Inside cpu.memory (2 <<< 32)

def SuppliedMapped (fp : Footprint dev) (c : Config) (result : ρ) (t : Tracked σ) : Prop :=
  ∀ range ∈ t.supplied fp c result, range.Within 0x400000000000 0x400200000000

theorem mapped_iff (fp : Footprint dev) {c : Config} (positive : 0 < c.queueHeaderSize)
    (idx : Fin 4) (memory : U64) (memory_eq : c.memory = (L2CPU.new idx memory).getMemoryPtr)
    (start_eq : c.startingAddress = (L2CPU.new idx memory).startingAddress) {t : Tracked σ}
    (reachable : (tracked dev c).Reachable t) (result : ρ) :
    AccessesMapped fp c (L2CPU.new idx memory) result t ↔ SuppliedMapped fp c result t := by
  have moved : 0x400000000000 + c.distance = (L2CPU.new idx memory).memory := by
    rw [Config.distance, memory_eq, start_eq, L2CPU.getMemoryPtr]
    ring
  have inv : TrackedInv fp c t := tracked_inv positive reachable
  have inside := inv.inside_iff result 0x400000000000 (2 <<< 32)
  rw [moved] at inside
  exact inside.trans (forall₂_congr fun range _ => Range.inside_iff (by decide))

end

/-- No other address is checked, and no address that lies in the region is turned down. -/
theorem accesses_mapped_iff (idx : Fin 4) (memory : U64) (interruptNumber : Nat) :
    let cpu := L2CPU.new idx memory
    let blk := virtioBlk cpu.startingAddress cpu.getMemoryPtr interruptNumber
    let net := virtioNet cpu.startingAddress cpu.getMemoryPtr interruptNumber
    (∀ fileSize t, (tracked (Disk.virtioBlkDevice fileSize) blk).Reachable t → ∀ result,
      (AccessesMapped (Disk.blkFootprint fileSize) blk cpu result t ↔
        SuppliedMapped (Disk.blkFootprint fileSize) blk result t)) ∧
    ∀ t, (tracked (Network.virtioNetDevice net.queueHeaderSize) net).Reachable t → ∀ result,
      (AccessesMapped (Network.netFootprint net.queueHeaderSize) net cpu result t ↔
        SuppliedMapped (Network.netFootprint net.queueHeaderSize) net result t) := by
  intro cpu blk net
  have blk_header : 0 < blk.queueHeaderSize := by
    show (0 : U64) < 16
    decide
  have net_header : 0 < net.queueHeaderSize := by
    show (0 : U64) < 12
    decide
  constructor
  · intro fileSize t reachable result
    exact mapped_iff _ blk_header idx memory rfl rfl reachable result
  · intro t reachable result
    exact mapped_iff _ net_header idx memory rfl rfl reachable result

/-! ## Rings in and outside of the memory of L2CPU 0 -/

def cpuAt (idx : Fin 4) : L2CPU := .new idx 0x7f0000000000

def blkAt (idx : Fin 4) : Config :=
  virtioBlk (cpuAt idx).startingAddress (cpuAt idx).getMemoryPtr 33

def trackedStart : Tracked Disk.VirtioBlk := ⟨threadStart, .start, 0, 0⟩

def mappedShared : Shared :=
  { resetShared 0 with regs := { (resetShared 0).regs with
    queueHigh _ := 0x4000
    queueLow _ := 0x40000000 } }

def bringUpAt (shared : Shared) : List (ThreadLabel Disk.VirtioBlk Unit) :=
  [.construct ⟨0, fun _ => 0⟩, .storeStatus 2] ++ threadSteps 1 ++ [.storeStatus 10] ++
    threadSteps 3 ++ [.guest shared] ++ threadSteps 11 ++ [.storeStatus 14] ++ threadSteps 5

theorem accesses_mapped_ring :
    ∃ t, (tracked (Disk.virtioBlkDevice 0) (blkAt 0)).run (bringUpAt mappedShared)
        trackedStart = some t ∧
      t.accesses (Disk.blkFootprint 0) (blkAt 0) () ≠ [] ∧
      AccessesMapped (Disk.blkFootprint 0) (blkAt 0) (cpuAt 0) () t := by
  have run : ∃ t, (tracked (Disk.virtioBlkDevice 0) (blkAt 0)).run (bringUpAt mappedShared)
      trackedStart = some t ∧
      t.accesses (Disk.blkFootprint 0) (blkAt 0) () ≠ [] ∧
      t.supplied (Disk.blkFootprint 0) (blkAt 0) () = [⟨0x400040000002, 2⟩] :=
    ⟨_, rfl, List.cons_ne_nil _ _, rfl⟩
  obtain ⟨t, action, nonempty, supplied⟩ := run
  have initial : (tracked (Disk.virtioBlkDevice 0) (blkAt 0)).Reachable trackedStart :=
    .start ⟨rfl, rfl⟩
  refine ⟨t, action, nonempty, ((accesses_mapped_iff 0 0x7f0000000000 33).1 0 t
    (initial.run _ action) ()).mpr ?_⟩
  show SuppliedMapped (Disk.blkFootprint 0) (blkAt 0) () t
  rw [SuppliedMapped, supplied]
  decide

/-- An avail ring at address 0 lies far below the region. -/
theorem ring_outside :
    ¬∀ t, (tracked (Disk.virtioBlkDevice 0) (blkAt 0)).Reachable t →
      AccessesMapped (Disk.blkFootprint 0) (blkAt 0) (cpuAt 0) () t := by
  intro mapped
  have run : ∃ t, (tracked (Disk.virtioBlkDevice 0) (blkAt 0)).run (bringUpAt (resetShared 0))
      trackedStart = some t ∧
      t.accesses (Disk.blkFootprint 0) (blkAt 0) () = [⟨0x7f0000000000 - 0x400000000000 + 2, 2⟩] :=
    ⟨_, rfl, rfl⟩
  obtain ⟨t, action, accesses⟩ := run
  have initial : (tracked (Disk.virtioBlkDevice 0) (blkAt 0)).Reachable trackedStart :=
    .start ⟨rfl, rfl⟩
  have inside := mapped t (initial.run _ action)
  rw [AccessesMapped, accesses] at inside
  exact absurd (inside _ List.mem_cons_self 0 (by decide)) (by decide)

end TtBhLinux.Virtio
