import TtBhLinux.L2cpu.Windows
import TtBhLinux.Virtio.Registers
import Mathlib.Tactic.FinCases
import Mathlib.Tactic.Ring

/-!
# Both ways to the memory of an L2CPU

The virtio devices go through the two stacked 4 GiB windows, everything else through a 2 MiB window
of its own.
-/

namespace TtBhLinux.L2cpu
open Common

theorem mapTlb_inside (host : HostMap) (config : NocTlbConfig) {base p : U64} {size : Nat}
    (inside : InRegion base size p) :
    host.mapTlb config base size p =
      some ⟨⟨config.xEnd, config.yEnd⟩, config.addr + (p - base)⟩ := by
  rw [HostMap.mapTlb, if_pos inside]

theorem mapTlb_outside (host : HostMap) (config : NocTlbConfig) {base p : U64} {size : Nat}
    (outside : ¬InRegion base size p) : host.mapTlb config base size p = host p := by
  rw [HostMap.mapTlb, if_neg outside]

theorem masked_add_offset (addr mask : U64) : (addr &&& ~~~mask) + (addr &&& mask) = addr := by
  rw [BitVec.add_eq_or_of_and_eq_zero]
  · ext i
    simp only [BitVec.getElem_or, BitVec.getElem_and, BitVec.getElem_not]
    cases addr[i] <;> cases mask[i] <;> rfl
  · ext i
    simp only [BitVec.getElem_and, BitVec.getElem_not]
    cases addr[i] <;> cases mask[i] <;> simp

theorem offset_lt {size : U64} (positive : 0 < size.toNat) (addr : U64) :
    (addr &&& (size - 1)).toNat < size.toNat := by
  have below : (addr &&& (size - 1)).toNat ≤ (size - 1).toNat := by
    rw [BitVec.toNat_and]
    exact Nat.and_le_right
  have pred : (size - 1).toNat = size.toNat - 1 :=
    BitVec.toNat_sub_of_le (by rw [BitVec.le_def]; exact positive)
  omega

theorem getWindow_sub (size : U64) (coordinates : Xy) (addr base j : U64) :
    (TlbWindow.new size coordinates addr base).getWindow + j - base =
      (addr &&& (size - 1)) + j := by
  rw [TlbWindow.getWindow, TlbWindow.new]
  ring

theorem window_inside {size : U64} (coordinates : Xy) (addr base j : U64)
    (within : ((addr &&& (size - 1)) + j).toNat < size.toNat) :
    InRegion base size.toNat ((TlbWindow.new size coordinates addr base).getWindow + j) := by
  rw [InRegion, getWindow_sub]
  exact within

theorem window_shows {size : U64} (coordinates : Xy) (addr base j : U64) (host : HostMap)
    (within : ((addr &&& (size - 1)) + j).toNat < size.toNat) :
    (TlbWindow.new size coordinates addr base).map host
      ((TlbWindow.new size coordinates addr base).getWindow + j) =
        some ⟨coordinates, addr + j⟩ := by
  have shown := mapTlb_inside host (TlbWindow.new size coordinates addr base).config
    (window_inside coordinates addr base j within)
  rw [getWindow_sub] at shown
  have split : (addr &&& ~~~(size - 1)) + ((addr &&& (size - 1)) + j) = addr + j := by
    rw [← BitVec.add_assoc, masked_add_offset]
  simp only [TlbWindow.new, split] at shown
  exact shown

/-! ## The stacked windows -/

theorem memory_within (idx : Fin 4) : 2 ^ 46 ≤ (l2cpuStartingAddressMapping idx).toNat ∧
    (l2cpuStartingAddressMapping idx).toNat + (l2cpuMemorySizeMapping idx).toNat ≤
      2 ^ 46 + 2 ^ 33 := by
  fin_cases idx <;> decide

theorem stacked_shows (idx : Fin 4) (memory d : U64) (host : HostMap) (within : d.toNat < 2 ^ 33) :
    (L2CPU.new idx memory).map host (memory + d) =
      some ⟨l2cpuTileMapping idx, 0x400000000000 + d⟩ := by
  have size : fourGig.toNat = 2 ^ 32 := rfl
  have offset : memory + d - memory = d := by ring
  have offset' : memory + d - (memory + fourGig) = d - fourGig := by ring
  by_cases lower : d.toNat < 2 ^ 32
  · have inside : InRegion memory fourGig.toNat (memory + d) := by
      rw [InRegion, offset, size]
      exact lower
    have outside : ¬InRegion (memory + fourGig) fourGig.toNat (memory + d) := by
      rw [InRegion, offset', BitVec.toNat_sub, size]
      omega
    have second := mapTlb_outside ((L2CPU.new idx memory).first.map
      (host.reserve memory (2 <<< 32))) (L2CPU.new idx memory).second.config outside
    have first := mapTlb_inside (host.reserve memory (2 <<< 32))
      (L2CPU.new idx memory).first.config inside
    rw [offset] at first
    exact second.trans first
  · have inside : InRegion (memory + fourGig) fourGig.toNat (memory + d) := by
      rw [InRegion, offset', BitVec.toNat_sub, size]
      omega
    have second := mapTlb_inside ((L2CPU.new idx memory).first.map
      (host.reserve memory (2 <<< 32))) (L2CPU.new idx memory).second.config inside
    have base : (L2CPU.new idx memory).second.config.addr + (d - fourGig) =
        0x400000000000 + d := by
      have upper : (L2CPU.new idx memory).second.config.addr = 0x400000000000 + fourGig := rfl
      rw [upper]
      ring
    rw [offset', base] at second
    exact second

/-! ## Agreement -/

section Agreement
variable (idx : Fin 4) (memory : U64) (host : HostMap) (device : Virtio.Config)

theorem hostPointer_shows (a j : U64)
    (from_start : (l2cpuStartingAddressMapping idx).toNat ≤ a.toNat)
    (inside : a.toNat + j.toNat < (l2cpuStartingAddressMapping idx).toNat +
      (l2cpuMemorySizeMapping idx).toNat)
    (memory_eq : device.memory = (L2CPU.new idx memory).getMemoryPtr)
    (start_eq : device.startingAddress = (L2CPU.new idx memory).startingAddress) :
    InRegion memory (2 <<< 32) (device.hostPointer a + j) ∧
      (L2CPU.new idx memory).map host (device.hostPointer a + j) =
        some ⟨l2cpuTileMapping idx, a + j⟩ := by
  have ⟨lower, upper⟩ := memory_within idx
  have sum : (a + j).toNat = a.toNat + j.toNat := by
    rw [BitVec.toNat_add]
    omega
  have seam : (0x400000000000 : U64).toNat = 2 ^ 46 := rfl
  have within : (a + j - 0x400000000000).toNat < 2 ^ 33 := by
    rw [BitVec.toNat_sub_of_le (by rw [BitVec.le_def]; omega)]
    omega
  have pointer : device.hostPointer a + j = memory + (a + j - 0x400000000000) := by
    rw [Virtio.Config.hostPointer, memory_eq, start_eq, L2CPU.getMemoryPtr, L2CPU.new]
    ring
  rw [pointer]
  constructor
  · have offset : memory + (a + j - 0x400000000000) - memory = a + j - 0x400000000000 := by ring
    rw [InRegion, offset]
    exact within
  · rw [stacked_shows idx memory _ host within]
    have back : 0x400000000000 + (a + j - 0x400000000000) = a + j := by ring
    rw [back]

theorem memory_ptr_agrees (a base : U64) (len k : Nat) (lt : k < len)
    (from_start : (L2CPU.new idx memory).startingAddress.toNat ≤ a.toNat)
    (inside : a.toNat + len ≤ (L2CPU.new idx memory).startingAddress.toNat +
      (L2CPU.new idx memory).memorySize.toNat)
    (memory_eq : device.memory = (L2CPU.new idx memory).getMemoryPtr)
    (start_eq : device.startingAddress = (L2CPU.new idx memory).startingAddress)
    (apart : Apart base twoMeg.toNat memory (2 <<< 32)) :
    let cpu := L2CPU.new idx memory
    let window := cpu.getPersistent2MTlbWindow (a + .ofNat 64 k) base
    let seen := window.map (cpu.map host)
    seen (device.hostPointer a + .ofNat 64 k) = some ⟨cpu.coordinates, a + .ofNat 64 k⟩ ∧
      seen window.getWindow = some ⟨cpu.coordinates, a + .ofNat 64 k⟩ := by
  intro cpu window seen
  have ⟨_, upper⟩ := memory_within idx
  have small : (BitVec.ofNat 64 k).toNat = k := by
    rw [BitVec.toNat_ofNat, Nat.mod_eq_of_lt]
    exact lt_of_lt_of_le lt (by
      have : (L2CPU.new idx memory).startingAddress.toNat +
        (L2CPU.new idx memory).memorySize.toNat ≤ 2 ^ 46 + 2 ^ 33 := upper
      omega)
  obtain ⟨reserved, shown⟩ := hostPointer_shows idx memory host device a (.ofNat 64 k) from_start
    (by rw [small]; exact lt_of_lt_of_le (by omega) inside) memory_eq start_eq
  constructor
  · have outside : ¬InRegion base twoMeg.toNat (device.hostPointer a + .ofNat 64 k) :=
      fun inside => apart _ inside reserved
    exact (mapTlb_outside _ _ outside).trans shown
  · have first := @window_shows twoMeg cpu.coordinates (a + .ofNat 64 k) base 0
      (cpu.map host) (by rw [add_zero]; exact offset_lt (by decide) _)
    rw [add_zero, add_zero] at first
    exact first

/-- The two words that `TestMemoryPtr` compares. -/
theorem read32_memory_ptr (tiles : TileByte → U8) (a base : U64) (aligned : a % 4 = 0)
    (from_start : (L2CPU.new idx memory).startingAddress.toNat ≤ a.toNat)
    (inside : a.toNat + 4 ≤ (L2CPU.new idx memory).startingAddress.toNat +
      (L2CPU.new idx memory).memorySize.toNat)
    (memory_eq : device.memory = (L2CPU.new idx memory).getMemoryPtr)
    (start_eq : device.startingAddress = (L2CPU.new idx memory).startingAddress)
    (apart : Apart base twoMeg.toNat memory (2 <<< 32)) :
    let cpu := L2CPU.new idx memory
    let seen := (cpu.getPersistent2MTlbWindow a base).map (cpu.map host)
    let mem := fun p => (seen p).elim 0 tiles
    cpu.read32 a base mem = some (loadU32 mem (device.hostPointer a)) := by
  intro cpu seen mem
  have offset : (a &&& (twoMeg - 1)).toNat = a.toNat % 2 ^ 21 := by
    rw [BitVec.toNat_and]
    exact Nat.and_two_pow_sub_one_eq_mod _ 21
  have four : a.toNat % 4 = 0 := congrArg BitVec.toNat aligned
  have size : twoMeg.toNat = 2 ^ 21 := rfl
  have same (j : U64) (lt : j.toNat < 4) :
      mem ((cpu.getPersistent2MTlbWindow a base).getWindow + j) =
        mem (device.hostPointer a + j) := by
    have first := @window_shows twoMeg cpu.coordinates a base j (cpu.map host)
      (by rw [BitVec.toNat_add, offset, size]; omega)
    obtain ⟨reserved, second⟩ := hostPointer_shows idx memory host device a j from_start
      (lt_of_lt_of_le (by omega) inside) memory_eq start_eq
    have outside : ¬InRegion base twoMeg.toNat (device.hostPointer a + j) :=
      fun inside => apart _ inside reserved
    have second := (mapTlb_outside _ (cpu.getPersistent2MTlbWindow a base).config outside).trans
      second
    exact congrArg (Option.elim · 0 tiles) (first.trans second.symm)
  have passes : (cpu.getPersistent2MTlbWindow a base).offset + 0 + 4 ≤ twoMeg ∧
      ((cpu.getPersistent2MTlbWindow a base).offset + 0) % 4 = 0 := by
    have four_toNat : (4 : U64).toNat = 4 := rfl
    rw [add_zero, show (cpu.getPersistent2MTlbWindow a base).offset = a &&& (twoMeg - 1) from rfl]
    constructor
    · rw [BitVec.le_def, BitVec.toNat_add, offset, size, four_toNat]
      omega
    · apply BitVec.eq_of_toNat_eq
      rw [BitVec.toNat_umod, offset, four_toNat]
      exact Nat.mod_mod_of_dvd _ (by decide) |>.trans four
  rw [L2CPU.read32, TlbWindow.read32, if_pos passes, add_zero]
  have zero := same 0 (by decide)
  rw [add_zero, add_zero] at zero
  have words : loadU32 mem (cpu.getPersistent2MTlbWindow a base).getWindow =
      loadU32 mem (device.hostPointer a) := by
    rw [loadU32, loadU32, same 3 (by decide), same 2 (by decide), same 1 (by decide), zero]
  exact congrArg some words

end Agreement

/-- Byte 2 of a range that starts just below the seam of the two windows of L2CPU 0. -/
theorem memory_ptr_agrees_seam :
    let cpu := L2CPU.new 0 0x7f0000000000
    let device := Virtio.virtioBlk cpu.startingAddress cpu.getMemoryPtr 33
    let window := cpu.getPersistent2MTlbWindow (0x4000fffffffe + .ofNat 64 2) 0x7e0000000000
    let seen := window.map (cpu.map fun _ => none)
    seen (device.hostPointer 0x4000fffffffe + .ofNat 64 2) =
        some ⟨cpu.coordinates, 0x4000fffffffe + .ofNat 64 2⟩ ∧
      seen window.getWindow = some ⟨cpu.coordinates, 0x4000fffffffe + .ofNat 64 2⟩ := by
  apply memory_ptr_agrees 0 0x7f0000000000 (fun _ => none) _ 0x4000fffffffe 0x7e0000000000 4 2
  · decide
  · decide
  · decide
  · rfl
  · rfl
  · exact apart_of_le (by decide) (by decide)

end TtBhLinux.L2cpu
