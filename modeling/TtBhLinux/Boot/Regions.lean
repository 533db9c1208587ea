import TtBhLinux.Boot.DeviceTree
import TtBhLinux.L2cpu.Windows

/-!
# Virtio regions at boot time and at run time

`boot.py` adds four nodes below the end of memory and reserves 6 MiB there, enough for three.
-/

namespace TtBhLinux.Boot
open Common L2cpu

/-! ## What the script adds -/

structure Region where
  addr : Nat
  size : Nat
  deriving DecidableEq

def Region.Disjoint (a b : Region) : Prop := a.addr + a.size ≤ b.addr ∨ b.addr + b.size ≤ a.addr

def Region.Within (a b : Region) : Prop := b.addr ≤ a.addr ∧ a.addr + a.size ≤ b.addr + b.size

instance (a b : Region) : Decidable (a.Within b) := inferInstanceAs (Decidable (_ ∧ _))

def Node.region (node : Node) : Option Region :=
  match (node.props.lookup "reg").map unpackQQ with
  | some (.ok (addr, size)) => some ⟨addr, size⟩
  | _ => none

def Node.interrupt (node : Node) : Option Nat := (node.props.lookup "interrupts").map ofBytes

/-! ## What main of tt-bh-linux serves -/

structure Served where
  mmio_region_offset : U64
  interrupt_number : Nat

def servedDevices (cloudInit : Bool) : List Served :=
  [⟨2 * 1024 * 1024, 33⟩, ⟨4 * 1024 * 1024, 32⟩] ++
    if cloudInit then [⟨6 * 1024 * 1024, 31⟩] else []

def Served.address (served : Served) (cpu : L2CPU) : U64 :=
  cpu.startingAddress + cpu.memorySize - served.mmio_region_offset

/-! ## Agreement -/

structure NodesAgree (mem_start mem_size : Nat) (patch : Patch) : Prop where
  disjoint : (patch.virtio.filterMap Node.region).Pairwise Region.Disjoint
  inside : ∀ node ∈ patch.virtio, ∃ region, node.region = some region ∧
    region.Within ⟨mem_start, mem_size⟩
  served : ∀ (idx : Fin 4) (memory : U64), let cpu := L2CPU.new idx memory
    mem_start + mem_size = cpu.startingAddress.toNat + cpu.memorySize.toNat →
    ∀ cloudInit, ∀ device ∈ servedDevices cloudInit, ∃ node,
      (patch.virtio.filter fun node =>
        node.region.map Region.addr = some (device.address cpu).toNat) = [node] ∧
      node.interrupt = some device.interrupt_number

def Patch.Reserves (patch : Patch) (node : Node) : Prop :=
  ∃ region reserved, node.region = some region ∧ patch.virtioReserved.region = some reserved ∧
    region.Within reserved

structure ViewsAgree (mem_start mem_size : Nat) (patch : Patch) : Prop
    extends NodesAgree mem_start mem_size patch where
  reserved : ∀ node ∈ patch.virtio, patch.Reserves node

theorem bind_ok {ε α β : Type} {x : Except ε α} {f : α → Except ε β} {b : β}
    (h : x >>= f = .ok b) : ∃ a, x = .ok a ∧ f a = .ok b := by
  cases x with
  | error e => cases h
  | ok a => exact ⟨a, rfl, h⟩

theorem unpackQQ_packQQ {first second : Nat} {bytes : List U8}
    (packed : packQQ first second = .ok bytes) : unpackQQ bytes = .ok (first, second) := by
  unfold packQQ at packed
  split at packed
  · rename_i fits
    cases packed
    have low : first < 256 ^ 8 := by omega
    have high : second < 256 ^ 8 := by omega
    rw [unpackQQ, if_pos (by simp)]
    simp only [Int.toNat_natCast, List.take_left' (toBytes_length 8 first),
      List.drop_left' (toBytes_length 8 first), ofBytes_toBytes low, ofBytes_toBytes high]
  · cases packed

theorem packI_ok {value : Nat} {bytes : List U8} (packed : packI value = .ok bytes) :
    ofBytes bytes = value := by
  unfold packI at packed
  split at packed
  · cases packed
    rw [Int.toNat_natCast]
    exact ofBytes_toBytes (by omega)
  · cases packed

structure IsVirtio (mem_end i : Nat) (node : Node) : Prop where
  region : node.region = some ⟨mem_end - 0x200000 * (i + 1), 0x200000⟩
  interrupt : node.interrupt = some (33 - i)

theorem virtioNode_ok {mem_end plic_phandle i : Nat} {node : Node}
    (above : 0x200000 * (i + 1) ≤ mem_end) (few : i ≤ 33)
    (added : virtioNode mem_end plic_phandle i = .ok node) : IsVirtio mem_end i node := by
  obtain ⟨virtio_reg, reg, added⟩ := bind_ok added
  obtain ⟨interrupts, irq, added⟩ := bind_ok added
  obtain ⟨interruptParent, -, added⟩ := bind_ok added
  cases Except.ok.inj added
  have addr : (mem_end : Int) - 0x200000 * ((i : Int) + 1) =
      ((mem_end - 0x200000 * (i + 1) : Nat) : Int) := by omega
  have line : (33 : Int) - i = ((33 - i : Nat) : Int) := by omega
  rw [addr] at reg
  rw [line] at irq
  constructor
  · rw [Node.region, show List.lookup "reg" _ = some virtio_reg from rfl, Option.map_some,
      unpackQQ_packQQ reg]
  · rw [Node.interrupt, show List.lookup "interrupts" _ = some interrupts from rfl,
      Option.map_some, packI_ok irq]

theorem virtioReservedNode_ok {mem_end : Nat} {node : Node} (above : 0x600000 ≤ mem_end)
    (added : virtioReservedNode mem_end = .ok node) :
    node.region = some ⟨mem_end - 0x600000, 0x600000⟩ := by
  obtain ⟨reserved_reg, reg, added⟩ := bind_ok added
  cases Except.ok.inj added
  have addr : (mem_end : Int) - 0x600000 = ((mem_end - 0x600000 : Nat) : Int) := by omega
  rw [addr] at reg
  rw [Node.region, show List.lookup "reg" _ = some reserved_reg from rfl, Option.map_some,
    unpackQQ_packQQ reg]

theorem patchVirtio_ok {fdt : Libfdt} {patch : Patch} {mem_start mem_size : Nat}
    (mem : unpackQQ fdt.reg = .ok (mem_start, mem_size)) (patched : patchVirtio fdt = .ok patch) :
    virtioReservedNode (mem_start + mem_size : Nat) = .ok patch.virtioReserved ∧
      ∃ plic_phandle, [3, 2, 1, 0].mapM (virtioNode (mem_start + mem_size : Nat) plic_phandle) =
        .ok patch.virtio := by
  obtain ⟨_, -, patched⟩ := bind_ok patched
  obtain ⟨_, same, patched⟩ := bind_ok patched
  cases mem.symm.trans same
  obtain ⟨_, -, patched⟩ := bind_ok patched
  obtain ⟨_, reserved, patched⟩ := bind_ok patched
  obtain ⟨_, -, patched⟩ := bind_ok patched
  obtain ⟨_, -, patched⟩ := bind_ok patched
  obtain ⟨_, -, patched⟩ := bind_ok patched
  obtain ⟨_, virtio, patched⟩ := bind_ok patched
  cases Except.ok.inj patched
  exact ⟨reserved, _, virtio⟩

theorem virtio_ok {mem_end plic_phandle : Nat} {nodes : List Node} (above : 0x800000 ≤ mem_end)
    (added : [3, 2, 1, 0].mapM (virtioNode mem_end plic_phandle) = .ok nodes) :
    ∃ third second first zeroth, nodes = [third, second, first, zeroth] ∧
      IsVirtio mem_end 3 third ∧ IsVirtio mem_end 2 second ∧ IsVirtio mem_end 1 first ∧
      IsVirtio mem_end 0 zeroth := by
  simp only [List.mapM_cons, List.mapM_nil] at added
  obtain ⟨third, at_3, added⟩ := bind_ok added
  obtain ⟨_, others, added⟩ := bind_ok added
  cases Except.ok.inj added
  obtain ⟨second, at_2, others⟩ := bind_ok others
  obtain ⟨_, rest, others⟩ := bind_ok others
  cases Except.ok.inj others
  obtain ⟨first, at_1, rest⟩ := bind_ok rest
  obtain ⟨_, last, rest⟩ := bind_ok rest
  cases Except.ok.inj rest
  obtain ⟨zeroth, at_0, last⟩ := bind_ok last
  obtain ⟨_, nil, last⟩ := bind_ok last
  cases Except.ok.inj last
  cases Except.ok.inj nil
  exact ⟨third, second, first, zeroth, rfl, virtioNode_ok (by omega) (by omega) at_3,
    virtioNode_ok (by omega) (by omega) at_2, virtioNode_ok (by omega) (by omega) at_1,
    virtioNode_ok (by omega) (by omega) at_0⟩

theorem IsVirtio.at_iff {mem_end i j : Nat} {node : Node} (added : IsVirtio mem_end j node)
    (above : 0x200000 * (i + 1) ≤ mem_end) (above' : 0x200000 * (j + 1) ≤ mem_end) :
    node.region.map Region.addr = some (mem_end - 0x200000 * (i + 1)) ↔ j = i := by
  rw [added.region, Option.map_some, Option.some.injEq]
  dsimp only
  omega

theorem served_ok (idx : Fin 4) (memory : U64) (cloudInit : Bool) {device : Served}
    (member : device ∈ servedDevices cloudInit) :
    ∃ i < 3, (device.address (.new idx memory)).toNat =
        (L2CPU.new idx memory).startingAddress.toNat + (L2CPU.new idx memory).memorySize.toNat -
          0x200000 * (i + 1) ∧
      device.interrupt_number = 33 - i := by
  have address (offset : Fin 3) (idx : Fin 4) : (l2cpuStartingAddressMapping idx +
      l2cpuMemorySizeMapping idx - .ofNat 64 (0x200000 * (offset + 1))).toNat =
        (l2cpuStartingAddressMapping idx).toNat + (l2cpuMemorySizeMapping idx).toNat -
          0x200000 * (offset + 1) := by
    revert offset idx
    decide
  simp only [servedDevices, List.mem_append, List.mem_cons, List.not_mem_nil, or_false] at member
  rcases member with (rfl | rfl) | member
  · exact ⟨0, by omega, address 0 idx, rfl⟩
  · exact ⟨1, by omega, address 1 idx, rfl⟩
  · split at member
    · obtain rfl := List.mem_singleton.mp member
      exact ⟨2, by omega, address 2 idx, rfl⟩
    · cases member

section
variable {mem_start mem_size : Nat} {third second first zeroth : Node}
  (at_3 : IsVirtio (mem_start + mem_size) 3 third)
  (at_2 : IsVirtio (mem_start + mem_size) 2 second)
  (at_1 : IsVirtio (mem_start + mem_size) 1 first)
  (at_0 : IsVirtio (mem_start + mem_size) 0 zeroth)
include at_3 at_2 at_1 at_0

theorem nodes_disjoint (above : 0x800000 ≤ mem_start + mem_size) :
    ([third, second, first, zeroth].filterMap Node.region).Pairwise Region.Disjoint := by
  simp only [List.filterMap_cons, List.filterMap_nil, at_3.region, at_2.region, at_1.region,
    at_0.region, List.pairwise_cons, List.mem_cons, List.not_mem_nil, or_false, forall_eq_or_imp,
    forall_eq, false_implies, implies_true, List.Pairwise.nil, and_true, Region.Disjoint]
  omega

theorem exists_node {i : Nat} (below : i < 3) (above : 0x800000 ≤ mem_start + mem_size) :
    ∃ node, ([third, second, first, zeroth].filter fun node =>
        node.region.map Region.addr = some (mem_start + mem_size - 0x200000 * (i + 1))) = [node] ∧
      node.interrupt = some (33 - i) := by
  have here {j : Nat} {node : Node} (added : IsVirtio (mem_start + mem_size) j node)
      (few : j < 4) :
      node.region.map Region.addr = some (mem_start + mem_size - 0x200000 * (i + 1)) ↔ j = i :=
    added.at_iff (by omega) (by omega)
  simp only [List.filter_cons, List.filter_nil, here at_3 (by omega), here at_2 (by omega),
    here at_1 (by omega), here at_0 (by omega)]
  obtain rfl | rfl | rfl : i = 0 ∨ i = 1 ∨ i = 2 := by omega
  · exact ⟨zeroth, rfl, at_0.interrupt⟩
  · exact ⟨first, rfl, at_1.interrupt⟩
  · exact ⟨second, rfl, at_2.interrupt⟩

end

section
variable {fdt : Libfdt} {patch : Patch} {mem_start mem_size : Nat}
  (mem : unpackQQ fdt.reg = .ok (mem_start, mem_size)) (enough : 0x800000 ≤ mem_size)
  (patched : patchVirtio fdt = .ok patch)
include mem enough patched

theorem patched_nodes :
    patch.virtioReserved.region = some ⟨mem_start + mem_size - 0x600000, 0x600000⟩ ∧
      ∃ third second first zeroth, patch.virtio = [third, second, first, zeroth] ∧
        IsVirtio (mem_start + mem_size) 3 third ∧ IsVirtio (mem_start + mem_size) 2 second ∧
        IsVirtio (mem_start + mem_size) 1 first ∧ IsVirtio (mem_start + mem_size) 0 zeroth := by
  obtain ⟨reserved, plic_phandle, added⟩ := patchVirtio_ok mem patched
  exact ⟨virtioReservedNode_ok (by omega) reserved, virtio_ok (by omega) added⟩

theorem patched_node {node : Node} (member : node ∈ patch.virtio) :
    ∃ i < 4, IsVirtio (mem_start + mem_size) i node := by
  obtain ⟨-, third, second, first, zeroth, nodes, at_3, at_2, at_1, at_0⟩ :=
    patched_nodes mem enough patched
  simp only [nodes, List.mem_cons, List.not_mem_nil, or_false] at member
  rcases member with rfl | rfl | rfl | rfl
  · exact ⟨3, by omega, at_3⟩
  · exact ⟨2, by omega, at_2⟩
  · exact ⟨1, by omega, at_1⟩
  · exact ⟨0, by omega, at_0⟩

theorem reserves_iff {node : Node} (member : node ∈ patch.virtio) :
    patch.Reserves node ↔
      node.region.map Region.addr ≠ some (mem_start + mem_size - 0x800000) := by
  obtain ⟨reserved, -⟩ := patched_nodes mem enough patched
  obtain ⟨i, few, added⟩ := patched_node mem enough patched member
  have fourth := added.at_iff (i := 3) (by omega) (by omega)
  rw [ne_eq, fourth]
  constructor
  · rintro ⟨region, reservation, at_i, same, within⟩
    obtain rfl := Option.some.inj (at_i.symm.trans added.region)
    obtain rfl := Option.some.inj (same.symm.trans reserved)
    unfold Region.Within at within
    dsimp only at within
    omega
  · intro not_last
    refine ⟨_, _, added.region, reserved, ?_⟩
    unfold Region.Within
    dsimp only
    omega

theorem nodes_agree : NodesAgree mem_start mem_size patch := by
  obtain ⟨-, third, second, first, zeroth, nodes, at_3, at_2, at_1, at_0⟩ :=
    patched_nodes mem enough patched
  refine ⟨?_, fun node member => ?_, ?_⟩
  · rw [nodes]
    exact nodes_disjoint at_3 at_2 at_1 at_0 (by omega)
  · obtain ⟨i, few, added⟩ := patched_node mem enough patched member
    refine ⟨_, added.region, ?_⟩
    unfold Region.Within
    dsimp only
    omega
  · intro idx memory cpu ends cloudInit device member
    obtain ⟨i, below, address, line⟩ := served_ok idx memory cloudInit member
    rw [address, line, ← ends, nodes]
    exact exists_node at_3 at_2 at_1 at_0 below (by omega)

theorem not_viewsAgree : ¬ViewsAgree mem_start mem_size patch := by
  obtain ⟨-, third, second, first, zeroth, nodes, at_3, -⟩ := patched_nodes mem enough patched
  intro agree
  have member : third ∈ patch.virtio := by simp [nodes]
  have last := (reserves_iff mem enough patched member).mp (agree.reserved third member)
  have fourth := at_3.at_iff (i := 3) (by omega) (by omega)
  exact last (fourth.mpr rfl)

end

/-- Of the four regions three are reserved, whatever the tree says. -/
theorem fourth_region_unreserved (fdt : Libfdt) (patch : Patch) (mem_start mem_size : Nat)
    (mem : unpackQQ fdt.reg = .ok (mem_start, mem_size)) (enough : 0x800000 ≤ mem_size)
    (patched : patchVirtio fdt = .ok patch) :
    NodesAgree mem_start mem_size patch ∧
      (∀ node ∈ patch.virtio, patch.Reserves node ↔
        node.region.map Region.addr ≠ some (mem_start + mem_size - 0x800000)) ∧
      ¬ViewsAgree mem_start mem_size patch :=
  ⟨nodes_agree mem enough patched, fun _ => reserves_iff mem enough patched,
    not_viewsAgree mem enough patched⟩

/-! ## The memory of L2CPU 0 -/

def libfdt0 : Libfdt where
  pathOffset _ := some 0
  reg := toBytes 8 0x400030000000 ++ toBytes 8 0x100000000
  getPhandle _ := 1
  getMaxPhandle := 1

theorem patched0 : ∃ patch, patchVirtio libfdt0 = .ok patch := ⟨_, rfl⟩

theorem fourth_region_unreserved_l2cpu0 :
    ∃ patch, patchVirtio libfdt0 = .ok patch ∧ NodesAgree 0x400030000000 0x100000000 patch := by
  obtain ⟨patch, patched⟩ := patched0
  exact ⟨patch, patched, (fourth_region_unreserved libfdt0 patch 0x400030000000 0x100000000 rfl
    (by decide) patched).1⟩

theorem views_disagree :
    ¬∀ (fdt : Libfdt) (patch : Patch) (mem_start mem_size : Nat),
      unpackQQ fdt.reg = .ok (mem_start, mem_size) → 0x800000 ≤ mem_size →
      patchVirtio fdt = .ok patch → ViewsAgree mem_start mem_size patch := by
  intro agree
  obtain ⟨patch, patched⟩ := patched0
  exact not_viewsAgree rfl (by decide) patched
    (agree libfdt0 patch 0x400030000000 0x100000000 rfl (by decide) patched)

end TtBhLinux.Boot
