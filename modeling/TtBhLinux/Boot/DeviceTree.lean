import TtBhLinux.Common.BigEndian

/-!
# The device tree patches of boot.py

What `main` of `boot.py` adds to a device tree for the virtio devices. Python's integers are
unbounded; `struct.pack` fails for those that do not fit.
-/

namespace TtBhLinux.Boot
open Common

inductive Stop
  | exit (message : String)
  | structError
  deriving DecidableEq

def packI (value : Int) : Except Stop (List U8) :=
  if 0 ≤ value ∧ value < 2 ^ 32 then .ok (toBytes 4 value.toNat) else .error .structError

def packQQ (first second : Int) : Except Stop (List U8) :=
  if (0 ≤ first ∧ first < 2 ^ 64) ∧ 0 ≤ second ∧ second < 2 ^ 64 then
    .ok (toBytes 8 first.toNat ++ toBytes 8 second.toNat)
  else .error .structError

def unpackQQ (bytes : List U8) : Except Stop (Nat × Nat) :=
  if bytes.length = 16 then .ok (ofBytes (bytes.take 8), ofBytes (bytes.drop 8))
  else .error .structError

def utf8 (s : String) : List U8 := s.toUTF8.toList.map UInt8.toBitVec

structure Node where
  name : String
  props : List (String × List U8)

/-- `pathOffset` is `none` where `fdt.path_offset` is negative, `reg` the property of the memory
node. -/
structure Libfdt where
  pathOffset : String → Option Nat
  reg : List U8
  getPhandle : Nat → Nat
  getMaxPhandle : Nat

structure Patch where
  reservedMemory : Option Node
  virtioReserved : Node
  phandle : Option (List U8)
  virtio : List Node

def pathOffset (fdt : Libfdt) (path message : String) : Except Stop Nat :=
  match fdt.pathOffset path with
  | some offset => .ok offset
  | none => .error (.exit message)

def reservedMemory (fdt : Libfdt) : Except Stop (Option Node) :=
  match fdt.pathOffset "/reserved-memory" with
  | some _ => .ok none
  | none => do
      let addressCells ← packI 2
      let sizeCells ← packI 2
      return some ⟨"reserved-memory",
        [("#address-cells", addressCells), ("#size-cells", sizeCells), ("ranges", [])]⟩

def virtioReservedNode (mem_end : Int) : Except Stop Node := do
  let reserved_reg ← packQQ (mem_end - 0x600000) 0x600000
  return ⟨"memory@4000afa00000", [("reg", reserved_reg), ("no-map", [])]⟩

def hex (value : Int) : String :=
  (if value < 0 then "-" else "") ++ String.ofList (Nat.toDigits 16 value.natAbs)

def virtioNode (mem_end : Int) (plic_phandle : Nat) (i : Int) : Except Stop Node := do
  let virtio_addr := mem_end - 0x200000 * (i + 1)
  let virtio_irq := 33 - i
  let virtio_reg ← packQQ virtio_addr 0x200000
  let interrupts ← packI virtio_irq
  let interruptParent ← packI plic_phandle
  return ⟨"virtio@" ++ hex virtio_addr,
    [("compatible", utf8 "virtio,mmio" ++ [0]), ("reg", virtio_reg), ("interrupts", interrupts),
      ("interrupt-parent", interruptParent)]⟩

def plicPhandle (fdt : Libfdt) (plic_offset : Nat) : Except Stop (Nat × Option (List U8)) :=
  if fdt.getPhandle plic_offset = 0 then
    (packI (fdt.getMaxPhandle + 1 : Nat)).map fun phandle => (fdt.getMaxPhandle + 1, some phandle)
  else .ok (fdt.getPhandle plic_offset, none)

/-- The part of `main` that `--dt-no-virtio-devices` leaves out. -/
def patchVirtio (fdt : Libfdt) : Except Stop Patch := do
  let _memory_node ← pathOffset fdt "/memory@400030000000" "memory node not found in DT. Exiting"
  let mem ← unpackQQ fdt.reg
  let mem_end : Int := mem.1 + mem.2
  let reservedMemory ← reservedMemory fdt
  let virtioReserved ← virtioReservedNode mem_end
  let _soc_offset ← pathOffset fdt "/soc" "soc node not found in DT. Exiting"
  let plic_offset ← pathOffset fdt "/soc/interrupt-controller@c000000"
    "plic node not found in DT. Exiting"
  let plic_phandle ← plicPhandle fdt plic_offset
  let virtio ← [3, 2, 1, 0].mapM (virtioNode mem_end plic_phandle.1)
  return ⟨reservedMemory, virtioReserved, plic_phandle.2, virtio⟩

end TtBhLinux.Boot
