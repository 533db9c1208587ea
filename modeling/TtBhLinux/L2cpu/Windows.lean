import TtBhLinux.Common.Memory
import Mathlib.Data.Fin.VecNotation

/-!
# TLB windows and the memory of an L2CPU

What the host sees at its addresses is a `HostMap`: a byte of a tile where a TLB window is mapped.
-/

namespace TtBhLinux.L2cpu
open Common

structure Xy where
  x : U16
  y : U16
  deriving DecidableEq

structure TileByte where
  tile : Xy
  addr : U64
  deriving DecidableEq

abbrev HostMap := U64 → Option TileByte

structure NocTlbConfig where
  addr : U64
  xEnd : U16
  yEnd : U16

def HostMap.reserve (host : HostMap) (base : U64) (size : Nat) : HostMap := fun p =>
  if InRegion base size p then none else host p

def HostMap.mapTlb (host : HostMap) (config : NocTlbConfig) (base : U64) (size : Nat) : HostMap :=
  fun p =>
    if InRegion base size p then some ⟨⟨config.xEnd, config.yEnd⟩, config.addr + (p - base)⟩
    else host p

/-! ## tlb.h -/

def twoMeg : U64 := 1 <<< 21
def fourGig : U64 := 1 <<< 32

structure TlbWindow (size : U64) where
  offset : U64
  config : NocTlbConfig
  data : U64

variable {size : U64}

/-- `base` is where `mmap` has put the window: the given base, or a range of its own choice. -/
def TlbWindow.new (size : U64) (coordinates : Xy) (addr base : U64) : TlbWindow size where
  offset := addr &&& (size - 1)
  config := ⟨addr &&& ~~~(size - 1), coordinates.x, coordinates.y⟩
  data := base

def TlbWindow.map (window : TlbWindow size) (host : HostMap) : HostMap :=
  host.mapTlb window.config window.data size.toNat

def TlbWindow.getWindow (window : TlbWindow size) : U64 := window.data + window.offset

/-- `none` is a failed assertion. -/
def TlbWindow.read32 (window : TlbWindow size) (mem : U64 → U8) (addr : U64) : Option U32 :=
  if window.offset + addr + 4 ≤ size ∧ (window.offset + addr) % 4 = 0 then
    some (loadU32 mem (window.data + window.offset + addr))
  else none

def TlbWindow.write32 (window : TlbWindow size) (mem : U64 → U8) (addr : U64) (value : U32) :
    Option (U64 → U8) :=
  if window.offset + addr + 4 ≤ size ∧ (window.offset + addr) % 4 = 0 then
    some (storeU32 mem (window.data + window.offset + addr) value)
  else none

/-! ## l2cpu.cpp -/

def l2cpuTileMapping : Fin 4 → Xy := ![⟨8, 3⟩, ⟨8, 9⟩, ⟨8, 5⟩, ⟨8, 7⟩]

def l2cpuStartingAddressMapping : Fin 4 → U64 :=
  ![0x400030000000, 0x400030000000, 0x400030000000, 0x4000b0000000]

def l2cpuMemorySizeMapping : Fin 4 → U64 := ![0x100000000, 0x100000000, 0x80000000, 0x80000000]

structure L2CPU where
  startingAddress : U64
  memorySize : U64
  first : TlbWindow fourGig
  second : TlbWindow fourGig
  memory : U64
  coordinates : Xy

/-- `memory` is what the anonymous `mmap` of 8 GiB has returned. -/
def L2CPU.new (idx : Fin 4) (memory : U64) : L2CPU where
  startingAddress := l2cpuStartingAddressMapping idx
  memorySize := l2cpuMemorySizeMapping idx
  first := .new fourGig (l2cpuTileMapping idx) 0x400000000000 memory
  second := .new fourGig (l2cpuTileMapping idx) 0x400100000000 (memory + (1 <<< 32 : U64))
  memory := memory
  coordinates := l2cpuTileMapping idx

def L2CPU.map (cpu : L2CPU) (host : HostMap) : HostMap :=
  cpu.second.map (cpu.first.map (host.reserve cpu.memory (2 <<< 32)))

def L2CPU.getPersistent2MTlbWindow (cpu : L2CPU) (addr base : U64) : TlbWindow twoMeg :=
  .new twoMeg cpu.coordinates addr base

def L2CPU.read32 (cpu : L2CPU) (addr base : U64) (mem : U64 → U8) : Option U32 :=
  (cpu.getPersistent2MTlbWindow addr base).read32 mem 0

def L2CPU.getMemoryPtr (cpu : L2CPU) : U64 := cpu.memory + (cpu.startingAddress - 0x400000000000)

end TtBhLinux.L2cpu
