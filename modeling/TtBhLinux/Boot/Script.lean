import TtBhLinux.Boot.DeviceTree
import TtBhLinux.L2cpu.Windows
import TtBhLinux.Pll.Safety
import TtBhLinux.Virtio.Registers

/-!
# boot.py

`main` of `boot.py` as the sequence of what it writes to the chip. `Env` answers for the file system,
`int(·, 16)` and libfdt.
-/

namespace TtBhLinux.Boot
open Common L2cpu

inductive Halt
  | assertion (message : String)
  | exit (message : String)
  | raised (exception : String)
  deriving DecidableEq

def Stop.halt : Stop → Halt
  | .exit message => .exit message
  | .structError => .raised "struct.error"

structure Args where
  boot : Bool
  l2cpu : List Int
  bootDevice : String
  dtNoVirtioDevices : Bool
  extraBootargs : String
  rootfsBin : Option String
  rootfsDst : List String
  opensbiBin : String
  opensbiDst : List String
  kernelBin : Option String
  kernelDst : Option (List String)
  dtbBin : Option (List String)
  dtbDst : Option (List String)

/-- `parse` is `Fdt(bytes)`, `setBootargs` whether `setprop` finds room for the property, and `pack`
the tree with what the script adds to it. -/
structure FdtLib where
  parse : List U8 → Option Libfdt
  setBootargs : List U8 → List U8 → Bool
  pack : List U8 → List U8 → Option Patch → Option (List U8)

structure Env where
  readFile : String → Option (List U8)
  pathExists : String → Bool
  int16 : String → Option Int
  fdt : FdtLib

structure Telemetry where
  enabledL2cpu : Nat
  enabledGddr : Nat

def l2cpuGddrEnableBitMapping : Fin 4 → Nat := ![5, 6, 7, 7]

/-! ## parse_args -/

/-- `a == b == …` of the lengths of lists; `len(None)` raises a TypeError. -/
def sameLength : Nat → List (Option Nat) → Except Halt Unit
  | _, [] => .ok ()
  | _, none :: _ => .error (.raised "TypeError")
  | n, some m :: rest =>
      if n = m then sameLength m rest
      else .error (.assertion "Length of all vars must be same")

def l2cpuId (l2cpu : Int) : Except Halt (Fin 4) :=
  if h : 0 ≤ l2cpu ∧ l2cpu < 4 then .ok ⟨l2cpu.toNat, by omega⟩
  else .error (.assertion "l2cpu IDs must be in [0, 1, 2, 3]")

def parseArgs (args : Args) : Except Halt (List (Fin 4)) := do
  sameLength args.l2cpu.length [some args.rootfsDst.length, some args.opensbiDst.length,
    args.kernelDst.map List.length, args.dtbBin.map List.length, args.dtbDst.map List.length]
  args.l2cpu.mapM l2cpuId

def checkHarvesting (telemetry : Telemetry) (l2cpu : Fin 4) : Except Halt Unit :=
  let other := toString (l2cpu.val ^^^ 1)
  let advice := " is harvested, try booting L2CPU " ++ other ++ " with make L2CPU=" ++ other ++ " boot"
  if telemetry.enabledL2cpu >>> l2cpu.val &&& 1 = 0 then
    .error (.assertion ("L2CPU " ++ toString l2cpu.val ++ advice))
  else if telemetry.enabledGddr >>> l2cpuGddrEnableBitMapping l2cpu &&& 1 = 0 then
    .error (.assertion ("DRAM attached to L2CPU " ++ toString l2cpu.val ++ advice))
  else .ok ()

/-! ## What is written for one L2CPU -/

inductive Op
  | axiWrite (addr : U64) (value : U32)
  | nocWrite32 (tile : Xy) (addr : U64) (value : U32)
  | nocWrite (tile : Xy) (addr : U64) (bytes : List U8)
  deriving DecidableEq

def raise {α : Type} (exception : String) : Option α → Except Halt α
  | some a => .ok a
  | none => .error (.raised exception)

/-- `read_bin_file` -/
def padded (bytes : List U8) : List U8 :=
  let padding := bytes.length % 4
  if padding ≠ 0 then bytes ++ List.replicate (4 - padding) 0 else bytes

def readBinFile (env : Env) (path : String) : Except Halt (List U8) :=
  (raise "OSError" (env.readFile path)).map padded

structure Image where
  addr : Int
  bytes : List U8

def readImage (env : Env) (dst : List String) (idx : Nat) (path : String) : Except Halt Image := do
  let text ← raise "IndexError" dst[idx]?
  let addr ← raise "ValueError" (env.int16 text)
  let bytes ← readBinFile env path
  return ⟨addr, bytes⟩

def given (path : Option String) : Option String := path.filter (· ≠ "")

def readOptional (env : Env) (dst : List String) (idx : Nat) :
    Option String → Except Halt (Option Image)
  | some path => (readImage env dst idx path).map some
  | none => .ok none

def Args.rootfs (args : Args) (env : Env) : Option String :=
  (given args.rootfsBin).filter env.pathExists

def bootargs (env : Env) (args : Args) (idx : Nat) (rootfs : Option Image) : Except Halt String := do
  let root ←
    if args.bootDevice.startsWith "vda" then .ok (" root=/dev/" ++ args.bootDevice)
    else if args.bootDevice = "initramfs" then
      match args.rootfsBin with
      | none => .error (.raised "TypeError")
      | some path =>
          if env.pathExists path then do
            let dst ← raise "IndexError" args.rootfsDst[idx]?
            let image ← raise "UnboundLocalError" rootfs
            .ok (" initrd=" ++ dst ++ "," ++ toString image.bytes.length)
          else .ok ""
    else .error (.exit "Unsupported rootfs type")
  let extra := if args.extraBootargs = "" then "" else " " ++ args.extraBootargs
  return "rw console=hvc0 earlycon=sbi" ++ root ++ extra

def patchDtb (lib : FdtLib) (fdt : Libfdt) (dtb_bytes bootargs : List U8)
    (noVirtioDevices : Bool) : Except Halt (List U8) := do
  if lib.setBootargs dtb_bytes bootargs = false then .error (.raised "FdtException")
  let _memory_node ←
    (pathOffset fdt "/memory@400030000000" "memory node not found in DT. Exiting").mapError Stop.halt
  let patch ←
    if noVirtioDevices then .ok none else ((patchVirtio fdt).mapError Stop.halt).map some
  raise "FdtException" (lib.pack dtb_bytes bootargs patch)

structure Images where
  opensbi : Image
  rootfs : Option Image
  kernel : Option Image
  dtb : Image

def readImages (env : Env) (args : Args) (idx : Nat) : Except Halt Images := do
  let opensbi ← readImage env args.opensbiDst idx args.opensbiBin
  let rootfs ← readOptional env args.rootfsDst idx (args.rootfs env)
  let kernel ← readOptional env (args.kernelDst.getD []) idx (given args.kernelBin)
  let path ← raise "IndexError" (args.dtbBin.getD [])[idx]?
  let dtb ← readImage env (args.dtbDst.getD []) idx path
  let fdt ← raise "FdtException" (env.fdt.parse dtb.bytes)
  let text ← bootargs env args idx rootfs
  let dtb_bytes ← patchDtb env.fdt fdt dtb.bytes (utf8 text ++ [0]) args.dtNoVirtioDevices
  return ⟨opensbi, rootfs, kernel, ⟨dtb.addr, dtb_bytes⟩⟩

def Images.list (images : Images) : List Image :=
  images.opensbi :: (images.rootfs.toList ++ images.kernel.toList ++ [images.dtb])

def l2cpuBase : U64 := 0xfffff7fefff10000
def l3RegBase : U64 := 0x02010000

def nocWrite (tile : Xy) (image : Image) : Except Halt Op :=
  if 0 ≤ image.addr ∧ image.addr < 2 ^ 64 then
    .ok (.nocWrite tile (.ofInt 64 image.addr) image.bytes)
  else .error (.raised "OverflowError")

def resetVectors (tile : Xy) (opensbi_addr : U64) : List Op :=
  [0, 1, 2, 3].flatMap fun core =>
    [.nocWrite32 tile (l2cpuBase + 8 * core) (Virtio.lowWord opensbi_addr),
      .nocWrite32 tile (l2cpuBase + 8 * core + 4) (Virtio.highWord opensbi_addr)]

def loadL2cpu (l2cpu : Fin 4) (images : Images) : List (Except Halt Op) :=
  let tile := l2cpuTileMapping l2cpu
  .ok (.nocWrite32 tile (l3RegBase + 8) 0xf) :: images.list.map (nocWrite tile) ++
    (resetVectors tile (.ofInt 64 images.opensbi.addr)).map .ok

def prepare (env : Env) (args : Args) (idx : Nat) (l2cpu : Fin 4) : List (Except Halt Op) :=
  match readImages env args idx with
  | .error halt => [.error halt]
  | .ok images => loadL2cpu l2cpu images

def attempts (env : Env) (args : Args) (l2cpus : List (Fin 4)) : List (Except Halt Op) :=
  l2cpus.zipIdx.flatMap fun (l2cpu, idx) => prepare env args idx l2cpu

/-- What is written up to the first exception. -/
def perform : List (Except Halt Op) → List Op × Option Halt
  | [] => ([], none)
  | .error halt :: _ => ([], some halt)
  | .ok op :: rest =>
      let (ops, halt) := perform rest
      (op :: ops, halt)

/-! ## The rest of main -/

def l2cpuReset : U64 := 0x80030000 + 0x14

def pllOps (ws : List Pll.Write) : List Op := ws.map fun w => .axiWrite w.addr w.value

def resetVal (val : U32) (l2cpus : List (Fin 4)) : U32 :=
  l2cpus.foldl (fun val l2cpu => val ||| 1 <<< (l2cpu.val + 4)) val

/-- `reset_x280`; `none` where a ramp runs out of fuel. -/
def resetX280 (fuel : Nat) (pll : Pll.Regs) (val : U32) (l2cpus : List (Fin 4)) :
    Except Halt (Option (List Op)) := do
  let slow ← (Pll.Clock.setL2cpuPll fuel 200 pll.cntl5 pll.cntl1).mapError .raised
  match slow with
  | none => return none
  | some down => do
      let pll := pll.after down
      let fast ← (Pll.Clock.setL2cpuPll fuel 1750 pll.cntl5 pll.cntl1).mapError .raised
      return fast.map fun up =>
        pllOps down ++ .axiWrite l2cpuReset (resetVal val l2cpus) :: pllOps up

def l2PrefetchBase : U64 := 0x02030000

def prefetchers (l2cpu : Fin 4) : List Op :=
  let tile := l2cpuTileMapping l2cpu
  [0x0000, 0x2000, 0x4000, 0x6000].flatMap fun offset =>
    [.nocWrite32 tile (l2PrefetchBase + offset) 0x15811,
      .nocWrite32 tile (l2PrefetchBase + 4 + offset) 0x38c84e]

/-- `pll` and `val` are what the registers of the chip hold after `pci_board_reset`. -/
def main (fuel : Nat) (env : Env) (args : Args) (telemetry : Telemetry) (pll : Pll.Regs)
    (val : U32) : Option (List Op × Option Halt) :=
  match parseArgs args with
  | .error halt => some ([], some halt)
  | .ok l2cpus =>
      match l2cpus.forM (checkHarvesting telemetry) with
      | .error halt => some ([], some halt)
      | .ok () =>
          match perform (attempts env args l2cpus) with
          | (ops, some halt) => some (ops, some halt)
          | (ops, none) =>
              if args.boot then
                match resetX280 fuel pll val l2cpus with
                | .error halt => some (ops, some halt)
                | .ok none => none
                | .ok (some reset) => some (ops ++ reset ++ l2cpus.flatMap prefetchers, none)
              else some (ops ++ l2cpus.flatMap prefetchers, none)

end TtBhLinux.Boot
