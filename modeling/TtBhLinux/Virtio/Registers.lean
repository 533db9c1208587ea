import TtBhLinux.Common.Words
import Mathlib.Data.Fin.VecNotation

/-!
# The virtio-mmio register region

The words of the register region that `VirtioDevice` or a driver uses, and what a device brings to
them. The six address words of a queue are indexed by the area they locate.
-/

namespace TtBhLinux.Virtio
open Common

inductive Area
  | desc
  | avail
  | used
  deriving DecidableEq

structure Regs where
  magicValue : U32
  version : U32
  deviceId : U32
  deviceFeatures : U32
  deviceFeaturesSel : U32
  driverFeatures : U32
  driverFeaturesSel : U32
  queueNumMax : U32
  queueReady : U32
  interruptStatus : U32
  interruptAck : U32
  status : U32
  queueHigh : Area → U32
  queueLow : Area → U32
  queueSelect : U32
  swImpl : U32
  selGeneration : U32

/-- What the subclass sets in its constructor, and where the L2CPU's memory is mapped. -/
structure Config where
  numQueues : U32
  numQueues_pos : 0 < numQueues
  queueHeaderSize : U64
  deviceId : U32
  deviceFeaturesList : Fin 2 → U32
  driverFeaturesList : Fin 2 → U32
  startingAddress : U64
  memory : U64
  interruptNumber : Nat

/-- What `VirtioBlk` sets: VIRTIO_F_VERSION_1 and `sizeof(struct virtio_blk_outhdr)`. -/
def virtioBlk (startingAddress memory : U64) (interruptNumber : Nat) : Config where
  numQueues := 1
  numQueues_pos := by decide
  queueHeaderSize := 16
  deviceId := 2
  deviceFeaturesList := ![0, 1]
  driverFeaturesList := ![0, 0]
  startingAddress := startingAddress
  memory := memory
  interruptNumber := interruptNumber

/-- What `VirtioNet` sets: VIRTIO_NET_F_GUEST_CSUM, VIRTIO_F_VERSION_1 and
`sizeof(struct virtio_net_hdr_mrg_rxbuf)`. -/
def virtioNet (startingAddress memory : U64) (interruptNumber : Nat) : Config where
  numQueues := 2
  numQueues_pos := by decide
  queueHeaderSize := 12
  deviceId := 1
  deviceFeaturesList := ![2, 1]
  driverFeaturesList := ![0, 0]
  startingAddress := startingAddress
  memory := memory
  interruptNumber := interruptNumber

def queueSize : U16 := 16384

def virtMagic : U32 := 0x74726976

def statusDriver : U32 := 2
def statusDriverOk : U32 := 4
def statusFeaturesOk : U32 := 8

def Regs.hasStatus (r : Regs) (bit : U32) : Bool := r.status &&& bit != 0

def Regs.constructed (c : Config) : Regs where
  magicValue := virtMagic
  version := 2
  deviceId := c.deviceId
  deviceFeatures := 0
  deviceFeaturesSel := 0
  driverFeatures := 0
  driverFeaturesSel := 0
  queueNumMax := queueSize.setWidth 32
  queueReady := 0
  interruptStatus := 0
  interruptAck := 0
  status := 0
  queueHigh _ := 0
  queueLow _ := 0
  queueSelect := 0
  swImpl := 1
  selGeneration := 0

def joinWords (high low : U32) : U64 := high.setWidth 64 <<< 32 ||| low.setWidth 64

def highWord (a : U64) : U32 := a.extractLsb' 32 32
def lowWord (a : U64) : U32 := a.extractLsb' 0 32

@[simp] theorem joinWords_split (a : U64) : joinWords (highWord a) (lowWord a) = a := by
  apply BitVec.eq_of_getLsbD_eq
  intro i hi
  by_cases low : i < 32
  · simp [joinWords, highWord, lowWord, low, hi]
  · have : i - 32 < 32 := by omega
    simp [joinWords, highWord, lowWord, low, hi, this, show 32 + (i - 32) = i by omega]

def Config.hostPointer (c : Config) (a : U64) : U64 := c.memory + (a - c.startingAddress)

end TtBhLinux.Virtio
