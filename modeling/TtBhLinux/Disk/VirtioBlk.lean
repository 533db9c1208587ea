import TtBhLinux.Common.ByteStore
import TtBhLinux.Virtio.Device

/-!
# VirtioBlk

The callbacks of the block device, for an image that has been opened and mapped.
-/

namespace TtBhLinux.Disk
open Common Virtio

structure VirtioBlk where
  req : U64
  mappedData : Nat → U8

def sectorSize : U64 := 512

def numSectors (fileSize : U64) : U64 := (fileSize + sectorSize - 1) / sectorSize

def blkIn : U32 := 0
def blkOut : U32 := 1

def reqType (mem : U64 → U8) (req : U64) : U32 := loadU32 mem req

def reqSector (mem : U64 → U8) (req : U64) : U64 := loadU64 mem (req + 8)

def InImage (fileSize off len : Nat) : Prop := len = 0 ∨ off + len ≤ fileSize

instance (fileSize off len : Nat) : Decidable (InImage fileSize off len) :=
  inferInstanceAs (Decidable (_ ∨ _))

def processQueueStart (queue_idx : Nat) (addr _len : U64) (work : Work VirtioBlk) :
    Except Fault (Work VirtioBlk) :=
  if queue_idx ≠ 0 then .error .assertion
  else .ok { work with dev := { work.dev with req := addr } }

def processQueueData (fileSize : U64) (queue_idx : Nat) (addr len : U64) (work : Work VirtioBlk) :
    Except Fault (Work VirtioBlk) :=
  let off := (sectorSize * reqSector work.mem work.dev.req).toNat
  if queue_idx ≠ 0 then .error .assertion
  else if reqType work.mem work.dev.req = blkIn then
    if InImage fileSize.toNat off len.toNat then
      .ok { work with mem := store work.mem addr (slice work.dev.mappedData off len.toNat) }
    else .error .outsideImage
  else if reqType work.mem work.dev.req = blkOut then
    if InImage fileSize.toNat off len.toNat then
      .ok { work with dev := { work.dev with
        mappedData := overwrite work.dev.mappedData off (load work.mem addr len.toNat) } }
    else .error .outsideImage
  else .ok work

def processQueueComplete (queue_idx : Nat) (addr _len : U64) (_ : Unit) (work : Work VirtioBlk) :
    Except Fault (Work VirtioBlk) :=
  if queue_idx ≠ 0 then .error .assertion
  else .ok { work with mem := store work.mem addr [0] }

def virtioBlkDevice (fileSize : U64) : Device VirtioBlk Unit where
  processQueueStart := processQueueStart
  processQueueData := processQueueData fileSize
  processQueueComplete := processQueueComplete
  queueHasData _ _ := true

end TtBhLinux.Disk
