import TtBhLinux.Common.ByteStore
import TtBhLinux.Virtio.Device

/-!
# VirtioNet

Queue 0 receives and queue 1 transmits; the packets handed to `vdeslirp_send` are recorded.
-/

namespace TtBhLinux.Network
open Common Virtio

def packetSize : Nat := 1514

/-- What `vdeslirp_recv(myslirp, buffer, PACKET_SIZE)` returns: no packet, or the length of one that
it has put in the buffer. -/
inductive Received
  | nothing (ret : Int)
  | packet (data : List U8) (nonempty : 0 < data.length) (fits : data.length ≤ packetSize)

structure VirtioNet where
  buffer : Nat → U8
  headerProcessed : Bool
  sent : List (List U8)

/-- flags, num_buffers, gso_type and gso_size of a `struct virtio_net_hdr_mrg_rxbuf`. -/
def storeHeader (mem : U64 → U8) (addr : U64) : U64 → U8 :=
  store (store (store (store mem addr [0]) (addr + 10) [1, 0]) (addr + 1) [0]) (addr + 4) [0, 0]

def processQueueStart (queue_idx : Nat) (addr _len : U64) (work : Work VirtioNet) :
    Work VirtioNet where
  dev := { work.dev with headerProcessed := true }
  mem := if queue_idx = 0 then storeHeader work.mem addr else work.mem

def processQueueData (_queue_idx : Nat) (_addr _len : U64) (work : Work VirtioNet) :
    Work VirtioNet := work

def complete (queue_idx : Nat) (addr len : U64) (result : Received) (work : Work VirtioNet) :
    Except Fault (Work VirtioNet) :=
  if queue_idx = 0 then
    match result with
    | .nothing _ => .ok work
    | .packet data _ _ =>
        let buffer := overwrite work.dev.buffer 0 data
        .ok { dev := { work.dev with buffer }, mem := store work.mem addr (slice buffer 0 data.length) }
  else if queue_idx = 1 then
    if len.toNat ≤ packetSize then
      let buffer := overwrite work.dev.buffer 0 (load work.mem addr len.toNat)
      .ok { work with dev := { work.dev with
        buffer, sent := work.dev.sent ++ [slice buffer 0 len.toNat] } }
    else .error .outsideBuffer
  else .ok work

def headerDone (work : Work VirtioNet) : Work VirtioNet :=
  { work with dev := { work.dev with headerProcessed := false } }

def processQueueComplete (queue_header_size : U64) (queue_idx : Nat) (addr len : U64)
    (result : Received) (work : Work VirtioNet) : Except Fault (Work VirtioNet) :=
  (if work.dev.headerProcessed then complete queue_idx addr len result work
   else complete queue_idx (addr + queue_header_size) len result
    (processQueueStart queue_idx addr len work)).map headerDone

def virtioNetDevice (queue_header_size : U64) : Device VirtioNet Received where
  processQueueStart q addr len work := .ok (processQueueStart q addr len work)
  processQueueData q addr len work := .ok (processQueueData q addr len work)
  processQueueComplete := processQueueComplete queue_header_size
  queueHasData q ready := if q = 0 then ready else true

def VirtioNet.constructed (buffer : Nat → U8) : VirtioNet := ⟨buffer, false, []⟩

end TtBhLinux.Network
