import TtBhLinux.Virtio.Device

/-!
# VirtioDevice::device_loop

Every load and every store of a shared register, ring or descriptor is a step; a call of a
`process_queue_*` function is one step.
-/

namespace TtBhLinux.Virtio
open Common

structure Walk where
  queue_idx : Nat
  desc_idx_first : U16
  desc_idx : U16
  num_bytes_written : U64
  deriving DecidableEq

inductive LoopPc
  | testExit
  | testMagic
  | ackInterrupt
  | loadAvailIdx (q : Nat)
  | queueHasData (q : Nat)
  | loadHead (q : Nat)
  -- `l` and `a` are loaded once before the walk, for nothing
  | peekLen (w : Walk)
  | peekAddr (w : Walk)
  | loadLen (w : Walk)
  | loadAddr (w : Walk) (l : U64)
  | loadFlags (w : Walk) (l addr : U64)
  | process (w : Walk) (l addr : U64) (more : Bool)
  | loadNext (w : Walk)
  -- the used ring
  | loadUsedIdx (w : Walk)
  | storeId (w : Walk) (used_idx : U16)
  | storeLen (w : Walk) (used_idx : U16)
  | storeUsedIdx (w : Walk) (used_idx : U16)
  | countProcessed (q : Nat)
  -- `set_interrupt`
  | loadInterruptStatus (q : Nat)
  | storeInterruptStatus (q : Nat) (interrupt_status_val : U32)
  | raise (q : Nat)
  | lower (q : Nat)
  | returned
  | fault (f : Fault)
  deriving DecidableEq

structure Loop (σ : Type*) where
  pc : LoopPc
  vars : Locals σ

def Config.nextQueue (c : Config) (q : Nat) : LoopPc :=
  if q + 1 < c.numQueues.toNat then .loadAvailIdx (q + 1) else .testExit

def Shared.desc (s : Shared) (w : Walk) : Desc := (s.queues w.queue_idx).desc (slot w.desc_idx)

def Shared.updateUsed (s : Shared) (q : Nat) (f : UsedRing → UsedRing) : Shared :=
  let vq := s.queues q
  { s with queues := Function.update s.queues q { vq with used := f vq.used } }

def Shared.storeUsedId (s : Shared) (w : Walk) (used_idx : U16) : Shared :=
  s.updateUsed w.queue_idx fun u =>
    let entry := u.ring (slot used_idx)
    u.setEntry (slot used_idx) { entry with id := w.desc_idx_first.setWidth 32 }

def Shared.storeUsedLen (s : Shared) (w : Walk) (used_idx : U16) : Shared :=
  s.updateUsed w.queue_idx fun u =>
    let entry := u.ring (slot used_idx)
    u.setEntry (slot used_idx) { entry with len := w.num_bytes_written.setWidth 32 }

def Shared.storeUsedIdx (s : Shared) (w : Walk) (used_idx : U16) : Shared :=
  s.updateUsed w.queue_idx fun u => { u with idx := used_idx + 1 }

section
variable {σ ρ : Type*} (dev : Device σ ρ) (c : Config)

def loopStep (a : Answer ρ) (loop : Loop σ) (s : Shared) : Option (Loop σ × Shared) :=
  let goto (pc : LoopPc) : Option (Loop σ × Shared) := some ({ loop with pc }, s)
  match loop.pc with
  | .testExit => goto (if a.exit then .returned else .testMagic)
  | .testMagic => goto (if s.regs.magicValue != virtMagic then .returned else .ackInterrupt)
  | .ackInterrupt => goto (.loadAvailIdx 0)
  | .loadAvailIdx q =>
      goto (if loop.vars.processed q ≠ (s.queues q).avail.idx then .queueHasData q
        else c.nextQueue q)
  | .queueHasData q => goto (if dev.queueHasData q a.ready then .loadHead q else c.nextQueue q)
  | .loadHead q =>
      let desc_idx := (s.queues q).avail.ring (slot (loop.vars.processed q))
      goto (.peekLen ⟨q, desc_idx, desc_idx, 0⟩)
  | .peekLen w => goto (.peekAddr w)
  | .peekAddr w => goto (.loadLen w)
  | .loadLen w => goto (.loadAddr w (s.desc w).length)
  | .loadAddr w l => goto (.loadFlags w l (c.addr (s.desc w)))
  | .loadFlags w l addr => goto (.process w l addr (s.desc w).hasNext)
  | .process w l addr more =>
      match dev.entry c w.queue_idx more w.num_bytes_written addr l a.result
          ⟨loop.vars.dev, s.mem⟩ with
      | .error f => goto (.fault f)
      | .ok work =>
          let w := { w with num_bytes_written := w.num_bytes_written + l }
          some (⟨if more then .loadNext w else .loadUsedIdx w, { loop.vars with dev := work.dev }⟩,
            { s with mem := work.mem })
  | .loadNext w => goto (.loadLen { w with desc_idx := (s.desc w).next })
  | .loadUsedIdx w => goto (.storeId w (s.queues w.queue_idx).used.idx)
  | .storeId w used_idx => some ({ loop with pc := .storeLen w used_idx }, s.storeUsedId w used_idx)
  | .storeLen w used_idx =>
      some ({ loop with pc := .storeUsedIdx w used_idx }, s.storeUsedLen w used_idx)
  | .storeUsedIdx w used_idx =>
      some ({ loop with pc := .countProcessed w.queue_idx }, s.storeUsedIdx w used_idx)
  | .countProcessed q =>
      some (⟨.loadInterruptStatus q, loop.vars.publish q loop.vars.dev⟩, s)
  | .loadInterruptStatus q => goto (.storeInterruptStatus q s.regs.interruptStatus)
  | .storeInterruptStatus q interrupt_status_val =>
      some ({ loop with pc := .raise q },
        { s with regs := { s.regs with interruptStatus := intVring ||| interrupt_status_val } })
  | .raise q =>
      some ({ loop with pc := .lower q },
        { s with interruptRegister := 1 <<< (c.interruptNumber - 5) })
  | .lower q => some ({ loop with pc := c.nextQueue q }, { s with interruptRegister := 0 })
  | .returned | .fault _ => none

end
end TtBhLinux.Virtio
