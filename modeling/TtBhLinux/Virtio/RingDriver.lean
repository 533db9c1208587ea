import TtBhLinux.Common.Circular
import TtBhLinux.Common.System
import TtBhLinux.Virtio.Loop

/-!
# device_loop and a driver

The driver lays out each queue for a number of entries of its own choice, publishes chains and
collects used entries; its loads and stores interleave with those of `device_loop`.
-/

namespace TtBhLinux.Virtio
open Common

/-- The sizes that a driver may choose: the powers of two up to `queue_num_max`. -/
structure QueueNum where
  num : Nat
  pow : ∃ k ≤ 14, num = 2 ^ k

def QueueNum.max : QueueNum := ⟨16384, 14, le_rfl, rfl⟩

theorem QueueNum.pos (n : QueueNum) : 0 < n.num := by
  obtain ⟨k, -, eq⟩ := n.pow
  rw [eq]
  exact Nat.two_pow_pos k

theorem QueueNum.dvd (n : QueueNum) : n.num ∣ 16384 := by
  obtain ⟨k, le, eq⟩ := n.pow
  rw [eq]
  exact Nat.pow_dvd_pow 2 le

theorem QueueNum.le (n : QueueNum) : n.num ≤ 16384 := Nat.le_of_dvd (by decide) n.dvd

def Linked (n : Nat) (table : Nat → Desc) : List U16 → Prop
  | [] => False
  | [i] => i.toNat < n ∧ (table i.toNat).hasNext = false
  | i :: j :: rest => i.toNat < n ∧ (table i.toNat).hasNext = true ∧ (table i.toNat).next = j ∧
      Linked n table (j :: rest)

instance Linked.decidable (n : Nat) (table : Nat → Desc) : DecidablePred (Linked n table)
  | [] => .isFalse id
  | [_] => inferInstanceAs (Decidable (_ ∧ _))
  | _ :: j :: rest =>
      have := Linked.decidable n table (j :: rest)
      inferInstanceAs (Decidable (_ ∧ _ ∧ _ ∧ _))

structure RingDriver where
  published : List (List U16)
  /-- A chain whose head is in the avail ring but which `avail.idx` does not count yet. -/
  pending : Option (List U16)
  collected : List U32
  seen : Option U16

def RingDriver.fresh : RingDriver := ⟨[], none, [], none⟩

def RingDriver.outstanding (d : RingDriver) : List (List U16) :=
  d.published.drop d.collected.length ++ d.pending.toList

def chainHead (chain : List U16) : U16 := chain.headD 0

inductive RingMove
  | setDesc (i : Nat) (desc : Desc)
  | storeSlot (chain : List U16)
  | storeAvailIdx
  | loadUsedIdx
  | collect

def ringMove (n : Nat) (move : RingMove) (d : RingDriver) (vq : Virtqueue) :
    Option (RingDriver × Virtqueue) :=
  match move with
  | .setDesc i desc =>
      if ∀ chain ∈ d.outstanding, ∀ j ∈ chain, j.toNat ≠ i then
        some (d, { vq with desc := Function.update vq.desc i desc })
      else none
  | .storeSlot chain =>
      if d.pending.isNone ∧ d.published.length < d.collected.length + n ∧ Linked n vq.desc chain then
        let ring := Function.update vq.avail.ring (vq.avail.idx.toNat % n) (chainHead chain)
        some ({ d with pending := some chain }, { vq with avail := { vq.avail with ring } })
      else none
  | .storeAvailIdx => d.pending.map fun chain =>
      ({ d with published := d.published ++ [chain], pending := none },
        { vq with avail := { vq.avail with idx := vq.avail.idx + 1 } })
  | .loadUsedIdx => some ({ d with seen := some vq.used.idx }, vq)
  | .collect =>
      if d.seen.any (· ≠ .ofNat 16 d.collected.length) then
        let id := (vq.used.ring (d.collected.length % n)).id
        some ({ d with collected := d.collected ++ [id] }, vq)
      else none

structure Rings (σ : Type*) where
  loop : Loop σ
  shared : Shared
  drivers : Nat → RingDriver
  entered : Nat → List U32

inductive RingLabel (ρ : Type*)
  | device (a : Answer ρ)
  | driver (q : Nat) (move : RingMove)
  | guest (regs : Regs) (mem : U64 → U8)

/-- The store of `used.idx` enters the id that the slot holds by then. -/
def enter (pc : LoopPc) (s : Shared) (entered : Nat → List U32) : Nat → List U32 :=
  match pc with
  | .storeUsedIdx w used_idx =>
      let id := ((s.queues w.queue_idx).used.ring (slot used_idx)).id
      Function.update entered w.queue_idx (entered w.queue_idx ++ [id])
  | _ => entered

def rings {σ ρ : Type*} (dev : Device σ ρ) (c : Config) (num : Nat → QueueNum) :
    System (Rings σ) (RingLabel ρ) where
  init s := s.loop.pc = .testExit ∧ (∀ q, s.loop.vars.processed q = 0) ∧
    (∀ q, (s.shared.queues q).avail.idx = 0 ∧ (s.shared.queues q).used.idx = 0) ∧
    (∀ q, s.drivers q = .fresh) ∧ ∀ q, s.entered q = []
  step
    | .device a, s => (loopStep dev c a s.loop s.shared).map fun (loop, shared) =>
        { s with loop, shared, entered := enter s.loop.pc s.shared s.entered }
    | .driver q move, s =>
        (ringMove (num q).num move (s.drivers q) (s.shared.queues q)).map fun (d, vq) =>
          { s with
            shared := { s.shared with queues := Function.update s.shared.queues q vq }
            drivers := Function.update s.drivers q d }
    | .guest regs mem, s => some { s with shared := { s.shared with regs, mem } }

end TtBhLinux.Virtio
