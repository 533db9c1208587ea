import TtBhLinux.Common.Links
import TtBhLinux.Common.Memory
import TtBhLinux.Virtio.Registers

/-!
# Virtqueues

The three areas of a queue are C objects of their own. The buffers that descriptors point to are
bytes, addressed as the host sees them: `Config.hostPointer` of the guest's address.
-/

namespace TtBhLinux.Virtio
open Common

structure Desc where
  addr : U64
  len : U32
  flags : U16
  next : U16
  deriving DecidableEq

structure AvailRing where
  idx : U16
  ring : Nat → U16

structure UsedElem where
  id : U32
  len : U32
  deriving DecidableEq

structure UsedRing where
  idx : U16
  ring : Nat → UsedElem

structure Virtqueue where
  desc : Nat → Desc
  avail : AvailRing
  used : UsedRing

/-- What a device shares with its guest. `interruptRegister` is the PLIC register of the device. -/
structure Shared where
  regs : Regs
  interruptRegister : U32
  queues : Nat → Virtqueue
  mem : U64 → U8

def slot (i : U16) : Nat := (i % queueSize).toNat

theorem slot_eq (i : U16) : slot i = i.toNat % 16384 := rfl

theorem slot_lt (i : U16) : slot i < 16384 := Nat.mod_lt _ (by decide)

def Desc.hasNext (d : Desc) : Bool := d.flags &&& 1 != 0

def Config.addr (c : Config) (d : Desc) : U64 := c.hostPointer d.addr

def Desc.length (d : Desc) : U64 := d.len.setWidth 64

@[simp] theorem Desc.length_toNat (d : Desc) : d.length.toNat = d.len.toNat := by
  have := d.len.isLt
  rw [length, BitVec.toNat_setWidth]
  exact Nat.mod_eq_of_lt (by omega)

def UsedRing.setEntry (u : UsedRing) (i : Nat) (entry : UsedElem) : UsedRing :=
  { u with ring := Function.update u.ring i entry }

inductive Chain (table : Nat → Desc) : U16 → List Desc → Prop
  | last {i : U16} : (table (slot i)).hasNext = false → Chain table i [table (slot i)]
  | next {i : U16} {rest : List Desc} : (table (slot i)).hasNext = true →
      Chain table (table (slot i)).next rest → Chain table i (table (slot i) :: rest)

def Terminated : List Desc → Prop
  | [] => False
  | [d] => d.hasNext = false
  | d :: rest => d.hasNext = true ∧ Terminated rest

theorem Chain.terminated {table : Nat → Desc} {i : U16} {descs : List Desc}
    (chain : Chain table i descs) : Terminated descs := by
  induction chain with
  | last final => exact final
  | next more others ih =>
      cases others with
      | last _ => exact ⟨more, ih⟩
      | next _ _ => exact ⟨more, ih⟩

theorem Terminated.exists_last {descs : List Desc} (terminated : Terminated descs) :
    ∃ before last, descs = before ++ [last] := by
  rcases List.eq_nil_or_concat descs with rfl | ⟨before, last, rfl⟩
  · exact absurd terminated id
  · exact ⟨before, last, by simp⟩

theorem terminated_append {before : List Desc} {last : Desc} :
    Terminated (before ++ [last]) ↔ (∀ d ∈ before, d.hasNext = true) ∧ last.hasNext = false := by
  induction before with
  | nil => simp [Terminated]
  | cons d rest ih =>
      cases rest with
      | nil => simp [Terminated]
      | cons d' rest =>
          simp only [List.cons_append, Terminated, List.mem_cons, forall_eq_or_imp] at ih ⊢
          rw [ih]
          simp only [and_assoc]

def nextSlot (table : Nat → Desc) (i : Nat) : Option Nat :=
  if (table i).hasNext then some (slot (table i).next) else none

theorem Chain.follows {table : Nat → Desc} {i : U16} {descs : List Desc}
    (chain : Chain table i descs) :
    ∃ slots, Follows (nextSlot table) (slot i) slots ∧ descs = slots.map table ∧
      ∀ j ∈ slots, j < 16384 := by
  induction chain with
  | @last i final =>
      refine ⟨[slot i], .stop (by simp [nextSlot, final]), rfl, fun j member => ?_⟩
      rw [List.mem_singleton.mp member]
      exact slot_lt i
  | @next i rest more _ ih =>
      obtain ⟨slots, follows, eq, below⟩ := ih
      refine ⟨slot i :: slots, .link (by simp [nextSlot, more]) follows, by simp [eq], ?_⟩
      intro j member
      rcases List.mem_cons.mp member with rfl | member
      · exact slot_lt i
      · exact below j member

theorem Chain.length_le {table : Nat → Desc} {i : U16} {descs : List Desc}
    (chain : Chain table i descs) : descs.length ≤ 16384 := by
  obtain ⟨slots, follows, rfl, below⟩ := chain.follows
  rw [List.length_map]
  exact follows.length_le below

end TtBhLinux.Virtio
