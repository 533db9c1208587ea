import TtBhLinux.Common.System
import Mathlib.Data.List.Infix

/-!
# A bounded FIFO queue

The abstract queue remembers everything ever sent and received: what it holds is the part of `sent`
that has not been received.
-/

namespace TtBhLinux.Common

structure Fifo (α : Type*) where
  sent : List α
  received : List α

namespace Fifo
variable {α : Type*}

def queue (q : Fifo α) : List α := q.sent.drop q.received.length

inductive Op (α : Type*)
  | push (a : α)
  | pop

def system (capacity : Nat) (initial : List α) : System (Fifo α) (Op α) where
  init q := q = ⟨initial, []⟩
  step
    | .push a, q => if q.queue.length < capacity then some { q with sent := q.sent ++ [a] } else none
    | .pop, q => q.queue.head?.map fun a => { q with received := q.received ++ [a] }

structure Sound (capacity : Nat) (q : Fifo α) : Prop where
  ordered : q.received <+: q.sent
  bounded : q.queue.length ≤ capacity

theorem sent_eq {q : Fifo α} (h : q.received <+: q.sent) : q.sent = q.received ++ q.queue := by
  obtain ⟨rest, eq⟩ := h
  simp [queue, ← eq]

theorem sound_step {capacity : Nat} {initial : List α} {q q' : Fifo α} {op : Op α}
    (h : Sound capacity q) (action : (system capacity initial).step op q = some q') :
    Sound capacity q' := by
  cases op with
  | push a =>
      simp only [system, Option.ite_none_right_eq_some, Option.some.injEq] at action
      obtain ⟨room, rfl⟩ := action
      refine ⟨h.ordered.trans (List.prefix_append _ _), ?_⟩
      have le := h.ordered.length_le
      simp only [queue, List.length_drop, List.length_append, List.length_singleton] at room ⊢
      omega
  | pop =>
      obtain ⟨a, head, rfl⟩ := Option.map_eq_some_iff.mp action
      obtain ⟨rest, eq⟩ := List.head?_eq_some_iff.mp head
      constructor
      · show q.received ++ [a] <+: q.sent
        rw [sent_eq h.ordered, eq]
        exact ⟨rest, by simp⟩
      · have bound := h.bounded
        simp only [queue, List.length_drop, List.length_append, List.length_singleton] at bound ⊢
        omega

theorem reachable_sound {capacity : Nat} {initial : List α} (room : initial.length ≤ capacity)
    {q : Fifo α} (reachable : (system capacity initial).Reachable q) : Sound capacity q := by
  refine reachable.invariant ?_ fun q q' op h _ action => sound_step h action
  rintro q rfl
  exact ⟨List.nil_prefix, by simpa [queue] using room⟩

end Fifo
end TtBhLinux.Common
