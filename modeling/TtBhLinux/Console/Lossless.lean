import TtBhLinux.Common.Fifo
import TtBhLinux.Console.Queues

/-!
# Each console ring is a bounded FIFO

A ring refines the abstract queue of capacity 4095: the store of the head is the push, the store of
the tail is the pop, and every other load or store changes nothing.
-/

namespace TtBhLinux.Console
open Common

abbrev slots : Nat := bufferSize.toNat

theorem bufferSize_toNat : bufferSize.toNat = 4096 := rfl

theorem one_toNat : (1 : U32).toNat = 1 := rfl

theorem slots_pos : 0 < slots := by decide

theorem slot_toNat (x : U32) : (x % bufferSize).toNat = x.toNat % slots := rfl

theorem canPush_iff (head tail : U32) :
    canPush head tail = true ↔ used slots head.toNat tail.toNat + 1 < slots := by
  rw [used_succ_lt slots_pos, canPush, bne_iff_ne, ne_eq, ne_eq, not_iff_not, ← BitVec.toNat_inj]
  simp only [slots, bufferSize_toNat, one_toNat, BitVec.toNat_umod, BitVec.toNat_add]
  omega

theorem canPop_iff (head tail : U32) :
    canPop head tail = true ↔ 0 < used slots head.toNat tail.toNat := by
  rw [Nat.pos_iff_ne_zero, ne_eq, used_eq_zero slots_pos, canPop, bne_iff_ne, ne_eq, not_iff_not,
    ← BitVec.toNat_inj]
  rfl

/-- 4096 divides 2^32, so it does not matter how an index is stored. -/
theorem advance_mod (free : Bool) (index : U32) :
    (advance free index).toNat % slots = (index.toNat + 1) % slots := by
  cases free <;> simp only [advance, slots, bufferSize_toNat, one_toNat, if_true,
    Bool.false_eq_true, if_false, BitVec.toNat_umod, BitVec.toNat_add] <;> omega

namespace Ring

def count (r : Ring) : Nat := used slots r.head.toNat r.tail.toNat

def HasRoom (r : Ring) : Prop := r.count + 1 < slots

theorem head_slot (r : Ring) : (r.tail.toNat + r.count) % slots = r.head.toNat % slots :=
  add_used slots_pos _ _

@[simp] theorem queued_length (r : Ring) : r.queued.length = r.count := window_length _ _ _

theorem count_lt (r : Ring) : r.count < slots := used_lt slots_pos _ _

def store (r : Ring) (c : U8) : Ring :=
  { r with buf := Function.update r.buf (r.head.toNat % slots) c }

def pushed (r : Ring) (free : Bool) : Ring := { r with head := advance free r.head }
def popped (r : Ring) (free : Bool) : Ring := { r with tail := advance free r.tail }

theorem store_queued (r : Ring) (c : U8) : (r.store c).queued = r.queued := by
  have room := r.count_lt
  rw [queued, queued, store, ← r.head_slot]
  exact window_update r.buf c room

theorem pushed_count {r : Ring} (free : Bool) (room : r.HasRoom) :
    (r.pushed free).count = r.count + 1 := by
  rw [count, pushed, used_congr (advance_mod free r.head) rfl]
  exact used_head_succ slots_pos room

theorem pushed_queued {r : Ring} (free : Bool) (room : r.HasRoom) :
    (r.pushed free).queued = r.queued ++ [r.buf (r.head.toNat % slots)] := by
  have grown := pushed_count free room
  rw [count] at grown
  rw [queued, grown, ← r.head_slot]
  exact window_succ r.buf _ _

theorem popped_count {r : Ring} (free : Bool) (nonempty : 0 < r.count) :
    (r.popped free).count = r.count - 1 := by
  rw [count, popped, used_congr rfl (advance_mod free r.tail)]
  exact used_tail_succ slots_pos nonempty

theorem popped_queued {r : Ring} (free : Bool) (nonempty : 0 < r.count) :
    r.queued = r.buf (r.tail.toNat % slots) :: (r.popped free).queued := by
  have shrunk := popped_count free nonempty
  rw [count] at shrunk
  have left : used slots r.head.toNat r.tail.toNat = r.count - 1 + 1 := by rw [count] at *; omega
  rw [queued, left, window_cons, queued, shrunk]
  exact congrArg _ (window_congr r.buf _ (advance_mod free r.tail).symm)

end Ring

/-! ## The invariant -/

def PushPc.Inv (r : Ring) : PushPc → Prop
  | .idle | .loadHead _ => True
  | .loadTail _ head => head = r.head
  | .loadSlot _ => r.HasRoom
  | .storeSlot _ head => head = r.head ∧ r.HasRoom
  | .reloadHead c => r.HasRoom ∧ r.buf (r.head.toNat % slots) = c
  | .storeHead c head => head = r.head ∧ r.HasRoom ∧ r.buf (r.head.toNat % slots) = c

def PopPc.Inv (r : Ring) : PopPc → Prop
  | .idle ready | .loadHead ready => ready = true → 0 < r.count
  | .pollHead => True
  | .pollTail head => used slots head.toNat r.tail.toNat ≤ r.count
  | .loadTail ready head => used slots head.toNat r.tail.toNat ≤ r.count ∧
      (ready = true → 0 < used slots head.toNat r.tail.toNat)
  | .loadSlot => 0 < r.count
  | .readSlot tail => tail = r.tail ∧ 0 < r.count
  | .reloadTail c => 0 < r.count ∧ r.buf (r.tail.toNat % slots) = c
  | .storeTail c tail => tail = r.tail ∧ 0 < r.count ∧ r.buf (r.tail.toNat % slots) = c

structure Direction.Inv (start : Ring) (d : Direction) : Prop where
  balance : start.queued ++ d.pushed = d.popped ++ d.ring.queued
  pusher : d.pusher.Inv d.ring
  popper : d.popper.Inv d.ring

structure Grew (r r' : Ring) : Prop where
  tail : r'.tail = r.tail
  count : r.count ≤ r'.count
  first : 0 < r.count → r'.buf (r.tail.toNat % slots) = r.buf (r.tail.toNat % slots)

theorem PopPc.Inv.grew {r r' : Ring} {pc : PopPc} (h : pc.Inv r) (grew : Grew r r') :
    pc.Inv r' := by
  have le := grew.count
  cases pc <;> simp only [PopPc.Inv, grew.tail] at h ⊢
  case idle | loadHead => exact fun ready => (h ready).trans_le le
  case pollTail => exact h.trans le
  case loadTail => exact ⟨h.1.trans le, h.2⟩
  case loadSlot => exact h.trans_le le
  case readSlot => exact ⟨h.1, h.2.trans_le le⟩
  case reloadTail => exact ⟨h.1.trans_le le, (grew.first h.1).trans h.2⟩
  case storeTail => exact ⟨h.1, h.2.1.trans_le le, (grew.first h.2.1).trans h.2.2⟩

theorem PushPc.Inv.popped {r : Ring} {pc : PushPc} (h : pc.Inv r) (free : Bool)
    (nonempty : 0 < r.count) : pc.Inv (r.popped free) := by
  have room : r.HasRoom → (r.popped free).HasRoom := by
    simp only [Ring.HasRoom, Ring.popped_count free nonempty]
    omega
  cases pc <;> simp only [PushPc.Inv] at h ⊢
  case loadTail => exact h
  case loadSlot => exact room h
  case storeSlot => exact ⟨h.1, room h.2⟩
  case reloadHead => exact ⟨room h.1, h.2⟩
  case storeHead => exact ⟨h.1, room h.2.1, h.2.2⟩

theorem grew_store (r : Ring) (c : U8) : Grew r (r.store c) := by
  refine ⟨rfl, le_rfl, fun nonempty => Function.update_of_ne ?_ _ _⟩
  rw [← r.head_slot]
  exact slot_ne (i := 0) nonempty r.count_lt

theorem grew_pushed {r : Ring} (free : Bool) (room : r.HasRoom) : Grew r (r.pushed free) :=
  ⟨rfl, by rw [Ring.pushed_count free room]; omega, fun _ => rfl⟩

/-! ## Refinement -/

def capacity : Nat := slots - 1

def Direction.fifo (start : Ring) (d : Direction) : Fifo U8 :=
  ⟨start.queued ++ d.pushed, d.popped⟩

abbrev ringFifo (start : Ring) : System (Fifo U8) (Fifo.Op U8) :=
  Fifo.system capacity start.queued

theorem Direction.Inv.queue {start : Ring} {d : Direction} (h : d.Inv start) :
    (d.fifo start).queue = d.ring.queued := by
  simp [fifo, Fifo.queue, h.balance]

/-- A step of either party keeps the invariant and is a step of the queue, or none. -/
structure Simulates (start : Ring) (d d' : Direction) : Prop where
  inv : d'.Inv start
  queue : d'.fifo start = d.fifo start ∨
    ∃ op, (ringFifo start).step op (d.fifo start) = some (d'.fifo start)

theorem simulates_local {start : Ring} {d : Direction} (h : d.Inv start) {pusher : PushPc}
    {popper : PopPc} (push : pusher.Inv d.ring) (pop : popper.Inv d.ring) :
    Simulates start d { d with pusher, popper } :=
  ⟨⟨h.balance, push, pop⟩, .inl rfl⟩

theorem pushStep_simulates {start : Ring} {d d' : Direction} {free : Bool} (h : d.Inv start)
    (action : d.pushStep free = some d') : Simulates start d d' := by
  have own := h.pusher
  unfold Direction.pushStep at action
  cases pc : d.pusher <;> rw [pc] at action own <;> cases action
  case loadHead c => exact simulates_local h rfl h.popper
  case loadTail c head =>
    refine simulates_local h ?_ h.popper
    cases own
    split <;> rename_i room
    · exact (canPush_iff _ _).mp room
    · trivial
  case loadSlot c => exact simulates_local h ⟨rfl, own⟩ h.popper
  case storeSlot c head =>
    obtain ⟨rfl, room⟩ := own
    have stored : ({ d.ring with
        buf := Function.update d.ring.buf (d.ring.head % bufferSize).toNat c } : Ring) =
        d.ring.store c := rfl
    simp only [stored]
    refine ⟨⟨?_, ⟨room, Function.update_self _ _ _⟩, h.popper.grew (grew_store _ c)⟩, .inl rfl⟩
    rw [Ring.store_queued]
    exact h.balance
  case reloadHead c => exact simulates_local h ⟨rfl, own⟩ h.popper
  case storeHead c head =>
    obtain ⟨rfl, room, byte⟩ := own
    have queued := Ring.pushed_queued free room
    rw [byte] at queued
    refine ⟨⟨?_, trivial, h.popper.grew (grew_pushed free room)⟩, .inr ⟨.push c, ?_⟩⟩
    · show start.queued ++ (d.pushed ++ [c]) = d.popped ++ (d.ring.pushed free).queued
      rw [queued, ← List.append_assoc, h.balance, List.append_assoc]
    · have below : (d.fifo start).queue.length < capacity := by
        rw [h.queue, Ring.queued_length]
        simp only [Ring.HasRoom, capacity] at room ⊢
        omega
      show (if (d.fifo start).queue.length < capacity then _ else none) = _
      rw [if_pos below]
      simp [Direction.fifo]

theorem popStep_simulates {start : Ring} {d d' : Direction} {free : Bool} (h : d.Inv start)
    (action : d.popStep free = some d') : Simulates start d d' := by
  have own := h.popper
  unfold Direction.popStep at action
  cases pc : d.popper <;> rw [pc] at action own <;> cases action
  case pollHead => exact simulates_local h h.pusher (show _ ≤ _ from le_rfl)
  case pollTail head =>
    apply simulates_local h h.pusher
    intro ready
    exact ((canPop_iff _ _).mp ready).trans_le own
  case loadHead ready => exact simulates_local h h.pusher ⟨le_rfl, own⟩
  case loadTail ready head =>
    apply simulates_local h h.pusher
    split <;> rename_i nonempty
    · exact ((canPop_iff _ _).mp nonempty).trans_le own.1
    · exact fun promised => absurd ((canPop_iff _ _).mpr (own.2 promised)) nonempty
  case loadSlot => exact simulates_local h h.pusher ⟨rfl, own⟩
  case readSlot tail =>
    obtain ⟨rfl, nonempty⟩ := own
    exact simulates_local h h.pusher ⟨nonempty, rfl⟩
  case reloadTail c => exact simulates_local h h.pusher ⟨rfl, own⟩
  case storeTail c tail =>
    obtain ⟨rfl, nonempty, byte⟩ := own
    have queued := Ring.popped_queued free nonempty
    rw [byte] at queued
    refine ⟨⟨?_, h.pusher.popped free nonempty, fun h => by cases h⟩, .inr ⟨.pop, ?_⟩⟩
    · show start.queued ++ d.pushed = (d.popped ++ [c]) ++ (d.ring.popped free).queued
      rw [h.balance, queued]
      simp
    · have head : (d.fifo start).queue.head? = some c := by rw [h.queue, queued]; rfl
      show Option.map _ (d.fifo start).queue.head? = _
      rw [head]
      rfl

theorem step_simulates {start : Ring} {d d' : Direction} {move : Move} (h : d.Inv start)
    (action : d.step move = some d') : Simulates start d d' := by
  cases move with
  | push c =>
      simp only [Direction.step, Option.ite_none_right_eq_some, Option.some.injEq] at action
      obtain ⟨_, rfl⟩ := action
      exact simulates_local h trivial h.popper
  | pushStep free => exact pushStep_simulates h action
  | poll =>
      simp only [Direction.step] at action
      split at action <;> cases action
      exact simulates_local h h.pusher trivial
  | pop =>
      have own := h.popper
      simp only [Direction.step] at action
      split at action <;> cases action
      rename_i pc
      rw [pc] at own
      exact simulates_local h h.pusher own
  | popStep free => exact popStep_simulates h action

/-! ## Runs of the console -/

structure QueuesInv (tx rx : Ring) (q : Queues) : Prop where
  txInv : q.tx.Inv tx
  txFifo : (ringFifo tx).Reachable (q.tx.fifo tx)
  rxInv : q.rx.Inv rx
  rxFifo : (ringFifo rx).Reachable (q.rx.fifo rx)

theorem Direction.fresh_inv (ring : Ring) : (Direction.fresh ring).Inv ring :=
  ⟨by simp [fresh], trivial, fun h => by cases h⟩

theorem Direction.fresh_fifo (ring : Ring) :
    (ringFifo ring).Reachable ((Direction.fresh ring).fifo ring) :=
  .start (by simp [fifo, fresh, Fifo.system])

theorem Simulates.reachable {start : Ring} {d d' : Direction} (h : Simulates start d d')
    (reachable : (ringFifo start).Reachable (d.fifo start)) :
    (ringFifo start).Reachable (d'.fifo start) := by
  rcases h.queue with same | ⟨op, action⟩
  · exact same ▸ reachable
  · exact .next reachable trivial action

theorem queues_inv {tx rx : Ring} {q : Queues} (reachable : (console tx rx).Reachable q) :
    QueuesInv tx rx q := by
  apply reachable.invariant
  · rintro q rfl
    exact ⟨Direction.fresh_inv tx, Direction.fresh_fifo tx, Direction.fresh_inv rx,
      Direction.fresh_fifo rx⟩
  · intro q q' label h _ action
    simp only [console, Queues.step, Option.ite_none_right_eq_some] at action
    obtain ⟨_, action⟩ := action
    cases label with
    | tx move =>
        obtain ⟨d, moved, rfl⟩ := Option.map_eq_some_iff.mp action
        have sim := step_simulates h.txInv moved
        exact ⟨sim.inv, sim.reachable h.txFifo, h.rxInv, h.rxFifo⟩
    | rx move =>
        obtain ⟨d, moved, rfl⟩ := Option.map_eq_some_iff.mp action
        have sim := step_simulates h.rxInv moved
        exact ⟨h.txInv, h.txFifo, sim.inv, sim.reachable h.rxFifo⟩

structure Lossless (start : Ring) (d : Direction) : Prop where
  ordered : d.popped <+: start.queued ++ d.pushed
  unread : start.queued ++ d.pushed = d.popped ++ d.ring.queued
  bounded : d.ring.queued.length ≤ 4095
  kept : ∀ c head, d.pusher = .storeSlot c head → ∀ i < d.ring.queued.length,
    (d.ring.tail.toNat + i) % slots ≠ (head % bufferSize).toNat
  /-- A `pop_char` called after `can_pop` returned true leaves its loop at the first test. -/
  prompt : ∀ head, d.popper = .loadTail true head → canPop head d.ring.tail = true

theorem Direction.Inv.lossless {start : Ring} {d : Direction} (h : d.Inv start)
    (reachable : (ringFifo start).Reachable (d.fifo start)) : Lossless start d := by
  have sound := Fifo.reachable_sound (by
    have := start.count_lt
    simp only [Ring.queued_length, capacity]
    omega) reachable
  refine ⟨sound.ordered, h.balance, ?_, ?_, ?_⟩
  · rw [← h.queue]
    exact sound.bounded
  · intro c head pc i lt
    have own := h.pusher
    rw [pc] at own
    rw [Ring.queued_length] at lt
    rw [own.1, slot_toNat, ← Ring.head_slot]
    exact slot_ne lt d.ring.count_lt
  · intro head pc
    have own := h.popper
    rw [pc] at own
    exact (canPop_iff _ _).mpr (own.2 rfl)

theorem console_lossless (tx rx : Ring) (q : Queues) (reachable : (console tx rx).Reachable q) :
    Lossless tx q.tx ∧ Lossless rx q.rx := by
  have inv := queues_inv reachable
  exact ⟨inv.txInv.lossless inv.txFifo, inv.rxInv.lossless inv.rxFifo⟩

def wrapping : Ring := ⟨fun _ => 0, 0xffffffff, 0xffffffff⟩

def exchange (c : U8) : List Label :=
  [.rx (.push c)] ++ List.replicate 6 (.rx (.pushStep false)) ++
    [.rx .pop] ++ List.replicate 6 (.rx (.popStep true))

theorem console_lossless_exchange :
    ∃ q, (console wrapping wrapping).run (exchange 65) ⟨.fresh wrapping, .fresh wrapping⟩ = some q ∧
      q.rx.popped = [65] ∧ Lossless wrapping q.tx ∧ Lossless wrapping q.rx := by
  have run : ∃ q, (console wrapping wrapping).run (exchange 65)
      ⟨.fresh wrapping, .fresh wrapping⟩ = some q ∧ q.rx.popped = [65] := ⟨_, rfl, rfl⟩
  obtain ⟨q, action, popped⟩ := run
  have initial : (console wrapping wrapping).Reachable ⟨.fresh wrapping, .fresh wrapping⟩ :=
    .start rfl
  exact ⟨q, action, popped, console_lossless wrapping wrapping q (initial.run _ action)⟩

end TtBhLinux.Console
