import TtBhLinux.Network.VirtioNet
import TtBhLinux.Virtio.Accesses

/-!
# What VirtioNet touches

The last descriptor takes the header as well if no descriptor before it did, and the packet then
starts behind the header. A received packet has its own length, whatever the descriptor says.
-/

namespace TtBhLinux.Network
open Common Virtio

def headerTouches (queue_idx : Nat) : List (Touch BufferPointer 64) :=
  if queue_idx = 0 then [⟨.addr, 0, 1⟩, ⟨.addr, 10, 2⟩, ⟨.addr, 1, 1⟩, ⟨.addr, 4, 2⟩] else []

def packetTouches (queue_idx : Nat) (offset len : U64) : Received → List (Touch BufferPointer 64)
  | .nothing _ => if queue_idx = 1 then [⟨.addr, offset, len.toNat⟩] else []
  | .packet data _ _ =>
      if queue_idx = 0 then [⟨.addr, offset, data.length⟩]
      else if queue_idx = 1 then [⟨.addr, offset, len.toNat⟩] else []

def netTouches (queue_header_size : U64) : Callback → (queue_idx : Nat) → (len : U64) → Received →
    Work VirtioNet → List (Touch BufferPointer 64)
  | .start, q, _, _, _ => headerTouches q
  | .data, _, _, _, _ => []
  | .complete, q, len, result, work =>
      if work.dev.headerProcessed then packetTouches q 0 len result
      else headerTouches q ++ packetTouches q queue_header_size len result

section
variable {hs addr len offset : U64} {q : Nat} {result : Received} {work work' : Work VirtioNet}
  {mem : U64 → U8} {call : Callback} {kept : Option U64}

theorem header_writes (x : U64) (outside : ∀ touch ∈ headerTouches q,
      ¬(touch.range (BufferPointer.value addr kept)).Contains x) :
    (processQueueStart q addr len work).mem x = work.mem x := by
  unfold headerTouches at outside
  unfold processQueueStart
  by_cases receive : q = 0
  · simp only [receive, if_true, List.mem_cons, List.not_mem_nil, or_false, forall_eq_or_imp,
      forall_eq, Touch.range_contains, BufferPointer.value_addr, add_zero] at outside ⊢
    obtain ⟨flags, buffers, type, size⟩ := outside
    rw [storeHeader, store_outside _ _ size, store_outside _ _ type, store_outside _ _ buffers,
      store_outside _ _ flags]
  · simp [receive]

theorem complete_writes (called : complete q (addr + offset) len result work = .ok work') (x : U64)
    (outside : ∀ touch ∈ packetTouches q offset len result,
      ¬(touch.range (BufferPointer.value addr kept)).Contains x) : work'.mem x = work.mem x := by
  unfold complete at called
  split at called
  · rename_i receive
    cases result with
    | nothing ret =>
        cases called
        rfl
    | packet data nonempty fits =>
        cases called
        have packet := outside ⟨.addr, offset, data.length⟩ (by simp [packetTouches, receive])
        exact store_outside _ _ (by simpa using packet)
  · split at called
    · split at called
      · cases called
        rfl
      · cases called
    · cases called
      rfl

theorem complete_reads (same : ∀ touch ∈ packetTouches q offset len result, ∀ x,
      (touch.range (BufferPointer.value addr kept)).Contains x → mem x = work.mem x) :
    (complete q (addr + offset) len result { work with mem }).map Work.dev =
      (complete q (addr + offset) len result work).map Work.dev := by
  unfold complete
  by_cases receive : q = 0
  · simp only [receive, if_true]
    cases result <;> rfl
  · by_cases transmit : q = 1
    · have copied : load mem (addr + offset) len.toNat = load work.mem (addr + offset) len.toNat := by
        apply load_congr len.isLt.le
        intro x inside
        refine same ⟨.addr, offset, len.toNat⟩ ?_ x inside
        cases result <;> simp [packetTouches, transmit]
      simp only [transmit, one_ne_zero, if_false, if_true, copied]
      split <;> rfl
    · simp only [receive, transmit, if_false]
      rfl

theorem net_writes
    (called : (virtioNetDevice hs).callback call q addr len result work = .ok work') (x : U64)
    (outside : ∀ touch ∈ netTouches hs call q len result work,
      ¬(touch.range (BufferPointer.value addr kept)).Contains x) : work'.mem x = work.mem x := by
  cases call with
  | start =>
      cases Except.ok.inj called
      exact header_writes x outside
  | data =>
      cases Except.ok.inj called
      rfl
  | complete =>
      obtain ⟨mid, completed, rfl⟩ := except_map_ok called
      show mid.mem x = work.mem x
      by_cases seen : work.dev.headerProcessed = true
      · rw [if_pos seen, ← add_zero addr] at completed
        exact complete_writes completed x (by simpa only [netTouches, seen, if_true] using outside)
      · rw [if_neg seen] at completed
        simp only [netTouches, if_neg seen, List.forall_mem_append] at outside
        rw [complete_writes completed x outside.2]
        exact header_writes x outside.1

theorem start_reads {x : U64} (same : mem x = work.mem x) :
    (processQueueStart q addr len { work with mem }).mem x =
      (processQueueStart q addr len work).mem x := by
  unfold processQueueStart
  by_cases receive : q = 0
  · simp only [receive, if_true, storeHeader, store, same]
  · simp [receive, same]

theorem net_reads
    (same : ∀ touch ∈ netTouches hs call q len result work, ∀ x,
      (touch.range (BufferPointer.value addr kept)).Contains x → mem x = work.mem x) :
    ((virtioNetDevice hs).callback call q addr len result { work with mem }).map Work.dev =
      ((virtioNetDevice hs).callback call q addr len result work).map Work.dev := by
  have done (outcome : Except Fault (Work VirtioNet)) : (outcome.map headerDone).map Work.dev =
      (outcome.map Work.dev).map fun net => { net with headerProcessed := false } := by
    cases outcome <;> rfl
  cases call with
  | start | data => rfl
  | complete =>
      show (Except.map headerDone _).map _ = (Except.map headerDone _).map _
      rw [done, done]
      congr 1
      by_cases seen : work.dev.headerProcessed = true
      · rw [if_pos seen, if_pos seen, ← add_zero addr]
        exact complete_reads (by simpa only [netTouches, seen, if_true] using same)
      · rw [if_neg seen, if_neg seen]
        simp only [netTouches, if_neg seen, List.forall_mem_append] at same
        exact complete_reads fun touch member x inside => start_reads (same.2 touch member x inside)

theorem headerTouches_addr : ∀ touch ∈ headerTouches q, touch.pointer = .addr := by
  unfold headerTouches
  split <;> simp

theorem packetTouches_addr :
    ∀ touch ∈ packetTouches q offset len result, touch.pointer = .addr := by
  cases result with
  | nothing ret =>
      simp only [packetTouches]
      split <;> simp
  | packet data nonempty fits =>
      simp only [packetTouches]
      split
      · simp
      · split <;> simp

theorem netTouches_addr {touch : Touch BufferPointer 64}
    (member : touch ∈ netTouches hs call q len result work) : touch.pointer = .addr := by
  cases call with
  | start => exact headerTouches_addr touch member
  | data => cases member
  | complete =>
      simp only [netTouches] at member
      split at member
      · exact packetTouches_addr touch member
      · exact (List.mem_append.mp member).elim (headerTouches_addr touch) (packetTouches_addr touch)

end

def netFootprint (queue_header_size : U64) : Footprint (virtioNetDevice queue_header_size) where
  touches := netTouches queue_header_size
  kept _ := none
  writes called x outside := net_writes called x outside
  reads same := net_reads same
  starts _ p kept := absurd kept (Option.not_mem_none p)
  keeps _ _ := rfl
  uses_kept member pointer := by
    cases (netTouches_addr member).symm.trans pointer

end TtBhLinux.Network
