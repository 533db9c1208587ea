import TtBhLinux.Common.Ranges
import TtBhLinux.Virtio.Lifecycle

/-!
# The accesses of a device to the memory of its guest

Every access goes through a pointer that `device_setup` or `device_loop` has made of an address of
the guest. Beside a thread stands the address that each of its pointers was made of.
-/

namespace TtBhLinux.Virtio
open Common

/-! ## Callbacks -/

inductive Callback
  | start
  | data
  | complete
  deriving DecidableEq

inductive BufferPointer
  | addr
  /-- The pointer that the device has kept of an earlier callback. -/
  | kept

def BufferPointer.value (addr : U64) (kept : Option U64) : BufferPointer → U64
  | .addr => addr
  | .kept => kept.getD 0

@[simp] theorem BufferPointer.value_addr (addr : U64) (kept : Option U64) :
    BufferPointer.value addr kept .addr = addr := rfl

def Config.callback (c : Config) (more : Bool) (num_bytes_written : U64) : Callback :=
  if more then if num_bytes_written < c.queueHeaderSize then .start else .data else .complete

theorem Config.callback_data {c : Config} {more : Bool} {count : U64}
    (data : c.callback more count = .data) : ¬count < c.queueHeaderSize := by
  intro header
  cases more <;> simp [callback, header] at data

theorem Config.callback_start {c : Config} {count : U64} :
    c.callback true count = .start ↔ count < c.queueHeaderSize := by
  by_cases header : count < c.queueHeaderSize <;> simp [callback, header]

section
variable {σ ρ : Type*} (dev : Device σ ρ)

def Device.callback :
    Callback → (queue_idx : Nat) → (addr len : U64) → ρ → Work σ → Except Fault (Work σ)
  | .start, q, addr, len, _ => dev.processQueueStart q addr len
  | .data, q, addr, len, _ => dev.processQueueData q addr len
  | .complete, q, addr, len, result => dev.processQueueComplete q addr len result

theorem Device.entry_eq (c : Config) (q : Nat) (more : Bool) (count addr len : U64) (result : ρ) :
    dev.entry c q more count addr len result =
      dev.callback (c.callback more count) q addr len result := by
  unfold entry Config.callback
  cases more with
  | false => rfl
  | true => by_cases header : count < c.queueHeaderSize <;> simp [header, callback]

/-- They change nothing else, and nothing else has any influence on what becomes of the device. -/
structure Footprint where
  touches : Callback → (queue_idx : Nat) → (len : U64) → ρ → Work σ → List (Touch BufferPointer 64)
  kept : σ → Option U64
  writes : ∀ {call q addr len result work work'},
    dev.callback call q addr len result work = .ok work' →
    ∀ x, (∀ touch ∈ touches call q len result work,
      ¬(touch.range (BufferPointer.value addr (kept work.dev))).Contains x) →
    work'.mem x = work.mem x
  reads : ∀ {call q addr len result work mem},
    (∀ touch ∈ touches call q len result work, ∀ x,
      (touch.range (BufferPointer.value addr (kept work.dev))).Contains x → mem x = work.mem x) →
    (dev.callback call q addr len result { work with mem }).map Work.dev =
      (dev.callback call q addr len result work).map Work.dev
  starts : ∀ {q addr len work work'}, dev.processQueueStart q addr len work = .ok work' →
    ∀ p ∈ kept work'.dev, p = addr
  keeps : ∀ {call q addr len result work work'}, call ≠ .start →
    dev.callback call q addr len result work = .ok work' → kept work'.dev = kept work.dev
  uses_kept : ∀ {call q len result work touch}, touch ∈ touches call q len result work →
    touch.pointer = .kept → call = .data ∧ (kept work.dev).isSome

end

/-! ## Rings and descriptors -/

def LoopPc.ringTouch (processed : Nat → U16) : LoopPc → Option (Touch (Area × Nat) 64)
  | .loadAvailIdx q => some ⟨(.avail, q), 2, 2⟩
  | .loadHead q => some ⟨(.avail, q), .ofNat 64 (4 + 2 * slot (processed q)), 2⟩
  | .peekLen w | .loadLen w => some ⟨(.desc, w.queue_idx), .ofNat 64 (16 * slot w.desc_idx + 8), 4⟩
  | .peekAddr w | .loadAddr w _ => some ⟨(.desc, w.queue_idx), .ofNat 64 (16 * slot w.desc_idx), 8⟩
  | .loadFlags w _ _ => some ⟨(.desc, w.queue_idx), .ofNat 64 (16 * slot w.desc_idx + 12), 2⟩
  | .loadNext w => some ⟨(.desc, w.queue_idx), .ofNat 64 (16 * slot w.desc_idx + 14), 2⟩
  | .loadUsedIdx w | .storeUsedIdx w _ => some ⟨(.used, w.queue_idx), 2, 2⟩
  | .storeId w used_idx => some ⟨(.used, w.queue_idx), .ofNat 64 (4 + 8 * slot used_idx), 4⟩
  | .storeLen w used_idx => some ⟨(.used, w.queue_idx), .ofNat 64 (8 + 8 * slot used_idx), 4⟩
  | _ => none

def LoopPc.callsBack : LoopPc → Bool
  | .process _ _ _ _ => true
  | _ => false

/-! ## Threads with the addresses of the guest -/

structure Tracked (σ : Type*) where
  thread : Thread σ
  setup : Setup
  /-- The address of the descriptor that was loaded last. -/
  given : U64
  /-- The one that `process_queue_start` was last called for. -/
  header : U64

def LoopPc.given (s : Shared) (given : U64) : LoopPc → U64
  | .loadAddr w _ => (s.desc w).addr
  | _ => given

def LoopPc.header (c : Config) (given header : U64) : LoopPc → U64
  | .process w _ _ more =>
      if c.callback more w.num_bytes_written = .start then given else header
  | _ => header

def Stage.members {σ : Type*} (setup : Setup) : Stage σ → Setup
  | .setup s _ => s
  | _ => setup

section
variable {σ ρ : Type*}

def Tracked.record (c : Config) (label : ThreadLabel σ ρ) (t : Tracked σ) (thread : Thread σ) :
    Tracked σ :=
  match label, t.thread.stage with
  | .device _ _, .loop l =>
      { t with
        thread
        given := l.pc.given t.thread.shared t.given
        header := l.pc.header c t.given t.header }
  | _, _ => { t with thread, setup := thread.stage.members t.setup }

def tracked (dev : Device σ ρ) (c : Config) : System (Tracked σ) (ThreadLabel σ ρ) where
  init t := (lifecycle dev c).init t.thread
  step label t := ((lifecycle dev c).step label t.thread).map (t.record c label)

def Tracked.ranges {dev : Device σ ρ} (fp : Footprint dev) (c : Config) (result : ρ) (t : Tracked σ)
    (ring : Area → Nat → U64) (buffer : U64 → Option U64 → BufferPointer → U64) :
    List (Range 64) :=
  match t.thread.stage with
  | .loop l =>
      ((l.pc.ringTouch l.vars.processed).toList.map (·.range fun area => ring area.1 area.2)) ++
      match l.pc with
      | .process w len addr more =>
          let call := c.callback more w.num_bytes_written
          (fp.touches call w.queue_idx len result ⟨l.vars.dev, t.thread.shared.mem⟩).map
            (·.range (buffer addr (fp.kept l.vars.dev)))
      | _ => []
  | _ => []

def Tracked.accesses {dev : Device σ ρ} (fp : Footprint dev) (c : Config) (result : ρ)
    (t : Tracked σ) : List (Range 64) :=
  t.ranges fp c result t.setup.pointer BufferPointer.value

def Tracked.supplied {dev : Device σ ρ} (fp : Footprint dev) (c : Config) (result : ρ)
    (t : Tracked σ) : List (Range 64) :=
  t.ranges fp c result t.setup.address fun _ _ => BufferPointer.value t.given (some t.header)

end
end TtBhLinux.Virtio
