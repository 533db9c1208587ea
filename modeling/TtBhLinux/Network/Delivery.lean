import TtBhLinux.Network.Footprint
import TtBhLinux.Network.Transmit
import TtBhLinux.Virtio.InFlight

/-!
# Frames from end to end

A driver that lays out every frame behind a header of 12 bytes, and leaves alone what it has handed
over, finds its frames sent in order, whatever is received in between.
-/

namespace TtBhLinux.Network
open Common System Virtio

structure Transmittable (descs : List Desc) : Prop where
  layout : chainLength descs.dropLast = 12
  fits : chainLength descs ≤ 12 + packetSize

def frameOf (c : Config) (mem : U64 → U8) (descs : List Desc) : List U8 :=
  (chainBytes c mem descs).drop 12

def receiveRoom : Nat := 12 + packetSize

section
variable {c : Config}

/-! ## The calls for a chain -/

def AtEnd (calls : List Call) : Prop := ∀ call ∈ calls.getLast?, call.completes = true

theorem AtEnd.append {before after : List Call} (first : AtEnd before) (last : AtEnd after) :
    AtEnd (before ++ after) := by
  intro call member
  rw [List.getLast?_append] at member
  cases ends : after.getLast? with
  | none =>
      rw [ends] at member
      exact first call member
  | some last_call =>
      rw [ends] at member
      exact last call (ends ▸ member)

theorem callback_last {d : Desc} {count : U64} (last : d.hasNext = false) :
    c.callback d.hasNext count = .complete := by
  rw [last]
  rfl

theorem chainCalls_atEnd {descs : List Desc} (terminated : Terminated descs) (count : U64) :
    AtEnd (chainCalls c count descs) := by
  obtain ⟨before, last, rfl⟩ := terminated.exists_last
  rw [chainCalls_concat]
  intro call member
  simp only [List.getLast?_concat, Option.mem_some_iff] at member
  rw [← member, Call.completes, callback_last (terminated_append.mp terminated).2]
  rfl

theorem flatMap_atEnd {chains : List (List Desc)} (terminated : ∀ descs ∈ chains, Terminated descs) :
    AtEnd (chains.flatMap (chainCalls c 0)) := by
  induction chains with
  | nil => exact fun _ member => absurd member (Option.not_mem_none _)
  | cons descs rest ih =>
      rw [List.flatMap_cons]
      exact (chainCalls_atEnd (terminated descs List.mem_cons_self) 0).append
        (ih fun descs member => terminated descs (List.mem_cons_of_mem _ member))

/-! ## What a call does -/

section
variable {q : Nat} {addr len : U64} {result : Received} {work work' : Work VirtioNet}
  {call : Callback}

theorem netTouches_room {touch : Touch BufferPointer 64}
    (member : touch ∈ netTouches 12 call 0 len result work) :
    touch.offset.toNat + touch.len ≤ receiveRoom := by
  have header : ∀ touch ∈ headerTouches 0, touch.offset.toNat + touch.len ≤ receiveRoom := by
    decide
  have packet {offset : U64} (small : offset.toNat ≤ 12) :
      ∀ touch ∈ packetTouches 0 offset len result, touch.offset.toNat + touch.len ≤ receiveRoom := by
    cases result with
    | nothing ret => exact fun _ member => absurd member List.not_mem_nil
    | packet data nonempty fits =>
        intro touch member
        rw [List.mem_singleton.mp member]
        exact Nat.add_le_add small fits
  cases call with
  | start => exact header touch member
  | data => exact absurd member List.not_mem_nil
  | complete =>
      simp only [netTouches] at member
      split at member
      · exact packet (Nat.zero_le _) touch member
      · exact (List.mem_append.mp member).elim (header touch) (packet le_rfl touch)

theorem receive_writes
    (called : (virtioNetDevice 12).callback call 0 addr len result work = .ok work') (x : U64)
    (outside : ¬InRegion addr receiveRoom x) : work'.mem x = work.mem x := by
  refine (netFootprint 12).writes called x fun touch member inside => outside ?_
  have pointer : touch.pointer = .addr := netTouches_addr member
  have offset : touch.offset = .ofNat 64 touch.offset.toNat := by simp
  rw [Touch.range_contains, pointer, BufferPointer.value_addr, offset] at inside
  exact inside.shift (netTouches_room member) (by decide)

theorem call_mem {hs : U64} (called : (virtioNetDevice hs).callback call q addr len result work =
    .ok work') (other : q ≠ 0) : work'.mem = work.mem := by
  have start : (processQueueStart q addr len work).mem = work.mem := if_neg other
  have done {addr : U64} {mid mid' : Work VirtioNet}
      (completed : complete q addr len result mid = .ok mid') : mid'.mem = mid.mem := by
    unfold complete at completed
    rw [if_neg other] at completed
    split at completed
    · split at completed
      · cases completed
        rfl
      · cases completed
    · cases completed
      rfl
  cases call with
  | start =>
      cases Except.ok.inj called
      exact start
  | data =>
      cases Except.ok.inj called
      rfl
  | complete =>
      obtain ⟨mid, completed, rfl⟩ := except_map_ok called
      show mid.mem = work.mem
      split at completed
      · exact done completed
      · exact (done completed).trans start

theorem call_other (hs addr len : U64) (result : Received) (work : Work VirtioNet)
    (silent : ¬(q = 1 ∧ call = .complete)) :
    ∃ work', (virtioNetDevice hs).callback call q addr len result work = .ok work' ∧
      work'.dev.sent = work.dev.sent ∧
      work'.dev.headerProcessed = (call ≠ .complete && (call = .start || work.dev.headerProcessed)) := by
  cases call with
  | start => exact ⟨_, rfl, rfl, rfl⟩
  | data => exact ⟨_, rfl, rfl, rfl⟩
  | complete =>
      have other : q ≠ 1 := fun same => silent ⟨same, rfl⟩
      have done (addr : U64) (mid : Work VirtioNet) : ∃ mid', complete q addr len result mid =
          .ok mid' ∧ mid'.dev.sent = mid.dev.sent := by
        unfold complete
        split
        · cases result <;> exact ⟨_, rfl, rfl⟩
        · exact ⟨mid, rfl, rfl⟩
      show ∃ work', Except.map headerDone _ = .ok work' ∧ _
      split
      · obtain ⟨mid, completed, sent⟩ := done addr work
        exact ⟨headerDone mid, by rw [completed]; rfl, sent, rfl⟩
      · obtain ⟨mid, completed, sent⟩ := done (addr + hs) (processQueueStart q addr len work)
        exact ⟨headerDone mid, by rw [completed]; rfl, sent, rfl⟩

theorem call_sends (hs addr : U64) (result : Received) (work : Work VirtioNet)
    (seen : work.dev.headerProcessed = true) (fits : len.toNat ≤ packetSize) : ∃ work',
      (virtioNetDevice hs).callback .complete 1 addr len result work = .ok work' ∧
      work'.dev.sent = work.dev.sent ++ [load work.mem addr len.toNat] ∧
      work'.dev.headerProcessed = false := by
  have called : (virtioNetDevice hs).callback .complete 1 addr len result work =
      (complete 1 addr len result work).map headerDone := by
    show Except.map headerDone _ = _
    rw [if_pos seen]
  rw [called, complete_transmit, if_pos fits]
  exact ⟨_, rfl, rfl, rfl⟩

end

/-! ## Frames in flight -/

theorem chainBytes_same {descs : List Desc} {mem mem' : U64 → U8}
    (same : SameBuffers c descs mem mem') : chainBytes c mem' descs = chainBytes c mem descs := by
  unfold chainBytes
  apply List.flatMap_congr
  intro d member
  exact load_congr (by have := d.len.isLt; omega) (same d member)

variable (c) in
def transmitPayload : Payload c (List U8) where
  queue := 1
  good _ descs := Transmittable descs
  read := frameOf c
  takes := Call.completes
  once _ terminated := terminated.completed 0
  reads _ same := congrArg (List.drop 12) (chainBytes_same same)

structure Disciplined (c : Config) (s : Rings VirtioNet) (label : RingLabel Received) : Prop where
  honoured : (transmitPayload c).Honoured s label
  /-- No buffer for a frame lies in the room for a packet. -/
  apart : ∀ rx ∈ s.handedOver 0, ∀ tx ∈ s.handedOver 1, ∀ d ∈ rx, ∀ e ∈ tx,
    Apart (c.addr d) receiveRoom (c.addr e) e.len.toNat

structure DeliveryInv (c : Config) (s : Rings VirtioNet) (h : Handed (List U8)) : Prop where
  handed : HandedInv (transmitPayload c) s h
  header : s.loop.vars.dev.headerProcessed = false ↔ ∀ q, AtEnd (h.calls.calls q)
  sent : s.loop.vars.dev.sent = h.payloads.take (h.taken (transmitPayload c))
  running : ∀ f, s.loop.pc ≠ .fault f

section Call
variable {num : Nat → QueueNum} {s : Rings VirtioNet} {h : Handed (List U8)} {w : Walk}
  {l addr : U64} {more : Bool} {before after : List Desc} {d : Desc}

theorem upTo_atEnd {r : Calls} (inv : CallInv c s r) (q n : Nat) :
    AtEnd ((r.view s q).upTo c n) :=
  flatMap_atEnd fun descs member => (inv.queues q).terminated descs (List.mem_of_mem_take member)

theorem others_atEnd {r : Calls} (inv : CallInv c s r) (pc : s.loop.pc = .process w l addr more)
    {q : Nat} (other : q ≠ w.queue_idx) : AtEnd (r.calls q) := by
  have idle := inv.idle q (by rw [pc]; exact busy_other q other)
  rw [show r.calls q = _ from idle]
  exact upTo_atEnd inv q _

theorem calling_header (calling : Calling c s h.calls w before d after) (inv : DeliveryInv c s h)
    (pc : s.loop.pc = .process w l addr more) :
    s.loop.vars.dev.headerProcessed = false ↔ before = [] := by
  rw [inv.header]
  constructor
  · intro ends
    rcases List.eq_nil_or_concat before with none | ⟨front, e, rfl⟩
    · exact none
    · have more : e.hasNext = true := calling.terminated.before e (by simp)
      have last := ends w.queue_idx
      rw [calling.calls, List.concat_eq_append, chainCalls_concat, ← List.append_assoc] at last
      have completes := last _ List.getLast?_concat
      rw [more] at completes
      exact absurd (of_decide_eq_true completes) (Config.callback_more _)
  · rintro rfl q
    by_cases own : q = w.queue_idx
    · rw [own, calling.calls]
      exact (List.append_nil _).symm ▸ upTo_atEnd inv.handed.calls _ _
    · exact others_atEnd inv.handed.calls pc own

theorem atEnd_called (inv : CallInv c s h.calls) (pc : s.loop.pc = .process w l addr more) :
    (∀ q, AtEnd ((h.calls.device c s.loop.pc s.shared).calls q)) ↔
      c.callback more w.num_bytes_written = .complete := by
  rw [pc]
  constructor
  · intro ends
    have last := ends w.queue_idx
    simp only [Calls.device, Function.update_self] at last
    exact of_decide_eq_true (last _ List.getLast?_concat)
  · intro completes q
    by_cases own : q = w.queue_idx
    · subst own
      intro call member
      simp only [Calls.device, Function.update_self, List.getLast?_concat,
        Option.mem_some_iff] at member
      rw [← member]
      exact decide_eq_true completes
    · simp only [Calls.device, ne_eq, own, not_false_eq_true, Function.update_of_ne]
      exact others_atEnd inv pc own

theorem calling_keeps {a : Answer Received} {call : Callback} {len : U64} {work' : Work VirtioNet}
    (calling : Calling c s h.calls w before d after) (size : c.queueHeaderSize = 12)
    (rings : RingInv num s) (inv : DeliveryInv c s h) (disciplined : Disciplined c s (.device a))
    (called : (virtioNetDevice c.queueHeaderSize).callback call w.queue_idx (c.addr d) len a.result
      ⟨s.loop.vars.dev, s.shared.mem⟩ = .ok work')
    {k : Nat} (later : (s.entered 1).length ≤ k) {descs : List Desc}
    (offered : (h.calls.offered 1)[k]? = some descs) :
    SameBuffers c descs s.shared.mem work'.mem := by
  by_cases receive : w.queue_idx = 0
  · have held := inv.handed.calls.handedOver rings le_rfl calling.offered
    rw [receive] at called held
    rw [size] at called
    intro e member x inside
    refine receive_writes called x fun own => ?_
    exact disciplined.apart _ held _ (inv.handed.calls.handedOver rings later offered) d
      (by simp) e member x own inside
  · intro e _ x _
    rw [call_mem called receive]

end Call

theorem Transmittable.frame {before : List Desc} {last : Desc}
    (transmittable : Transmittable (before ++ [last])) (mem : U64 → U8) :
    frameOf c mem (before ++ [last]) = load mem (c.addr last) last.length.toNat ∧
      last.length.toNat ≤ packetSize ∧ before ≠ [] := by
  have layout := transmittable.layout
  have fits := transmittable.fits
  rw [List.dropLast_concat] at layout
  rw [chainLength_append, layout] at fits
  refine ⟨?_, ?_, ?_⟩
  · have header : (chainBytes c mem before).length = 12 := by rw [chainBytes_length, layout]
    have split : chainBytes c mem (before ++ [last]) =
        chainBytes c mem before ++ load mem (c.addr last) last.len.toNat := by simp [chainBytes]
    rw [frameOf, split, ← header, List.drop_left, Desc.length_toNat]
  · rw [Desc.length_toNat]
    omega
  · rintro rfl
    cases layout

section Steps
variable {num : Nat → QueueNum} {s : Rings VirtioNet} {h : Handed (List U8)}

theorem delivery_call {w : Walk} {l addr : U64} {more : Bool} {a : Answer Received}
    {loop : Loop VirtioNet} {shared : Shared} (size : c.queueHeaderSize = 12)
    (rings : RingInv num s) (inv : DeliveryInv c s h) (disciplined : Disciplined c s (.device a))
    (inside : TakesInside num s (.device a)) (pc : s.loop.pc = .process w l addr more)
    (action : loopStep (virtioNetDevice c.queueHeaderSize) c a s.loop s.shared =
      some (loop, shared)) :
    DeliveryInv c { s with loop, shared, entered := enter s.loop.pc s.shared s.entered }
      ((transmitPayload c).note (.device a) s h) := by
  obtain ⟨before, d, after, calling, rfl, rfl, rfl⟩ := inv.handed.calls.calling rings pc
  have atEnd := atEnd_called inv.handed.calls pc
  have header := calling_header calling inv pc
  have payloads : ((transmitPayload c).note (.device a) s h).payloads = h.payloads :=
    List.append_nil _
  have taken : ((transmitPayload c).note (.device a) s h).taken (transmitPayload c) =
      h.taken (transmitPayload c) + if w.queue_idx = 1 ∧
        c.callback d.hasNext w.num_bytes_written = .complete then 1 else 0 := by
    show ((h.calls.device c s.loop.pc s.shared).calls 1).countP Call.completes = _
    rw [pc, Calls.device_countP]
    simp [Call.completes, Handed.taken, transmitPayload]
  have goes_on {work' : Work VirtioNet}
      (called : (virtioNetDevice c.queueHeaderSize).callback
        (c.callback d.hasNext w.num_bytes_written) w.queue_idx (c.addr d) d.length a.result
        ⟨s.loop.vars.dev, s.shared.mem⟩ = .ok work')
      (flag : work'.dev.headerProcessed = false ↔
        c.callback d.hasNext w.num_bytes_written = .complete)
      (sent : work'.dev.sent = h.payloads.take
        (((transmitPayload c).note (.device a) s h).taken (transmitPayload c))) :
      DeliveryInv c { s with loop, shared, entered := enter s.loop.pc s.shared s.entered }
        ((transmitPayload c).note (.device a) s h) := by
    have entry := Device.entry_eq (virtioNetDevice c.queueHeaderSize) c w.queue_idx d.hasNext
      w.num_bytes_written (c.addr d) d.length a.result
    obtain ⟨dev, mem, running⟩ := loopStep_called pc (by rw [entry]; exact called) action
    refine ⟨inv.handed.device rings inside action fun k later descs offered => ?_, ?_, ?_, running⟩
    · have behind := (inv.handed.taken_between rings).1
      have same := calling_keeps calling size rings inv disciplined called
        (behind.trans ((Nat.le_add_right _ _).trans (taken.symm.trans_le later))) offered
      rw [mem]
      exact congrArg (List.drop 12) (chainBytes_same same)
    · rw [dev, flag]
      exact atEnd.symm
    · rw [dev, payloads]
      exact sent
  by_cases sends : w.queue_idx = 1 ∧ c.callback d.hasNext w.num_bytes_written = .complete
  · rw [if_pos sends] at taken
    obtain ⟨transmit, completes⟩ := sends
    have last : d.hasNext = false := by
      cases more : d.hasNext with
      | false => rfl
      | true =>
          rw [more] at completes
          exact absurd completes (Config.callback_more _)
    have final := calling.terminated.last last
    have offered := calling.offered
    rw [final, transmit] at offered
    have held := inv.handed.calls.handedOver rings le_rfl offered
    obtain ⟨frame, fits, nonempty⟩ :=
      (disciplined.honoured.good _ held).frame (c := c) s.shared.mem
    have seen : s.loop.vars.dev.headerProcessed = true := by
      rw [← Bool.not_eq_false, header]
      exact nonempty
    have first := calling.completed inv.handed.calls rings
    rw [transmit] at first
    have next := inv.handed.kept _ le_rfl _
      (show (h.calls.offered 1)[(h.calls.calls 1).countP Call.completes]? = _ from first ▸ offered)
    obtain ⟨work', called, sent, flag⟩ := call_sends c.queueHeaderSize (c.addr d) a.result
      ⟨s.loop.vars.dev, s.shared.mem⟩ seen fits
    refine goes_on (by rw [completes, transmit]; exact called) (by simp [flag, completes]) ?_
    rw [sent, taken, List.take_add_one, next, ← inv.sent]
    exact congrArg (_ ++ [·]) frame.symm
  · rw [if_neg sends, Nat.add_zero] at taken
    obtain ⟨work', called, sent, flag⟩ := call_other c.queueHeaderSize (c.addr d) d.length a.result
      ⟨s.loop.vars.dev, s.shared.mem⟩ sends
    refine goes_on called ?_ ?_
    · rw [flag]
      cases callback : c.callback d.hasNext w.num_bytes_written with
      | complete | start => simp
      | data =>
          have past := Config.callback_data callback
          have begun : before ≠ [] := by
            rintro rfl
            rw [calling.count, size] at past
            exact past (by decide)
          have seen := mt header.mp begun
          simpa using seen
    · rw [sent, taken]
      exact inv.sent

theorem delivery_uncalled {a : Answer Received} {loop : Loop VirtioNet} {shared : Shared}
    (rings : RingInv num s) (inv : DeliveryInv c s h) (inside : TakesInside num s (.device a))
    (quiet : s.loop.pc.callsBack = false)
    (action : loopStep (virtioNetDevice c.queueHeaderSize) c a s.loop s.shared =
      some (loop, shared)) :
    DeliveryInv c { s with loop, shared, entered := enter s.loop.pc s.shared s.entered }
      ((transmitPayload c).note (.device a) s h) := by
  obtain ⟨dev, mem, running⟩ := loopStep_uncalled quiet action
  have calls : (h.calls.device c s.loop.pc s.shared).calls = h.calls.calls :=
    h.calls.device_quiet quiet
  have payloads : ((transmitPayload c).note (.device a) s h).payloads = h.payloads :=
    List.append_nil _
  refine ⟨inv.handed.device rings inside action fun k _ descs _ => by rw [mem], ?_, ?_, running⟩
  · rw [dev]
    exact inv.header.trans (by rw [← calls]; rfl)
  · rw [dev, payloads, inv.sent, Handed.taken, Handed.taken, ← calls]
    rfl

theorem delivery_step {s' : Rings VirtioNet} {label : RingLabel Received}
    (size : c.queueHeaderSize = 12) (rings : RingInv num s) (inv : DeliveryInv c s h)
    (disciplined : Disciplined c s label) (inside : TakesInside num s label)
    (action : (Virtio.rings (virtioNetDevice c.queueHeaderSize) c num).step label s = some s') :
    DeliveryInv c s' ((transmitPayload c).note label s h) := by
  cases label with
  | device a =>
      obtain ⟨⟨loop, shared⟩, moved, rfl⟩ := Option.map_eq_some_iff.mp action
      rcases s.loop.pc.quiet_or_process with quiet | ⟨w, l, addr, more, pc⟩
      · exact delivery_uncalled rings inv inside quiet moved
      · exact delivery_call size rings inv disciplined inside pc moved
  | driver q move =>
      obtain ⟨⟨d, vq⟩, moved, rfl⟩ := Option.map_eq_some_iff.mp action
      obtain ⟨new, -, payloads, -, calls⟩ := (transmitPayload c).note_driver Received q move s h
      refine ⟨inv.handed.driver rings disciplined.honoured.good moved, ?_, ?_, inv.running⟩
      · rw [calls]
        exact inv.header
      · have behind := (inv.handed.taken_between rings).2.2
        have taken : ((transmitPayload c).note (.driver q move : RingLabel Received) s h).taken
            (transmitPayload c) = h.taken (transmitPayload c) := by
          rw [Handed.taken, calls]
          rfl
        rw [taken, payloads, List.take_append_of_le_length behind]
        exact inv.sent
  | guest regs mem =>
      cases Option.some.inj action
      have kept := disciplined.honoured.kept regs mem rfl
      have handed := inv.handed.guest rings regs disciplined.honoured.good kept
      have payloads : ((transmitPayload c).note (.guest regs mem : RingLabel Received) s h) = h := by
        cases h
        simp [Payload.note, Payload.published, Calls.note]
      rw [payloads]
      exact ⟨handed, inv.header, inv.sent, inv.running⟩

end Steps

end

structure Delivered (s : Rings VirtioNet) (frames : List (List U8)) : Prop where
  published : frames.length = (s.drivers 1).published.length
  sent : s.loop.vars.dev.sent <+: frames
  entered : (s.entered 1).length ≤ s.loop.vars.dev.sent.length
  ahead : s.loop.vars.dev.sent.length ≤ (s.entered 1).length + 1
  idle : s.loop.pc.busy 1 = false → s.loop.vars.dev.sent.length = (s.entered 1).length
  running : ∀ f, s.loop.pc ≠ .fault f

theorem DeliveryInv.delivered {c : Config} {num : Nat → QueueNum} {s : Rings VirtioNet}
    {h : Handed (List U8)} (inv : DeliveryInv c s h) (rings : RingInv num s) :
    Delivered s h.payloads := by
  obtain ⟨entered, ahead, behind⟩ := inv.handed.taken_between rings
  have length : s.loop.vars.dev.sent.length = h.taken (transmitPayload c) := by
    rw [inv.sent]
    exact List.length_take_of_le behind
  refine ⟨inv.handed.length.trans (inv.handed.calls.queues 1).length, ?_, ?_, ?_, fun idle => ?_,
    inv.running⟩
  · rw [inv.sent]
    exact List.take_prefix _ _
  · rw [length]
    exact entered
  · rw [length]
    exact ahead
  · rw [length]
    exact inv.handed.taken_idle rings idle

theorem delivery_start {c : Config} {num : Nat → QueueNum} {s : Rings VirtioNet} {buffer : Nat → U8}
    (initial : (rings (virtioNetDevice c.queueHeaderSize) c num).init s)
    (constructed : s.loop.vars.dev = .constructed buffer) : DeliveryInv c s .none := by
  refine ⟨.empty _ (rings_init_calls initial), ?_, ?_, ?_⟩
  · rw [constructed]
    exact iff_of_true rfl fun _ _ member => absurd member (Option.not_mem_none _)
  · rw [constructed]
    rfl
  · rw [initial.1]
    exact fun _ => LoopPc.noConfusion

theorem frames_delivered (startingAddress memory : U64) (interruptNumber : Nat) (buffer : Nat → U8)
    (start s : Rings VirtioNet) (h : Handed (List U8))
    (initial : (rings (virtioNetDevice 12) (virtioNet startingAddress memory interruptNumber)
      fun _ => .max).init start)
    (constructed : start.loop.vars.dev = .constructed buffer)
    (reachable : ((rings (virtioNetDevice 12) (virtioNet startingAddress memory interruptNumber)
      fun _ => .max).startingAt start).ReachableWith .none
        (transmitPayload (virtioNet startingAddress memory interruptNumber)).note
        (Disciplined (virtioNet startingAddress memory interruptNumber)) (s, h)) :
    Delivered s h.payloads := by
  have both := ReachableWith.invariant (fun s h => RingInv (fun _ => .max) s ∧
    DeliveryInv (virtioNet startingAddress memory interruptNumber) s h) reachable ?_ ?_
  · exact both.2.delivered both.1
  · rintro s rfl
    exact ⟨rings_inv (.start initial), delivery_start initial constructed⟩
  · intro s t label h _ inv disciplined action
    have inside := takes_max s label
    exact ⟨ring_step inv.1 inside action,
      delivery_step rfl inv.1 inv.2 disciplined inside action⟩

/-! ## Two frames, with a packet in between -/

/-- The second frame is the last two bytes of the first. -/
def framesTable : Nat → Desc
  | 0 => ⟨0x1000, 12, 1, 1⟩
  | 1 => ⟨0x100c, 4, 0, 0⟩
  | 2 => ⟨0x1000, 12, 1, 3⟩
  | _ => ⟨0x100e, 2, 0, 0⟩

def firstFrame : List Desc := [framesTable 0, framesTable 1]

def secondFrame : List Desc := [framesTable 2, framesTable 3]

def packetBuffer : Desc := ⟨0x10000, 1526, 2, 0⟩

def deliveryStart : Rings VirtioNet where
  loop := ⟨.testExit, idleNet⟩
  shared := { transmitShared framesTable with
    queues := fun q =>
      ⟨if q = 0 then fun _ => packetBuffer else framesTable, ⟨0, fun _ => 0⟩, ⟨0, fun _ => ⟨0, 0⟩⟩⟩ }
  drivers _ := .fresh
  entered _ := []

/-- No guest that writes memory, and nothing handed over but the buffer and the two frames. -/
def SendsTwo (s : Rings VirtioNet) : RingLabel Received → Prop
  | .guest _ _ => False
  | _ => (∀ rx ∈ s.handedOver 0, rx = [packetBuffer]) ∧
      ∀ tx ∈ s.handedOver 1, tx = firstFrame ∨ tx = secondFrame

instance (s : Rings VirtioNet) : ∀ label, Decidable (SendsTwo s label)
  | .guest _ _ => .isFalse id
  | .device _ | .driver _ _ => inferInstanceAs (Decidable (_ ∧ _))

theorem frames_transmittable {tx : List Desc} (sent : tx = firstFrame ∨ tx = secondFrame) :
    Transmittable tx := by
  rcases sent with rfl | rfl
  · exact ⟨rfl, by decide⟩
  · exact ⟨rfl, by decide⟩

theorem frames_apart {tx : List Desc} (sent : tx = firstFrame ∨ tx = secondFrame) :
    ∀ e ∈ tx, Apart ((virtioNet 0 0 32).addr packetBuffer) receiveRoom
      ((virtioNet 0 0 32).addr e) e.len.toNat := by
  have below : ∀ e ∈ firstFrame ++ secondFrame, ((virtioNet 0 0 32).addr e).toNat + e.len.toNat ≤
      ((virtioNet 0 0 32).addr packetBuffer).toNat := by decide
  intro e member
  apply Apart.symm
  apply apart_of_le
  · apply below
    rcases sent with rfl | rfl
    · exact List.mem_append_left _ member
    · exact List.mem_append_right _ member
  · decide

theorem SendsTwo.disciplined {s : Rings VirtioNet} {label : RingLabel Received}
    (sends : SendsTwo s label) : Disciplined (virtioNet 0 0 32) s label := by
  cases label with
  | guest regs mem => exact sends.elim
  | device | driver =>
      obtain ⟨posted, sent⟩ := sends
      refine ⟨⟨fun tx member => frames_transmittable (sent tx member), fun _ _ guest => by cases guest⟩,
        fun rx rx_member tx tx_member d d_member => ?_⟩
      rw [posted rx rx_member] at d_member
      cases List.mem_singleton.mp d_member
      exact frames_apart (sent tx tx_member)

def packetOf (data : List U8) (nonempty : 0 < data.length) (fits : data.length ≤ packetSize) :
    RingLabel Received := .device ⟨false, true, .packet data nonempty fits⟩

/-- The packet comes when the first frame is out and the second has been made available. -/
def sendTwo : List (RingLabel Received) :=
  [.driver 1 (.storeSlot [0, 1]), .driver 1 .storeAvailIdx] ++ List.replicate 22 (.device noPacket) ++
    [.driver 1 (.storeSlot [2, 3]), .driver 1 .storeAvailIdx, .driver 0 (.storeSlot [0]),
      .driver 0 .storeAvailIdx] ++ List.replicate 44 (packetOf [7, 8, 9] (by decide) (by decide))

abbrev sendingTwo : System (Rings VirtioNet × Handed (List U8)) (RingLabel Received) :=
  ((rings (virtioNetDevice 12) (virtioNet 0 0 32) fun _ => .max).startingAt deliveryStart).recorded
    .none (transmitPayload (virtioNet 0 0 32)).note

set_option maxRecDepth 2000 in
theorem frames_delivered_two : ∃ s h,
    sendingTwo.runUnder (fun s => SendsTwo s.1) sendTwo (deliveryStart, .none) = some (s, h) ∧
    s.loop.vars.dev.sent = [[0xde, 0xad, 0xbe, 0xef], [0xbe, 0xef]] ∧ s.shared.mem 0x1000c = 7 ∧
    Delivered s h.payloads := by
  have run : ∃ s h,
      sendingTwo.runUnder (fun s => SendsTwo s.1) sendTwo (deliveryStart, .none) = some (s, h) ∧
      s.loop.vars.dev.sent = [[0xde, 0xad, 0xbe, 0xef], [0xbe, 0xef]] ∧ s.shared.mem 0x1000c = 7 :=
    ⟨_, _, rfl, rfl, rfl⟩
  obtain ⟨s, h, action, sent, received⟩ := run
  have start : sendingTwo.ReachableUnder (fun s => SendsTwo s.1) (deliveryStart, .none) :=
    .start ⟨rfl, rfl⟩
  have disciplined := (start.runUnder _ action).mono fun s label sends => SendsTwo.disciplined sends
  refine ⟨s, h, action, sent, received,
    frames_delivered 0 0 32 (fun _ => 0) deliveryStart s h ?_ rfl disciplined⟩
  exact ⟨rfl, fun _ => rfl, fun _ => ⟨rfl, rfl⟩, fun _ => rfl, fun _ => rfl⟩

end TtBhLinux.Network
