import TtBhLinux.Network.Delivery
import TtBhLinux.Network.Receive

/-!
# Packets from end to end

A driver that posts buffers of one descriptor, with room for a header and the largest packet, finds
in them the packets that `vdeslirp_recv` has returned, in order and behind a valid header.
-/

namespace TtBhLinux.Network
open Common System Virtio

structure Arrivals where
  handed : Handed (List U8)
  received : List Received

def Arrivals.none : Arrivals := ⟨.none, []⟩

section
variable {c : Config}

variable (c) in
def receivedIn (label : RingLabel Received) (s : Rings VirtioNet) : List Received :=
  match label, s.loop.pc with
  | .device a, .process w _ _ more =>
      if w.queue_idx = 0 ∧ c.callback more w.num_bytes_written = .complete then [a.result] else []
  | _, _ => []

variable (c) in
def Arrivals.note (label : RingLabel Received) (s : Rings VirtioNet) (r : Arrivals) : Arrivals where
  handed := (transmitPayload c).note label s r.handed
  received := r.received ++ receivedIn c label s

structure Posts (c : Config) (s : Rings VirtioNet) (label : RingLabel Received) : Prop where
  transmit : Disciplined c s label
  posted : ∀ descs ∈ s.handedOver 0, ∃ d, descs = [d] ∧ receiveRoom ≤ d.len.toNat
  apart : (s.handedOver 0).Pairwise (ChainsApart c)
  kept : ∀ regs mem, label = .guest regs mem → ∀ descs ∈ s.handedOver 0,
    SameBuffers c descs s.shared.mem mem

structure InBuffer (c : Config) (mem : U64 → U8) (descs : List Desc) (result : Received) : Prop where
  header : HeaderFound (chainBytes c mem descs)
  packet : ((chainBytes c mem descs).drop 12).take result.bytes.length = result.bytes

structure ArrivalInv (c : Config) (s : Rings VirtioNet) (r : Arrivals) : Prop where
  delivery : DeliveryInv c s r.handed
  length : r.received.length = (r.handed.calls.calls 0).countP Call.completes
  found : ∀ k, (s.drivers 0).collected.length ≤ k →
    ∀ descs, (r.handed.calls.offered 0)[k]? = some descs →
    ∀ result, r.received[k]? = some result → InBuffer c s.shared.mem descs result

theorem InBuffer.same {mem mem' : U64 → U8} {descs : List Desc} {result : Received}
    (found : InBuffer c mem descs result) (same : SameBuffers c descs mem mem') :
    InBuffer c mem' descs result := by
  have bytes := chainBytes_same same
  exact ⟨bytes ▸ found.header, bytes ▸ found.packet⟩

theorem receive_found {d : Desc} {result : Received} {net : VirtioNet} {s : Shared}
    {work' : Work VirtioNet} (room : receiveRoom ≤ d.len.toNat)
    (fresh : net.headerProcessed = false)
    (called : (virtioNetDevice 12).callback .complete 0 (c.addr d) d.length result ⟨net, s.mem⟩ =
      .ok work') : InBuffer c work'.mem [d] result := by
  have header : 12 ≤ d.len.toNat := le_trans (by decide) room
  have layout := layout_single (c := c) header
  obtain ⟨mid, completed, rfl⟩ := except_map_ok called
  rw [fresh] at completed
  obtain ⟨dev, eq⟩ := complete_receive (c.addr d + 12) d.length result
    (processQueueStart 0 (c.addr d) d.length ⟨net, s.mem⟩)
  cases Except.ok.inj (eq.symm.trans completed)
  cases result with
  | nothing ret =>
      refine ⟨?_, rfl⟩
      rw [layout.bytes]
      exact (storeHeader_found s.mem (c.addr d)).append _
  | packet data nonempty fits =>
      have total : chainLength [d] = d.len.toNat := by simp [chainLength]
      have long : 12 + packetSize ≤ d.len.toNat := room
      have enough : Fits (.packet data nonempty fits) [d] :=
        ⟨nonempty, total.symm ▸ (Nat.add_le_add_left fits 12).trans long⟩
      have well : ReceivedWell c (.packet data nonempty fits) s [d] { s with
          mem := store (storeHeader s.mem (c.addr d)) (c.addr d + 12) data } :=
        layout.received enough rfl
      exact ⟨well.header enough, well.packet enough⟩

section Steps
variable {num : Nat → QueueNum} {s : Rings VirtioNet} {r : Arrivals}

theorem arrival_call {w : Walk} {l addr : U64} {more : Bool} {a : Answer Received}
    {loop : Loop VirtioNet} {shared : Shared} (size : c.queueHeaderSize = 12)
    (rings : RingInv num s) (inv : ArrivalInv c s r) (posts : Posts c s (.device a))
    (pc : s.loop.pc = .process w l addr more)
    (action : loopStep (virtioNetDevice c.queueHeaderSize) c a s.loop s.shared =
      some (loop, shared))
    (delivery : DeliveryInv c
      { s with loop, shared, entered := enter s.loop.pc s.shared s.entered }
      (r.note c (.device a) s).handed) :
    ArrivalInv c { s with loop, shared, entered := enter s.loop.pc s.shared s.entered }
      (r.note c (.device a) s) := by
  obtain ⟨before, d, after, calling, rfl, rfl, rfl⟩ := inv.delivery.handed.calls.calling rings pc
  have header := calling_header calling inv.delivery pc
  obtain ⟨work', called, mem⟩ := loopStep_process pc action delivery.running
  rw [Device.entry_eq] at called
  have offered : (r.note c (.device a) s).handed.calls.offered = r.handed.calls.offered :=
    r.handed.calls.device_offered
  have counted : ((r.note c (.device a) s).handed.calls.calls 0).countP Call.completes =
      (r.handed.calls.calls 0).countP Call.completes + if w.queue_idx = 0 ∧
        c.callback d.hasNext w.num_bytes_written = .complete then 1 else 0 := by
    show ((r.handed.calls.device c s.loop.pc s.shared).calls 0).countP Call.completes = _
    rw [pc, Calls.device_countP]
    simp [Call.completes]
  have received : (r.note c (.device a) s).received = r.received ++ if w.queue_idx = 0 ∧
      c.callback d.hasNext w.num_bytes_written = .complete then [a.result] else [] := by
    simp only [Arrivals.note, receivedIn, pc]
  by_cases receive : w.queue_idx = 0
  · have held := inv.delivery.handed.calls.handedOver rings le_rfl calling.offered
    rw [receive] at called held
    obtain ⟨own, single, room⟩ := posts.posted _ held
    obtain ⟨rfl, rfl, rfl⟩ : before = [] ∧ d = own ∧ after = [] := by
      simpa [List.append_eq_cons_iff] using single
    have completes : c.callback d.hasNext w.num_bytes_written = .complete :=
      callback_last calling.terminated
    have entered := calling.completed inv.delivery.handed.calls rings
    rw [receive, ← inv.length] at entered
    rw [completes, size] at called
    rw [if_pos ⟨receive, completes⟩] at counted received
    refine ⟨delivery, ?_, ?_⟩
    · rw [received, counted, List.length_append, inv.length]
      rfl
    · rw [received, offered]
      intro k later descs found result answer
      by_cases mine : k = r.received.length
      · subst mine
        have first := calling.offered
        rw [receive, ← entered, found] at first
        rw [Option.some.inj first]
        rw [List.getElem?_concat_length] at answer
        rw [← Option.some.inj answer, mem]
        exact receive_found room (header.mpr rfl) called
      · have lt : k < r.received.length := by
          have bound := (List.getElem?_eq_some_iff.mp answer).1
          rw [List.length_append, List.length_singleton] at bound
          omega
        rw [List.getElem?_append_left lt] at answer
        rw [mem]
        have same := calling.others_kept inv.delivery.handed.calls rings
          (by rw [receive]; exact posts.apart)
          (fun x outside => receive_writes called x fun inside => outside (inside.mono room))
          (by rw [receive, ← entered]; exact mine) (by rwa [receive]) (by rwa [receive])
        exact (inv.found k later descs found result answer).same same
  · have quiet : work'.mem = s.shared.mem := call_mem called receive
    have no_packet : ¬(w.queue_idx = 0 ∧ c.callback d.hasNext w.num_bytes_written = .complete) :=
      fun both => receive both.1
    rw [if_neg no_packet] at counted received
    rw [List.append_nil] at received
    refine ⟨delivery, ?_, ?_⟩
    · rw [received, counted]
      exact inv.length
    · rw [received, offered, mem, quiet]
      exact inv.found

theorem arrival_uncalled {a : Answer Received} {loop : Loop VirtioNet} {shared : Shared}
    (inv : ArrivalInv c s r) (quiet : s.loop.pc.callsBack = false)
    (action : loopStep (virtioNetDevice c.queueHeaderSize) c a s.loop s.shared =
      some (loop, shared))
    (delivery : DeliveryInv c
      { s with loop, shared, entered := enter s.loop.pc s.shared s.entered }
      (r.note c (.device a) s).handed) :
    ArrivalInv c { s with loop, shared, entered := enter s.loop.pc s.shared s.entered }
      (r.note c (.device a) s) := by
  have mem := (loopStep_uncalled quiet action).mem
  have received : (r.note c (.device a) s).received = r.received := by
    cases pc : s.loop.pc with
    | process w l addr more =>
        rw [pc] at quiet
        cases quiet
    | _ =>
        simp only [Arrivals.note, receivedIn, pc]
        exact List.append_nil _
  have calls : (r.note c (.device a) s).handed.calls.calls = r.handed.calls.calls :=
    r.handed.calls.device_quiet quiet
  have offered : (r.note c (.device a) s).handed.calls.offered = r.handed.calls.offered :=
    r.handed.calls.device_offered
  refine ⟨delivery, ?_, ?_⟩
  · rw [received, calls]
    exact inv.length
  · rw [received, offered, mem]
    exact inv.found

theorem arrival_driver {q : Nat} {move : RingMove} {d : RingDriver} {vq : Virtqueue}
    (rings : RingInv num s) (inv : ArrivalInv c s r)
    (action : ringMove (num q).num move (s.drivers q) (s.shared.queues q) = some (d, vq))
    (delivery : DeliveryInv c { s with
      shared := { s.shared with queues := Function.update s.shared.queues q vq }
      drivers := Function.update s.drivers q d } (r.note c (.driver q move) s).handed) :
    ArrivalInv c { s with
      shared := { s.shared with queues := Function.update s.shared.queues q vq }
      drivers := Function.update s.drivers q d } (r.note c (.driver q move) s) := by
  have received : (r.note c (.driver q move) s).received = r.received := List.append_nil _
  have calls : (r.note c (.driver q move) s).handed.calls.calls = r.handed.calls.calls :=
    r.handed.calls.driver_calls
  refine ⟨delivery, ?_, ?_⟩
  · rw [received, calls]
    exact inv.length
  · rw [received]
    intro k later descs found result answer
    have lt : k < r.received.length := (List.getElem?_eq_some_iff.mp answer).1
    have old : k < (r.handed.calls.offered 0).length :=
      (lt.trans_eq inv.length).trans_le
        (inv.delivery.handed.calls.completed_between (q := 0) rings).2.2
    have before : (r.handed.calls.offered 0)[k]? = some descs := by
      obtain ⟨new, grown⟩ :=
        r.handed.calls.driver_offered q move (s.drivers q) (s.shared.queues q) 0
      have same : r.handed.calls.offered 0 ++ new =
          (r.note c (.driver q move) s).handed.calls.offered 0 := grown
      rwa [← same, List.getElem?_append_left old] at found
    exact inv.found k ((update_collected action 0).length_le.trans later) descs before result answer

theorem arrival_step {s' : Rings VirtioNet} {label : RingLabel Received}
    (size : c.queueHeaderSize = 12) (rings : RingInv num s) (inv : ArrivalInv c s r)
    (posts : Posts c s label) (inside : TakesInside num s label)
    (action : (Virtio.rings (virtioNetDevice c.queueHeaderSize) c num).step label s = some s') :
    ArrivalInv c s' (r.note c label s) := by
  have delivery := delivery_step size rings inv.delivery posts.transmit inside action
  cases label with
  | device a =>
      obtain ⟨⟨loop, shared⟩, moved, rfl⟩ := Option.map_eq_some_iff.mp action
      rcases s.loop.pc.quiet_or_process with quiet | ⟨w, l, addr, more, pc⟩
      · exact arrival_uncalled inv quiet moved delivery
      · exact arrival_call size rings inv posts pc moved delivery
  | driver q move =>
      obtain ⟨⟨d, vq⟩, moved, rfl⟩ := Option.map_eq_some_iff.mp action
      exact arrival_driver rings inv moved delivery
  | guest regs mem =>
      cases Option.some.inj action
      have received : (r.note c (.guest regs mem) s).received = r.received := List.append_nil _
      refine ⟨delivery, ?_, ?_⟩
      · rw [received]
        exact inv.length
      · rw [received]
        intro k later descs found result answer
        have held := List.mem_of_getElem?
          (inv.delivery.handed.calls.handedOver_getElem later found)
        exact (inv.found k later descs found result answer).same (posts.kept regs mem rfl descs held)

end Steps

end

structure Arrived (c : Config) (s : Rings VirtioNet) (received : List Received) : Prop where
  entered : (s.entered 0).length ≤ received.length
  ahead : received.length ≤ (s.entered 0).length + 1
  idle : s.loop.pc.busy 0 = false → received.length = (s.entered 0).length
  found : ∀ k, (s.drivers 0).collected.length ≤ k →
    ∀ chain, (s.drivers 0).published[k]? = some chain →
    ∀ result, received[k]? = some result →
      InBuffer c s.shared.mem ((s.shared.queues 0).descs chain) result
  running : ∀ f, s.loop.pc ≠ .fault f

theorem ArrivalInv.arrived {c : Config} {num : Nat → QueueNum} {s : Rings VirtioNet} {r : Arrivals}
    (inv : ArrivalInv c s r) (rings : RingInv num s) : Arrived c s r.received := by
  have calls := inv.delivery.handed.calls
  obtain ⟨entered, ahead, -⟩ := calls.completed_between (q := 0) rings
  rw [← inv.length] at entered ahead
  refine ⟨entered, ahead, fun idle => ?_, ?_, inv.delivery.running⟩
  · exact inv.length.trans ((calls.inOrder rings 0).completed idle)
  · intro k later chain published result answer
    exact inv.found k later _ ((calls.queues 0).kept k later chain published) result answer

theorem packets_arrive (startingAddress memory : U64) (interruptNumber : Nat) (buffer : Nat → U8)
    (start s : Rings VirtioNet) (r : Arrivals)
    (initial : (rings (virtioNetDevice 12) (virtioNet startingAddress memory interruptNumber)
      fun _ => .max).init start)
    (constructed : start.loop.vars.dev = .constructed buffer)
    (reachable : ((rings (virtioNetDevice 12) (virtioNet startingAddress memory interruptNumber)
      fun _ => .max).startingAt start).ReachableWith .none
        (Arrivals.note (virtioNet startingAddress memory interruptNumber))
        (Posts (virtioNet startingAddress memory interruptNumber)) (s, r)) :
    Arrived (virtioNet startingAddress memory interruptNumber) s r.received := by
  have both := ReachableWith.invariant (fun s r => RingInv (fun _ => .max) s ∧
    ArrivalInv (virtioNet startingAddress memory interruptNumber) s r) reachable ?_ ?_
  · exact both.2.arrived both.1
  · rintro s rfl
    refine ⟨rings_inv (.start initial), delivery_start initial constructed, rfl, ?_⟩
    exact fun _ _ _ offered => by cases offered
  · intro s t label r _ inv posts action
    have inside := takes_max s label
    exact ⟨ring_step inv.1 inside action, arrival_step rfl inv.1 inv.2 posts inside action⟩

/-! ## Two packets -/

def postedTable : Nat → Desc
  | 0 => ⟨0x10000, 1526, 2, 0⟩
  | _ => ⟨0x20000, 1526, 2, 0⟩

def arrivalStart : Rings VirtioNet where
  loop := ⟨.testExit, idleNet⟩
  shared := { transmitShared splitTable with
    queues := fun _ => ⟨postedTable, ⟨0, fun _ => 0⟩, ⟨0, fun _ => ⟨0, 0⟩⟩⟩ }
  drivers _ := .fresh
  entered _ := []

/-- No guest that writes memory, no frames to send, and the two buffers posted once each. -/
def PostsTwo (s : Rings VirtioNet) : RingLabel Received → Prop
  | .guest _ _ => False
  | _ => s.handedOver 1 = [] ∧ (s.handedOver 0).Nodup ∧
      ∀ descs ∈ s.handedOver 0, descs = [postedTable 0] ∨ descs = [postedTable 1]

instance (s : Rings VirtioNet) : ∀ label, Decidable (PostsTwo s label)
  | .guest _ _ => .isFalse id
  | .device _ | .driver _ _ => inferInstanceAs (Decidable (_ ∧ _ ∧ _))

theorem posted_apart {before after : List Desc} (ne : before ≠ after)
    (first : before = [postedTable 0] ∨ before = [postedTable 1])
    (second : after = [postedTable 0] ∨ after = [postedTable 1]) :
    ChainsApart (virtioNet 0 0 32) before after := by
  have apart : Apart ((virtioNet 0 0 32).addr (postedTable 0)) 1526
      ((virtioNet 0 0 32).addr (postedTable 1)) 1526 := apart_of_le (by decide) (by decide)
  intro d d_member e e_member
  rcases first with rfl | rfl <;> rcases second with rfl | rfl
  all_goals
    cases List.mem_singleton.mp d_member
    cases List.mem_singleton.mp e_member
  · exact absurd rfl ne
  · exact apart
  · exact apart.symm
  · exact absurd rfl ne

theorem PostsTwo.posts {s : Rings VirtioNet} {label : RingLabel Received}
    (two : PostsTwo s label) : Posts (virtioNet 0 0 32) s label := by
  cases label with
  | guest regs mem => exact two.elim
  | device | driver =>
      obtain ⟨silent, once, each⟩ := two
      refine ⟨⟨⟨fun tx member => ?_, fun _ _ guest => by cases guest⟩, fun _ _ tx member => ?_⟩,
        fun descs member => ?_, ?_, fun _ _ guest => by cases guest⟩
      · exact absurd (silent ▸ member) List.not_mem_nil
      · exact absurd (silent ▸ member) List.not_mem_nil
      · rcases each descs member with rfl | rfl
        · exact ⟨_, rfl, by decide⟩
        · exact ⟨_, rfl, by decide⟩
      · exact once.imp_of_mem fun first second ne => posted_apart ne (each _ first) (each _ second)

def receiveTwo : List (RingLabel Received) :=
  [.driver 0 (.storeSlot [0]), .driver 0 .storeAvailIdx, .driver 0 (.storeSlot [1]),
    .driver 0 .storeAvailIdx] ++
    List.replicate 24 (packetOf [1, 2, 3] (by decide) (by decide)) ++
    List.replicate 24 (packetOf [4, 5] (by decide) (by decide))

abbrev arriving : System (Rings VirtioNet × Arrivals) (RingLabel Received) :=
  ((rings (virtioNetDevice 12) (virtioNet 0 0 32) fun _ => .max).startingAt arrivalStart).recorded
    .none (Arrivals.note (virtioNet 0 0 32))

theorem packets_arrive_two : ∃ s r,
    arriving.runUnder (fun s => PostsTwo s.1) receiveTwo (arrivalStart, .none) = some (s, r) ∧
    s.shared.mem 0x1000c = 1 ∧ s.shared.mem 0x2000c = 4 ∧
    Arrived (virtioNet 0 0 32) s r.received := by
  have run : ∃ s r,
      arriving.runUnder (fun s => PostsTwo s.1) receiveTwo (arrivalStart, .none) = some (s, r) ∧
      s.shared.mem 0x1000c = 1 ∧ s.shared.mem 0x2000c = 4 := ⟨_, _, rfl, rfl, rfl⟩
  obtain ⟨s, r, action, first, second⟩ := run
  have start : arriving.ReachableUnder (fun s => PostsTwo s.1) (arrivalStart, .none) :=
    .start ⟨rfl, rfl⟩
  have posts := (start.runUnder _ action).mono fun s label two => PostsTwo.posts two
  refine ⟨s, r, action, first, second,
    packets_arrive 0 0 32 (fun _ => 0) arrivalStart s r ?_ rfl posts⟩
  exact ⟨rfl, fun _ => rfl, fun _ => ⟨rfl, rfl⟩, fun _ => rfl, fun _ => rfl⟩

end TtBhLinux.Network
