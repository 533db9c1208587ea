import TtBhLinux.Disk.Footprint
import TtBhLinux.Disk.Refinement
import TtBhLinux.Virtio.InFlight
import TtBhLinux.Virtio.Translation

/-!
# Requests from end to end

A driver that keeps the buffers of its requests apart, and leaves alone what it has handed over, has
a plain array with any number of requests in flight.
-/

namespace TtBhLinux.Disk
open Common System Virtio

def Request.descs (r : Request) : List Desc := [r.header, r.data, r.status]

def requestOf : List Desc → Option Request
  | [header, data, status] => some ⟨header, data, status⟩
  | _ => none

theorem requestOf_eq {descs : List Desc} {r : Request} :
    requestOf descs = some r ↔ descs = r.descs := by
  constructor
  · intro found
    match descs, found with
    | [header, data, status], rfl => rfl
  · rintro rfl
    rfl

structure Request.Sound (c : Config) (fileSize : U64) (mem : U64 → U8) (r : Request) : Prop where
  header_len : r.header.len = 16
  status_len : 1 ≤ r.status.len.toNat
  type : r.IsRead c mem ∨ reqType mem (c.addr r.header) = blkOut
  inside : r.off c mem + r.data.len.toNat ≤ fileSize.toNat
  apart : Apart (c.addr r.data) r.data.len.toNat (c.addr r.status) r.status.len.toNat

def accessOf (c : Config) (mem : U64 → U8) (descs : List Desc) : Access U8 :=
  (requestOf descs).elim (.read 0 0) fun r => r.access c mem

section
variable {c : Config} {fileSize : U64}

theorem request_calls (size : c.queueHeaderSize = 16) {r : Request} (header : r.header.len = 16)
    (terminated : Terminated r.descs) :
    chainCalls c 0 r.descs = [⟨.start, c.addr r.header, r.header.length⟩,
      ⟨.data, c.addr r.data, r.data.length⟩, ⟨.complete, c.addr r.status, r.status.length⟩] := by
  obtain ⟨first, second, last⟩ := terminated
  have start : (0 : U64) < c.queueHeaderSize := by
    rw [size]
    decide
  have past : ¬0 + r.header.length < c.queueHeaderSize := by
    rw [size, Desc.length, header]
    decide
  have final : r.status.hasNext = false := last
  simp only [Request.descs, chainCalls, Config.callback, first, second, final, start, past, if_true,
    if_false, Bool.false_eq_true]

theorem access_same {r : Request} {mem mem' : U64 → U8} (header : r.header.len = 16)
    (same : SameBuffers c r.descs mem mem') : r.access c mem' = r.access c mem := by
  have in_header : ∀ x, InRegion (c.addr r.header) 16 x → mem' x = mem x := fun x inside =>
    same r.header (by simp [Request.descs]) x (by rw [header]; exact inside)
  have type : reqType mem' (c.addr r.header) = reqType mem (c.addr r.header) :=
    loadU32_congr fun x inside => in_header x (inside.mono (by decide))
  have sector : reqSector mem' (c.addr r.header) = reqSector mem (c.addr r.header) :=
    loadU64_congr fun x inside => in_header x (inside.shift (k := 8) (by decide) (by decide))
  have data : load mem' (c.addr r.data) r.data.len.toNat =
      load mem (c.addr r.data) r.data.len.toNat :=
    load_congr (by have := r.data.len.isLt; omega) (same r.data (by simp [Request.descs]))
  have off : r.off c mem' = r.off c mem := congrArg (512 * BitVec.toNat ·) sector
  have read : r.IsRead c mem' ↔ r.IsRead c mem := by
    unfold Request.IsRead
    rw [type]
  by_cases reads : r.IsRead c mem
  · rw [Request.access, Request.access, if_pos reads, if_pos (read.mpr reads), off]
  · rw [Request.access, Request.access, if_neg reads, if_neg (mt read.mp reads), off, data]

theorem exec_length (c : Config) (mem : U64 → U8) (r : Request) (image : Nat → U8) :
    ((r.access c mem).exec image).2.length ≤ r.data.len.toNat := by
  unfold Request.access
  split
  · exact (slice_length _ _ _).le
  · exact Nat.zero_le _

/-! ## Requests in flight -/

def blkPayload (size : c.queueHeaderSize = 16) (fileSize : U64) : Payload c (Access U8) where
  queue := 0
  good mem descs := ∃ r : Request, descs = r.descs ∧ r.Sound c fileSize mem
  read := accessOf c
  takes call := call.callback = .data
  once := by
    rintro mem _ ⟨r, rfl, sound⟩ terminated
    rw [request_calls size sound.header_len terminated]
    rfl
  reads := by
    rintro mem mem' _ ⟨r, rfl, sound⟩ same
    exact access_same sound.header_len same

structure Disciplined (size : c.queueHeaderSize = 16) (fileSize : U64) (s : Rings VirtioBlk)
    (label : RingLabel Unit) : Prop where
  honoured : (blkPayload size fileSize).Honoured s label
  apart : (s.handedOver 0).Pairwise (ChainsApart c)

def completedOf (h : Handed (Access U8)) : Nat := (h.calls.calls 0).countP Call.completes

def imageAfter (image : Nat → U8) (requests : List (Access U8)) (n : Nat) : Nat → U8 :=
  (execAll image (requests.take n)).1

theorem imageAfter_succ {image : Nat → U8} {requests : List (Access U8)} {n : Nat}
    {access : Access U8} (next : requests[n]? = some access) :
    imageAfter image requests (n + 1) = (access.exec (imageAfter image requests n)).1 := by
  rw [imageAfter, List.take_add_one, next]
  exact execAll_concat _ _ _

structure ServedInv (size : c.queueHeaderSize = 16) (fileSize : U64) (image : Nat → U8)
    (s : Rings VirtioBlk) (h : Handed (Access U8)) : Prop where
  handed : HandedInv (blkPayload size fileSize) s h
  mapped : s.loop.vars.dev.mappedData =
    imageAfter image h.payloads (h.taken (blkPayload size fileSize))
  req : ∀ call ∈ (h.calls.calls 0).getLast?, call.callback = .start →
    s.loop.vars.dev.req = call.addr
  data : ∀ k < h.taken (blkPayload size fileSize), (s.drivers 0).collected.length ≤ k →
    ∀ r : Request, (h.calls.offered 0)[k]? = some r.descs →
    ∀ off, h.payloads[k]? = some (.read off r.data.len.toNat) →
      load s.shared.mem (c.addr r.data) r.data.len.toNat =
        slice (imageAfter image h.payloads k) off r.data.len.toNat
  status : ∀ k < completedOf h, (s.drivers 0).collected.length ≤ k →
    ∀ r : Request, (h.calls.offered 0)[k]? = some r.descs → s.shared.mem (c.addr r.status) = 0
  queue : ∃ given header, LoopTracked (blkFootprint fileSize) c given header s.loop
  running : ∀ f, s.loop.pc ≠ .fault f

section Call
variable {size : c.queueHeaderSize = 16} {image : Nat → U8} {num : Nat → QueueNum}
  {s : Rings VirtioBlk} {h : Handed (Access U8)} {w : Walk} {before after : List Desc} {d : Desc}
  {mem : U64 → U8}

structure Answered (c : Config) (image : Nat → U8) (requests : List (Access U8)) (n : Nat)
    (taken completed : Nat) (mem : U64 → U8) (r : Request) : Prop where
  data : n < taken → ∀ off, requests[n]? = some (.read off r.data.len.toNat) →
    load mem (c.addr r.data) r.data.len.toNat =
      slice (imageAfter image requests n) off r.data.len.toNat
  status : n < completed → mem (c.addr r.status) = 0

structure CallFor (size : c.queueHeaderSize = 16) (fileSize : U64) (s : Rings VirtioBlk)
    (h : Handed (Access U8)) (w : Walk) (d : Desc) (r : Request) (taken completed : Nat) :
    Prop where
  offered : (h.calls.offered 0)[(s.entered 0).length]? = some r.descs
  sound : r.Sound c fileSize s.shared.mem
  queue : w.queue_idx = 0
  taken : taken = h.taken (blkPayload size fileSize) +
    if c.callback d.hasNext w.num_bytes_written = .data then 1 else 0
  completed : completed = completedOf h +
    if c.callback d.hasNext w.num_bytes_written = .complete then 1 else 0

theorem served_called {a : Answer Unit} {loop : Loop VirtioBlk} {shared : Shared} {r : Request}
    {taken completed : Nat} {work' : Work VirtioBlk} (inv : ServedInv size fileSize image s h)
    (rings : RingInv num s) (disciplined : Disciplined size fileSize s (.device a))
    (inside : TakesInside num s (.device a)) (calling : Calling c s h.calls w before d after)
    (call : CallFor size fileSize s h w d r taken completed)
    (pc : s.loop.pc = .process w d.length (c.addr d) d.hasNext)
    (called : (virtioBlkDevice fileSize).callback (c.callback d.hasNext w.num_bytes_written)
      w.queue_idx (c.addr d) d.length a.result ⟨s.loop.vars.dev, s.shared.mem⟩ = .ok work')
    (outside : ∀ x, ¬InRegion (c.addr d) d.len.toNat x → work'.mem x = s.shared.mem x)
    (untaken : taken ≤ (s.entered 0).length → work'.mem = s.shared.mem)
    (mapped : work'.dev.mappedData = imageAfter image h.payloads taken)
    (answered : Answered c image h.payloads (s.entered 0).length taken completed work'.mem r)
    (action : loopStep (virtioBlkDevice fileSize) c a s.loop s.shared = some (loop, shared)) :
    ServedInv size fileSize image
      { s with loop, shared, entered := enter s.loop.pc s.shared s.entered }
      ((blkPayload size fileSize).note (.device a) s h) := by
  have entry := Device.entry_eq (virtioBlkDevice fileSize) c w.queue_idx d.hasNext
    w.num_bytes_written (c.addr d) d.length a.result
  obtain ⟨dev, mem, running⟩ := loopStep_called pc (by rw [entry]; exact called) action
  have payloads : ((blkPayload size fileSize).note (.device a) s h).payloads = h.payloads :=
    List.append_nil _
  have offered : ((blkPayload size fileSize).note (.device a) s h).calls.offered =
      h.calls.offered := h.calls.device_offered
  have now_taken : ((blkPayload size fileSize).note (.device a) s h).taken
      (blkPayload size fileSize) = taken := by
    show ((h.calls.device c s.loop.pc s.shared).calls 0).countP _ = _
    rw [pc, Calls.device_countP, call.taken]
    simp [call.queue, Handed.taken, blkPayload]
  have now_completed : completedOf ((blkPayload size fileSize).note (.device a) s h) =
      completed := by
    show ((h.calls.device c s.loop.pc s.shared).calls 0).countP _ = _
    rw [pc, Calls.device_countP, call.completed]
    simp [call.queue, completedOf, Call.completes]
  have entered : enter s.loop.pc s.shared s.entered = s.entered := by
    rw [pc]
    rfl
  have behind : (s.entered 0).length ≤ h.taken (blkPayload size fileSize) :=
    (inv.handed.taken_between rings).1
  have completed : completedOf h = (s.entered 0).length := by
    have all := calling.completed inv.handed.calls rings
    rwa [call.queue] at all
  have others {k : Nat} (other : k ≠ (s.entered 0).length)
      (later : (s.drivers 0).collected.length ≤ k) {descs : List Desc}
      (offered : (h.calls.offered 0)[k]? = some descs) :
      SameBuffers c descs s.shared.mem work'.mem :=
    calling.others_kept inv.handed.calls rings (by rw [call.queue]; exact disciplined.apart) outside
      (by rwa [call.queue]) (by rwa [call.queue]) (by rwa [call.queue])
  have handed := inv.handed.device rings inside action fun k later descs offered => by
    rw [mem]
    by_cases own : k = (s.entered 0).length
    · rw [untaken (own ▸ now_taken ▸ later)]
    · have from_entered : (s.entered 0).length ≤ k := by
        have taken := call.taken
        have := now_taken ▸ later
        omega
      have held := inv.handed.calls.handedOver rings from_entered offered
      exact (blkPayload size fileSize).reads (disciplined.honoured.good _ held)
        (others own ((rings.queues 0).collected_le.trans from_entered) offered)
  have upto : taken ≤ (enter s.loop.pc s.shared s.entered 0).length + 1 :=
    now_taken ▸ (handed.taken_between (device_step_inv rings inside action)).2.1
  rw [entered] at upto
  refine ⟨handed, ?_, ?_, ?_, ?_, ?_, running⟩
  · rw [dev, now_taken, payloads]
    exact mapped
  · intro last member start
    have calls : ((blkPayload size fileSize).note (.device a) s h).calls.calls 0 = h.calls.calls 0 ++
        [⟨c.callback d.hasNext w.num_bytes_written, c.addr d, d.length⟩] := by
      show (h.calls.device c s.loop.pc s.shared).calls 0 = _
      rw [pc]
      simp [Calls.device, call.queue]
    rw [calls, List.getLast?_concat] at member
    cases Option.mem_some_iff.mp member
    rw [dev, blk_req called, if_pos start]
  · rw [now_taken, offered, payloads, mem]
    intro k lt later r' found off read
    by_cases own : k = (s.entered 0).length
    · subst own
      cases requestOf_eq.mpr (Option.some.inj (call.offered.symm.trans found))
      exact answered.data lt off read
    · have earlier : k < (s.entered 0).length := by omega
      have same := others own later found
      rw [load_congr (by have := r'.data.len.isLt; omega)
        (same r'.data (by simp [Request.descs]))]
      exact inv.data k (earlier.trans_le behind) later r' found off read
  · rw [now_completed, offered, mem]
    intro k lt later r' found
    by_cases own : k = (s.entered 0).length
    · subst own
      cases requestOf_eq.mpr (Option.some.inj (call.offered.symm.trans found))
      exact answered.status lt
    · have earlier : k < completedOf h := by
        have := call.completed
        split at this <;> omega
      have held := List.mem_of_getElem? (inv.handed.calls.handedOver_getElem later found)
      obtain ⟨r'', same_descs, sound⟩ := disciplined.honoured.good _ held
      cases requestOf_eq.mpr same_descs
      have status := others own later found r'.status (by simp [Request.descs]) (c.addr r'.status)
        ((inRegion_one.mpr rfl).mono sound.status_len)
      rw [status]
      exact inv.status k earlier later r' found
  · obtain ⟨given, header, tracked⟩ := inv.queue
    exact ⟨_, _, tracked.step (by rw [size]; decide) action⟩

inductive Place (c : Config) (w : Walk) (r : Request) : List Desc → Desc → Prop
  | header : c.callback r.header.hasNext w.num_bytes_written = .start → Place c w r [] r.header
  | data : c.callback r.data.hasNext w.num_bytes_written = .data →
      Place c w r [r.header] r.data
  | status : c.callback r.status.hasNext w.num_bytes_written = .complete →
      Place c w r [r.header, r.data] r.status

theorem place_of_calling {r : Request} (size : c.queueHeaderSize = 16)
    (header : r.header.len = 16) (terminated : Terminated r.descs)
    (count : w.num_bytes_written = totalLength before) (descs : before ++ d :: after = r.descs) :
    Place c w r before d := by
  have calls := request_calls size header terminated
  rcases before with _ | ⟨first, _ | ⟨second, _ | ⟨third, rest⟩⟩⟩
  · obtain ⟨rfl, -⟩ := List.cons.inj descs
    refine .header ?_
    rw [count]
    exact congrArg Call.callback (List.cons.inj calls).1
  · obtain ⟨rfl, tail⟩ := List.cons.inj descs
    obtain ⟨rfl, -⟩ := List.cons.inj tail
    refine .data ?_
    have second := congrArg Call.callback (List.cons.inj (List.cons.inj calls).2).1
    rw [count]
    simpa [totalLength] using second
  · obtain ⟨rfl, tail⟩ := List.cons.inj descs
    obtain ⟨rfl, last⟩ := List.cons.inj tail
    obtain ⟨rfl, -⟩ := List.cons.inj last
    refine .status ?_
    rw [terminated.2.2]
    rfl
  · have length := congrArg List.length descs
    simp [Request.descs] at length

/-- The payload of a request is taken in the second of the three calls. -/
theorem place_taken {r : Request} (place : Place c w r before d) (size : c.queueHeaderSize = 16)
    (header : r.header.len = 16) (terminated : Terminated r.descs) :
    (chainCalls c 0 before).countP (fun call => call.callback = .data) =
      if c.callback d.hasNext w.num_bytes_written = .complete then 1 else 0 := by
  have calls := request_calls size header terminated
  cases place with
  | header call =>
      rw [call]
      rfl
  | data call =>
      have first : c.callback r.header.hasNext 0 = .start :=
        congrArg Call.callback (List.cons.inj calls).1
      rw [call]
      simp only [chainCalls, first]
      rfl
  | status call =>
      have first : c.callback r.header.hasNext 0 = .start :=
        congrArg Call.callback (List.cons.inj calls).1
      have second : c.callback r.data.hasNext (0 + r.header.length) = .data :=
        congrArg Call.callback (List.cons.inj (List.cons.inj calls).2).1
      rw [call]
      simp only [chainCalls, first, second]
      rfl

theorem blk_start (addr len : U64) (work : Work VirtioBlk) :
    (virtioBlkDevice fileSize).callback .start 0 addr len () work =
      .ok { work with dev := { work.dev with req := addr } } := rfl

theorem blk_complete (addr len : U64) (work : Work VirtioBlk) :
    (virtioBlkDevice fileSize).callback .complete 0 addr len () work =
      .ok { work with mem := Common.store work.mem addr [0] } := rfl

theorem served_call {l addr : U64} {more : Bool} {a : Answer Unit} {loop : Loop VirtioBlk}
    {shared : Shared} (inv : ServedInv size fileSize image s h) (one : c.numQueues = 1)
    (rings : RingInv num s) (disciplined : Disciplined size fileSize s (.device a))
    (inside : TakesInside num s (.device a)) (pc : s.loop.pc = .process w l addr more)
    (action : loopStep (virtioBlkDevice fileSize) c a s.loop s.shared = some (loop, shared)) :
    ServedInv size fileSize image
      { s with loop, shared, entered := enter s.loop.pc s.shared s.entered }
      ((blkPayload size fileSize).note (.device a) s h) := by
  obtain ⟨before, d, after, calling, rfl, rfl, rfl⟩ := inv.handed.calls.calling rings pc
  have queue : w.queue_idx = 0 := by
    obtain ⟨given, header, tracked⟩ := inv.queue
    rw [LoopTracked, pc] at tracked
    have lt := tracked.1.queue
    rw [one] at lt
    exact Nat.lt_one_iff.mp lt
  have offered := calling.offered
  rw [queue] at offered
  have held := inv.handed.calls.handedOver rings le_rfl offered
  obtain ⟨r, descs, sound⟩ := disciplined.honoured.good _ held
  obtain ⟨i, chain⟩ := rings.handedOver_chain held
  rw [descs] at offered chain
  have place := place_of_calling size sound.header_len chain.terminated calling.count descs
  have taken : h.taken (blkPayload size fileSize) = (s.entered 0).length +
      if c.callback d.hasNext w.num_bytes_written = .complete then 1 else 0 := by
    have calls := calling.calls
    have behind : (s.entered 0).length ≤ (h.calls.offered 0).length :=
      (rings.queues 0).entered_le.trans_eq (inv.handed.calls.queues 0).length.symm
    rw [queue] at calls
    show (h.calls.calls 0).countP (fun call => call.callback = .data) = _
    rw [calls, List.countP_append, place_taken place size sound.header_len chain.terminated]
    exact congrArg (· + _) ((inv.handed.upTo _).trans (min_eq_left behind))
  have completed : completedOf h = (s.entered 0).length := by
    have all := calling.completed inv.handed.calls rings
    rwa [queue] at all
  cases place with
  | header call =>
      rw [call, if_neg Callback.noConfusion, Nat.add_zero] at taken
      have call_for : CallFor size fileSize s h w r.header r (s.entered 0).length
          (s.entered 0).length := by
        refine ⟨offered, sound, queue, ?_, ?_⟩
        · rw [call, if_neg Callback.noConfusion, taken, Nat.add_zero]
        · rw [call, if_neg Callback.noConfusion, completed, Nat.add_zero]
      refine served_called inv rings disciplined inside calling call_for pc
        (by rw [call, queue]; exact blk_start _ _ _) (fun _ _ => rfl) (fun _ => rfl) ?_ ?_ action
      · exact taken ▸ inv.mapped
      · exact ⟨fun lt => absurd lt (lt_irrefl _), fun lt => absurd lt (lt_irrefl _)⟩
  | data call =>
      rw [call, if_neg Callback.noConfusion, Nat.add_zero] at taken
      have call_for : CallFor size fileSize s h w r.data r ((s.entered 0).length + 1)
          (s.entered 0).length := by
        refine ⟨offered, sound, queue, ?_, ?_⟩
        · rw [call, if_pos rfl, taken]
        · rw [call, if_neg Callback.noConfusion, completed, Nat.add_zero]
      have first : c.callback r.header.hasNext 0 = .start :=
        congrArg Call.callback
          (List.cons.inj (request_calls size sound.header_len chain.terminated)).1
      have req : s.loop.vars.dev.req = c.addr r.header := by
        have calls := calling.calls
        rw [queue] at calls
        refine inv.req ⟨.start, c.addr r.header, r.header.length⟩ ?_ rfl
        simp only [calls, chainCalls, first, List.getLast?_concat, Option.mem_def]
      have request : h.payloads[(s.entered 0).length]? = some (r.access c s.shared.mem) :=
        inv.handed.kept _ taken.le _ offered
      have formed : r.WellFormed c s.shared.mem fileSize (s.shared.queues 0).desc i :=
        ⟨chain, sound.header_len, sound.status_len, sound.type, sound.inside, sound.apart⟩
      have mapped : s.loop.vars.dev.mappedData =
          imageAfter image h.payloads (s.entered 0).length := taken ▸ inv.mapped
      refine served_called inv rings disciplined inside calling call_for pc
        (by rw [call, queue]; exact processQueueData_request formed req) ?_
        (fun le => absurd le (Nat.not_succ_le_self _)) ?_ ?_ action
      · intro x outside
        exact store_outside _ _ fun written => outside (written.mono (exec_length _ _ _ _))
      · rw [imageAfter_succ request, ← mapped]
      · refine ⟨fun _ off read => ?_, fun lt => absurd lt (lt_irrefl _)⟩
        have access : r.access c s.shared.mem = .read off r.data.len.toNat :=
          Option.some.inj (request.symm.trans read)
        have stored := load_store s.shared.mem (c.addr r.data)
          (slice s.loop.vars.dev.mappedData off r.data.len.toNat)
          (by rw [slice_length]; have := r.data.len.isLt; omega)
        rw [slice_length, mapped] at stored
        simpa only [access, Access.exec, mapped] using stored
  | status call =>
      rw [call, if_pos rfl] at taken
      have call_for : CallFor size fileSize s h w r.status r ((s.entered 0).length + 1)
          ((s.entered 0).length + 1) := by
        refine ⟨offered, sound, queue, ?_, ?_⟩
        · rw [call, if_neg Callback.noConfusion, taken, Nat.add_zero]
        · rw [call, if_pos rfl, completed]
      refine served_called inv rings disciplined inside calling call_for pc
        (by rw [call, queue]; exact blk_complete _ _ _) ?_
        (fun le => absurd le (Nat.not_succ_le_self _)) ?_ ?_ action
      · exact fun x outside => store_outside _ _ fun written =>
          outside (written.mono sound.status_len)
      · exact taken ▸ inv.mapped
      · refine ⟨fun _ off read => ?_, fun _ => store_singleton _ _ _⟩
        have apart : Apart (c.addr r.status) [(0 : U8)].length (c.addr r.data) r.data.len.toNat :=
          fun x status data => sound.apart x data (status.mono sound.status_len)
        have entered : (s.drivers 0).collected.length ≤ (s.entered 0).length :=
          (rings.queues 0).collected_le
        rw [load_store_apart _ (by have := r.data.len.isLt; omega) apart]
        exact inv.data _ (by rw [taken]; exact Nat.lt_succ_self _) entered r offered off read

end Call

section Steps
variable {size : c.queueHeaderSize = 16} {image : Nat → U8} {num : Nat → QueueNum}
  {s : Rings VirtioBlk} {h : Handed (Access U8)}

theorem served_uncalled {a : Answer Unit} {loop : Loop VirtioBlk} {shared : Shared}
    (rings : RingInv num s) (inv : ServedInv size fileSize image s h)
    (inside : TakesInside num s (.device a)) (quiet : s.loop.pc.callsBack = false)
    (action : loopStep (virtioBlkDevice fileSize) c a s.loop s.shared = some (loop, shared)) :
    ServedInv size fileSize image
      { s with loop, shared, entered := enter s.loop.pc s.shared s.entered }
      ((blkPayload size fileSize).note (.device a) s h) := by
  obtain ⟨dev, mem, running⟩ := loopStep_uncalled quiet action
  have calls : (h.calls.device c s.loop.pc s.shared).calls = h.calls.calls :=
    h.calls.device_quiet quiet
  have payloads : ((blkPayload size fileSize).note (.device a) s h).payloads = h.payloads :=
    List.append_nil _
  have offered : ((blkPayload size fileSize).note (.device a) s h).calls.offered =
      h.calls.offered := h.calls.device_offered
  have taken : ((blkPayload size fileSize).note (.device a) s h).taken (blkPayload size fileSize) =
      h.taken (blkPayload size fileSize) := by
    rw [Handed.taken, Handed.taken, ← calls]
    rfl
  have completed : completedOf ((blkPayload size fileSize).note (.device a) s h) =
      completedOf h := by
    rw [completedOf, completedOf, ← calls]
    rfl
  refine ⟨inv.handed.device rings inside action fun k _ descs _ => by rw [mem], ?_, ?_, ?_, ?_, ?_,
    running⟩
  · rw [dev, taken, payloads]
    exact inv.mapped
  · rw [dev]
    exact fun call member => inv.req call (by rw [← calls]; exact member)
  · rw [taken, offered, payloads, mem]
    exact inv.data
  · rw [completed, offered, mem]
    exact inv.status
  · obtain ⟨given, header, tracked⟩ := inv.queue
    exact ⟨_, _, tracked.step (by rw [size]; decide) action⟩

theorem served_driver {q : Nat} {move : RingMove} {d : RingDriver} {vq : Virtqueue}
    (rings : RingInv num s) (inv : ServedInv size fileSize image s h)
    (good : ∀ descs ∈ s.handedOver 0, (blkPayload size fileSize).good s.shared.mem descs)
    (action : ringMove (num q).num move (s.drivers q) (s.shared.queues q) = some (d, vq)) :
    ServedInv size fileSize image { s with
      shared := { s.shared with queues := Function.update s.shared.queues q vq }
      drivers := Function.update s.drivers q d }
      ((blkPayload size fileSize).note (.driver q move : RingLabel Unit) s h) := by
  obtain ⟨new, offered, payloads, -, calls⟩ :=
    (blkPayload size fileSize).note_driver Unit q move s h
  have behind : h.taken (blkPayload size fileSize) ≤ h.payloads.length :=
    (inv.handed.taken_between rings).2.2
  have taken : ((blkPayload size fileSize).note (.driver q move : RingLabel Unit) s h).taken
      (blkPayload size fileSize) = h.taken (blkPayload size fileSize) := by
    rw [Handed.taken, calls]
    rfl
  have completed : completedOf ((blkPayload size fileSize).note
      (.driver q move : RingLabel Unit) s h) = completedOf h := by
    rw [completedOf, calls]
    rfl
  have images {n : Nat} (le : n ≤ h.payloads.length) : imageAfter image
      ((blkPayload size fileSize).note (.driver q move : RingLabel Unit) s h).payloads n =
      imageAfter image h.payloads n := by
    rw [imageAfter, payloads, List.take_append_of_le_length le]
    rfl
  have collected {k : Nat} (later : (Function.update s.drivers q d 0).collected.length ≤ k) :
      (s.drivers 0).collected.length ≤ k := (update_collected action 0).length_le.trans later
  have before {k : Nat} (lt : k < h.payloads.length) {descs : List Desc}
      (found : (((blkPayload size fileSize).note
        (.driver q move : RingLabel Unit) s h).calls.offered 0)[k]? = some descs) :
      (h.calls.offered 0)[k]? = some descs := by
    have old : k < (h.calls.offered 0).length := lt.trans_eq inv.handed.length
    have grown : ((blkPayload size fileSize).note
        (.driver q move : RingLabel Unit) s h).calls.offered 0 = h.calls.offered 0 ++ new := offered
    rwa [grown, List.getElem?_append_left old] at found
  refine ⟨inv.handed.driver rings good action, ?_, ?_, ?_, ?_, inv.queue, inv.running⟩
  · rw [taken, images behind]
    exact inv.mapped
  · rw [calls]
    exact inv.req
  · rw [taken]
    intro k lt later r found off read
    have old := lt.trans_le behind
    rw [payloads, List.getElem?_append_left old] at read
    rw [images old.le]
    exact inv.data k lt (collected later) r (before old found) off read
  · rw [completed]
    intro k lt later r found
    have entered : completedOf h ≤ h.payloads.length :=
      (inv.handed.calls.completed_between rings).2.2.trans_eq inv.handed.length.symm
    exact inv.status k lt (collected later) r (before (lt.trans_le entered) found)

theorem served_guest {regs : Regs} {mem : U64 → U8} (rings : RingInv num s)
    (inv : ServedInv size fileSize image s h)
    (honoured : (blkPayload size fileSize).Honoured s (.guest regs mem : RingLabel Unit)) :
    ServedInv size fileSize image { s with shared := { s.shared with regs, mem } } h := by
  have kept := honoured.kept regs mem rfl
  have same {k : Nat} (later : (s.drivers 0).collected.length ≤ k) {descs : List Desc}
      (found : (h.calls.offered 0)[k]? = some descs) : SameBuffers c descs s.shared.mem mem :=
    kept descs (List.mem_of_getElem? (inv.handed.calls.handedOver_getElem later found))
  refine ⟨inv.handed.guest rings regs honoured.good kept, inv.mapped, inv.req, ?_, ?_, inv.queue,
    inv.running⟩
  · intro k lt later r found off read
    rw [load_congr (by have := r.data.len.isLt; omega)
      (same later found r.data (by simp [Request.descs]))]
    exact inv.data k lt later r found off read
  · intro k lt later r found
    have held := List.mem_of_getElem? (inv.handed.calls.handedOver_getElem later found)
    obtain ⟨r', same_descs, sound⟩ := honoured.good _ held
    cases requestOf_eq.mpr same_descs
    have status := same later found r.status (by simp [Request.descs]) (c.addr r.status)
      ((inRegion_one.mpr rfl).mono sound.status_len)
    exact status.trans (inv.status k lt later r found)

theorem served_step {s' : Rings VirtioBlk} {label : RingLabel Unit} (one : c.numQueues = 1)
    (rings : RingInv num s) (inv : ServedInv size fileSize image s h)
    (disciplined : Disciplined size fileSize s label) (inside : TakesInside num s label)
    (action : (Virtio.rings (virtioBlkDevice fileSize) c num).step label s = some s') :
    ServedInv size fileSize image s' ((blkPayload size fileSize).note label s h) := by
  cases label with
  | device a =>
      obtain ⟨⟨loop, shared⟩, moved, rfl⟩ := Option.map_eq_some_iff.mp action
      rcases s.loop.pc.quiet_or_process with quiet | ⟨w, l, addr, more, pc⟩
      · exact served_uncalled rings inv inside quiet moved
      · exact served_call inv one rings disciplined inside pc moved
  | driver q move =>
      obtain ⟨⟨d, vq⟩, moved, rfl⟩ := Option.map_eq_some_iff.mp action
      exact served_driver rings inv disciplined.honoured.good moved
  | guest regs mem =>
      cases Option.some.inj action
      have payloads : ((blkPayload size fileSize).note (.guest regs mem : RingLabel Unit) s h) = h := by
        cases h
        simp [Payload.note, Payload.published, Calls.note]
      rw [payloads]
      exact served_guest rings inv disciplined.honoured

end Steps

end

structure Served (c : Config) (image : Nat → U8) (s : Rings VirtioBlk)
    (requests : List (Access U8)) : Prop where
  published : requests.length = (s.drivers 0).published.length
  mapped : ∃ n, (s.entered 0).length ≤ n ∧ n ≤ (s.entered 0).length + 1 ∧
    (s.loop.pc.busy 0 = false → n = (s.entered 0).length) ∧
    s.loop.vars.dev.mappedData = imageAfter image requests n
  answered : ∀ k < (s.entered 0).length, (s.drivers 0).collected.length ≤ k →
    ∀ chain, (s.drivers 0).published[k]? = some chain →
    ∀ r : Request, (s.shared.queues 0).descs chain = r.descs →
      s.shared.mem (c.addr r.status) = 0 ∧
      ∀ off, requests[k]? = some (.read off r.data.len.toNat) →
        load s.shared.mem (c.addr r.data) r.data.len.toNat =
          slice (imageAfter image requests k) off r.data.len.toNat
  running : ∀ f, s.loop.pc ≠ .fault f

theorem ServedInv.served {c : Config} {size : c.queueHeaderSize = 16} {fileSize : U64}
    {image : Nat → U8} {num : Nat → QueueNum} {s : Rings VirtioBlk} {h : Handed (Access U8)}
    (inv : ServedInv size fileSize image s h) (rings : RingInv num s) :
    Served c image s h.payloads := by
  obtain ⟨entered, ahead, -⟩ := inv.handed.taken_between rings
  have queue := inv.handed.calls.queues 0
  refine ⟨inv.handed.length.trans queue.length, ?_, ?_, inv.running⟩
  · exact ⟨_, entered, ahead, fun idle => inv.handed.taken_idle rings idle, inv.mapped⟩
  · intro k lt later chain published r descs
    have offered : (h.calls.offered 0)[k]? = some r.descs :=
      (queue.kept k later chain published).trans (congrArg some descs)
    have completed := (inv.handed.calls.completed_between (q := 0) rings).1
    exact ⟨inv.status k (lt.trans_le completed) later r offered,
      fun off read => inv.data k (lt.trans_le entered) later r offered off read⟩

theorem requests_served (startingAddress memory : U64) (interruptNumber : Nat) (fileSize : U64)
    (start s : Rings VirtioBlk) (h : Handed (Access U8))
    (initial : (rings (virtioBlkDevice fileSize) (virtioBlk startingAddress memory interruptNumber)
      fun _ => .max).init start)
    (reachable : ((rings (virtioBlkDevice fileSize)
      (virtioBlk startingAddress memory interruptNumber) fun _ => .max).startingAt
        start).ReachableWith .none
      (blkPayload (c := virtioBlk startingAddress memory interruptNumber) rfl fileSize).note
      (Disciplined (c := virtioBlk startingAddress memory interruptNumber) rfl fileSize) (s, h)) :
    Served (virtioBlk startingAddress memory interruptNumber) start.loop.vars.dev.mappedData s
      h.payloads := by
  have both := ReachableWith.invariant (fun s h => RingInv (fun _ => .max) s ∧
    ServedInv (c := virtioBlk startingAddress memory interruptNumber) rfl fileSize
      start.loop.vars.dev.mappedData s h) reachable ?_ ?_
  · exact both.2.served both.1
  · rintro s rfl
    refine ⟨rings_inv (.start initial), .empty _ (rings_init_calls initial), rfl, ?_, ?_, ?_, ?_, ?_⟩
    · exact fun _ member => absurd member (Option.not_mem_none _)
    · exact fun _ lt => absurd lt (Nat.not_lt_zero _)
    · exact fun _ lt => absurd lt (Nat.not_lt_zero _)
    · refine ⟨0, 0, ?_⟩
      rw [LoopTracked, initial.1]
      trivial
    · rw [initial.1]
      exact fun _ => LoopPc.noConfusion
  · intro s t label h _ inv disciplined action
    have inside := takes_max s label
    exact ⟨ring_step inv.1 inside action, served_step rfl inv.1 inv.2 disciplined inside action⟩

/-! ## A write and then a read -/

def servedStart : Rings VirtioBlk where
  loop := ⟨.testExit, fun _ => 0, 0, fun _ => 0⟩
  shared := (sectorRound 1 0).shared
  drivers _ := .fresh
  entered _ := []

/-- One request for sector 1 at a time, and memory is written between two requests only. -/
def SectorOnly (s : Rings VirtioBlk) : RingLabel Unit → Prop
  | .guest _ _ => s.handedOver 0 = []
  | _ => (s.handedOver 0).length ≤ 1 ∧ ∀ descs ∈ s.handedOver 0, descs = sectorRequest.descs ∧
      (reqType s.shared.mem 0x1000 = blkIn ∨ reqType s.shared.mem 0x1000 = blkOut) ∧
      reqSector s.shared.mem 0x1000 = 1

instance (s : Rings VirtioBlk) : ∀ label, Decidable (SectorOnly s label)
  | .guest _ _ => inferInstanceAs (Decidable (_ = _))
  | .device _ | .driver _ _ => inferInstanceAs (Decidable (_ ∧ _))

theorem sectorRequest_sound {mem : U64 → U8}
    (type : reqType mem 0x1000 = blkIn ∨ reqType mem 0x1000 = blkOut)
    (sector : reqSector mem 0x1000 = 1) : sectorRequest.Sound (virtioBlk 0 0 33) 1024 mem where
  header_len := rfl
  status_len := by decide
  type := type
  inside := by
    have off : sectorRequest.off (virtioBlk 0 0 33) mem = 512 :=
      congrArg (512 * BitVec.toNat ·) sector
    rw [off]
    decide
  apart := (sectorRequest_wellFormed (.inl rfl)).apart

theorem SectorOnly.disciplined {s : Rings VirtioBlk} {label : RingLabel Unit}
    (only : SectorOnly s label) : Disciplined (c := virtioBlk 0 0 33) rfl 1024 s label := by
  cases label with
  | guest regs mem =>
      have none : s.handedOver 0 = [] := only
      refine ⟨⟨fun _ member => ?_, fun _ _ _ _ member => ?_⟩, none ▸ List.Pairwise.nil⟩
      all_goals exact absurd (none ▸ member) List.not_mem_nil
  | device | driver =>
      obtain ⟨one, each⟩ := only
      refine ⟨⟨fun descs member => ?_, fun _ _ guest => by cases guest⟩, ?_⟩
      · obtain ⟨same, type, sector⟩ := each descs member
        exact ⟨sectorRequest, same, sectorRequest_sound type sector⟩
      · match s.handedOver 0, one with
        | [], _ => exact .nil
        | [descs], _ => exact List.pairwise_singleton _ _

def offerRequest : List (RingLabel Unit) :=
  [.driver 0 (.storeSlot [0, 1, 2]), .driver 0 .storeAvailIdx]

def readMem (x : U64) : U8 := if x = 0x1008 then 1 else 0

def writeThenRead : List (RingLabel Unit) :=
  offerRequest ++ List.replicate 29 (.device ⟨false, true, ()⟩) ++
    [.driver 0 .loadUsedIdx, .driver 0 .collect, .guest (sectorRound 0 0).shared.regs readMem] ++
    offerRequest ++ List.replicate 29 (.device ⟨false, true, ()⟩)

abbrev serving : System (Rings VirtioBlk × Handed (Access U8)) (RingLabel Unit) :=
  ((rings (virtioBlkDevice 1024) (virtioBlk 0 0 33) fun _ => .max).startingAt servedStart).recorded
    .none (blkPayload (c := virtioBlk 0 0 33) rfl 1024).note

set_option maxRecDepth 4000 in
theorem requests_served_sector : ∃ s h,
    serving.runUnder (fun s => SectorOnly s.1) writeThenRead (servedStart, .none) = some (s, h) ∧
    (s.entered 0).length = 2 ∧ s.shared.mem 0x2000 = 0xab ∧
    Served (virtioBlk 0 0 33) (fun _ => 0) s h.payloads := by
  have run : ∃ s h,
      serving.runUnder (fun s => SectorOnly s.1) writeThenRead (servedStart, .none) = some (s, h) ∧
      (s.entered 0).length = 2 ∧ s.shared.mem 0x2000 = 0xab := ⟨_, _, rfl, rfl, rfl⟩
  obtain ⟨s, h, action, entered, read⟩ := run
  have start : serving.ReachableUnder (fun s => SectorOnly s.1) (servedStart, .none) :=
    .start ⟨rfl, rfl⟩
  have disciplined := (start.runUnder _ action).mono fun s label only => SectorOnly.disciplined only
  refine ⟨s, h, action, entered, read, requests_served 0 0 33 1024 servedStart s h ?_ disciplined⟩
  exact ⟨rfl, fun _ => rfl, fun _ => ⟨rfl, rfl⟩, fun _ => rfl, fun _ => rfl⟩

end TtBhLinux.Disk
