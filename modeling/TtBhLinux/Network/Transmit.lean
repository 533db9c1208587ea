import TtBhLinux.Network.VirtioNet

/-!
# Transmitting a frame

The last descriptor of a transmit chain is what is sent; those before it are taken for the header.
-/

namespace TtBhLinux.Network
open Common Virtio

def chainBytes (c : Config) (mem : U64 → U8) (descs : List Desc) : List U8 :=
  descs.flatMap fun d => load mem (c.addr d) d.len.toNat

structure Carries (c : Config) (mem : U64 → U8) (descs : List Desc) (frame : List U8) : Prop where
  bytes : ∃ header : List U8, header.length = 12 ∧ chainBytes c mem descs = header ++ frame
  nonempty : 0 < frame.length
  fits : frame.length ≤ packetSize

def AgreeOn (c : Config) (descs : List Desc) (mem mem' : U64 → U8) : Prop :=
  ∀ d ∈ descs, ∀ x, InRegion (c.addr d) d.len.toNat x → mem' x = mem x

/-- Nothing outside the descriptors has any influence on what is sent. -/
def Delivers (c : Config) (fuel : Nat) (answer : Answer Received) (v : Locals VirtioNet) (s : Shared)
    (descs : List Desc) (frame : List U8) : Prop :=
  ∀ mem, AgreeOn c descs s.mem mem →
    ∃ v' s', visit (virtioNetDevice c.queueHeaderSize) c fuel 1 answer v { s with mem } =
        .ok (v', s') ∧
      v'.dev.sent = v.dev.sent ++ [frame]

def sendAddr (c : Config) (before : List Desc) (last : Desc) : U64 :=
  if before = [] then c.addr last + c.queueHeaderSize else c.addr last

section
variable {c : Config}

theorem chainBytes_length (mem : U64 → U8) (descs : List Desc) :
    (chainBytes c mem descs).length = chainLength descs := by
  simp [chainBytes, chainLength, List.length_flatMap]

theorem walkList_before {hs : U64} {result : Received} {before : List Desc} {last : Desc}
    (more : ∀ d ∈ before, d.hasNext = true) {count : U64} {work : Work VirtioNet}
    (seen : work.dev.headerProcessed = true) :
    walkList (virtioNetDevice hs) c 1 result (before ++ [last]) count work =
      walkList (virtioNetDevice hs) c 1 result [last] (count + totalLength before) work := by
  induction before generalizing count with
  | nil => simp [totalLength]
  | cons d rest ih =>
      have same : (virtioNetDevice hs).entry c 1 d.hasNext count (c.addr d) d.length result work =
          .ok work := by
        rw [more d List.mem_cons_self]
        by_cases header : count < c.queueHeaderSize
        · rw [Device.entry_start header]
          obtain ⟨⟨_, _, _⟩, _⟩ := work
          subst seen
          rfl
        · rw [Device.entry_data header]
          rfl
      have others (d : Desc) (member : d ∈ rest) : d.hasNext = true :=
        more d (List.mem_cons_of_mem _ member)
      rw [List.cons_append, walkList_cons same, ih others]
      simp [totalLength, BitVec.add_assoc]

def headerSeen (work : Work VirtioNet) : Work VirtioNet :=
  { work with dev := { work.dev with headerProcessed := true } }

theorem transmit_walk {result : Received} {before : List Desc} {last : Desc}
    (terminated : Terminated (before ++ [last])) (positive : 0 < c.queueHeaderSize)
    {work : Work VirtioNet} (idle : work.dev.headerProcessed = false) :
    walkList (virtioNetDevice c.queueHeaderSize) c 1 result (before ++ [last]) 0 work =
      (complete 1 (sendAddr c before last) last.length result (headerSeen work)).map fun work' =>
        (totalLength (before ++ [last]), headerDone work') := by
  obtain ⟨more, final⟩ := terminated_append.mp terminated
  cases before with
  | nil =>
      have count : totalLength [last] = 0 + last.length := by simp [totalLength]
      rw [List.nil_append, sendAddr, if_pos rfl, walkList_last final, count]
      show Except.map _ (processQueueComplete _ _ _ _ result work) = _
      rw [processQueueComplete, idle]
      show Except.map _ (Except.map headerDone (complete 1 _ _ result (headerSeen work))) = _
      cases complete 1 (c.addr last + c.queueHeaderSize) last.length result (headerSeen work) <;> rfl
  | cons d rest =>
      have first : (virtioNetDevice c.queueHeaderSize).entry c 1 d.hasNext 0 (c.addr d) d.length
          result work = .ok (headerSeen work) := by
        rw [more d List.mem_cons_self, Device.entry_start positive]
        rfl
      rw [sendAddr, if_neg (List.cons_ne_nil d rest), List.cons_append, walkList_cons first,
        walkList_before (fun d member => more d (List.mem_cons_of_mem _ member)) rfl,
        walkList_last final, ← List.cons_append, totalLength_append]
      show Except.map _ (Except.map headerDone (complete 1 _ _ result (headerSeen work))) = _
      have count : 0 + d.length + totalLength rest = totalLength (d :: rest) := by simp [totalLength]
      rw [count]
      cases complete 1 (c.addr last) last.length result (headerSeen work) <;> rfl

theorem complete_transmit (addr len : U64) (result : Received) (work : Work VirtioNet) :
    complete 1 addr len result work =
      if len.toNat ≤ packetSize then
        .ok ⟨{ work.dev with
            buffer := overwrite work.dev.buffer 0 (load work.mem addr len.toNat)
            sent := work.dev.sent ++ [load work.mem addr len.toNat] }, work.mem⟩
      else .error .outsideBuffer := by
  have copied := slice_overwrite work.dev.buffer 0 (load work.mem addr len.toNat)
  rw [load_length] at copied
  simp only [complete, one_ne_zero, if_false, if_true, copied]

theorem between_idle {dev : VirtioNet}
    (between : Between (virtioNetDevice c.queueHeaderSize) c
      (fun net => ∃ buffer, net = .constructed buffer) dev) : dev.headerProcessed = false := by
  refine between.post (P := fun net => net.headerProcessed = false) ?_ ?_
  · rintro _ ⟨buffer, rfl⟩
    rfl
  · intro q addr len result work work' done
    obtain ⟨_, _, rfl⟩ := except_map_ok done
    rfl

theorem Carries.length {mem : U64 → U8} {descs : List Desc} {frame : List U8}
    (carries : Carries c mem descs frame) : chainLength descs = 12 + frame.length := by
  obtain ⟨header, length, bytes⟩ := carries.bytes
  rw [← chainBytes_length (c := c) mem, bytes, List.length_append, length]

section Visit
variable {fuel : Nat} {answer : Answer Received} {v : Locals VirtioNet} {s : Shared}
  {before : List Desc} {last : Desc} {frame : List U8} (positive : 0 < c.queueHeaderSize)
  (idle : v.dev.headerProcessed = false) (available : v.processed 1 ≠ (s.queues 1).avail.idx)
  (chain : Chain (s.queues 1).desc ((s.queues 1).avail.ring (slot (v.processed 1)))
    (before ++ [last]))
  (enough : (before ++ [last]).length ≤ fuel)
include positive idle available chain enough

theorem visit_sends (fits : last.len.toNat ≤ packetSize) :
    ∃ v' s', visit (virtioNetDevice c.queueHeaderSize) c fuel 1 answer v s = .ok (v', s') ∧
      v'.dev.sent = v.dev.sent ++ [load s.mem (sendAddr c before last) last.len.toNat] := by
  have visited : visit (virtioNetDevice c.queueHeaderSize) c fuel 1 answer v s = _ :=
    visit_of_chain available rfl chain enough
  rw [transmit_walk chain.terminated positive idle, complete_transmit, Desc.length_toNat,
    if_pos fits] at visited
  exact ⟨_, _, visited, rfl⟩

theorem sends_of_visit {v' : Locals VirtioNet} {s' : Shared}
    (visited : visit (virtioNetDevice c.queueHeaderSize) c fuel 1 answer v s = .ok (v', s')) :
    v'.dev.sent = v.dev.sent ++ [load s.mem (sendAddr c before last) last.len.toNat] := by
  rw [visit_of_chain available rfl chain enough, transmit_walk chain.terminated positive idle,
    complete_transmit, Desc.length_toNat] at visited
  split at visited
  · cases Except.ok.inj visited
    rfl
  · cases visited

theorem Delivers.layout (carries : Carries c s.mem (before ++ [last]) frame)
    (delivers : Delivers c fuel answer v s (before ++ [last]) frame) : chainLength before = 12 := by
  obtain ⟨v', s', visited, sent⟩ := delivers s.mem fun _ _ _ _ => rfl
  rw [sends_of_visit positive idle available chain enough visited] at sent
  have same := List.append_cancel_left sent
  have length := congrArg List.length (List.singleton_inj.mp same)
  have total := carries.length
  rw [load_length] at length
  rw [chainLength_append] at total
  omega

theorem delivers_of_layout (carries : Carries c s.mem (before ++ [last]) frame)
    (layout : chainLength before = 12) : Delivers c fuel answer v s (before ++ [last]) frame := by
  intro mem agree
  have total := carries.length
  rw [chainLength_append, layout] at total
  have length : last.len.toNat = frame.length := by omega
  have nonempty : before ≠ [] := by
    rintro rfl
    cases layout
  obtain ⟨v', s', visited, sent⟩ := visit_sends (s := { s with mem }) positive idle available chain
    enough (length ▸ carries.fits)
  refine ⟨v', s', visited, sent.trans ?_⟩
  have copied : load mem (c.addr last) last.len.toNat = load s.mem (c.addr last) last.len.toNat :=
    load_congr (by have := last.len.isLt; omega) (agree last (by simp))
  have frame_eq : load s.mem (c.addr last) last.len.toNat = frame := by
    obtain ⟨header, header_length, bytes⟩ := carries.bytes
    have split : chainBytes c s.mem before ++ load s.mem (c.addr last) last.len.toNat =
        header ++ frame := by
      rw [← bytes]
      simp [chainBytes]
    exact List.append_inj_right split (by rw [chainBytes_length, layout, header_length])
  rw [sendAddr, if_neg nonempty, copied, frame_eq]

end Visit
end

structure Offers (c : Config) (fuel : Nat) (v : Locals VirtioNet) (s : Shared)
    (descs : List Desc) : Prop where
  between : Between (virtioNetDevice c.queueHeaderSize) c
    (fun net => ∃ buffer, net = .constructed buffer) v.dev
  available : v.processed 1 ≠ (s.queues 1).avail.idx
  chain : Chain (s.queues 1).desc ((s.queues 1).avail.ring (slot (v.processed 1))) descs
  enough : descs.length ≤ fuel

/-- A frame is delivered exactly if the descriptors before the last one hold 12 bytes. -/
theorem transmit_delivers_iff (startingAddress memory : U64) (interruptNumber fuel : Nat)
    (answer : Answer Received) (v : Locals VirtioNet) (s : Shared) (descs : List Desc)
    (frame : List U8)
    (offers : Offers (virtioNet startingAddress memory interruptNumber) fuel v s descs)
    (carries : Carries (virtioNet startingAddress memory interruptNumber) s.mem descs frame) :
    Delivers (virtioNet startingAddress memory interruptNumber) fuel answer v s descs frame ↔
      chainLength descs.dropLast = 12 := by
  obtain ⟨between, available, chain, enough⟩ := offers
  obtain ⟨before, last, rfl⟩ : ∃ before last, descs = before ++ [last] := by
    rcases List.eq_nil_or_concat descs with rfl | ⟨before, last, rfl⟩
    · exact absurd chain.terminated id
    · exact ⟨before, last, by simp⟩
  have positive : 0 < (virtioNet startingAddress memory interruptNumber).queueHeaderSize := by
    show (0 : U64) < 12
    decide
  rw [List.dropLast_concat]
  exact ⟨Delivers.layout positive (between_idle between) available chain enough carries,
    delivers_of_layout positive (between_idle between) available chain enough carries⟩

/-! ## A frame of four bytes in two layouts -/

def frameMem (x : U64) : U8 :=
  if x = 0x100c then 0xde else if x = 0x100d then 0xad else if x = 0x100e then 0xbe
  else if x = 0x100f then 0xef else 0

def splitTable : Nat → Desc
  | 0 => ⟨0x1000, 12, 1, 1⟩
  | _ => ⟨0x100c, 4, 0, 0⟩

def joinedTable : Nat → Desc := fun _ => ⟨0x1000, 16, 0, 0⟩

def transmitShared (table : Nat → Desc) : Shared where
  regs := .constructed (virtioNet 0 0 32)
  interruptRegister := 0
  queues _ := ⟨table, ⟨1, fun _ => 0⟩, ⟨0, fun _ => ⟨0, 0⟩⟩⟩
  mem := frameMem

def idleNet : Locals VirtioNet := ⟨fun _ => 0, .constructed fun _ => 0⟩

theorem split_offers :
    Offers (virtioNet 0 0 32) 2 idleNet (transmitShared splitTable) [splitTable 0, splitTable 1] where
  between := .constructed ⟨_, rfl⟩
  available := by decide
  chain := .next (i := 0) (by decide) (.last (i := 1) (by decide))
  enough := by decide

theorem joined_offers :
    Offers (virtioNet 0 0 32) 1 idleNet (transmitShared joinedTable) [joinedTable 0] where
  between := .constructed ⟨_, rfl⟩
  available := by decide
  chain := .last (i := 0) (by decide)
  enough := by decide

theorem split_carries : Carries (virtioNet 0 0 32) frameMem [splitTable 0, splitTable 1]
    [0xde, 0xad, 0xbe, 0xef] :=
  ⟨⟨List.replicate 12 0, by decide, by decide⟩, by decide, by decide⟩

theorem joined_carries : Carries (virtioNet 0 0 32) frameMem [joinedTable 0]
    [0xde, 0xad, 0xbe, 0xef] :=
  ⟨⟨List.replicate 12 0, by decide, by decide⟩, by decide, by decide⟩

def noPacket : Answer Received := ⟨false, true, .nothing 0⟩

theorem transmit_delivers_split :
    Delivers (virtioNet 0 0 32) 2 noPacket idleNet (transmitShared splitTable)
      [splitTable 0, splitTable 1] [0xde, 0xad, 0xbe, 0xef] :=
  (transmit_delivers_iff 0 0 32 2 noPacket idleNet (transmitShared splitTable) _ _ split_offers
    split_carries).mpr (by decide)

theorem transmit_joined_fails :
    ¬∀ (fuel : Nat) (answer : Answer Received) (v : Locals VirtioNet) (s : Shared)
      (descs : List Desc) (frame : List U8), Offers (virtioNet 0 0 32) fuel v s descs →
      Carries (virtioNet 0 0 32) s.mem descs frame →
      Delivers (virtioNet 0 0 32) fuel answer v s descs frame := by
  intro delivers
  have joined := delivers 1 noPacket idleNet (transmitShared joinedTable) _ _ joined_offers
    joined_carries
  have layout : chainLength [] = 12 :=
    joined.layout (by decide) (between_idle joined_offers.between) joined_offers.available
      joined_offers.chain joined_offers.enough joined_carries
  exact absurd layout (by decide)

end TtBhLinux.Network
